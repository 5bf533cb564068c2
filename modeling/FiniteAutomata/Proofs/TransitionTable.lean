import Mathlib.Data.List.Nodup
import FiniteAutomata.TransitionTable

/-!
A table is a set of transitions: adding and removing change it by the one transition, and keep that no slot
is without targets and that the count is right (`Sound`). The count follows from the listing, in which each
transition stands once, as in every other enumeration of the table (`EnumeratedBy`).
-/

namespace FiniteAutomata.TransitionTable

variable {T T' : TransitionTable} {t u : Transition} {q : Nat} {l : Label} {S : StateSet} {ts us : List Transition}

/-! ### The listing -/

theorem edges_nodup (T : TransitionTable) : T.edges.Nodup := by
  unfold edges
  rw [List.nodup_iff_pairwise_ne, List.pairwise_flatMap]
  constructor
  · intro ⟨slot, targets⟩ _
    have hne : ∀ {i j : Nat}, i ≠ j →
        (⟨slot.source, slot.label, i⟩ : Transition) ≠ ⟨slot.source, slot.label, j⟩ :=
      fun hij he => hij (congrArg Transition.target he)
    exact List.Pairwise.map _ (fun _ _ => hne) targets.toList_nodup
  · refine T.buckets.ascending.imp ?_
    rintro ⟨⟨q, l⟩, S⟩ ⟨⟨q', l'⟩, S'⟩ hlt t ht u hu he
    obtain ⟨i, -, rfl⟩ := List.mem_map.mp ht
    obtain ⟨j, -, rfl⟩ := List.mem_map.mp hu
    have hslot : (⟨q, l⟩ : Slot) = ⟨q', l'⟩ := by
      cases he
      rfl
    exact ne_of_compare_lt hlt hslot

theorem length_edges_congr (h : ∀ u, u ∈ T' ↔ u ∈ T) : T'.edges.length = T.edges.length := by
  refine ((List.perm_ext_iff_of_nodup T'.edges_nodup T.edges_nodup).mpr fun u => ?_).length_eq
  rw [mem_edges, mem_edges, h]

theorem length_edges_succ (ht : t ∉ T) (h : ∀ u, u ∈ T' ↔ u = t ∨ u ∈ T) :
    T'.edges.length = T.edges.length + 1 := by
  have hnodup : (t :: T.edges).Nodup := List.nodup_cons.mpr ⟨mt mem_edges.mp ht, T.edges_nodup⟩
  refine ((List.perm_ext_iff_of_nodup T'.edges_nodup hnodup).mpr fun u => ?_).length_eq
  rw [mem_edges, h, List.mem_cons, mem_edges]

/-- `ts` lists the transitions of `T`, each once. -/
structure EnumeratedBy (T : TransitionTable) (ts : List Transition) : Prop where
  nodup : ts.Nodup
  mem_iff : ∀ t, t ∈ ts ↔ t ∈ T

theorem enumeratedBy_edges (T : TransitionTable) : T.EnumeratedBy T.edges := ⟨T.edges_nodup, fun _ => mem_edges⟩

theorem EnumeratedBy.perm (hts : T.EnumeratedBy ts) (hus : T.EnumeratedBy us) : ts.Perm us :=
  (List.perm_ext_iff_of_nodup hts.nodup hus.nodup).mpr fun t => (hts.mem_iff t).trans (hus.mem_iff t).symm

theorem EnumeratedBy.reverse (hts : T.EnumeratedBy ts) : T.EnumeratedBy ts.reverse :=
  ⟨List.nodup_reverse.mpr hts.nodup, fun t => List.mem_reverse.trans (hts.mem_iff t)⟩

/-! ### Adding and removing -/

theorem add_fst : (T.add t).1 = true ↔ t ∉ T := StateSet.add_fst

theorem get?_add : (T.add t).2.get? q l = if q = t.source ∧ l = t.label then
    some ((T.targets t.source t.label).insert t.target) else T.get? q l := by
  change (T.buckets.insert ⟨t.source, t.label⟩ _).get? ⟨q, l⟩ = _
  rw [OrderedMap.get?_insert]
  by_cases h : q = t.source ∧ l = t.label
  · rw [if_pos h, if_pos (by rw [h.1, h.2])]
  · rw [if_neg h, if_neg fun he => h ⟨congrArg Slot.source he, congrArg Slot.label he⟩, get?]

theorem remove_of_none (h : T.get? t.source t.label = none) : T.remove t = (false, T) := by
  rw [remove, h]

theorem get?_remove (h : T.get? t.source t.label = some S) : (T.remove t).2.get? q l =
    if q = t.source ∧ l = t.label then if (S.erase t.target).isEmpty then none else some (S.erase t.target)
    else T.get? q l := by
  rw [remove, h]
  change OrderedMap.get? (if (S.erase t.target).isEmpty then _ else _) _ = _
  by_cases hslot : q = t.source ∧ l = t.label
  · rw [if_pos hslot, hslot.1, hslot.2]
    split
    · rw [OrderedMap.get?_erase, if_pos rfl]
    · rw [OrderedMap.get?_insert, if_pos rfl]
      rfl
  · have hne : (⟨q, l⟩ : Slot) ≠ ⟨t.source, t.label⟩ := fun he =>
      hslot ⟨congrArg Slot.source he, congrArg Slot.label he⟩
    rw [if_neg hslot]
    split
    · rw [OrderedMap.get?_erase, if_neg hne, get?]
    · rw [OrderedMap.get?_insert, if_neg hne, get?]

theorem targets_remove (h : T.get? t.source t.label = some S) : (T.remove t).2.targets q l =
    if q = t.source ∧ l = t.label then S.erase t.target else T.targets q l := by
  rw [targets, get?_remove h]
  split
  · split
    · rename_i hempty
      have hnone := StateSet.isEmpty_iff.mp hempty
      exact StateSet.ext fun i => iff_of_false (StateSet.not_mem_empty i) (hnone i)
    · rfl
  · rfl

theorem not_mem_of_none (h : T.get? t.source t.label = none) : t ∉ T := by
  rw [mem_iff, targets, h]
  exact StateSet.not_mem_empty _

/-- Taking `t` out takes out `t` and nothing else. -/
theorem mem_remove : u ∈ (T.remove t).2 ↔ u ≠ t ∧ u ∈ T := by
  cases h : T.get? t.source t.label with
  | none =>
    rw [remove_of_none h]
    refine (and_iff_right_of_imp fun hu he => ?_).symm
    exact not_mem_of_none h (he ▸ hu)
  | some S =>
    rw [mem_iff, targets_remove h, mem_iff]
    obtain ⟨q, l, p⟩ := t
    obtain ⟨q', l', p'⟩ := u
    dsimp only at h ⊢
    by_cases hslot : q' = q ∧ l' = l
    · obtain ⟨rfl, rfl⟩ := hslot
      rw [if_pos ⟨rfl, rfl⟩, StateSet.mem_erase, targets, h]
      simp
    · rw [if_neg hslot]
      refine (and_iff_right fun he => hslot ?_).symm
      cases he
      exact ⟨rfl, rfl⟩

theorem remove_fst : (T.remove t).1 = true ↔ t ∈ T := by
  cases h : T.get? t.source t.label with
  | none =>
    rw [remove_of_none h]
    exact iff_of_false Bool.false_ne_true (not_mem_of_none h)
  | some S =>
    rw [remove, h, mem_iff, targets, h]
    exact StateSet.remove_fst

/-! ### Sound tables -/

/-- No slot is kept without targets, and the count is that of the transitions. -/
structure Sound (T : TransitionTable) : Prop where
  inhabited : ∀ (q : Nat) (l : Label) (S : StateSet), T.get? q l = some S → ∃ j, j ∈ S
  size_eq : T.size = T.edges.length

theorem Sound.empty : (∅ : TransitionTable).Sound := ⟨fun _ _ _ => nofun, rfl⟩

theorem Sound.add (h : T.Sound) (t : Transition) : (T.add t).2.Sound where
  inhabited q l S hS := by
    rw [get?_add] at hS
    split at hS
    · rw [← Option.some.inj hS]
      exact ⟨t.target, StateSet.mem_insert.mpr (Or.inl rfl)⟩
    · exact h.inhabited q l S hS
  size_eq := by
    have hmem : ∀ u, u ∈ (T.add t).2 ↔ u = t ∨ u ∈ T := fun u => mem_insert
    change (if (T.add t).1 then T.size + 1 else T.size) = _
    by_cases ht : t ∈ T
    · have hsame : ∀ u, u ∈ (T.add t).2 ↔ u ∈ T := fun u =>
        (hmem u).trans (or_iff_right_of_imp fun hu => hu ▸ ht)
      rw [if_neg (mt add_fst.mp (not_not_intro ht)), length_edges_congr hsame, h.size_eq]
    · rw [if_pos (add_fst.mpr ht), length_edges_succ ht hmem, h.size_eq]

theorem Sound.remove (h : T.Sound) (t : Transition) : (T.remove t).2.Sound := by
  cases hget : T.get? t.source t.label with
  | none =>
    rw [remove_of_none hget]
    exact h
  | some S =>
    refine ⟨fun q l U hU => ?_, ?_⟩
    · rw [get?_remove hget] at hU
      split at hU
      · split at hU
        · cases hU
        · rename_i hne
          rw [← Option.some.inj hU]
          exact StateSet.not_isEmpty_iff.mp hne
      · exact h.inhabited q l U hU
    · have hsize : (T.remove t).2.size = if (T.remove t).1 then T.size - 1 else T.size := by
        rw [TransitionTable.remove, hget]
      rw [hsize]
      by_cases ht : t ∈ T
      · have hback : ∀ u, u ∈ T ↔ u = t ∨ u ∈ (T.remove t).2 := fun u => by
          rw [mem_remove]
          by_cases hu : u = t
          · simp [hu, ht]
          · simp [hu]
        have hlen := length_edges_succ (fun hm => (mem_remove.mp hm).1 rfl) hback
        rw [if_pos (remove_fst.mpr ht), h.size_eq, hlen, Nat.add_sub_cancel]
      · have hsame : ∀ u, u ∈ (T.remove t).2 ↔ u ∈ T := fun u =>
          mem_remove.trans (and_iff_right_of_imp fun hu he => ht (he ▸ hu))
        rw [if_neg (mt remove_fst.mp ht), length_edges_congr hsame, h.size_eq]

theorem Sound.insertMany (h : T.Sound) (ts : List Transition) : (T.insertMany ts).Sound := by
  induction ts generalizing T with
  | nil => exact h
  | cons t ts ih => exact ih (h.add t)

/-- A slot that is kept has a target. -/
theorem Sound.hasEdge_iff (h : T.Sound) : T.hasEdge q l = true ↔ ∃ j, j ∈ T.targets q l := by
  rw [hasEdge, targets]
  cases hget : T.get? q l with
  | none => simp
  | some S => simpa using h.inhabited q l S hget

/-- What a sound table keeps for a slot is decided by the targets. -/
theorem Sound.get?_eq (h : T.Sound) :
    T.get? q l = if (T.targets q l).isEmpty then none else some (T.targets q l) := by
  rw [targets]
  cases hget : T.get? q l with
  | none => rfl
  | some S =>
    obtain ⟨j, hj⟩ := h.inhabited q l S hget
    rw [Option.getD_some, if_neg fun hempty => StateSet.isEmpty_iff.mp hempty j hj]

theorem mem_entries_of_mem_targets {j : Nat} (hj : j ∈ T.targets q l) :
    ((⟨q, l⟩ : Slot), T.targets q l) ∈ T.buckets.entries := by
  rw [← OrderedMap.get?_eq_some_iff]
  rw [targets, get?] at hj ⊢
  cases hb : T.buckets.get? ⟨q, l⟩ with
  | none =>
    rw [hb] at hj
    exact absurd hj (StateSet.not_mem_empty j)
  | some S => rfl

theorem targets_of_mem_entries {slot : Slot} (he : (slot, S) ∈ T.buckets.entries) :
    T.targets slot.source slot.label = S := by
  rw [targets, get?, OrderedMap.get?_eq_some_iff.mpr he, Option.getD_some]

/-- The slots that are kept are those with a target, so the test sees each slot that has one. -/
theorem Sound.isDeterministic_iff (h : T.Sound) : T.isDeterministic = true ↔
    (∀ i j, j ∉ T.targets i .epsilon) ∧
      ∀ i l j k, j ∈ T.targets i l → k ∈ T.targets i l → j = k := by
  rw [isDeterministic, List.all_eq_true]
  constructor
  · intro hall
    refine ⟨fun i j hj => ?_, fun i l j k hj hk => ?_⟩
    · have hslot := hall _ (mem_entries_of_mem_targets hj)
      exact absurd hslot (by simp [Label.isEpsilon, Label.symbol?])
    · have hslot := hall _ (mem_entries_of_mem_targets hj)
      rw [Bool.and_eq_true, beq_iff_eq] at hslot
      exact StateSet.size_le_one_iff.mp (Nat.le_of_eq hslot.2) j hj k hk
  · rintro ⟨hepsilon, hone⟩ ⟨slot, S⟩ he
    obtain ⟨j, hj⟩ := h.inhabited _ _ _ (OrderedMap.get?_eq_some_iff.mpr he)
    have htargets := targets_of_mem_entries he
    rw [Bool.and_eq_true, beq_iff_eq]
    constructor
    · cases hl : slot.label with
      | symbol a => rfl
      | epsilon =>
        rw [hl] at htargets
        exact absurd (htargets ▸ hj) (hepsilon slot.source j)
    · have hle : S.size ≤ 1 := StateSet.size_le_one_iff.mpr fun j hj k hk =>
        hone slot.source slot.label j k (htargets ▸ hj) (htargets ▸ hk)
      have hpos : 0 < S.size := List.length_pos_of_mem (StateSet.mem_toList.mpr hj)
      omega

/-- Sound tables with the same transitions are equal. -/
theorem Sound.ext (hT : T.Sound) (hT' : T'.Sound) (h : ∀ t, t ∈ T ↔ t ∈ T') : T = T' := by
  have hbuckets : T.buckets = T'.buckets := by
    refine OrderedMap.ext_get? fun ⟨q, l⟩ => ?_
    have htargets : T.targets q l = T'.targets q l := StateSet.ext fun i => h ⟨q, l, i⟩
    change T.get? q l = T'.get? q l
    rw [hT.get?_eq, hT'.get?_eq, htargets]
  have hsize : T.size = T'.size := by
    rw [hT.size_eq, hT'.size_eq]
    exact length_edges_congr h
  cases T
  cases T'
  cases hbuckets
  cases hsize
  rfl

end FiniteAutomata.TransitionTable
