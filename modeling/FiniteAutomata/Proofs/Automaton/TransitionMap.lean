import FiniteAutomata.Automaton.TransitionMap
import FiniteAutomata.Proofs.Automaton.Built

/-!
The map of an automaton's transitions by names says what the transitions say and nothing else
(`transitionMap_shows`), in whatever order they come. A push puts one triple of names in (`Groups.push`), and no
key is made before there is a target for it (`Tidy`). Different transitions have different names, because no two states
share a name, so no target is pushed twice; and sorting a list without repetitions makes it strictly ascending.
-/

namespace FiniteAutomata.Automaton

variable {A : Automaton} {p q : State} {l : Label} {ts : List Transition}

namespace TransitionMap

variable {m : TransitionMap} {xs : List (State × Label × State)}

/-- The targets that the map holds for a source and a label. -/
def targets (m : TransitionMap) (p : State) (l : Label) : List State := (((m.get? p).getD ∅).get? l).getD []

/-- No source is kept without a label, and no label without a target. -/
structure Tidy (m : TransitionMap) : Prop where
  label : ∀ p byLabel, m.get? p = some byLabel → ∃ l qs, byLabel.get? l = some qs
  target : ∀ p byLabel l qs, m.get? p = some byLabel → byLabel.get? l = some qs → qs ≠ []

theorem targets_of_get? {byLabel : OrderedMap Label (List State)} {qs : List State} (hp : m.get? p = some byLabel)
    (hl : byLabel.get? l = some qs) : m.targets p l = qs := by
  simp only [targets, hp, hl, Option.getD_some]

theorem get?_of_mem_targets (h : q ∈ m.targets p l) :
    ∃ byLabel qs, m.get? p = some byLabel ∧ byLabel.get? l = some qs ∧ q ∈ qs := by
  unfold targets at h
  cases hp : m.get? p with
  | none =>
    rw [hp] at h
    exact absurd h List.not_mem_nil
  | some byLabel =>
    rw [hp, Option.getD_some] at h
    cases hl : byLabel.get? l with
    | none =>
      rw [hl] at h
      exact absurd h List.not_mem_nil
    | some qs =>
      rw [hl, Option.getD_some] at h
      exact ⟨byLabel, qs, rfl, hl, h⟩

/-! ### Keys -/

/-- A source is a key where it has a target. -/
theorem Tidy.isSome_get?_iff (h : m.Tidy) (p : State) : (m.get? p).isSome = true ↔ ∃ l q, q ∈ m.targets p l := by
  refine ⟨fun hp => ?_, fun ⟨l, q, hq⟩ => ?_⟩
  · obtain ⟨byLabel, hp⟩ := Option.isSome_iff_exists.mp hp
    obtain ⟨l, qs, hl⟩ := h.label p byLabel hp
    obtain ⟨q, hq⟩ := List.exists_mem_of_ne_nil qs (h.target p byLabel l qs hp hl)
    exact ⟨l, q, by rwa [targets_of_get? hp hl]⟩
  · obtain ⟨byLabel, -, hp, -⟩ := get?_of_mem_targets hq
    exact Option.isSome_of_eq_some hp

/-- A label is a key of a source where the source has a target on it. -/
theorem Tidy.isSome_get?_label_iff (h : m.Tidy) {byLabel : OrderedMap Label (List State)}
    (hp : m.get? p = some byLabel) (l : Label) : (byLabel.get? l).isSome = true ↔ ∃ q, q ∈ m.targets p l := by
  refine ⟨fun hl => ?_, fun ⟨q, hq⟩ => ?_⟩
  · obtain ⟨qs, hl⟩ := Option.isSome_iff_exists.mp hl
    rw [targets_of_get? hp hl]
    exact List.exists_mem_of_ne_nil qs (h.target p byLabel l qs hp hl)
  · obtain ⟨byLabel', qs, hp', hl, -⟩ := get?_of_mem_targets hq
    rw [hp, Option.some.injEq] at hp'
    exact Option.isSome_of_eq_some (hp' ▸ hl)

/-! ### The listing -/

theorem mem_flatten : (p, l, q) ∈ m.flatten ↔ q ∈ m.targets p l := by
  simp only [flatten, List.mem_flatMap, List.mem_map, Prod.exists, Prod.mk.injEq, ← OrderedMap.get?_eq_some_iff]
  refine ⟨fun ⟨_, byLabel, hp, _, qs, hl, _, hq, h₁, h₂, h₃⟩ => ?_, fun h => ?_⟩
  · subst h₁ h₂ h₃
    rwa [targets_of_get? hp hl]
  · obtain ⟨byLabel, qs, hp, hl, hq⟩ := get?_of_mem_targets h
    exact ⟨p, byLabel, hp, l, qs, hl, q, hq, rfl, rfl, rfl⟩

theorem flatten_nodup (h : ∀ p l, (m.targets p l).Nodup) : m.flatten.Nodup := by
  unfold flatten
  rw [List.nodup_iff_pairwise_ne, List.pairwise_flatMap]
  refine ⟨fun ⟨p, byLabel⟩ hp => ?_, m.ascending.imp fun {e e'} hlt x hx y hy he => ?_⟩
  · rw [List.pairwise_flatMap]
    refine ⟨fun ⟨l, qs⟩ hl => ?_, byLabel.ascending.imp fun {e e'} hlt x hx y hy he => ?_⟩
    · have hqs := h p l
      rw [targets_of_get? (OrderedMap.get?_eq_some_iff.mpr hp) (OrderedMap.get?_eq_some_iff.mpr hl)] at hqs
      exact List.Pairwise.map _ (fun _ _ hne he => hne (Prod.mk.inj (Prod.mk.inj he).2).2) hqs
    · -- different labels of one source
      obtain ⟨_, -, rfl⟩ := List.mem_map.mp hx
      obtain ⟨_, -, rfl⟩ := List.mem_map.mp hy
      exact ne_of_compare_lt hlt (Prod.mk.inj (Prod.mk.inj he).2).1
  · -- different sources
    obtain ⟨_, -, hx⟩ := List.mem_flatMap.mp hx
    obtain ⟨_, -, hy⟩ := List.mem_flatMap.mp hy
    obtain ⟨_, -, rfl⟩ := List.mem_map.mp hx
    obtain ⟨_, -, rfl⟩ := List.mem_map.mp hy
    exact ne_of_compare_lt hlt (Prod.mk.inj he).1

/-! ### Pushing and sorting -/

/-- The map holds the triples of the list, each once. -/
structure Groups (m : TransitionMap) (xs : List (State × Label × State)) : Prop extends m.Tidy where
  nodup : ∀ p l, (m.targets p l).Nodup
  mem_targets : ∀ p l q, q ∈ m.targets p l ↔ (p, l, q) ∈ xs

theorem Groups.empty : Groups ∅ [] where
  label _ _ := nofun
  target _ _ _ _ := nofun
  nodup _ _ := List.Pairwise.nil
  mem_targets _ _ _ := iff_of_false List.not_mem_nil List.not_mem_nil

theorem get?_push (m : TransitionMap) (p p' : State) (l : Label) (q : State) : (m.push p l q).get? p' =
    if p' = p then some (((m.get? p).getD ∅).alter l fun targets => some (targets.getD [] ++ [q])) else m.get? p' :=
  OrderedMap.get?_alter m p p' _

theorem targets_push (m : TransitionMap) (p p' : State) (l l' : Label) (q : State) :
    (m.push p l q).targets p' l' = if p' = p ∧ l' = l then m.targets p l ++ [q] else m.targets p' l' := by
  simp only [targets, get?_push]
  by_cases hp : p' = p
  · by_cases hl : l' = l
    · simp only [hp, hl, and_self, if_true, Option.getD_some, OrderedMap.get?_alter_self]
    · simp only [hp, hl, and_false, if_true, if_false, Option.getD_some, OrderedMap.get?_alter_of_ne _ _ hl]
  · simp only [hp, false_and, if_false]

theorem Tidy.push (h : m.Tidy) (p : State) (l : Label) (q : State) : (m.push p l q).Tidy where
  label p' byLabel hp' := by
    rw [get?_push] at hp'
    split at hp'
    · rw [← Option.some.inj hp']
      exact ⟨l, _, OrderedMap.get?_alter_self ..⟩
    · exact h.label p' byLabel hp'
  target p' byLabel l' qs hp' hl' := by
    rw [get?_push] at hp'
    split at hp'
    · rw [← Option.some.inj hp', OrderedMap.get?_alter] at hl'
      split at hl'
      · rw [← Option.some.inj hl']
        exact List.append_ne_nil_of_right_ne_nil _ (List.cons_ne_nil q [])
      · cases hp : m.get? p with
        | none =>
          rw [hp] at hl'
          cases hl'
        | some byLabel' =>
          rw [hp] at hl'
          exact h.target p byLabel' l' qs hp hl'
    · exact h.target p' byLabel l' qs hp' hl'

theorem Groups.push (h : m.Groups xs) (hnew : (p, l, q) ∉ xs) : (m.push p l q).Groups (xs ++ [(p, l, q)]) where
  toTidy := h.toTidy.push p l q
  nodup p' l' := by
    rw [targets_push]
    split
    · rw [List.nodup_append]
      refine ⟨h.nodup p l, List.pairwise_singleton _ q, fun r hr r' hr' he => hnew ?_⟩
      rwa [he, List.mem_singleton.mp hr', h.mem_targets] at hr
    · exact h.nodup p' l'
  mem_targets p' l' q' := by
    rw [targets_push, List.mem_append, List.mem_singleton, ← h.mem_targets]
    split
    · rename_i hkey
      obtain ⟨rfl, rfl⟩ := hkey
      simp
    · rename_i hkey
      simp only [Prod.mk.injEq]
      exact (or_iff_left fun he => hkey ⟨he.1, he.2.1⟩).symm

theorem Groups.foldl {ys : List (State × Label × State)} (h : m.Groups xs) (hnodup : (xs ++ ys).Nodup) :
    (ys.foldl (fun (m : TransitionMap) (p, l, q) => m.push p l q) m).Groups (xs ++ ys) := by
  induction ys generalizing m xs with
  | nil => rwa [List.append_nil]
  | cons y ys ih =>
    obtain ⟨p, l, q⟩ := y
    have hnew : (p, l, q) ∉ xs := fun hmem =>
      (List.nodup_append.mp hnodup).2.2 _ hmem _ List.mem_cons_self rfl
    rw [List.append_cons] at hnodup ⊢
    exact ih (h.push hnew) hnodup

theorem get?_sort (m : TransitionMap) (p : State) : m.sort.get? p = (m.get? p).map (·.mapValues State.sort) :=
  OrderedMap.get?_mapValues m _ p

theorem targets_sort (m : TransitionMap) (p : State) (l : Label) :
    m.sort.targets p l = State.sort (m.targets p l) := by
  have hnil : State.sort [] = [] := (State.sort_perm []).eq_nil
  simp only [targets, get?_sort]
  cases m.get? p with
  | none => exact hnil.symm
  | some byLabel =>
    simp only [Option.map_some, Option.getD_some, OrderedMap.get?_mapValues]
    cases byLabel.get? l with
    | none => exact hnil.symm
    | some qs => rfl

theorem Tidy.sort (h : m.Tidy) : m.sort.Tidy where
  label p byLabel hp := by
    rw [get?_sort] at hp
    obtain ⟨byLabel', hp', rfl⟩ := Option.map_eq_some_iff.mp hp
    obtain ⟨l, qs, hl⟩ := h.label p byLabel' hp'
    exact ⟨l, State.sort qs, by rw [OrderedMap.get?_mapValues, hl, Option.map_some]⟩
  target p byLabel l qs hp hl := by
    rw [get?_sort] at hp
    obtain ⟨byLabel', hp', rfl⟩ := Option.map_eq_some_iff.mp hp
    rw [OrderedMap.get?_mapValues] at hl
    obtain ⟨qs', hl', rfl⟩ := Option.map_eq_some_iff.mp hl
    intro hnil
    exact h.target p byLabel' l qs' hp' hl' (hnil ▸ State.sort_perm qs').nil_eq.symm

theorem Groups.sort (h : m.Groups xs) : m.sort.Groups xs where
  toTidy := h.toTidy.sort
  nodup p l := by
    rw [targets_sort]
    exact (State.sort_perm _).nodup_iff.mpr (h.nodup p l)
  mem_targets p l q := by
    rw [targets_sort, State.mem_sort]
    exact h.mem_targets p l q

theorem Groups.sort_ascending (h : m.Groups xs) (p : State) (l : Label) : Ascending (m.sort.targets p l) := by
  rw [targets_sort]
  exact State.sort_ascending (h.nodup p l)

/-! ### What a map says -/

/-- The map says of transitions by names what the automaton says, each transition once. -/
structure Shows (m : TransitionMap) (A : Automaton) : Prop where
  flatten_nodup : m.flatten.Nodup
  mem_flatten (p : State) (l : Label) (q : State) : (p, l, q) ∈ m.flatten ↔ (p, l, q) ∈ A.content.arcs
  length_flatten : m.flatten.length = A.numTransitions
  source (p : State) : (m.get? p).isSome = true ↔ ∃ l q, (p, l, q) ∈ A.content.arcs
  label (p : State) (byLabel : OrderedMap Label (List State)) (l : Label) : m.get? p = some byLabel →
    ((byLabel.get? l).isSome = true ↔ ∃ q, (p, l, q) ∈ A.content.arcs)
  ascending (p : State) (byLabel : OrderedMap Label (List State)) (l : Label) (qs : List State) :
    m.get? p = some byLabel → byLabel.get? l = some qs → (qs.map State.name).Pairwise (· < ·)

end TransitionMap

/-! ### Transitions by name -/

theorem namedTransitions_nodup (hA : A.WellFormed) (hts : A.table.EnumeratedBy ts) : (A.namedTransitions ts).Nodup := by
  refine List.Nodup.map_on (fun t ht u hu he => ?_) hts.nodup
  rw [hts.mem_iff] at ht hu
  obtain ⟨hs, hlabel, htarget⟩ := Prod.mk.inj he |>.imp_right Prod.mk.inj
  have hsource := state_inj hA (hA.source_lt t ht) (hA.source_lt u hu) hs
  have htarget := state_inj hA (hA.target_lt t ht) (hA.target_lt u hu) htarget
  cases t
  cases u
  cases hsource
  cases hlabel
  cases htarget
  rfl

theorem mem_namedTransitions (hA : A.WellFormed) (hts : A.table.EnumeratedBy ts) :
    (p, l, q) ∈ A.namedTransitions ts ↔ (p, l, q) ∈ A.content.arcs := by
  simp only [namedTransitions, List.mem_map, hts.mem_iff, Prod.mk.injEq]
  refine ⟨fun ⟨t, ht, hp, hl, hq⟩ => ?_, fun ⟨t, ht, hp, hl, hq⟩ => ?_⟩
  · have hs := getElem?_states (hA.source_lt t ht)
    have hd := getElem?_states (hA.target_lt t ht)
    exact ⟨t, ht, hp ▸ hs, hl, hq ▸ hd⟩
  · exact ⟨t, ht, state_of_getElem? hp, hl, state_of_getElem? hq⟩

theorem shows_transitionMapFrom (hA : A.WellFormed) (hts : A.table.EnumeratedBy ts) :
    (A.transitionMapFrom ts).Shows A := by
  have hnamed := namedTransitions_nodup hA hts
  have hpushed := TransitionMap.Groups.empty.foldl hnamed
  have hgroups : (A.transitionMapFrom ts).Groups (A.namedTransitions ts) := hpushed.sort
  have hnodup := TransitionMap.flatten_nodup hgroups.nodup
  have hmem : ∀ p l q, q ∈ (A.transitionMapFrom ts).targets p l ↔ (p, l, q) ∈ A.content.arcs := fun p l q =>
    (hgroups.mem_targets p l q).trans (mem_namedTransitions hA hts)
  refine {
    flatten_nodup := hnodup
    mem_flatten := fun p l q => TransitionMap.mem_flatten.trans (hmem p l q)
    length_flatten := ?_
    source := fun p => ?_
    label := fun p byLabel l hp => ?_
    ascending := fun p byLabel l qs hp hl => ?_ }
  · have hperm : (A.transitionMapFrom ts).flatten.Perm (A.namedTransitions ts) :=
      (List.perm_ext_iff_of_nodup hnodup hnamed).mpr fun (p, l, q) =>
        TransitionMap.mem_flatten.trans (hgroups.mem_targets p l q)
    calc (A.transitionMapFrom ts).flatten.length
      _ = (A.namedTransitions ts).length := hperm.length_eq
      _ = ts.length := List.length_map _
      _ = A.table.edges.length := (hts.perm A.table.enumeratedBy_edges).length_eq
      _ = A.numTransitions := hA.numTransitions_eq.symm
  · simp only [hgroups.isSome_get?_iff, hmem]
  · simp only [hgroups.isSome_get?_label_iff hp, hmem]
  · rw [← State.ascending_iff, ← TransitionMap.targets_of_get? hp hl]
    exact hpushed.sort_ascending p l

/-- Whatever operations made an automaton, the map of its transitions says what they say, in whatever order they come. -/
theorem transitionMap_shows (h : Built A) :
    A.transitionMap.Shows A ∧ ∀ ts, A.table.EnumeratedBy ts → (A.transitionMapFrom ts).Shows A :=
  ⟨shows_transitionMapFrom h.wellFormed A.table.enumeratedBy_edges, fun _ => shows_transitionMapFrom h.wellFormed⟩

/-- States in the opposite order of their names, and slots that lose their only target. -/
def backwards : Automaton := .ofEdits
  [.addTransition ⟨"z"⟩ (.symbol ⟨"a"⟩) ⟨"y"⟩, .addTransition ⟨"z"⟩ (.symbol ⟨"a"⟩) ⟨"x"⟩, .addEpsilon ⟨"z"⟩ ⟨"x"⟩,
    .addTransition ⟨"z"⟩ (.symbol ⟨"b"⟩) ⟨"y"⟩, .addTransition ⟨"x"⟩ (.symbol ⟨"a"⟩) ⟨"z"⟩,
    .removeTransition ⟨"z"⟩ (.symbol ⟨"b"⟩) ⟨"y"⟩, .removeTransition ⟨"x"⟩ (.symbol ⟨"a"⟩) ⟨"z"⟩]

/-- The state that lost its transition is no key. -/
theorem transitionMap_backwards :
    Built backwards ∧ backwards.table.EnumeratedBy backwards.table.edges.reverse ∧
      (backwards.transitionMapFrom backwards.table.edges.reverse).Shows backwards ∧
      backwards.transitionMap.flatten.length = 3 ∧ (backwards.transitionMap.get? ⟨"x"⟩).isSome = false := by
  have hbuilt : Built backwards := built_ofEdits _
  have hedges := backwards.table.enumeratedBy_edges.reverse
  obtain ⟨hshows, hfrom⟩ := transitionMap_shows hbuilt
  have hcount : backwards.numTransitions = 3 := by decide +kernel
  have hnone : ∀ t ∈ backwards.table.edges, backwards.states[t.source]? ≠ some ⟨"x"⟩ := by decide +kernel
  refine ⟨hbuilt, hedges, hfrom _ hedges, hshows.length_flatten.trans hcount, ?_⟩
  rw [← Bool.not_eq_true, hshows.source]
  rintro ⟨l, q, t, ht, hx, -⟩
  exact hnone t (TransitionTable.mem_edges.mpr ht) hx

end FiniteAutomata.Automaton
