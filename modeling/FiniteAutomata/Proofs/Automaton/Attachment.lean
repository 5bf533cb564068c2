import FiniteAutomata.Automaton.Rational
import FiniteAutomata.Proofs.Automaton.Edits
import FiniteAutomata.Proofs.Automaton.Runs

/-!
An automaton with a copy of another one attached. If no state has the name of a copy, the copies come last, in the
order of their states, and their ids follow those that are there (`Attachable.snd_eq`, `Attachable.fst_eq`).
Transitions lead from the exits into the copy and never back, so a word that leads into the copy falls into two: a
word that leads to an exit, and one that leads on from a start state in the automaton that was copied
(`Attachable.leads_into_copy_iff`).
-/

namespace FiniteAutomata

theorem Transition.mem_emptyMoves_iff {S T : StateSet} {t : Transition} :
    t ∈ emptyMoves S T ↔ t.source ∈ S ∧ t.label = .epsilon ∧ t.target ∈ T := by
  obtain ⟨i, l, j⟩ := t
  simp only [emptyMoves, List.mem_flatMap, List.mem_map, StateSet.mem_toList, Transition.mk.injEq]
  constructor
  · rintro ⟨i, hi, j, hj, rfl, rfl, rfl⟩
    exact ⟨hi, rfl, hj⟩
  · rintro ⟨hi, rfl, hj⟩
    exact ⟨i, hi, j, hj, rfl, rfl, rfl⟩

namespace Automaton

/-- Both automata are well formed, the exits are states of the first, and no state of it has the name of a copy. -/
structure Attachable (A : Automaton) (exits : StateSet) (tag : String) (B : Automaton) : Prop where
  left : A.WellFormed
  right : B.WellFormed
  exits_lt : ∀ i ∈ exits, i < A.numStates
  names_new : ∀ q ∈ B.states, q.tagged tag ∉ A.states

/-- The transitions that come with the copy. -/
def attachMoves (A : Automaton) (exits : StateSet) (tag : String) (B : Automaton) : List Transition :=
  B.table.edges.map (.map (A.attach exits tag B).1) ++
    Transition.emptyMoves exits (B.starts.map (A.attach exits tag B).1)

namespace Attachable

variable {A B : Automaton} {exits : StateSet} {tag : String} {t : Transition} {i j m : Nat} {w : List Symbol}
variable (h : Attachable A exits tag B)
include h

/-! ### Ids of copies -/

theorem addStates_eq : (A.addSymbols B.symbols).addStates (B.states.map (.tagged tag)) =
    (List.range' A.numStates B.numStates, { A with
      states := A.states ++ B.states.map (.tagged tag)
      symbols := Symbol.join A.symbols B.symbols }) := by
  have hnodup : (B.states.map (State.tagged tag)).Nodup :=
    List.Pairwise.map _ (fun _ _ hne he => hne (State.tagged_inj he)) h.right.states_nodup
  have hnew : ∀ q ∈ B.states.map (State.tagged tag), q ∉ (A.addSymbols B.symbols).states := by
    rw [addSymbols_eq h.right.symbols_nodup]
    exact List.forall_mem_map.mpr h.names_new
  rw [Automaton.addStates_eq hnodup hnew, addSymbols_eq h.right.symbols_nodup, List.length_map]
  rfl

/-- The ids of the copies follow those that are there. -/
theorem fst_eq (hi : i < B.numStates) : (A.attach exits tag B).1 i = A.numStates + i := by
  rw [attach, h.addStates_eq]
  simp [List.getD_eq_getElem?_getD, hi]

theorem mem_map_iff {S : StateSet} (hS : ∀ i ∈ S, i < B.numStates) :
    j ∈ S.map (A.attach exits tag B).1 ↔ ∃ i ∈ S, j = A.numStates + i := by
  rw [StateSet.mem_map]
  exact exists_congr fun i => and_congr_right fun hi => by rw [h.fst_eq (hS i hi), eq_comm]

/-! ### States and transitions -/

theorem mem_attachMoves_iff : t ∈ A.attachMoves exits tag B ↔
    (∃ u ∈ B.table, t.source = A.numStates + u.source ∧ t.label = u.label ∧ t.target = A.numStates + u.target) ∨
    (t.source ∈ exits ∧ t.label = .epsilon ∧ ∃ s ∈ B.starts, t.target = A.numStates + s) := by
  rw [attachMoves, List.mem_append, List.mem_map, Transition.mem_emptyMoves_iff, h.mem_map_iff h.right.starts_lt]
  refine or_congr_left (exists_congr fun u => ?_)
  rw [TransitionTable.mem_edges]
  refine and_congr_right fun hu => ?_
  obtain ⟨i, l, j⟩ := t
  rw [eq_comm, Transition.map, h.fst_eq (h.right.source_lt u hu), h.fst_eq (h.right.target_lt u hu),
    Transition.mk.injEq]

theorem mem_symbols_of_mem_attachMoves {a : Symbol} (ht : t ∈ A.attachMoves exits tag B)
    (ha : t.label = .symbol a) : a ∈ Symbol.join A.symbols B.symbols := by
  rcases h.mem_attachMoves_iff.mp ht with ⟨⟨i, l, j⟩, hu, -, hl, -⟩ | ⟨-, hl, -⟩
  · obtain rfl : l = .symbol a := hl.symm.trans ha
    exact Symbol.mem_join.mpr (Or.inr (h.right.declared i j a hu))
  · cases hl.symm.trans ha

theorem snd_eq : (A.attach exits tag B).2 = { A with
    states := A.states ++ B.states.map (.tagged tag)
    symbols := Symbol.join A.symbols B.symbols
    table := A.table.insertMany (A.attachMoves exits tag B) } := by
  have hdeclared := fun t ht a ha => h.mem_symbols_of_mem_attachMoves (t := t) (a := a) ht ha
  rw [attachMoves] at hdeclared ⊢
  rw [attach, h.addStates_eq] at hdeclared ⊢
  exact foldl_connect_eq hdeclared

theorem states_eq : (A.attach exits tag B).2.states = A.states ++ B.states.map (.tagged tag) := by
  rw [h.snd_eq]

theorem numStates_eq : (A.attach exits tag B).2.numStates = A.numStates + B.numStates := by
  rw [numStates, h.states_eq, List.length_append, List.length_map]
  rfl

theorem mem_table_iff : t ∈ (A.attach exits tag B).2.table ↔ t ∈ A.table ∨
    (∃ u ∈ B.table, t.source = A.numStates + u.source ∧ t.label = u.label ∧ t.target = A.numStates + u.target) ∨
    (t.source ∈ exits ∧ t.label = .epsilon ∧ ∃ s ∈ B.starts, t.target = A.numStates + s) := by
  rw [h.snd_eq, TransitionTable.mem_insertMany, h.mem_attachMoves_iff]

theorem wellFormed : (A.attach exits tag B).2.WellFormed := by
  have hends : ∀ t ∈ A.attachMoves exits tag B,
      t.source < (A.attach exits tag B).2.numStates ∧ t.target < (A.attach exits tag B).2.numStates := by
    intro t ht
    rw [h.numStates_eq]
    rcases h.mem_attachMoves_iff.mp ht with ⟨u, hu, hs, -, he⟩ | ⟨hs, -, s, hstart, he⟩
    · have hsource := h.right.source_lt u hu
      have htarget := h.right.target_lt u hu
      omega
    · have hsource := h.exits_lt _ hs
      have htarget := h.right.starts_lt s hstart
      omega
  have hplaced := (h.left.addSymbols B.symbols).addStates (B.states.map (.tagged tag))
  rw [h.addStates_eq] at hplaced
  rw [h.snd_eq] at hends ⊢
  exact hplaced.withTransitions hends fun t ht a ha => h.mem_symbols_of_mem_attachMoves ht ha

/-! ### Where words lead -/

theorem leads_of_leads (hij : A.Leads i w j) : (A.attach exits tag B).2.Leads i w j :=
  hij.mono fun _ ht => h.mem_table_iff.mpr (Or.inl ht)

theorem leads_copy (hij : B.Leads i w j) :
    (A.attach exits tag B).2.Leads (A.numStates + i) w (A.numStates + j) :=
  hij.map (f := (A.numStates + ·)) fun t ht => h.mem_table_iff.mpr (Or.inr (Or.inl ⟨t, ht, rfl, rfl, rfl⟩))

/-- No transition leads out of the copy. -/
theorem exists_of_leads_copy (hm : (A.attach exits tag B).2.Leads (A.numStates + i) w m) :
    ∃ j, m = A.numStates + j ∧ B.Leads i w j := by
  obtain ⟨ls, hp, rfl⟩ := hm
  generalize hk : A.numStates + i = k at hp
  induction hp generalizing i with
  | nil => exact ⟨i, hk.symm, .refl B i⟩
  | @cons k m' m l ls ht _ ih =>
    rcases h.mem_table_iff.mp ht with ht | ⟨⟨i', l', j'⟩, hu, hs, hl, he⟩ | ⟨hs, -, -⟩
    · exact absurd (hk ▸ h.left.source_lt _ ht) (Nat.not_lt_of_le (Nat.le_add_right _ i))
    · obtain rfl : i = i' := Nat.add_left_cancel (hk.trans hs)
      obtain rfl : l = l' := hl
      obtain ⟨j, rfl, hj⟩ := ih he.symm
      exact ⟨j, rfl, .cons hu hj⟩
    · exact absurd (hk ▸ h.exits_lt _ hs) (Nat.not_lt_of_le (Nat.le_add_right _ i))

/-- A word leads from what was there to what was there, or it comes into the copy, once. -/
theorem leads_cases (hi : i < A.numStates) (hm : (A.attach exits tag B).2.Leads i w m) :
    (m < A.numStates ∧ A.Leads i w m) ∨
    ∃ j, m = A.numStates + j ∧ ∃ u v, w = u ++ v ∧ (∃ k ∈ exits, A.Leads i u k) ∧ ∃ s ∈ B.starts, B.Leads s v j := by
  obtain ⟨ls, hp, rfl⟩ := hm
  induction hp with
  | nil i => exact Or.inl ⟨hi, .refl A i⟩
  | @cons i m' m l ls ht hp ih =>
    rcases h.mem_table_iff.mp ht with ht | ⟨u, -, hs, -, -⟩ | ⟨hs, hl, s, hstart, he⟩
    · rcases ih (h.left.target_lt _ ht) with ⟨hm, hrest⟩ | ⟨j, rfl, u, v, hw, ⟨k, hk, huk⟩, hv⟩
      · exact Or.inl ⟨hm, .cons ht hrest⟩
      · refine Or.inr ⟨j, rfl, Label.spelled [l] ++ u, v, ?_, ⟨k, hk, (Leads.ofTransition ht).trans huk⟩, hv⟩
        rw [List.append_assoc, ← hw]
        exact Label.spelled_append [l] ls
    · obtain rfl : i = A.numStates + u.source := hs
      exact absurd hi (Nat.not_lt_of_le (Nat.le_add_right _ _))
    · -- the path crosses here, and the copy keeps the rest of it
      obtain rfl : l = .epsilon := hl
      obtain rfl : m' = A.numStates + s := he
      obtain ⟨j, rfl, hj⟩ := h.exists_of_leads_copy ⟨ls, hp, rfl⟩
      exact Or.inr ⟨j, rfl, [], _, rfl, ⟨i, hs, .refl A i⟩, s, hstart, hj⟩

/-- Between the states that were there, words lead where they led before. -/
theorem leads_iff (hi : i < A.numStates) (hj : j < A.numStates) :
    (A.attach exits tag B).2.Leads i w j ↔ A.Leads i w j := by
  refine ⟨fun hij => ?_, h.leads_of_leads⟩
  rcases h.leads_cases hi hij with ⟨-, hij⟩ | ⟨k, rfl, -⟩
  · exact hij
  · exact absurd hj (Nat.not_lt_of_le (Nat.le_add_right _ k))

theorem leads_copy_iff :
    (A.attach exits tag B).2.Leads (A.numStates + i) w (A.numStates + j) ↔ B.Leads i w j := by
  refine ⟨fun hij => ?_, h.leads_copy⟩
  obtain ⟨k, hk, hik⟩ := h.exists_of_leads_copy hij
  exact Nat.add_left_cancel hk ▸ hik

/-- A word that leads into the copy is one that leads to an exit, and after it one that leads on from a start
state. -/
theorem leads_into_copy_iff (hi : i < A.numStates) : (A.attach exits tag B).2.Leads i w (A.numStates + j) ↔
    ∃ u v, w = u ++ v ∧ (∃ k ∈ exits, A.Leads i u k) ∧ ∃ s ∈ B.starts, B.Leads s v j := by
  constructor
  · intro hij
    rcases h.leads_cases hi hij with ⟨hlt, -⟩ | ⟨j', hj, hsplit⟩
    · exact absurd hlt (Nat.not_lt_of_le (Nat.le_add_right _ j))
    · rwa [Nat.add_left_cancel hj]
  · rintro ⟨u, v, rfl, ⟨k, hk, hik⟩, s, hs, hsj⟩
    have hcross : (⟨k, .epsilon, A.numStates + s⟩ : Transition) ∈ (A.attach exits tag B).2.table :=
      h.mem_table_iff.mpr (Or.inr (Or.inr ⟨hk, rfl, s, hs, rfl⟩))
    exact (h.leads_of_leads hik).trans ((Leads.ofTransition hcross).trans (h.leads_copy hsj))

omit h in
/-- If only the empty word leads from the one exit back to it, words lead from it into the copy as they lead from the
start states. -/
theorem leads_from_exit_iff {e : Nat} (h : Attachable A (.singleton e) tag B) (hback : ∀ u, A.Leads e u e → u = []) :
    (A.attach (.singleton e) tag B).2.Leads e w (A.numStates + j) ↔ ∃ s ∈ B.starts, B.Leads s w j := by
  have he : e ∈ StateSet.singleton e := StateSet.mem_singleton.mpr rfl
  rw [h.leads_into_copy_iff (h.exits_lt e he)]
  constructor
  · rintro ⟨u, v, rfl, ⟨k, hk, hu⟩, hv⟩
    obtain rfl := StateSet.mem_singleton.mp hk
    obtain rfl := hback u hu
    exact hv
  · exact fun hw => ⟨[], w, rfl, ⟨e, he, .refl A e⟩, hw⟩

end Attachable

end Automaton

end FiniteAutomata
