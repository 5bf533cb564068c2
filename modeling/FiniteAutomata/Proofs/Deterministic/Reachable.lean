import FiniteAutomata.Deterministic.Refinement
import FiniteAutomata.Proofs.Automaton.Runs
import FiniteAutomata.Proofs.Deterministic.Walk

/-!
The states that take part in minimization are the dead state and those that the completed walk visits
(`mem_participants_iff`), and no step leaves them.
-/

namespace FiniteAutomata.Deterministic

variable {D : Deterministic} {i j s : Nat} {a : Symbol} {w : List Symbol}

theorem mem_successors_iff (hD : D.automaton.WellFormed) :
    j ∈ D.successors i ↔ ∃ a, D.next? i a = some j := by
  rw [successors, StateSet.mem_ofList, List.mem_filterMap]
  constructor
  · intro h'
    obtain ⟨a, -, h⟩ := h'
    exact ⟨a, h⟩
  · intro h'
    obtain ⟨a, h⟩ := h'
    exact ⟨a, mem_symbols_of_next? hD h, h⟩

theorem linked_iff_exists_after? (hD : D.automaton.WellFormed) :
    StateSet.Linked D.successors i j ↔ ∃ w, D.after? i w = some j := by
  constructor
  · intro h
    induction h with
    | refl => exact ⟨[], rfl⟩
    | tail _ hk ih =>
      obtain ⟨w, hw⟩ := ih
      obtain ⟨a, ha⟩ := (mem_successors_iff hD).mp hk
      refine ⟨w ++ [a], ?_⟩
      rw [after?] at hw ⊢
      rw [List.foldlM_append, hw]
      change (D.next? _ a).bind some = _
      rw [ha, Option.bind_some]
  · intro h'
    obtain ⟨w, hw⟩ := h'
    induction w generalizing i with
    | nil =>
      cases hw
      exact .refl _
    | cons a w ih =>
      rw [after?_cons] at hw
      obtain ⟨k, hk, hw⟩ := Option.bind_eq_some_iff.mp hw
      exact .trans (.tail (.refl i) ((mem_successors_iff hD).mpr ⟨a, hk⟩)) (ih hw)

/-- The walk is one of the paths that the word may take. -/
theorem leads_of_after? (h : D.after? i w = some j) : D.automaton.Leads i w j := by
  induction w generalizing i with
  | nil =>
    cases h
    exact .refl _ _
  | cons a w ih =>
    rw [after?_cons] at h
    obtain ⟨k, hk, hw⟩ := Option.bind_eq_some_iff.mp h
    exact Automaton.leads_cons_iff.mpr ⟨i, k, .refl _ i, mem_targets_of_next? hk, ih hw⟩

/-- What is accepted along the walk is accepted. -/
theorem accepts_automaton_of_accepts {ls : List Label} (h : D.accepts ls = true) : D.automaton.accepts ls = true := by
  obtain ⟨j, hj, hf⟩ := (Option.any_eq_true _ _).mp h
  obtain ⟨s, hs, hw⟩ := Option.bind_eq_some_iff.mp hj
  exact Automaton.accepts_iff.mpr ⟨s, StateSet.mem_of_min?_eq_some hs, j, hf, leads_of_after? hw⟩

/-- A state is reachable if the walk along some word ends in it. -/
theorem mem_reachable_iff (hD : D.automaton.WellFormed) :
    j ∈ D.reachable ↔ ∃ i w, D.start? = some i ∧ D.after? i w = some j := by
  have hactive : ∀ i j, j ∈ D.successors i → i ∈ D.automaton.table.buckets.entries.map (·.1.source) := by
    intro i j h
    obtain ⟨a, ha⟩ := (mem_successors_iff hD).mp h
    exact TransitionTable.source_mem_of_mem_targets (mem_targets_of_next? ha)
  have hrounds : (D.automaton.table.buckets.entries.map (·.1.source)).length ≤ D.automaton.table.buckets.size :=
    Nat.le_of_eq (List.length_map _)
  rw [reachable]
  cases D.start? with
  | none =>
    refine iff_of_false (StateSet.not_mem_empty j) ?_
    intro h'
    obtain ⟨i, w, h, -⟩ := h'
    cases h
  | some s =>
    rw [StateSet.mem_reach_iff hactive hrounds]
    constructor
    · intro h'
      obtain ⟨i, hi, hij⟩ := h'
      rw [StateSet.mem_singleton] at hi
      obtain ⟨w, hw⟩ := (linked_iff_exists_after? hD).mp hij
      exact ⟨s, w, rfl, hi ▸ hw⟩
    · intro h'
      obtain ⟨i, w, h, hw⟩ := h'
      rw [Option.some.injEq] at h
      exact ⟨s, StateSet.mem_singleton.mpr rfl, (linked_iff_exists_after? hD).mpr ⟨w, h ▸ hw⟩⟩

/-- With a start state, the participants are the states that walks from it end in, and the dead state. -/
theorem mem_participants_iff_after? (hD : D.automaton.WellFormed) (hs : D.start? = some s) :
    i ∈ D.participants ↔ i = D.dead ∨ ∃ w, D.after? s w = some i := by
  rw [participants, StateSet.mem_insert, mem_reachable_iff hD, hs]
  refine or_congr_right ⟨?_, fun h => ?_⟩
  · rintro ⟨_, w, ⟨⟩, hw⟩
    exact ⟨w, hw⟩
  · obtain ⟨w, hw⟩ := h
    exact ⟨s, w, rfl, hw⟩

theorem mem_participants_iff (hD : D.automaton.WellFormed) :
    i ∈ D.participants ↔ i = D.dead ∨ ∃ w, D.after D.entry w = i := by
  rw [participants, StateSet.mem_insert, mem_reachable_iff hD]
  by_cases hi : i = D.dead
  · exact iff_of_true (Or.inl hi) (Or.inl hi)
  · refine or_congr_right ?_
    constructor
    · intro h
      obtain ⟨s, w, hs, hw⟩ := h
      refine ⟨w, ?_⟩
      rw [entry, hs, Option.getD_some, after_eq hD, hw, Option.getD_some]
    · intro h
      obtain ⟨w, hw⟩ := h
      cases hs : D.start? with
      | none =>
        rw [entry, hs, Option.getD_none, after_dead] at hw
        exact absurd hw.symm hi
      | some s =>
        rw [entry, hs, Option.getD_some, after_eq hD] at hw
        cases hw' : D.after? s w with
        | none =>
          rw [hw', Option.getD_none] at hw
          exact absurd hw.symm hi
        | some j =>
          rw [hw', Option.getD_some] at hw
          exact ⟨s, w, rfl, hw ▸ hw'⟩

theorem dead_mem_participants (D : Deterministic) : D.dead ∈ D.participants :=
  StateSet.mem_insert.mpr (Or.inl rfl)

theorem entry_mem_participants (hD : D.automaton.WellFormed) : D.entry ∈ D.participants :=
  (mem_participants_iff hD).mpr (Or.inr ⟨[], rfl⟩)

theorem next_mem_participants (hD : D.automaton.WellFormed) (hi : i ∈ D.participants) (a : Symbol) :
    D.next i a ∈ D.participants := by
  rw [mem_participants_iff hD] at hi ⊢
  rcases hi with rfl | ⟨w, rfl⟩
  · exact Or.inl (next_dead a)
  · refine Or.inr ⟨w ++ [a], ?_⟩
    rw [after_append]
    rfl

theorem le_of_mem_participants (hD : D.automaton.WellFormed) (hi : i ∈ D.participants) : i ≤ D.dead := by
  rcases (mem_participants_iff hD).mp hi with rfl | ⟨w, rfl⟩
  · exact Nat.le_refl _
  · exact after_le hD (entry_le hD) w

end FiniteAutomata.Deterministic
