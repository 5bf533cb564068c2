import FiniteAutomata.Proofs.Automaton.Content
import FiniteAutomata.Proofs.Deterministic.Walk

/-!
Determinism read off the content of an automaton: one start state at most, no empty moves, and one target at
most for each state and symbol (`isDeterministic_iff`). In such an automaton a step along a symbol is a
transition of the content, and no other transition leaves the state on that symbol.
-/

namespace FiniteAutomata

/-- One start state at most, no empty moves, and one target at most for each state and label. -/
structure Content.Functional (C : Content) : Prop where
  start_unique : ∀ p ∈ C.starts, ∀ q ∈ C.starts, p = q
  no_empty_moves : ∀ p q, (p, .epsilon, q) ∉ C.arcs
  target_unique : ∀ p l q q', (p, l, q) ∈ C.arcs → (p, l, q') ∈ C.arcs → q = q'

namespace Automaton

variable {A : Automaton} {p q : State} {l : Label} {i j : Nat}

theorem starts_size_le_one_iff (h : A.WellFormed) :
    A.starts.size ≤ 1 ↔ ∀ p ∈ A.content.starts, ∀ q ∈ A.content.starts, p = q := by
  rw [StateSet.size_le_one_iff]
  constructor
  · rintro hone p ⟨i, hi, hp⟩ q ⟨j, hj, hq⟩
    rw [hone i hi j hj, hq, Option.some.injEq] at hp
    exact hp.symm
  · intro hone i hi j hj
    have hi' := h.starts_lt i hi
    have hj' := h.starts_lt j hj
    exact state_inj h hi' hj' (hone _ ⟨i, hi, getElem?_states hi'⟩ _ ⟨j, hj, getElem?_states hj'⟩)

theorem isDeterministic_iff_targets (h : A.WellFormed) : A.isDeterministic = true ↔
    (∀ i ∈ A.starts, ∀ j ∈ A.starts, i = j) ∧ (∀ i j, j ∉ A.table.targets i .epsilon) ∧
      ∀ i l j k, j ∈ A.table.targets i l → k ∈ A.table.targets i l → j = k := by
  rw [isDeterministic, Bool.and_eq_true, decide_eq_true_eq, StateSet.size_le_one_iff,
    h.sound.isDeterministic_iff]

/-- The test for determinism is about the content alone. -/
theorem isDeterministic_iff (h : A.WellFormed) : A.isDeterministic = true ↔ A.content.Functional := by
  rw [isDeterministic, Bool.and_eq_true, decide_eq_true_eq, starts_size_le_one_iff h,
    h.sound.isDeterministic_iff]
  constructor
  · intro h'
    obtain ⟨hstarts, hepsilon, hone⟩ := h'
    refine ⟨hstarts, ?_, ?_⟩
    · intro p q harc
      obtain ⟨i, j, -, -, hj⟩ := mem_content_arcs_iff.mp harc
      exact hepsilon i j hj
    · intro p l q q' harc harc'
      obtain ⟨i, j, hp, hq, hj⟩ := mem_content_arcs_iff.mp harc
      obtain ⟨i', k, hp', hq', hk⟩ := mem_content_arcs_iff.mp harc'
      rw [← id_unique h.states_nodup hp hp'] at hk
      rw [hone i l j k hj hk, hq', Option.some.injEq] at hq
      exact hq.symm
  · intro hC
    refine ⟨hC.start_unique, fun i j hj => ?_, fun i l j k hj hk => ?_⟩
    · obtain ⟨hi, hj'⟩ := getElem?_states_of_mem_targets h hj
      exact hC.no_empty_moves _ _ ((mem_arcs_iff h hi hj').mpr hj)
    · obtain ⟨hi, hj'⟩ := getElem?_states_of_mem_targets h hj
      have hk' := (getElem?_states_of_mem_targets h hk).2
      have he := hC.target_unique _ _ _ _ ((mem_arcs_iff h hi hj').mpr hj) ((mem_arcs_iff h hi hk').mpr hk)
      exact state_inj h (h.target_lt ⟨i, l, j⟩ hj) (h.target_lt ⟨i, l, k⟩ hk) he

end Automaton

namespace Deterministic

variable {D : Deterministic} {p q : State} {a : Symbol} {i j : Nat}

theorem arc_of_next? (hD : D.automaton.WellFormed) (h : D.next? i a = some j) :
    (D.automaton.state i, .symbol a, D.automaton.state j) ∈ D.automaton.content.arcs := by
  have ht := mem_targets_of_next? h
  obtain ⟨hi, hj⟩ := Automaton.getElem?_states_of_mem_targets hD ht
  exact (Automaton.mem_arcs_iff hD hi hj).mpr ht

/-- A transition of the content is the step along its symbol, where targets are unique. -/
theorem next?_of_arc (hD : D.automaton.WellFormed) (hC : D.automaton.content.Functional)
    (hi : D.automaton.states[i]? = some p) (h : (p, .symbol a, q) ∈ D.automaton.content.arcs) :
    ∃ j, D.next? i a = some j ∧ D.automaton.states[j]? = some q := by
  obtain ⟨i', j, hi', hj, ht⟩ := Automaton.mem_content_arcs_iff.mp h
  rw [← Automaton.id_unique hD.states_nodup hi hi'] at ht
  cases hn : D.next? i a with
  | none => exact absurd ht (StateSet.min?_eq_none_iff.mp hn j)
  | some k =>
    have hk := mem_targets_of_next? hn
    obtain ⟨hsi, hsk⟩ := Automaton.getElem?_states_of_mem_targets hD hk
    have harc := (Automaton.mem_arcs_iff hD hsi hj).mpr ht
    have he := hC.target_unique _ _ _ _ harc ((Automaton.mem_arcs_iff hD hsi hsk).mpr hk)
    exact ⟨k, rfl, he ▸ hsk⟩

theorem start?_of_mem_starts (hC : D.automaton.content.Functional) (hD : D.automaton.WellFormed)
    (h : q ∈ D.automaton.content.starts) : ∃ i, D.start? = some i ∧ D.automaton.states[i]? = some q := by
  cases hs : D.start? with
  | none =>
    obtain ⟨i, hi, -⟩ := h
    exact absurd hi (StateSet.min?_eq_none_iff.mp hs i)
  | some i =>
    have hi := Automaton.getElem?_states (start_lt hD hs)
    have hmem : D.automaton.state i ∈ D.automaton.content.starts := ⟨i, StateSet.mem_of_min?_eq_some hs, hi⟩
    exact ⟨i, rfl, hC.start_unique _ hmem _ h ▸ hi⟩

end Deterministic

end FiniteAutomata
