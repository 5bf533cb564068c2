import FiniteAutomata.Proofs.Deterministic.Reachable
import FiniteAutomata.Proofs.Deterministic.SingleState
import FiniteAutomata.Proofs.Elimination.Labels

/-!
Three tests for whether an automaton accepts any word. A search along all transitions finds the states that words
lead to, so it meets a final state if some word is accepted (`isEmpty_iff`); the search of the deterministic reading
follows the walk, which is the same if the automaton is deterministic; and the expression of an automaton is the
empty expression only if it has no words (`toRegexFrom_eq_empty_iff`). A powerset automaton in which sets share a name
may not be deterministic, and then the walk can miss all words that there are (`blindAlley`).
-/

namespace FiniteAutomata

namespace Automaton

variable {A : Automaton} {i j : Nat}

/-! ### The search -/

/-- The alphabet misses no transition, so a state leads to all targets of its transitions. -/
theorem mem_successors_iff (hA : A.WellFormed) : j ∈ A.successors i ↔ ∃ l, j ∈ A.table.targets i l := by
  rw [successors, StateSet.mem_foldl_union, or_iff_right (StateSet.not_mem_empty j)]
  refine exists_congr fun l => and_iff_right_of_imp fun hj => ?_
  cases l with
  | symbol a => exact List.mem_append_left _ (List.mem_map_of_mem (hA.declared i j a hj))
  | epsilon => exact List.mem_append_right _ (List.mem_singleton.mpr rfl)

theorem linked_iff_exists_leads (hA : A.WellFormed) : StateSet.Linked A.successors i j ↔ ∃ w, A.Leads i w j := by
  constructor
  · intro h
    induction h with
    | refl => exact ⟨[], .refl A i⟩
    | tail _ hk ih =>
      obtain ⟨w, hw⟩ := ih
      obtain ⟨l, hl⟩ := (mem_successors_iff hA).mp hk
      exact ⟨w ++ Label.spelled [l], hw.trans (.ofTransition hl)⟩
  · rintro ⟨w, ls, hp, -⟩
    induction hp with
    | nil => exact .refl _
    | @cons i k j l ls ht _ ih => exact .trans (.tail (.refl i) ((mem_successors_iff hA).mpr ⟨l, ht⟩)) ih

/-- The search finds the states that words lead to from a start state. -/
theorem mem_reach_successors_iff (hA : A.WellFormed) :
    j ∈ StateSet.reach A.table.buckets.size A.successors A.starts ↔ ∃ w, j ∈ A.run w := by
  have hactive : ∀ i j, j ∈ A.successors i → i ∈ A.table.buckets.entries.map (·.1.source) := by
    intro i j h
    obtain ⟨l, hl⟩ := (mem_successors_iff hA).mp h
    exact TransitionTable.source_mem_of_mem_targets hl
  rw [StateSet.mem_reach_iff hactive A.table.length_sources_le]
  simp only [linked_iff_exists_leads hA, mem_run_iff]
  constructor
  · rintro ⟨i, hi, w, hw⟩
    exact ⟨w, i, hi, hw⟩
  · rintro ⟨w, i, hi, hw⟩
    exact ⟨i, hi, w, hw⟩

theorem isEmpty_eq_false_iff (hA : A.WellFormed) : A.isEmpty = false ↔ ∃ ls, A.accepts ls = true := by
  rw [isEmpty, Bool.not_eq_false', StateSet.intersects_iff]
  simp only [mem_reach_successors_iff hA, accepts, StateSet.intersects_iff]
  constructor
  · rintro ⟨j, ⟨w, hj⟩, hf⟩
    exact ⟨w.map .symbol, j, by rwa [Label.spelled_map_symbol], hf⟩
  · rintro ⟨ls, j, hj, hf⟩
    exact ⟨j, ⟨_, hj⟩, hf⟩

theorem isEmpty_iff (hA : A.WellFormed) : A.isEmpty = true ↔ ∀ ls, A.accepts ls = false := by
  rw [← Bool.not_eq_false, isEmpty_eq_false_iff hA, not_exists]
  exact forall_congr' fun ls => by rw [Bool.not_eq_true]

/-! ### The expression -/

/-- Whether an automaton has no words, its expressions show, whatever the order in which the transitions came. -/
theorem toRegexFrom_eq_empty_iff {ts : List Transition} (hA : A.WellFormed) (hts : A.table.EnumeratedBy ts) :
    A.toRegexFrom ts = .empty ↔ ∀ ls, A.accepts ls = false := by
  rw [(A.normal_toRegexFrom ts).eq_empty_iff]
  constructor
  · intro hnone ls
    rw [← Bool.not_eq_true, accepts_iff, ← matches_toRegexFrom_iff hA hts]
    exact hnone _
  · intro hnone w hw
    have hword := hnone (w.map .symbol)
    rw [← Bool.not_eq_true, accepts_iff, Label.spelled_map_symbol, ← matches_toRegexFrom_iff hA hts] at hword
    exact hword hw

end Automaton

/-! ### The deterministic reading -/

namespace Deterministic

variable {D : Deterministic} (hD : D.automaton.WellFormed)
include hD

theorem isEmpty_eq_false_iff : D.isEmpty = false ↔ ∃ ls, D.accepts ls = true := by
  rw [isEmpty, Bool.not_eq_false', StateSet.intersects_iff]
  constructor
  · rintro ⟨j, hj, hf⟩
    obtain ⟨s, w, hs, hw⟩ := (mem_reachable_iff hD).mp hj
    refine ⟨w.map .symbol, ?_⟩
    rw [accepts, hs, Label.spelled_map_symbol, Option.bind_some, hw]
    exact hf
  · rintro ⟨ls, h⟩
    obtain ⟨j, hj, hf⟩ := (Option.any_eq_true _ _).mp h
    obtain ⟨s, hs, hw⟩ := Option.bind_eq_some_iff.mp hj
    exact ⟨j, (mem_reachable_iff hD).mpr ⟨s, _, hs, hw⟩, hf⟩

theorem isEmpty_iff : D.isEmpty = true ↔ ∀ ls, D.accepts ls = false := by
  rw [← Bool.not_eq_false, isEmpty_eq_false_iff hD, not_exists]
  exact forall_congr' fun ls => by rw [Bool.not_eq_true]

/-- The walk follows some of the transitions, so its search finds a word if that along all of them does; they agree
where it is not left empty-handed. -/
theorem isEmpty_eq_isEmpty_automaton_iff : D.isEmpty = D.automaton.isEmpty ↔
    ((∃ ls, D.automaton.accepts ls = true) → ∃ ls, D.accepts ls = true) := by
  rw [← isEmpty_eq_false_iff hD, ← Automaton.isEmpty_eq_false_iff hD]
  constructor
  · exact fun he hword => he.trans hword
  · intro hfinds
    cases hall : D.automaton.isEmpty with
    | false => exact hfinds hall
    | true =>
      have hnone := (Automaton.isEmpty_iff hD).mp hall
      refine (isEmpty_iff hD).mpr fun ls => ?_
      rw [← Bool.not_eq_true]
      exact fun haccepts => Bool.false_ne_true ((hnone ls).symm.trans (accepts_automaton_of_accepts haccepts))

/-- The search along the walk misses nothing, if no state has two transitions on a symbol. -/
theorem isEmpty_eq_isEmpty_automaton (hdet : D.automaton.isDeterministic = true) :
    D.isEmpty = D.automaton.isEmpty :=
  (isEmpty_eq_isEmpty_automaton_iff hD).mpr fun ⟨ls, h⟩ => ⟨ls, (accepts_eq_accepts_automaton hD hdet ls).trans h⟩

end Deterministic

/-! ### The result -/

/-- The search along all transitions tells whether an automaton has words, and so does its expression, in whatever
order its transitions came; the search along the walk tells whether the deterministic reading has. The two searches
agree if the walk accepts some word where the automaton does, as it is where the automaton is deterministic. -/
theorem Automaton.emptiness_tests_agree {A : Automaton} (hA : A.WellFormed) :
    (A.isEmpty = true ↔ ∀ ls, A.accepts ls = false) ∧
    (A.toRegex = .empty ↔ ∀ ls, A.accepts ls = false) ∧
    (∀ ts, A.table.EnumeratedBy ts → (A.toRegexFrom ts = .empty ↔ ∀ ls, A.accepts ls = false)) ∧
    ∀ D : Deterministic, D.automaton.WellFormed →
      (D.isEmpty = true ↔ ∀ ls, D.accepts ls = false) ∧
      (D.isEmpty = D.automaton.isEmpty ↔
        ((∃ ls, D.automaton.accepts ls = true) → ∃ ls, D.accepts ls = true)) ∧
      (D.automaton.isDeterministic = true → D.isEmpty = D.automaton.isEmpty) := by
  refine ⟨isEmpty_iff hA, toRegexFrom_eq_empty_iff hA A.table.enumeratedBy_edges,
    fun ts hts => toRegexFrom_eq_empty_iff hA hts, fun D hD => ?_⟩
  exact ⟨Deterministic.isEmpty_iff hD, Deterministic.isEmpty_eq_isEmpty_automaton_iff hD,
    Deterministic.isEmpty_eq_isEmpty_automaton hD⟩

/-- The final states lie behind a transition that leads the wrong way, and on a cycle of empty moves of their own. -/
def outOfReach : Automaton := .ofEdits
  [.addStart ⟨"s"⟩, .addTransition ⟨"s"⟩ (.symbol ⟨"a"⟩) ⟨"s"⟩, .addEpsilon ⟨"s"⟩ ⟨"t"⟩,
    .addTransition ⟨"f"⟩ (.symbol ⟨"b"⟩) ⟨"t"⟩, .addEpsilon ⟨"f"⟩ ⟨"g"⟩, .addEpsilon ⟨"g"⟩ ⟨"f"⟩,
    .addFinal ⟨"f"⟩, .addFinal ⟨"g"⟩]

theorem outOfReach_emptiness_tests_agree :
    (outOfReach.WellFormed ∧ outOfReach.table.EnumeratedBy outOfReach.table.edges.reverse ∧
      Deterministic.evenToFour.automaton.WellFormed ∧ Deterministic.evenToFour.automaton.isDeterministic = true) ∧
    outOfReach.isEmpty = true ∧ (∀ ls, outOfReach.accepts ls = false) ∧ outOfReach.toRegex = .empty ∧
    outOfReach.toRegexFrom outOfReach.table.edges.reverse = .empty ∧
    (Deterministic.evenToFour.isEmpty = true ↔ ∀ ls, Deterministic.evenToFour.accepts ls = false) ∧
    Deterministic.evenToFour.isEmpty = Deterministic.evenToFour.automaton.isEmpty := by
  have hA : outOfReach.WellFormed := Automaton.wellFormed_ofEdits _
  have hts := outOfReach.table.enumeratedBy_edges.reverse
  have hD : Deterministic.evenToFour.automaton.WellFormed := Automaton.wellFormed_ofEdits _
  have hdet : Deterministic.evenToFour.automaton.isDeterministic = true := by decide +kernel
  have hempty : outOfReach.isEmpty = true := by decide +kernel
  obtain ⟨hsearch, hregex, hevery, hreadings⟩ := Automaton.emptiness_tests_agree hA
  obtain ⟨hwalk, -, hsame⟩ := hreadings _ hD
  have hnone := hsearch.mp hempty
  exact ⟨⟨hA, hts, hD, hdet⟩, hempty, hnone, hregex.mpr hnone, (hevery _ hts).mpr hnone, hwalk, hsame hdet⟩

/-- The state after `y` is named as if it were both states after `x`, and what follows it leads to no final state. -/
def blindAlley : Automaton := .ofEdits
  [.addStart ⟨"s"⟩, .addFinal ⟨"f"⟩, .addTransition ⟨"s"⟩ (.symbol ⟨"x"⟩) ⟨"a"⟩,
    .addTransition ⟨"s"⟩ (.symbol ⟨"x"⟩) ⟨"b"⟩, .addTransition ⟨"s"⟩ (.symbol ⟨"y"⟩) ⟨"a;b"⟩,
    .addTransition ⟨"a;b"⟩ (.symbol ⟨"z"⟩) ⟨"d"⟩, .addTransition ⟨"a"⟩ (.symbol ⟨"z"⟩) ⟨"f"⟩]

/-- Determinized, the automaton has two transitions from one state on `z`. The walk takes the wrong one, so its search
finds no word where the search along all transitions finds one. -/
theorem blindAlley_isEmpty_determinize : blindAlley.WellFormed ∧ blindAlley.isEmpty = false ∧
    blindAlley.determinize.isEmpty = true ∧ blindAlley.determinize.automaton.isEmpty = false ∧
    ¬∀ D : Deterministic, D.automaton.WellFormed → D.isEmpty = D.automaton.isEmpty := by
  have hA : blindAlley.WellFormed := Automaton.wellFormed_ofEdits _
  have hwalk : blindAlley.determinize.isEmpty = true := by decide +kernel
  have hall : blindAlley.determinize.automaton.isEmpty = false := by decide +kernel
  refine ⟨hA, by decide +kernel, hwalk, hall, fun h => ?_⟩
  have hsame := h blindAlley.determinize (Automaton.wellFormed_determinize hA)
  rw [hwalk, hall] at hsame
  exact Bool.false_ne_true hsame.symm

end FiniteAutomata
