import FiniteAutomata.Proofs.Automaton.Built
import FiniteAutomata.Proofs.Deterministic.SingleState

/-!
Which automata may be read deterministically. The test counts the targets of every slot of the table. This tells
whether targets are unique, because no operation leaves a slot behind that has no target
(`Automaton.isDeterministic_iff_determined`), and without empty moves every state is all of its closure
(`Automaton.isDeterministic_iff_closures`). An automaton that passes is read with one current state as with all of
them (`Deterministic.ofAutomaton_exact`).
-/

namespace FiniteAutomata

namespace Automaton

variable {A : Automaton} {i : Nat}

/-- What is read leaves no choice: one start state at most, no empty move, one target at most for each state and
symbol. -/
structure Determined (A : Automaton) : Prop where
  one_start : A.starts.size ≤ 1
  no_empty_move : ∀ i j, (⟨i, .epsilon, j⟩ : Transition) ∉ A.table
  one_target : ∀ i a j k, (⟨i, .symbol a, j⟩ : Transition) ∈ A.table →
    (⟨i, .symbol a, k⟩ : Transition) ∈ A.table → j = k

theorem isDeterministic_iff_determined (h : A.WellFormed) : A.isDeterministic = true ↔ A.Determined := by
  rw [isDeterministic_iff_targets h, ← StateSet.size_le_one_iff]
  constructor
  · rintro ⟨hstart, hempty, hone⟩
    exact ⟨hstart, hempty, fun i a => hone i (.symbol a)⟩
  · intro hA
    refine ⟨hA.one_start, hA.no_empty_move, fun i l j k hj hk => ?_⟩
    cases l with
    | symbol a => exact hA.one_target i a j k hj hk
    | epsilon => exact absurd hj (hA.no_empty_move i j)

theorem closure_singleton (h : ∀ i j, j ∉ A.table.targets i .epsilon) (i : Nat) :
    A.closure (.singleton i) = .singleton i := by
  refine StateSet.ext fun j => ?_
  simp only [mem_closure_iff, StateSet.mem_singleton, leads_nil_iff h, exists_eq_left]
  exact eq_comm

/-- The test may look at the closures of the states as well: an empty move that leads to another state shows in them,
and one that leads back to where it starts shows in the table. -/
theorem isDeterministic_iff_closures (h : A.WellFormed) : A.isDeterministic = true ↔
    A.starts.size ≤ 1 ∧ A.table.isDeterministic = true ∧ ∀ i < A.numStates, (A.closure (.singleton i)).size = 1 := by
  rw [isDeterministic, Bool.and_eq_true, decide_eq_true_eq]
  refine and_congr_right fun _ => ⟨fun htable => ⟨htable, fun i _ => ?_⟩, And.left⟩
  rw [closure_singleton (h.sound.isDeterministic_iff.mp htable).1 i]
  have hle : (StateSet.singleton i).size ≤ 1 := StateSet.size_le_one_iff.mpr fun j hj k hk =>
    (StateSet.mem_singleton.mp hj).trans (StateSet.mem_singleton.mp hk).symm
  have hpos : 0 < (StateSet.singleton i).size := StateSet.size_pos_iff.mpr ⟨i, StateSet.mem_singleton.mpr rfl⟩
  omega

end Automaton

namespace Deterministic

variable {A : Automaton} {D : Deterministic} {e : AutomatonError}

theorem ofAutomaton_eq_ok_iff : ofAutomaton A = .ok D ↔ A.isDeterministic = true ∧ D = ⟨A⟩ := by
  unfold ofAutomaton
  split
  · rename_i hdet
    rw [Except.ok.injEq, eq_comm]
    exact (and_iff_right hdet).symm
  · rename_i hdet
    exact iff_of_false (fun h => by cases h) fun h => hdet h.1

theorem ofAutomaton_eq_error_iff : ofAutomaton A = .error e ↔ ¬A.isDeterministic = true ∧ e = .notDeterministic := by
  unfold ofAutomaton
  split
  · rename_i hdet
    exact iff_of_false (fun h => by cases h) fun h => h.1 hdet
  · rename_i hdet
    rw [Except.error.injEq, eq_comm]
    exact (and_iff_right hdet).symm

/-- Whatever operations led to an automaton, it can be read deterministically exactly if it leaves no choice. If it can,
the walk is after every word in the one state in which the run is, if it is in any, and both accept the same words. -/
theorem ofAutomaton_exact (h : Built A) :
    ((∃ D, ofAutomaton A = .ok D) ↔ A.Determined) ∧ (¬A.Determined → ofAutomaton A = .error .notDeterministic) ∧
      ∀ D, ofAutomaton A = .ok D →
        (∀ w i, i ∈ A.run w ↔ ∃ s, D.start? = some s ∧ D.after? s w = some i) ∧ ∀ ls, D.accepts ls = A.accepts ls := by
  have hdetermined := Automaton.isDeterministic_iff_determined h.wellFormed
  refine ⟨⟨?_, fun hA => ?_⟩, fun hA => ?_, fun D hD => ?_⟩
  · rintro ⟨D, hD⟩
    exact hdetermined.mp (ofAutomaton_eq_ok_iff.mp hD).1
  · exact ⟨⟨A⟩, ofAutomaton_eq_ok_iff.mpr ⟨hdetermined.mpr hA, rfl⟩⟩
  · exact ofAutomaton_eq_error_iff.mpr ⟨fun hdet => hA (hdetermined.mp hdet), rfl⟩
  · obtain ⟨hdet, rfl⟩ := ofAutomaton_eq_ok_iff.mp hD
    exact ⟨fun w i => mem_run_iff_after? (D := ⟨A⟩) h.wellFormed hdet,
      accepts_eq_accepts_automaton (D := ⟨A⟩) h.wellFormed hdet⟩

/-- Words over `a` of odd length. A second target, an empty move from a state to itself and a second start state were
there for a while. -/
def oddAfterChanges : Automaton := .ofEdits
  [.addStart ⟨"even"⟩, .addTransition ⟨"even"⟩ (.symbol ⟨"a"⟩) ⟨"odd"⟩, .addTransition ⟨"odd"⟩ (.symbol ⟨"a"⟩) ⟨"odd"⟩,
    .addTransition ⟨"odd"⟩ (.symbol ⟨"a"⟩) ⟨"even"⟩, .addEpsilon ⟨"odd"⟩ ⟨"odd"⟩, .addStart ⟨"odd"⟩, .addFinal ⟨"odd"⟩,
    .removeTransition ⟨"odd"⟩ (.symbol ⟨"a"⟩) ⟨"odd"⟩, .removeTransition ⟨"odd"⟩ .epsilon ⟨"odd"⟩, .removeStart ⟨"odd"⟩]

/-- The same words, but a state can be left for itself without reading anything. -/
def oddWithLoop : Automaton := oddAfterChanges.edited [.addEpsilon ⟨"odd"⟩ ⟨"odd"⟩]

theorem ofAutomaton_oddAfterChanges :
    (Built oddAfterChanges ∧ oddAfterChanges.Determined ∧ ofAutomaton oddAfterChanges = .ok ⟨oddAfterChanges⟩ ∧
      ∀ ls, accepts ⟨oddAfterChanges⟩ ls = oddAfterChanges.accepts ls) ∧
    Built oddWithLoop ∧ ¬oddWithLoop.Determined ∧ ofAutomaton oddWithLoop = .error .notDeterministic := by
  have hbuilt : Built oddAfterChanges := built_ofEdits _
  obtain ⟨hok, -, haccepts⟩ := ofAutomaton_exact hbuilt
  have hodd : ofAutomaton oddAfterChanges = .ok ⟨oddAfterChanges⟩ := ofAutomaton_eq_ok_iff.mpr ⟨by decide +kernel, rfl⟩
  have hbuilt' : Built oddWithLoop := hbuilt.edited _
  obtain ⟨-, hrefused, -⟩ := ofAutomaton_exact hbuilt'
  have hloop : ¬oddWithLoop.Determined := fun h => h.no_empty_move 1 1 (by decide +kernel)
  exact ⟨⟨hbuilt, hok.mp ⟨_, hodd⟩, hodd, (haccepts _ hodd).2⟩, hbuilt', hloop, hrefused hloop⟩

end Deterministic

end FiniteAutomata
