import Mathlib.Data.Set.Card
import FiniteAutomata.Automaton.Built
import FiniteAutomata.Proofs.Automaton.Difference
import FiniteAutomata.Proofs.Automaton.Rational
import FiniteAutomata.Proofs.Automaton.Reversal
import FiniteAutomata.Proofs.Deterministic.Minimization
import FiniteAutomata.Proofs.Deterministic.Powerset
import FiniteAutomata.Proofs.Regex.Thompson

/-!
Whatever operations lead to an automaton, its parts fit together (`Built.wellFormed`, by induction over the
operations). None of them needs names to be told apart for this: sets, pairs or blocks that share a name share a state,
and the ids that are kept for them are ids of states that are there. With that, a state is found by its name, and the
count kept with the table is the number of transitions (`built_invariant`).
-/

namespace FiniteAutomata

namespace Automaton

variable {A : Automaton} {i : Nat}

/-! ### What follows for names and counts -/

theorem WellFormed.stateId?_state (h : A.WellFormed) (hi : i < A.numStates) : A.stateId? (A.state i) = some i :=
  (stateId?_eq_some_iff h.states_nodup).mpr (getElem?_states hi)

theorem WellFormed.numTransitions_eq_ncard (h : A.WellFormed) : A.numTransitions = {t | t ∈ A.table}.ncard := by
  have hset : {t | t ∈ A.table} = (A.table.edges.toFinset : Set Transition) := by
    ext t
    simp
  calc A.numTransitions
    _ = A.table.edges.length := h.numTransitions_eq
    _ = A.table.edges.toFinset.card := (List.toFinset_card_of_nodup A.table.edges_nodup).symm
    _ = {t | t ∈ A.table}.ncard := by rw [hset, Set.ncard_coe_finset]

/-! ### Difference and minimization -/

theorem wellFormed_difference (hA : A.WellFormed) (B : Automaton) : (A.difference B).WellFormed :=
  wellFormed_intersection hA _

/-- Read deterministically and minimized, a well-formed automaton stays one, with a start state or without. -/
theorem WellFormed.minimize (hA : A.WellFormed) : (Deterministic.minimize ⟨A⟩).automaton.WellFormed := by
  cases hs : Deterministic.start? ⟨A⟩ with
  | none =>
    rw [Deterministic.minimize, hs]
    exact wellFormed_empty
  | some s => exact Deterministic.wellFormed_minimize hA hs

end Automaton

open Automaton

variable {A : Automaton}

/-! ### The invariant -/

theorem Built.wellFormed (h : Built A) : A.WellFormed := by
  induction h with
  | empty => exact wellFormed_empty
  | ofRegex r => exact r.wellFormed_toAutomaton
  | edit e _ ih => exact ih.apply e
  | complement _ ih => exact wellFormed_complement ih
  | reverse _ ih => exact wellFormed_reverse ih
  | kleeneStar _ ih => exact wellFormed_kleeneStar ih
  | intersection _ _ ihA _ => exact wellFormed_intersection ihA _
  | difference _ _ ihA _ => exact wellFormed_difference ihA _
  | union _ _ ihA ihB => exact wellFormed_union ihA ihB
  | concatenate _ _ ihA ihB => exact wellFormed_concatenate ihA ihB
  | determinize _ ih => exact wellFormed_determinize ih
  | minimize _ ih => exact ih.minimize

/-- Whatever operations led to an automaton, its parts fit together, its states have the ids that their names are
found under, and it counts its transitions right. -/
theorem built_invariant (h : Built A) : A.WellFormed ∧
    (∀ i < A.numStates, A.stateId? (A.state i) = some i) ∧ A.numTransitions = {t | t ∈ A.table}.ncard :=
  ⟨h.wellFormed, fun _ hi => h.wellFormed.stateId?_state hi, h.wellFormed.numTransitions_eq_ncard⟩

/-- A state with the name that two others have together, once it is determinized. -/
def sharedName : Automaton := .ofEdits
  [.addStart ⟨"s"⟩, .addTransition ⟨"s"⟩ (.symbol ⟨"x"⟩) ⟨"a"⟩, .addTransition ⟨"s"⟩ (.symbol ⟨"x"⟩) ⟨"b"⟩,
    .addTransition ⟨"s"⟩ (.symbol ⟨"y"⟩) ⟨"a;b"⟩, .addFinal ⟨"b"⟩]

/-- Any number of `x`. -/
def onlyX : Automaton := (Regex.star (.symbol ⟨"x"⟩)).toAutomaton

/-- Every operation, one over the other. -/
def medley : Automaton :=
  (Deterministic.minimize
    ⟨((sharedName.determinize.automaton.union onlyX).intersection
      (sharedName.complement.concatenate onlyX.reverse)).kleeneStar.difference onlyX⟩).automaton.edited
    [.removeTransition ⟨"s"⟩ (.symbol ⟨"y"⟩) ⟨"c"⟩, .addFinal ⟨"start"⟩]

theorem built_medley : Built medley := by
  have hname : Built sharedName := built_ofEdits _
  have hx : Built onlyX := .ofRegex _
  have hboth := (hname.determinize.union hx).intersection (hname.complement.concatenate hx.reverse)
  exact (hboth.kleeneStar.difference hx).minimize.edited _

theorem built_invariant_medley : Built medley ∧ medley.WellFormed ∧
    (∀ i < medley.numStates, medley.stateId? (medley.state i) = some i) ∧
    medley.numTransitions = {t | t ∈ medley.table}.ncard :=
  ⟨built_medley, built_invariant built_medley⟩

end FiniteAutomata
