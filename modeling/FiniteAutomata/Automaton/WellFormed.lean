import FiniteAutomata.Automaton.Basic

/-!
What every automaton made by the operations of this library satisfies: its names are distinct, it mentions
no state and no symbol that it does not hold, and its table keeps no empty slot and the right count.
-/

namespace FiniteAutomata.Automaton

/-- An automaton whose parts fit together. -/
structure WellFormed (A : Automaton) : Prop where
  states_nodup : A.states.Nodup
  symbols_nodup : A.symbols.Nodup
  starts_lt : ∀ i ∈ A.starts, i < A.numStates
  finals_lt : ∀ i ∈ A.finals, i < A.numStates
  source_lt : ∀ t ∈ A.table, t.source < A.numStates
  target_lt : ∀ t ∈ A.table, t.target < A.numStates
  declared : ∀ (i j : Nat) (a : Symbol), (⟨i, .symbol a, j⟩ : Transition) ∈ A.table → a ∈ A.symbols
  slots_inhabited : ∀ (i : Nat) (l : Label) (S : StateSet), A.table.get? i l = some S → ∃ j, j ∈ S
  numTransitions_eq : A.numTransitions = A.table.edges.length

theorem wellFormed_empty : WellFormed ∅ where
  states_nodup := List.Pairwise.nil
  symbols_nodup := List.Pairwise.nil
  starts_lt i h := absurd h (StateSet.not_mem_empty i)
  finals_lt i h := absurd h (StateSet.not_mem_empty i)
  source_lt t h := absurd h (TransitionTable.not_mem_empty t)
  target_lt t h := absurd h (TransitionTable.not_mem_empty t)
  declared _ _ _ h := absurd h (TransitionTable.not_mem_empty _)
  slots_inhabited _ _ _ h := nomatch h
  numTransitions_eq := rfl

end FiniteAutomata.Automaton
