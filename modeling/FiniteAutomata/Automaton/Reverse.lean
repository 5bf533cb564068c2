import FiniteAutomata.Automaton.Basic

/-!
Reversal: a new automaton with the same states and symbols, in the same order, and with all transitions turned
round. Start and final states change places.
-/

namespace FiniteAutomata.Automaton

def reverse (A : Automaton) : Automaton :=
  let placed := ((∅ : Automaton).addStates A.states).2.addSymbols A.symbols
  let turned := (A.table.edges.map Transition.flip).foldl (fun R t => (R.connect t).2) placed
  { turned with
    starts := A.finals
    finals := A.starts }

end FiniteAutomata.Automaton
