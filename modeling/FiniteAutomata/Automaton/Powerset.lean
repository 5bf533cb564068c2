import FiniteAutomata.Automaton.Layout
import FiniteAutomata.Deterministic.Basic
import FiniteAutomata.Search

/-!
The accessible powerset automaton. Its states are the nonempty sets of states in which a run can be, each
named after its members. Sets of states whose names coincide become one state.
-/

namespace FiniteAutomata.Automaton

/-- The sets that a set leads to on the symbols of the alphabet, those that are empty left out. -/
def powersetNext (A : Automaton) (S : StateSet) : List StateSet :=
  (A.symbols.map (A.step S)).filter fun T => !T.isEmpty

/-- The nonempty sets of states that words lead to, in the order of a depth-first search. There are no more
steps than sets. -/
def accessibleSets (A : Automaton) : List StateSet :=
  if A.initial.isEmpty then [] else Search.depthFirst (1 <<< A.numStates) A.powersetNext [A.initial]

def merge (A : Automaton) (S : StateSet) : State := .merged (A.members S)

/-- The nonempty sets that a set leads to, each with the symbol. -/
def powersetMoves (A : Automaton) (S : StateSet) : List (Label × StateSet) :=
  A.symbols.filterMap fun a =>
    let T := A.step S a
    if T.isEmpty then none else some (.symbol a, T)

/-- The automaton over the same alphabet whose states are the accessible sets. A set with a final member makes its
state final; one without leaves it as it is. -/
def powersetLayout (A : Automaton) : Layout StateSet where
  symbols := A.symbols
  keys := A.accessibleSets
  name := A.merge
  mark? S := if S.intersects A.finals then some true else none
  starts := if A.initial.isEmpty then [] else [A.initial]
  moves := A.powersetMoves

/-- An equivalent deterministic automaton over the same alphabet; without a start state it has no states at
all. -/
def determinize (A : Automaton) : Deterministic := ⟨A.powersetLayout.build⟩

end FiniteAutomata.Automaton
