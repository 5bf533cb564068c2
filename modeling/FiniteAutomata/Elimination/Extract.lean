import FiniteAutomata.Elimination.Graph

/-!
The regular expression of an automaton. For each final state by itself, the states that are neither that one
nor the start state are taken away; the expressions left are the alternatives.
-/

namespace FiniteAutomata

/-- An expression for the words from the start state of a graph to one of its final states. -/
def Graph.toRegex (G : Graph) : Regex :=
  match G.starts.min? with
  | none => .empty
  | some start => G.finals.toList.foldl
      (fun r final => .mkUnion r ((G.keepFinal final).eliminateBasic.between start final)) .empty

namespace Automaton

/-- An expression for the words that the automaton accepts, extracted with its transitions in the given order. -/
def toRegexFrom (A : Automaton) (ts : List Transition) : Regex := (Graph.joinedFrom A ts).toRegex

def toRegex (A : Automaton) : Regex := A.toRegexFrom A.table.edges

/-- The closed form of an automaton that has one start state, at most one final state and no other state, with its
transitions in the given order. -/
def simpleRegexFrom (A : Automaton) (ts : List Transition) : Except AutomatonError Regex :=
  ((Graph.bare A).addTransitions ts).simpleRegex

def simpleRegex (A : Automaton) : Except AutomatonError Regex := A.simpleRegexFrom A.table.edges

end Automaton

end FiniteAutomata
