/-!
Why a question about an automaton has no answer.
-/

namespace FiniteAutomata

/-- The reasons for which an operation refuses an automaton. -/
inductive AutomatonError where
  /-- The automaton was expected to be deterministic. -/
  | notDeterministic
  /-- The automaton was expected to have one start state, at most one final state and no other state. -/
  | notSimple (starts finals states : Nat)
deriving DecidableEq, Repr

namespace AutomatonError

def message : AutomatonError → String
  | notDeterministic => "automaton is not deterministic"
  | notSimple starts finals states =>
    "automaton not simple enough: " ++ toString starts ++ " start state(s), " ++ toString finals ++
      " final state(s), " ++ toString states ++ " state(s)"

end AutomatonError

end FiniteAutomata
