import FiniteAutomata.Error
import FiniteAutomata.Regex.Basic
import FiniteAutomata.StateSet
import FiniteAutomata.Text.Quoted

/-!
Values shown with their structure: each constructor by its name, with its parts in parentheses, and names in
quotes.
-/

namespace FiniteAutomata

open Text

/-- A symbol with its structure. -/
def Symbol.inspect (a : Symbol) : String := "Symbol(" ++ quoted a.name ++ ")"

def State.inspect (q : State) : String := "State(" ++ quoted q.name ++ ")"

def Label.inspect : Label → String
  | .symbol a => a.inspect
  | .epsilon => "Epsilon"

def Regex.inspect : Regex → String
  | .empty => "Empty"
  | .epsilon => "Epsilon"
  | .symbol a => "Symbol(" ++ a.inspect ++ ")"
  | .union r s => "Union(" ++ r.inspect ++ ", " ++ s.inspect ++ ")"
  | .concat r s => "Concat(" ++ r.inspect ++ ", " ++ s.inspect ++ ")"
  | .star r => "Star(" ++ r.inspect ++ ")"

def AutomatonError.inspect : AutomatonError → String
  | .notDeterministic => "NotDeterministic"
  | .notSimple starts finals states =>
    "NotSimpleEnough \x7b start_states: " ++ toString starts ++ ", final_states: " ++ toString finals ++
      ", states: " ++ toString states ++ " \x7d"

/-- The members of a set in ascending order, between braces. -/
def StateSet.inspect (S : StateSet) : String :=
  "\x7b" ++ ", ".intercalate (S.toList.map toString) ++ "\x7d"

end FiniteAutomata
