import FiniteAutomata.Regex.Basic

/-!
The text of a regular expression: a plus between alternatives, a point between parts in sequence, and a star
after parentheses. Alternatives bind weakest, so they take parentheses where they are part of a sequence;
nothing else does.
-/

namespace FiniteAutomata.Regex

/-- How strongly the outermost operator binds. -/
def precedence : Regex → Nat
  | .union _ _ => 0
  | .concat _ _ => 1
  | _ => 2

/-- A text in parentheses, if they are asked for. -/
def parenthesized (needed : Bool) (t : String) : String := if needed then "(" ++ t ++ ")" else t

/-- The text of an expression. An operand that binds less strongly than its operator is parenthesized. -/
def text : Regex → String
  | .empty => "$"
  | .epsilon => "epsilon"
  | .symbol a => a.name
  | .union r s => r.text ++ "+" ++ s.text
  | .concat r s =>
    parenthesized (r.precedence < 1) r.text ++ "." ++ parenthesized (s.precedence < 1) s.text
  | .star r => "(" ++ r.text ++ ")*"

end FiniteAutomata.Regex
