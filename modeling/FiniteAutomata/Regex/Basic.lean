import FiniteAutomata.Symbol

/-!
Regular expressions, and constructors that simplify. The simplifying constructors know the empty language,
the empty word, equal alternatives and stars under a star; they give an expression for the same language,
which is no bare constructor where a smaller expression serves.
-/

namespace FiniteAutomata

/-- A regular expression: no word, the empty word, a symbol, alternatives, one after the other, and any
number of repetitions. -/
inductive Regex where
  | empty
  | epsilon
  | symbol (a : Symbol)
  | union (r s : Regex)
  | concat (r s : Regex)
  | star (r : Regex)
deriving DecidableEq, Inhabited, Repr

namespace Regex

def ofLabel : Label → Regex
  | .symbol a => .symbol a
  | .epsilon => .epsilon

def isStar : Regex → Bool
  | .star _ => true
  | _ => false

/-- Either of two expressions. No word adds nothing, nor does an expression that is there already, nor the
empty word to a star. -/
def mkUnion (r s : Regex) : Regex :=
  if r = .empty then s
  else if s = .empty then r
  else if r = s then r
  else if r = .epsilon ∧ s.isStar then s
  else if r.isStar ∧ s = .epsilon then r
  else .union r s

/-- One expression after the other. No word leaves no word, the empty word adds nothing. -/
def mkConcat (r s : Regex) : Regex :=
  if r = .empty ∨ s = .empty then .empty
  else if r = .epsilon then s
  else if s = .epsilon then r
  else .concat r s

/-- Repetitions of an expression. The empty word may be left out of alternatives to be repeated. -/
def mkStar : Regex → Regex
  | .empty => .epsilon
  | .epsilon => .epsilon
  | .star r => .star r
  | .union r s => if r = .epsilon then mkStar s else if s = .epsilon then mkStar r else .star (.union r s)
  | r => .star r

end Regex

end FiniteAutomata
