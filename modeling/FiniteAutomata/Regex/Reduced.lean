import FiniteAutomata.Regex.Basic

/-!
Reduced expressions: those in which the empty language and the empty word stand only where they mean
something, no alternative is written twice in a row, and no star stands over a star.
-/

namespace FiniteAutomata.Regex

/-- Whether the expression is a choice with the empty word as one of its two alternatives. -/
def offersEpsilon : Regex → Bool
  | .union r s => r = .epsilon ∨ s = .epsilon
  | _ => false

/-- An expression without the empty language in which nothing can be left out. -/
inductive Reduced : Regex → Prop
  | epsilon : Reduced .epsilon
  | symbol (a : Symbol) : Reduced (.symbol a)
  | union {r s : Regex} : Reduced r → Reduced s → r ≠ s → ¬(r = .epsilon ∧ s.isStar = true) →
      ¬(r.isStar = true ∧ s = .epsilon) → Reduced (.union r s)
  | concat {r s : Regex} : Reduced r → Reduced s → r ≠ .epsilon → s ≠ .epsilon → Reduced (.concat r s)
  | star {r : Regex} : Reduced r → r ≠ .epsilon → r.isStar = false → r.offersEpsilon = false →
      Reduced (.star r)

/-- The empty language, or a reduced expression. -/
def Normal (r : Regex) : Prop := r = .empty ∨ Reduced r

end FiniteAutomata.Regex
