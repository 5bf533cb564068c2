import FiniteAutomata.Automaton.Basic
import FiniteAutomata.Regex.Basic

/-!
The automaton of a regular expression, put together in place. Every new state is added by its name, which is
the next number of a counter that knows nothing of the states there are, and is addressed by the id it gets;
every transition joins the automaton as it is at that time.
-/

namespace FiniteAutomata

/-- An automaton under construction, and the number that names the next state. -/
structure Assembly where
  automaton : Automaton := ∅
  next : Nat := 0

namespace Assembly

def fresh (B : Assembly) : Nat × Assembly :=
  let (i, A) := B.automaton.addState ⟨toString B.next⟩
  (i, ⟨A, B.next + 1⟩)

def join (B : Assembly) (i : Nat) (l : Label) (j : Nat) : Assembly :=
  { B with automaton := (B.automaton.connect ⟨i, l, j⟩).2 }

/-- Adds the part for an expression, entered in `i`; gives its exit. -/
def build : Regex → Nat → Assembly → Nat × Assembly
  | .empty, _, B => B.fresh
  | .epsilon, i, B =>
    let (j, B) := B.fresh
    (j, B.join i .epsilon j)
  | .symbol a, i, B =>
    let (j, B) := B.fresh
    (j, B.join i (.symbol a) j)
  | .concat r s, i, B =>
    let (j, B) := build r i B
    build s j B
  | .union r s, i, B =>
    let (i₁, B) := B.fresh
    let (i₂, B) := B.fresh
    let B := (B.join i .epsilon i₁).join i .epsilon i₂
    let (j₁, B) := build r i₁ B
    let (j₂, B) := build s i₂ B
    let (j, B) := B.fresh
    (j, (B.join j₁ .epsilon j).join j₂ .epsilon j)
  | .star r, i, B =>
    let (i₁, B) := B.fresh
    let (j₁, B) := build r i₁ B
    let (j, B) := B.fresh
    (j, (((B.join j₁ .epsilon i₁).join j₁ .epsilon j).join i .epsilon i₁).join i .epsilon j)

end Assembly

/-- The automaton assembled for an expression, entered in its first state. -/
def Regex.assemble (r : Regex) : Automaton :=
  let (start, B) := Assembly.fresh {}
  let (final, B) := B.build r start
  { B.automaton with
    starts := B.automaton.starts.insert start
    finals := B.automaton.finals.insert final }

end FiniteAutomata
