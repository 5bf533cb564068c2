import FiniteAutomata.Automaton.Run
import FiniteAutomata.Regex.Basic

/-!
The automaton of a regular expression. It is put together from parts with one entry and one exit, joined by
empty moves; its states are numbered in the order in which they are made, and named by their numbers.
-/

namespace FiniteAutomata

/-- An automaton under construction: the number of states made, and the transitions in the order in which
they were made. -/
structure Wiring where
  count : Nat
  edges : List Transition
deriving DecidableEq

namespace Wiring

def fresh (W : Wiring) : Nat × Wiring := (W.count, { W with count := W.count + 1 })

def join (W : Wiring) (i : Nat) (l : Label) (j : Nat) : Wiring := { W with edges := W.edges ++ [⟨i, l, j⟩] }

/-- Adds the part for an expression, entered in `i`; gives its exit. -/
def build : Regex → Nat → Wiring → Nat × Wiring
  | .empty, _, W => W.fresh
  | .epsilon, i, W =>
    let (j, W) := W.fresh
    (j, W.join i .epsilon j)
  | .symbol a, i, W =>
    let (j, W) := W.fresh
    (j, W.join i (.symbol a) j)
  | .concat r s, i, W =>
    let (j, W) := build r i W
    build s j W
  | .union r s, i, W =>
    let (i₁, W) := W.fresh
    let (i₂, W) := W.fresh
    let W := (W.join i .epsilon i₁).join i .epsilon i₂
    let (j₁, W) := build r i₁ W
    let (j₂, W) := build s i₂ W
    let (j, W) := W.fresh
    (j, (W.join j₁ .epsilon j).join j₂ .epsilon j)
  | .star r, i, W =>
    let (i₁, W) := W.fresh
    let (j₁, W) := build r i₁ W
    let (j, W) := W.fresh
    (j, (((W.join j₁ .epsilon i₁).join j₁ .epsilon j).join i .epsilon i₁).join i .epsilon j)

/-- The automaton with the states and transitions made, one start state and one final state. -/
def toAutomaton (W : Wiring) (start final : Nat) : Automaton :=
  let A : Automaton :=
    { states := (List.range W.count).map fun i => ⟨toString i⟩
      starts := .singleton start
      finals := .singleton final }
  W.edges.foldl (fun A t => (A.connect t).2) A

end Wiring

namespace Regex

def toAutomaton (r : Regex) : Automaton :=
  let (start, W) := (⟨0, []⟩ : Wiring).fresh
  let (final, W) := Wiring.build r start W
  W.toAutomaton start final

/-- Whether the word spelled by the labels matches the expression. -/
def accepts (r : Regex) (ls : List Label) : Bool := r.toAutomaton.accepts ls

end Regex

end FiniteAutomata
