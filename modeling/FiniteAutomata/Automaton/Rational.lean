import FiniteAutomata.Automaton.Basic

/-!
The rational operations: union, concatenation and Kleene star. Operands are copied side by side into a new automaton.
Their states are tagged, so no name of one copy is one of the other, and they are found again by the ids that the
copies were given. The parts are joined by empty moves.
-/

namespace FiniteAutomata.Automaton

/-- Puts a copy of `B` beside what is in `A`: its symbols, its states with a tag in front of their names, and its
transitions, from copy to copy. The `exits` move to the copies of its start states. It also gives the id that the
copy of a state has. -/
def attach (A : Automaton) (exits : StateSet) (tag : String) (B : Automaton) : (Nat → Nat) × Automaton :=
  let (ids, placed) := (A.addSymbols B.symbols).addStates (B.states.map (.tagged tag))
  let copy := fun i => ids.getD i 0
  let moves := B.table.edges.map (.map copy) ++ Transition.emptyMoves exits (B.starts.map copy)
  (copy, moves.foldl (fun C t => (C.connect t).2) placed)

/-- The automaton of the words that either automaton accepts. A new start state, which comes first, moves to
the start states of both. -/
def union (A B : Automaton) : Automaton :=
  let (start, U) := (∅ : Automaton).addState ⟨"start"⟩
  let (left, U) := U.attach (.singleton start) "0:" A
  let (right, U) := U.attach (.singleton start) "1:" B
  { U with
    starts := .singleton start
    finals := A.finals.map left ∪ B.finals.map right }

/-- The automaton of a word of `A` followed by one of `B`. The final states of `A` move to the start states of
`B`. -/
def concatenate (A B : Automaton) : Automaton :=
  let (left, C) := (∅ : Automaton).attach ∅ "0:" A
  let (right, C) := C.attach (A.finals.map left) "1:" B
  { C with
    starts := A.starts.map left
    finals := B.finals.map right }

/-- The automaton of any number of words of `A` in a row. A new state, which comes last, is the only start
state and is final; it moves to the old start states, and the old final states move to it. -/
def kleeneStar (A : Automaton) : Automaton :=
  let (start, B) := A.addState (A.fresh ⟨"start"⟩)
  { A with
    states := B.states
    table := A.table.insertMany (
      Transition.emptyMoves (.singleton start) A.starts ++ Transition.emptyMoves A.finals (.singleton start))
    starts := .singleton start
    finals := A.finals.insert start }

end FiniteAutomata.Automaton
