import FiniteAutomata.Automaton.Product

/-!
Complements and differences. Final and other states change places, and what had no move on a symbol moves
to a new final state, the trap. This is the complement of the language if the automaton is deterministic and has a
start state. Without a start state it accepts nothing; if the automaton is not deterministic, a word may be accepted
before and after, and a determinized automaton is to be complemented instead.
-/

namespace FiniteAutomata.Automaton

/-- Whether some state that `i` reaches by empty moves has a transition on `a`. -/
def hasMove (A : Automaton) (i : Nat) (a : Symbol) : Bool :=
  (A.closure (.singleton i)).toList.any fun j => A.table.hasEdge j (.symbol a)

/-- The transitions into a trap: from each state on the symbols on which it has no move, and from the trap
itself on all of them. -/
def trapEdges (A : Automaton) (trap : Nat) : List Transition :=
  ((List.range A.numStates).flatMap fun i =>
    (A.symbols.filter fun a => !A.hasMove i a).map (⟨i, .symbol ·, trap⟩)) ++
  A.symbols.map (⟨trap, .symbol ·, trap⟩)

/-- The automaton with its final states flipped and its missing moves led to a final trap. -/
def complement (A : Automaton) : Automaton :=
  let (trap, B) := A.addState (A.fresh ⟨"trap"⟩)
  { A with
    states := B.states
    table := A.table.insertMany (A.trapEdges trap)
    finals := (.below A.numStates \ A.finals).insert trap }

/-- The automaton with more symbols in its alphabet. -/
def extend (A : Automaton) (as : List Symbol) : Automaton := { A with symbols := Symbol.join A.symbols as }

/-- The automaton of the words that `A` accepts and `B` does not, if `B` is deterministic: `B` is complemented
over the symbols of both. -/
def difference (A B : Automaton) : Automaton := A.intersection (B.extend A.symbols).complement

end FiniteAutomata.Automaton
