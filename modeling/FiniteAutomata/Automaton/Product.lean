import FiniteAutomata.Automaton.Layout
import FiniteAutomata.Automaton.Run
import FiniteAutomata.Search

/-!
Products of two automata. The states are pairs that can be reached together by reading the same symbols, each
named after its components; empty moves are part of the moves on symbols. Pairs whose names coincide become
one state, which is final or not as the last of them found is.
-/

namespace FiniteAutomata.Automaton

def pairsOf (S T : StateSet) : List (Nat × Nat) := S.toList.flatMap fun p => T.toList.map (p, ·)

/-- The pairs that two states lead to together on `a`. -/
def pairsOn (A B : Automaton) (pq : Nat × Nat) (a : Symbol) : List (Nat × Nat) :=
  pairsOf (A.step (.singleton pq.1) a) (B.step (.singleton pq.2) a)

/-- The pairs in which a run of both automata may start. -/
def startPairs (A B : Automaton) : List (Nat × Nat) := pairsOf A.initial B.initial

/-- The pairs that words over the shared symbols lead to, in the order of a breadth-first search. There are
no more steps than pairs. -/
def accessiblePairs (A B : Automaton) : List (Nat × Nat) :=
  Search.breadthFirst (A.numStates * B.numStates)
    (fun pq => (Symbol.shared A.symbols B.symbols).flatMap (A.pairsOn B pq)) (A.startPairs B)

def pairState (A B : Automaton) (pq : Nat × Nat) : State := .pair (A.state pq.1) (B.state pq.2)

/-- The pairs that a pair leads to, each with the symbol. -/
def pairMoves (A B : Automaton) (pq : Nat × Nat) : List (Label × (Nat × Nat)) :=
  (Symbol.shared A.symbols B.symbols).flatMap fun a => (A.pairsOn B pq a).map (.symbol a, ·)

/-- The automaton over the shared symbols whose states are the accessible pairs. A pair makes its state final or not,
as both components are. -/
def productLayout (A B : Automaton) : Layout (Nat × Nat) where
  symbols := Symbol.shared A.symbols B.symbols
  keys := A.accessiblePairs B
  name := A.pairState B
  mark? pq := some (A.finals.contains pq.1 && B.finals.contains pq.2)
  starts := A.startPairs B
  moves := A.pairMoves B

/-- The automaton of the words that both automata accept. -/
def intersection (A B : Automaton) : Automaton := (A.productLayout B).build

end FiniteAutomata.Automaton
