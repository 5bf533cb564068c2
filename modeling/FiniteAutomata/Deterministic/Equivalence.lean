import FiniteAutomata.Automaton.Powerset
import FiniteAutomata.DisjointSets

/-!
Language equivalence of deterministic automata. States that must accept the same words if the start states
do are joined, as long as joining finds something new; the automata differ if a final state is joined with
one that is not.
-/

namespace FiniteAutomata

/-- Two deterministic automata side by side. Their states are numbered in one row: those of the left one,
its dead state, those of the right one, its dead state. -/
structure SideBySide where
  left : Deterministic
  right : Deterministic

namespace SideBySide

/-- Where the states of the right automaton begin. -/
def offset (P : SideBySide) : Nat := P.left.dead + 1

def size (P : SideBySide) : Nat := P.offset + P.right.dead + 1

def symbols (P : SideBySide) : List Symbol := Symbol.join P.left.symbols P.right.symbols

def next (P : SideBySide) (i : Nat) (a : Symbol) : Nat :=
  if i < P.offset then P.left.next i a else P.offset + P.right.next (i - P.offset) a

/-- Whether `i` is a final state of its automaton; a dead state is not. -/
def accepting (P : SideBySide) (i : Nat) : Bool :=
  if i < P.offset then i != P.left.dead && P.left.finals.contains i
  else i - P.offset != P.right.dead && P.right.finals.contains (i - P.offset)

/-- The two start states; an automaton without one starts dead. -/
def roots (P : SideBySide) : Nat × Nat :=
  (P.left.start?.getD P.left.dead, P.offset + P.right.start?.getD P.right.dead)

/-- Joins what `a` leads to from a joined pair; a pair that was apart is to be looked at. -/
def joinOn (P : SideBySide) (i j : Nat) (work : DisjointSets × List (Nat × Nat)) (a : Symbol) :
    DisjointSets × List (Nat × Nat) :=
  let (joined, sets) := work.1.union (P.next i a) (P.next j a)
  (sets, if joined then (P.next i a, P.next j a) :: work.2 else work.2)

/-- Looks at joined pairs, at most `fuel` of them, until none is left or one tells the automata apart. -/
def agree (P : SideBySide) : Nat → DisjointSets → List (Nat × Nat) → Bool
  | 0, _, _ => true
  | _ + 1, _, [] => true
  | fuel + 1, sets, (i, j) :: pairs =>
    if P.accepting i != P.accepting j then false
    else
      let (sets, pairs) := P.symbols.foldl (P.joinOn i j) (sets, pairs)
      P.agree fuel sets pairs

/-- Whether both automata accept the same words. Each pair looked at joins two sets, so there are fewer
pairs than states. -/
def equivalent (P : SideBySide) : Bool :=
  let (_, sets) := (DisjointSets.discrete P.size).union P.roots.1 P.roots.2
  P.agree P.size sets [P.roots]

end SideBySide

def Deterministic.isEquivalentTo (D E : Deterministic) : Bool := SideBySide.equivalent ⟨D, E⟩

def Automaton.isEquivalentTo (A B : Automaton) : Bool := A.determinize.isEquivalentTo B.determinize

end FiniteAutomata
