import FiniteAutomata.Automaton.Powerset
import FiniteAutomata.Deterministic.Refinement

/-!
Minimal deterministic automata. Each block of states that cannot be told apart becomes one state, named
after its members. States that accept nothing are left out, so the result stays partial; only the start
state is kept in any case.
-/

namespace FiniteAutomata

namespace Deterministic

/-- The state that stands for a block; the dead state has no name to contribute. -/
def merge (D : Deterministic) (block : StateSet) : State :=
  .merged (D.automaton.members (block.erase D.dead))

def blockOf? (blocks : List StateSet) (i : Nat) : Option StateSet := blocks.find? (·.contains i)

/-- The blocks that become states: those that are not dead, and the one of the start state. -/
def keptBlocks (D : Deterministic) (blocks : List StateSet) (start : Nat) : List StateSet :=
  blocks.filter fun B => !B.contains D.dead || B.contains start

/-- The block that a block leads to on a symbol, read off its least member, unless that is the dead one. -/
def nextBlock? (D : Deterministic) (blocks : List StateSet) (B : StateSet) (a : Symbol) : Option StateSet :=
  ((B.min?.map (D.next · a)).bind (blockOf? blocks)).filter fun C => !C.contains D.dead

/-- The blocks that a block leads to, each with the symbol; the dead one leads nowhere. -/
def blockMoves (D : Deterministic) (blocks : List StateSet) (B : StateSet) : List (Label × StateSet) :=
  if B.contains D.dead then []
  else D.symbols.filterMap fun a => (D.nextBlock? blocks B a).map (.symbol a, ·)

/-- The automaton over the same alphabet whose states are the kept blocks. A block makes its state final or not. -/
def quotientLayout (D : Deterministic) (blocks : List StateSet) (start : Nat) : Layout StateSet where
  symbols := D.symbols
  keys := D.keptBlocks blocks start
  name := D.merge
  mark? B := some (B.intersects D.finals)
  starts := (blockOf? blocks start).toList
  moves := D.blockMoves blocks

/-- The automaton that has one state for each block. -/
def quotient (D : Deterministic) (blocks : List StateSet) (start : Nat) : Automaton :=
  (D.quotientLayout blocks start).build

/-- The minimal automaton with the same language. Without a start state it is the empty automaton, which has
no alphabet either. -/
def minimize (D : Deterministic) : Deterministic :=
  match D.start? with
  | none => ∅
  | some start => ⟨D.quotient D.blocks start⟩

end Deterministic

/-- The minimal deterministic automaton with the same language. -/
def Automaton.minimize (A : Automaton) : Deterministic := A.determinize.minimize

end FiniteAutomata
