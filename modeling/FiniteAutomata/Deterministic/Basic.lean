import FiniteAutomata.Automaton.Run
import FiniteAutomata.Error

/-!
Deterministic automata: automata read with a single current state. The transition function may be partial;
a missing transition rejects the rest of the word.
-/

namespace FiniteAutomata

/-- An automaton that is read deterministically: its least start state is the start, and the least target of
a state on a symbol is the next state. -/
structure Deterministic where
  automaton : Automaton
deriving DecidableEq

namespace Deterministic

instance : EmptyCollection Deterministic := ⟨⟨∅⟩⟩

/-- Accepts an automaton as deterministic if it is. -/
def ofAutomaton (A : Automaton) : Except AutomatonError Deterministic :=
  if A.isDeterministic then .ok ⟨A⟩ else .error .notDeterministic

def numStates (D : Deterministic) : Nat := D.automaton.numStates

def symbols (D : Deterministic) : List Symbol := D.automaton.symbols

def finals (D : Deterministic) : StateSet := D.automaton.finals

/-! ### Running -/

def start? (D : Deterministic) : Option Nat := D.automaton.starts.min?

/-- The id of the state after `i` on `a`. -/
def next? (D : Deterministic) (i : Nat) (a : Symbol) : Option Nat :=
  (D.automaton.table.targets i (.symbol a)).min?

def after? (D : Deterministic) (i : Nat) (w : List Symbol) : Option Nat := w.foldlM D.next? i

/-- Whether the walk along the word spelled by the labels ends in a final state. -/
def accepts (D : Deterministic) (ls : List Label) : Bool :=
  (D.start?.bind fun i => D.after? i (Label.spelled ls)).any D.finals.contains

def startState? (D : Deterministic) : Option State := D.start?.map D.automaton.state

def transition? (D : Deterministic) (q : State) (a : Symbol) : Option State :=
  ((D.automaton.stateId? q).bind fun i => D.next? i a).map D.automaton.state

/-! ### Reachable states -/

/-- The states after `i` on one symbol of the alphabet. -/
def successors (D : Deterministic) (i : Nat) : StateSet := .ofList (D.symbols.filterMap (D.next? i))

/-- The states that words over the alphabet lead to. -/
def reachable (D : Deterministic) : StateSet :=
  match D.start? with
  | some i => StateSet.reach D.automaton.table.buckets.size D.successors (.singleton i)
  | none => ∅

/-- Whether no reachable state is final. -/
def isEmpty (D : Deterministic) : Bool := !D.reachable.intersects D.finals

/-! ### The completed transition function -/

/-- The dead state, which stands for a missing transition: the id after the last state. -/
def dead (D : Deterministic) : Nat := D.numStates

/-- The state after `i` on `a`, where a missing transition leads to the dead state for good. -/
def next (D : Deterministic) (i : Nat) (a : Symbol) : Nat :=
  if i = D.dead then D.dead else (D.next? i a).getD D.dead

/-- The state after `i` on a word, dead once a transition is missing. -/
def after (D : Deterministic) (i : Nat) (w : List Symbol) : Nat := w.foldl D.next i

end Deterministic

end FiniteAutomata
