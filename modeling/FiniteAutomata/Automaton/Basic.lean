import FiniteAutomata.Counting
import FiniteAutomata.TransitionTable

/-!
Finite automata with empty moves. An automaton holds its states in the order in which they were first
mentioned, and a state is addressed by its position there, its id. Adding a transition, or marking a state,
adds the states and the symbol it mentions; nothing takes a state or a symbol away again. The operations
that change an automaton also say whether the set they are about changed.
-/

namespace FiniteAutomata

/-- A finite automaton: states and symbols in the order of first mention, transitions, start states and
final states. -/
structure Automaton where
  states : List State := []
  symbols : List Symbol := []
  table : TransitionTable := ∅
  starts : StateSet := ∅
  finals : StateSet := ∅
deriving DecidableEq

namespace Automaton

instance : EmptyCollection Automaton := ⟨{}⟩

instance : Inhabited Automaton := ⟨∅⟩

/-! ### Views -/

def numStates (A : Automaton) : Nat := A.states.length

def numTransitions (A : Automaton) : Nat := A.table.size

def stateId? (A : Automaton) (q : State) : Option Nat := A.states.idxOf? q

/-- The state with the id `i`; an id that no state has stands for the state without a name. -/
def state (A : Automaton) (i : Nat) : State := A.states.getD i ⟨""⟩

/-- The states of a set of ids, by id. -/
def members (A : Automaton) (S : StateSet) : List State := S.toList.map A.state

/-- The states of a set of ids, by name. -/
def sortedMembers (A : Automaton) (S : StateSet) : List State := Ascending.ofList (A.members S)

def isStart (A : Automaton) (q : State) : Bool := (A.stateId? q).any A.starts.contains

def isFinal (A : Automaton) (q : State) : Bool := (A.stateId? q).any A.finals.contains

/-- The states that `q` leads to on `l`, by name. -/
def lookup (A : Automaton) (q : State) (l : Label) : List State :=
  match A.stateId? q with
  | some i => A.sortedMembers (A.table.targets i l)
  | none => []

/-- All labels that a transition may have: the alphabet, then the empty label. -/
def labels (A : Automaton) : List Label := A.symbols.map .symbol ++ [.epsilon]

/-! ### Adding and removing -/

/-- Adds a state unless it is there, and gives its id. -/
def addState (A : Automaton) (q : State) : Nat × Automaton :=
  match A.stateId? q with
  | some i => (i, A)
  | none => (A.numStates, { A with states := A.states ++ [q] })

/-- Adds states one after the other, and gives their ids. -/
def addStates (A : Automaton) : List State → List Nat × Automaton
  | [] => ([], A)
  | q :: qs =>
    let (i, B) := A.addState q
    let (ids, C) := B.addStates qs
    (i :: ids, C)

def addSymbol (A : Automaton) (a : Symbol) : Bool × Automaton :=
  if a ∈ A.symbols then (false, A) else (true, { A with symbols := A.symbols ++ [a] })

def addSymbols (A : Automaton) (as : List Symbol) : Automaton := as.foldl (fun B a => (B.addSymbol a).2) A

/-- Adds the symbol that a label reads, if it reads one. -/
def declare (A : Automaton) : Label → Automaton
  | .symbol a => (A.addSymbol a).2
  | .epsilon => A

def addStart (A : Automaton) (q : State) : Bool × Automaton :=
  let (i, B) := A.addState q
  let (added, starts) := B.starts.add i
  (added, { B with starts })

/-- Unmarks a start state; a state that is not there stays unknown. -/
def removeStart (A : Automaton) (q : State) : Bool × Automaton :=
  match A.stateId? q with
  | none => (false, A)
  | some i =>
    let (removed, starts) := A.starts.remove i
    (removed, { A with starts })

def addFinal (A : Automaton) (q : State) : Bool × Automaton :=
  let (i, B) := A.addState q
  let (added, finals) := B.finals.add i
  (added, { B with finals })

/-- Unmarks a final state; a state that is not there stays unknown. -/
def removeFinal (A : Automaton) (q : State) : Bool × Automaton :=
  match A.stateId? q with
  | none => (false, A)
  | some i =>
    let (removed, finals) := A.finals.remove i
    (removed, { A with finals })

/-- Adds a transition between ids; its symbol joins the alphabet. -/
def connect (A : Automaton) (t : Transition) : Bool × Automaton :=
  let B := A.declare t.label
  let (added, table) := B.table.add t
  (added, { B with table })

/-- Adds a transition; its source, its target and its symbol join the automaton, in this order. -/
def addTransition (A : Automaton) (p : State) (l : Label) (q : State) : Bool × Automaton :=
  let (i, B) := A.addState p
  let (j, C) := B.addState q
  C.connect ⟨i, l, j⟩

/-- Removes one transition; its states and its symbol stay. -/
def removeTransition (A : Automaton) (p : State) (l : Label) (q : State) : Bool × Automaton :=
  match A.stateId? p, A.stateId? q with
  | some i, some j =>
    let (removed, table) := A.table.remove ⟨i, l, j⟩
    (removed, { A with table })
  | _, _ => (false, A)

/-- Makes the state with the id `i` final or not. -/
def setFinal (A : Automaton) (i : Nat) (final : Bool) : Automaton :=
  { A with finals := if final then A.finals.insert i else A.finals.erase i }

/-! ### New states -/

/-- How many states have a name at least as long as that of `q`. -/
def numAsLong (A : Automaton) (q : State) : Nat :=
  A.states.countP fun p => decide (q.name.length ≤ p.name.length)

/-- A name that is taken is as long as itself, and shorter than itself with a prime. -/
theorem numAsLong_prime_lt {A : Automaton} {q : State} (h : q ∈ A.states) : A.numAsLong q.prime < A.numAsLong q := by
  refine countP_lt_countP (fun p _ hp => ?_) h (decide_eq_true (Nat.le_refl _)) (decide_eq_false ?_)
  · have hlonger := of_decide_eq_true hp
    rw [State.length_prime] at hlonger
    exact decide_eq_true (Nat.le_of_succ_le hlonger)
  · rw [State.length_prime]
    exact Nat.not_succ_le_self _

/-- A state named after `q` that is new to the automaton: the name gets one prime after the other for as long as it
is taken. -/
def fresh (A : Automaton) (q : State) : State :=
  if q ∈ A.states then A.fresh q.prime else q
termination_by A.numAsLong q
decreasing_by exact numAsLong_prime_lt ‹_›

end Automaton

end FiniteAutomata
