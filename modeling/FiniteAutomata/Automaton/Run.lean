import FiniteAutomata.Automaton.Basic
import FiniteAutomata.StateSet.Reach

/-!
Running an automaton on a word. A run keeps the set of all states the automaton may be in, closed under
empty moves. The number of slots of the table bounds the rounds of every search here: a round that finds
something new uses up at least one slot.
-/

namespace FiniteAutomata.Automaton

/-! ### Empty moves -/

/-- The states reached from `S` by empty moves. -/
def closure (A : Automaton) (S : StateSet) : StateSet :=
  StateSet.reach A.table.buckets.size (fun i => A.table.targets i .epsilon) S

/-- The states reached from `q` by empty moves, by name; an unknown state reaches none. -/
def eclose (A : Automaton) (q : State) : List State :=
  match A.stateId? q with
  | some i => A.sortedMembers (A.closure (.singleton i))
  | none => []

/-- The states reached from those of `qs` that are known by empty moves, by name. -/
def ecloseAll (A : Automaton) (qs : List State) : List State :=
  A.sortedMembers (A.closure (.ofList (qs.filterMap A.stateId?)))

/-! ### Words -/

/-- The states that `S` leads to on one symbol, empty moves after it included. -/
def step (A : Automaton) (S : StateSet) (a : Symbol) : StateSet :=
  A.closure (S.biUnion fun i => A.table.targets i (.symbol a))

/-- The states that the automaton may be in before it reads anything. -/
def initial (A : Automaton) : StateSet := A.closure A.starts

/-- The states that the automaton may be in after a word. -/
def run (A : Automaton) (w : List Symbol) : StateSet := w.foldl A.step A.initial

/-- Whether the word spelled by the labels may end in a final state. -/
def accepts (A : Automaton) (ls : List Label) : Bool := (A.run (Label.spelled ls)).intersects A.finals

/-! ### Questions about the whole automaton -/

/-- Whether there is at most one start state, no empty move, and at most one target for each state and
symbol. -/
def isDeterministic (A : Automaton) : Bool := A.starts.size ≤ 1 && A.table.isDeterministic

/-- The states that `i` leads to by one transition with a symbol of the alphabet or the empty label. -/
def successors (A : Automaton) (i : Nat) : StateSet :=
  A.labels.foldl (fun S l => S ∪ A.table.targets i l) ∅

/-- Whether no final state is reached from a start state. -/
def isEmpty (A : Automaton) : Bool :=
  !(StateSet.reach A.table.buckets.size A.successors A.starts).intersects A.finals

end FiniteAutomata.Automaton
