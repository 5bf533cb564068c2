import FiniteAutomata.Automaton.Basic

/-!
Automata laid out from keys. The states of a powerset automaton, of a product or of a minimized automaton stand for
sets, pairs or blocks of states of other automata. Such a key is given a state when it is found, and from then on the
id of that state is kept with it: start states and transitions are set between ids, without another look at names.
Only when a state is given does its name count; keys of one name are given one state.
-/

namespace FiniteAutomata

/-- What an automaton is laid out from: its alphabet, the keys in the order in which they are given states, the names
and final marks of these, the keys of start states, and where each key leads. A state may also be left as it is
marked. -/
structure Layout (κ : Type) where
  symbols : List Symbol
  keys : List κ
  name : κ → State
  mark? : κ → Option Bool
  starts : List κ
  moves : κ → List (Label × κ)

namespace Layout

/-- The ids of the states that keys were given, and the automaton that has these states. -/
structure Given (κ : Type) where
  ids : List (κ × Nat) := []
  automaton : Automaton

variable {κ : Type}

/-- Gives a state to one more key and marks it; its id is kept in front of the others. -/
def give (L : Layout κ) (given : Given κ) (k : κ) : Given κ :=
  let (i, A) := given.automaton.addState (L.name k)
  let marked := match L.mark? k with
    | some final => A.setFinal i final
    | none => A
  ⟨(k, i) :: given.ids, marked⟩

/-- The states of some keys, without transitions. -/
def given (L : Layout κ) (ks : List κ) : Given κ := ks.foldl L.give { automaton := { symbols := L.symbols } }

/-- The moves of all keys. -/
def arcs (L : Layout κ) : List (κ × Label × κ) := L.keys.flatMap fun k => (L.moves k).map (k, ·)

/-- The transition between the states of two keys, if both were given one. -/
def transition? [DecidableEq κ] (ids : List (κ × Nat)) : κ × Label × κ → Option Transition
  | (k, l, k') => do return ⟨← ids.lookup k, l, ← ids.lookup k'⟩

/-- The automaton with a state for each key. -/
def build [DecidableEq κ] (L : Layout κ) : Automaton :=
  let ⟨ids, placed⟩ := L.given L.keys
  let started := { placed with starts := .ofList (L.starts.filterMap fun k => ids.lookup k) }
  (L.arcs.filterMap (transition? ids)).foldl (fun A t => (A.connect t).2) started

end Layout

end FiniteAutomata
