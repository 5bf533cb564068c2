import FiniteAutomata.Automaton.Basic

/-!
The transitions of an automaton as a map by names: for each state that has transitions, for each of its
labels, the states that the label leads to. The targets are collected in whatever order the transitions
come, and then put in the order of their names.
-/

namespace FiniteAutomata.Automaton

/-- For each source and each of its labels, the targets. -/
abbrev TransitionMap := OrderedMap State (OrderedMap Label (List State))

/-- Puts a target behind those that the label leads to from the source so far. -/
def TransitionMap.push (m : TransitionMap) (p : State) (l : Label) (q : State) : TransitionMap :=
  m.alter p fun byLabel =>
    some ((byLabel.getD ∅).alter l fun targets => some (targets.getD [] ++ [q]))

/-- All targets in the order of their names. -/
def TransitionMap.sort (m : TransitionMap) : TransitionMap := m.mapValues (·.mapValues State.sort)

/-- Transitions by the names of their states. -/
def namedTransitions (A : Automaton) (ts : List Transition) : List (State × Label × State) :=
  ts.map fun t => (A.state t.source, t.label, A.state t.target)

/-- The map of the transitions, which may come in any order. -/
def transitionMapFrom (A : Automaton) (ts : List Transition) : TransitionMap :=
  ((A.namedTransitions ts).foldl (fun (m : TransitionMap) (p, l, q) => m.push p l q) ∅).sort

def transitionMap (A : Automaton) : TransitionMap := A.transitionMapFrom A.table.edges

/-- The named transitions that a map holds, in its order. -/
def TransitionMap.flatten (m : TransitionMap) : List (State × Label × State) :=
  m.entries.flatMap fun (p, byLabel) => byLabel.entries.flatMap fun (l, targets) => targets.map (p, l, ·)

end FiniteAutomata.Automaton
