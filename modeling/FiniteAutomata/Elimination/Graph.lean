import FiniteAutomata.Automaton.Basic
import FiniteAutomata.Error
import FiniteAutomata.Regex.Basic

/-!
Graphs whose edges carry regular expressions, for taking states away one at a time. There is at most one edge
from one state to another: what joins the same two states is one expression with alternatives, in the order in which
the transitions came. That order may be any; the one taken by itself is that of the table. An edge that no word could
take is left out.
-/

namespace FiniteAutomata

structure Arrow where
  source : Nat
  target : Nat
deriving DecidableEq, Repr

namespace Arrow

/-- Arrows are ordered by source, then by target. -/
instance : Ord Arrow := ⟨compareLex (compareOn source) (compareOn target)⟩

instance : Std.TransOrd Arrow := inferInstanceAs (Std.TransCmp (compareLex _ _))

instance : Std.LawfulEqOrd Arrow where
  eq_of_compare {a b} h := by
    obtain ⟨hs, ht⟩ := compareLex_eq_eq.mp h
    have h₁ : a.source = b.source := Std.LawfulEqOrd.eq_of_compare hs
    have h₂ : a.target = b.target := Std.LawfulEqOrd.eq_of_compare ht
    cases a; cases b; cases h₁; cases h₂; rfl

def touches (a : Arrow) (i : Nat) : Bool := a.source == i || a.target == i

end Arrow

/-- A graph with an expression on each edge. -/
structure Graph where
  states : StateSet
  starts : StateSet
  finals : StateSet
  edges : OrderedMap Arrow Regex
deriving DecidableEq

namespace Graph

def numStates (G : Graph) : Nat := G.states.size

/-- What the edge from `i` to `j` carries; no word, if there is no edge. -/
def edge (G : Graph) (i j : Nat) : Regex := (G.edges.get? ⟨i, j⟩).getD .empty

/-- Adds one more way from `i` to `j`. -/
def addEdge (G : Graph) (i j : Nat) (r : Regex) : Graph :=
  { G with edges := G.edges.alter ⟨i, j⟩ fun old =>
      let merged := match old with
        | some s => Regex.mkUnion s r
        | none => r
      if merged = .empty then none else some merged }

/-! ### Graphs of automata -/

def addTransitions (G : Graph) (ts : List Transition) : Graph :=
  ts.foldl (fun G t => G.addEdge t.source t.target (.ofLabel t.label)) G

/-- The states of an automaton, without edges. -/
def bare (A : Automaton) : Graph := ⟨.below A.numStates, A.starts, A.finals, ∅⟩

/-- The graph with `i` as its only start state, from which the old start states are entered without reading
anything. -/
def enterFrom (G : Graph) (i : Nat) : Graph :=
  { G.starts.toList.foldl (fun (H : Graph) j => H.addEdge i j .epsilon) G with
    states := G.states.insert i
    starts := .singleton i }

/-- The graph with at most one start state: if there are several, a new one enters them. -/
def withOneStart (A : Automaton) (G : Graph) : Graph :=
  if G.starts.size > 1 then G.enterFrom A.numStates else G

/-- The graph of an automaton with at most one start state, its transitions added in the given order. -/
def joinedFrom (A : Automaton) (ts : List Transition) : Graph := withOneStart A ((bare A).addTransitions ts)

def joined (A : Automaton) : Graph := joinedFrom A A.table.edges

/-! ### Taking states away -/

/-- Takes a state away. Each way in and each way out become one edge, with repetitions of the loop between
them. -/
def eliminate (G : Graph) (i : Nat) : Graph :=
  let loop := Regex.mkStar (G.edge i i)
  let incoming := G.edges.entries.filter fun (a, _) => a.target == i && a.source != i
  let outgoing := G.edges.entries.filter fun (a, _) => a.source == i && a.target != i
  let rest : Graph := { G with states := G.states.erase i, edges := G.edges.filterKeys fun a => !a.touches i }
  incoming.foldl (fun (H : Graph) (a, r) =>
    outgoing.foldl (fun (H : Graph) (b, s) =>
      H.addEdge a.source b.target (.mkConcat (.mkConcat r loop) s)) H) rest

/-- The states that are neither start nor final. -/
def basicStates (G : Graph) : StateSet := G.states \ (G.starts ∪ G.finals)

/-- Takes all basic states away, in ascending order. -/
def eliminateBasic (G : Graph) : Graph := G.basicStates.toList.foldl eliminate G

/-- The graph with `i` as its only final state. -/
def keepFinal (G : Graph) (i : Nat) : Graph := { G with finals := .singleton i }

/-! ### Closed forms -/

/-- The words from `start` to `final` in a graph without other states: any number of loops and round trips,
then the way to the final state and any number of loops there. -/
def between (G : Graph) (start final : Nat) : Regex :=
  if start = final then .mkStar (G.edge start start)
  else
    let loopFinal := Regex.mkStar (G.edge final final)
    let roundTrip := Regex.mkConcat (.mkConcat (G.edge start final) loopFinal) (G.edge final start)
    let loopStart := Regex.mkStar (.mkUnion (G.edge start start) roundTrip)
    .mkConcat (.mkConcat loopStart (G.edge start final)) loopFinal

/-- The refusal of a graph, with the numbers that are to blame. -/
def notSimple (G : Graph) : AutomatonError := .notSimple G.starts.size G.finals.size G.numStates

/-- The expression of a graph with one start state, at most one final state and no other state. -/
def simpleRegex (G : Graph) : Except AutomatonError Regex :=
  if G.basicStates.isEmpty then
    match G.starts.toList, G.finals.toList with
    | [_], [] => .ok .empty
    | [start], [final] => .ok (G.between start final)
    | _, _ => .error G.notSimple
  else .error G.notSimple

end Graph

end FiniteAutomata
