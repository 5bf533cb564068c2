import FiniteAutomata.Elimination.Graph
import FiniteAutomata.Regex.Language

/-!
Paths of a graph and the words they spell: each edge passed contributes a word of its expression. This is the
meaning that taking states away is held to.
-/

namespace FiniteAutomata.Graph

/-- `Path G i w j`: passing edges of `G` from `i` to `j`, with a word from each, spells `w`. -/
inductive Path (G : Graph) : Nat → List Symbol → Nat → Prop
  | nil (i : Nat) : Path G i [] i
  | cons {i j k : Nat} {v w : List Symbol} : Matches (G.edge i j) v → Path G j w k → Path G i (v ++ w) k

/-- A word belongs to the graph if some path from a start state to a final state spells it. -/
def Spells (G : Graph) (w : List Symbol) : Prop := ∃ i ∈ G.starts, ∃ j ∈ G.finals, G.Path i w j

/-- No edge carries the expression without words, and every edge joins two states of the graph. -/
structure WellFormed (G : Graph) : Prop where
  edge_ne_empty : ∀ a, G.edges.get? a ≠ some .empty
  source_mem : ∀ a r, G.edges.get? a = some r → a.source ∈ G.states
  target_mem : ∀ a r, G.edges.get? a = some r → a.target ∈ G.states

theorem Path.single {G : Graph} {i j : Nat} {w : List Symbol} (h : Matches (G.edge i j) w) : G.Path i w j := by
  have hp := Path.cons h (.nil j)
  rwa [List.append_nil] at hp

theorem Path.append {G : Graph} {i j k : Nat} {v w : List Symbol} (h : G.Path i v j) (h' : G.Path j w k) :
    G.Path i (v ++ w) k := by
  induction h with
  | nil => exact h'
  | cons he _ ih =>
    rw [List.append_assoc]
    exact .cons he (ih h')

end FiniteAutomata.Graph
