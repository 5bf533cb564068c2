import FiniteAutomata.Proofs.Elimination.Enumeration

/-!
One elimination step (`removal_eliminate`), in any graph that eliminations make of an automaton. Such a graph is well
formed, because the graph of an automaton is and no step changes that. The words spelled from start to final states
stay, since neither end of such a path is the state taken away; what the ways through that state become is in
`matches_edge_eliminate`.
-/

namespace FiniteAutomata.Graph

variable {A : Automaton} {G : Graph} {k : Nat}

/-- The graphs that eliminations, and the choice of one final state, make of the graph of `A`, in whatever order its
transitions came. -/
inductive ReducedFrom (A : Automaton) : Graph → Prop
  | joined {ts : List Transition} : A.table.EnumeratedBy ts → ReducedFrom A (joinedFrom A ts)
  | eliminate {G : Graph} (k : Nat) : ReducedFrom A G → ReducedFrom A (G.eliminate k)
  | keepFinal {G : Graph} (i : Nat) : ReducedFrom A G → ReducedFrom A (G.keepFinal i)

theorem WellFormed.keepFinal (h : G.WellFormed) (i : Nat) : (G.keepFinal i).WellFormed :=
  ⟨h.edge_ne_empty, h.source_mem, h.target_mem⟩

theorem ReducedFrom.wellFormed (hA : A.WellFormed) (h : ReducedFrom A G) : G.WellFormed := by
  induction h with
  | joined hts => exact (mirrors_addTransitions hA hts.mem_iff).wellFormed_withOneStart hA
  | eliminate k _ ih => exact ih.eliminate k
  | keepFinal i _ ih => exact ih.keepFinal i

/-- `H` is what is left of `G` without the state `k`: the same words from start to final states, one edge at most
from one state to another, none of them without words and none that touches a state no longer there. -/
structure Removal (G : Graph) (k : Nat) (H : Graph) : Prop where
  words : ∀ i ∈ G.starts, ∀ j ∈ G.finals, ∀ w, H.Path i w j ↔ G.Path i w j
  starts : H.starts = G.starts
  finals : H.finals = G.finals
  one_edge : (H.edges.entries.map (·.1)).Nodup
  edge_ne_empty : ∀ a, (a, .empty) ∉ H.edges.entries
  ends_mem : ∀ a r, (a, r) ∈ H.edges.entries → a.source ∈ H.states ∧ a.target ∈ H.states
  mem_states_iff : ∀ i, i ∈ H.states ↔ i ∈ G.states ∧ i ≠ k
  numStates : H.numStates + 1 = G.numStates

theorem removal_eliminate (hA : A.WellFormed) (hG : ReducedFrom A G) (hk : k ∈ G.states) (hs : k ∉ G.starts)
    (hf : k ∉ G.finals) : G.Removal k (G.eliminate k) where
  words i hi j hj w := path_eliminate_iff (fun he => hs (he ▸ hi)) fun he => hf (he ▸ hj)
  starts := (gains_eliminate G k).starts
  finals := (gains_eliminate G k).finals
  one_edge := (G.eliminate k).edges.keys_nodup
  edge_ne_empty a ha :=
    ((hG.wellFormed hA).eliminate k).edge_ne_empty a (OrderedMap.get?_eq_some_iff.mpr ha)
  ends_mem a r ha := by
    have hwf := (hG.wellFormed hA).eliminate k
    have hget := OrderedMap.get?_eq_some_iff.mpr ha
    exact ⟨hwf.source_mem a r hget, hwf.target_mem a r hget⟩
  mem_states_iff i := by rw [states_eliminate, StateSet.mem_erase, and_comm]
  numStates := by
    rw [numStates, states_eliminate]
    exact StateSet.size_erase hk

/-- Two final states; in between, a state with a loop that is left for the state from which it is entered, and one
more on the way on. -/
def junction : Automaton := .ofEdits
  [.addStart ⟨"p"⟩, .addTransition ⟨"p"⟩ (.symbol ⟨"a"⟩) ⟨"m"⟩, .addTransition ⟨"m"⟩ (.symbol ⟨"b"⟩) ⟨"m"⟩,
    .addTransition ⟨"m"⟩ (.symbol ⟨"c"⟩) ⟨"p"⟩, .addEpsilon ⟨"m"⟩ ⟨"n"⟩, .addTransition ⟨"n"⟩ (.symbol ⟨"a"⟩) ⟨"f"⟩,
    .addTransition ⟨"m"⟩ (.symbol ⟨"a"⟩) ⟨"f"⟩, .addTransition ⟨"p"⟩ (.symbol ⟨"b"⟩) ⟨"f"⟩, .addFinal ⟨"f"⟩,
    .addFinal ⟨"n"⟩]

/-- The graph of the automaton with one final state, and the state on the way taken away. -/
def junctionReduced : Graph := ((joinedFrom junction junction.table.edges).keepFinal 3).eliminate 2

theorem junctionReduced_removal :
    (junction.WellFormed ∧ ReducedFrom junction junctionReduced) ∧
    (1 ∈ junctionReduced.states ∧ 1 ∉ junctionReduced.starts ∧ 1 ∉ junctionReduced.finals) ∧
      junctionReduced.Removal 1 (junctionReduced.eliminate 1) := by
  have hA : junction.WellFormed := Automaton.wellFormed_ofEdits _
  have hG : ReducedFrom junction junctionReduced :=
    .eliminate 2 (.keepFinal 3 (.joined junction.table.enumeratedBy_edges))
  have hk : 1 ∈ junctionReduced.states := by decide +kernel
  have hs : 1 ∉ junctionReduced.starts := by decide +kernel
  have hf : 1 ∉ junctionReduced.finals := by decide +kernel
  exact ⟨⟨hA, hG⟩, ⟨hk, hs, hf⟩, removal_eliminate hA hG hk hs hf⟩

end FiniteAutomata.Graph
