import FiniteAutomata.Proofs.Elimination.Removal
import FiniteAutomata.Proofs.Regex.Normal

/-!
What the edges of a graph carry is made by the simplifying constructors out of the labels of an automaton, and is never
the empty expression (`Graph.Simplified`). Adding edges and taking states away keep that, and what is read off a graph in
the end is made in the same way, so edges and extracted expressions are normal (`simplification_normal`). In
particular an extracted expression without words is the empty expression itself.
-/

namespace FiniteAutomata

namespace Graph

variable {A : Automaton} {G : Graph} {i j k : Nat} {r : Regex} {ts : List Transition}

/-- Every edge carries an expression of the simplifying constructors, other than the empty one. -/
def Simplified (G : Graph) : Prop := ∀ a r, G.edges.get? a = some r → r.Simplified ∧ r ≠ .empty

theorem Simplified.edge (hG : G.Simplified) (i j : Nat) : (G.edge i j).Simplified := by
  rw [Graph.edge]
  cases h : G.edges.get? ⟨i, j⟩ with
  | none => exact .empty
  | some r => exact (hG _ r h).1

theorem Simplified.reduced (hG : G.Simplified) {a : Arrow} (h : (a, r) ∈ G.edges.entries) : r.Reduced := by
  obtain ⟨hr, hne⟩ := hG a r (OrderedMap.get?_eq_some_iff.mpr h)
  exact hr.normal.resolve_left hne

/-! ### Adding edges -/

theorem simplified_bare (A : Automaton) : (bare A).Simplified := nofun

theorem Simplified.addEdge (hG : G.Simplified) (hr : r.Simplified) (i j : Nat) : (G.addEdge i j r).Simplified := by
  intro a s
  rw [get?_addEdge]
  split
  · split
    · exact nofun
    · rename_i hne
      rintro ⟨⟩
      exact ⟨(hG.edge i j).mkUnion hr, hne⟩
  · exact hG a s

theorem Simplified.foldl {β : Type} {f : Graph → β → Graph} {l : List β} (hG : G.Simplified)
    (hf : ∀ x ∈ l, ∀ H : Graph, H.Simplified → (f H x).Simplified) : (l.foldl f G).Simplified :=
  List.foldlRecOn l f hG fun H hH x hx => hf x hx H hH

theorem Simplified.addTransitions (hG : G.Simplified) (ts : List Transition) : (G.addTransitions ts).Simplified :=
  hG.foldl fun t _ _ hH => hH.addEdge (Regex.simplified_ofLabel t.label) t.source t.target

theorem Simplified.withOneStart (hG : G.Simplified) (A : Automaton) : (withOneStart A G).Simplified := by
  unfold Graph.withOneStart
  split
  · exact hG.foldl (l := G.starts.toList) (f := fun H j => H.addEdge A.numStates j .epsilon)
      fun j _ _ hH => hH.addEdge .epsilon A.numStates j
  · exact hG

theorem simplified_joinedFrom (A : Automaton) (ts : List Transition) : (joinedFrom A ts).Simplified :=
  ((simplified_bare A).addTransitions ts).withOneStart A

/-! ### Taking states away -/

theorem Simplified.without (hG : G.Simplified) (k : Nat) : (G.without k).Simplified :=
  fun a r h => hG a r (get?_without.mp h).1

theorem Simplified.eliminate (hG : G.Simplified) (k : Nat) : (G.eliminate k).Simplified := by
  rw [eliminate_eq]
  refine (hG.without k).foldl fun e he H hH => hH.foldl fun f hf K hK => ?_
  have hin := (hG _ _ (mem_waysIn.mp he).1).1
  have hout := (hG _ _ (mem_waysOut.mp hf).1).1
  exact hK.addEdge ((hin.mkConcat (hG.edge k k).mkStar).mkConcat hout) e.1.source f.1.target

theorem Simplified.eliminateBasic (hG : G.Simplified) : G.eliminateBasic.Simplified :=
  hG.foldl fun k _ _ hH => hH.eliminate k

theorem ReducedFrom.simplified (h : ReducedFrom A G) : G.Simplified := by
  induction h with
  | joined => exact simplified_joinedFrom A _
  | eliminate k _ ih => exact ih.eliminate k
  | keepFinal i _ ih => exact ih

/-! ### Reading the expression off -/

theorem Simplified.between (hG : G.Simplified) (s f : Nat) : (G.between s f).Simplified := by
  unfold Graph.between
  have hloop := (hG.edge f f).mkStar
  split
  · exact (hG.edge s s).mkStar
  · have hround := ((hG.edge s f).mkConcat hloop).mkConcat (hG.edge f s)
    exact (((hG.edge s s).mkUnion hround).mkStar.mkConcat (hG.edge s f)).mkConcat hloop

theorem Simplified.toRegex (hG : G.Simplified) : G.toRegex.Simplified := by
  unfold Graph.toRegex
  split
  · exact .empty
  · rename_i s _
    refine List.foldlRecOn G.finals.toList _ .empty fun r hr f _ => hr.mkUnion ?_
    have hkeep : (G.keepFinal f).Simplified := hG
    exact hkeep.eliminateBasic.between s f

end Graph

namespace Automaton

theorem normal_toRegexFrom (A : Automaton) (ts : List Transition) : (A.toRegexFrom ts).Normal :=
  (Graph.simplified_joinedFrom A ts).toRegex.normal

theorem normal_toRegex (A : Automaton) : A.toRegex.Normal := A.normal_toRegexFrom A.table.edges

end Automaton

open Regex (mkUnion mkStar)

/-- Expressions of the simplifying constructors are normal, and so are those that edges of graphs carry and those that
are extracted from automata, whatever the order of the transitions; and a star stays as it is under another star, and
with the empty word as an alternative before it is taken. -/
theorem simplification_normal :
    (∀ r : Regex, r.Simplified → r.Normal) ∧
    (∀ (A : Automaton) (ts : List Transition) (a : Arrow) (r : Regex),
      (a, r) ∈ ((Graph.bare A).addTransitions ts).edges.entries → r.Reduced) ∧
    (∀ (A : Automaton) (G : Graph), Graph.ReducedFrom A G → ∀ a r, (a, r) ∈ G.edges.entries → r.Reduced) ∧
    (∀ A : Automaton, A.toRegex.Normal ∧ ∀ ts, (A.toRegexFrom ts).Normal) ∧
    ∀ r : Regex, mkStar (mkStar r) = mkStar r ∧ mkStar (mkUnion .epsilon r) = mkStar r ∧
      mkStar (mkUnion r .epsilon) = mkStar r := by
  refine ⟨fun r hr => hr.normal, fun A ts a r h => ?_, fun A G hG a r h => ?_, fun A => ?_, fun r => ?_⟩
  · exact ((Graph.simplified_bare A).addTransitions ts).reduced h
  · exact hG.simplified.reduced h
  · exact ⟨A.normal_toRegex, A.normal_toRegexFrom⟩
  · exact ⟨r.mkStar_mkStar, r.mkStar_mkUnion_epsilon_left, r.mkStar_mkUnion_epsilon_right⟩

/-- What joins the start and the final state of the reduced junction once its loop is away as well. -/
def throughJunction : Regex :=
  .union (.symbol ⟨"b"⟩) (.concat (.concat (.symbol ⟨"a"⟩) (.star (.symbol ⟨"b"⟩))) (.symbol ⟨"a"⟩))

theorem throughJunction_normal :
    (throughJunction.Simplified ∧ throughJunction.Normal) ∧
    ((⟨0, 1⟩, .symbol ⟨"a"⟩) ∈ ((Graph.bare Graph.junction).addTransitions Graph.junction.table.edges).edges.entries ∧
      (Regex.symbol ⟨"a"⟩).Reduced) ∧
    (Graph.ReducedFrom Graph.junction (Graph.junctionReduced.eliminate 1) ∧
      (⟨0, 3⟩, throughJunction) ∈ (Graph.junctionReduced.eliminate 1).edges.entries ∧ throughJunction.Reduced) := by
  obtain ⟨hnormal, hplain, hreduced, -, -⟩ := simplification_normal
  have hb : (Regex.symbol ⟨"b"⟩).Simplified := .symbol _
  have ha : (Regex.symbol ⟨"a"⟩).Simplified := .symbol _
  have hr : throughJunction.Simplified := hb.mkUnion ((ha.mkConcat hb.mkStar).mkConcat ha)
  have hG : Graph.ReducedFrom Graph.junction (Graph.junctionReduced.eliminate 1) :=
    .eliminate 1 (.eliminate 2 (.keepFinal 3 (.joined Graph.junction.table.enumeratedBy_edges)))
  have hfirst : (⟨0, 1⟩, .symbol ⟨"a"⟩) ∈
    ((Graph.bare Graph.junction).addTransitions Graph.junction.table.edges).edges.entries := by decide +kernel
  have hthrough : (⟨0, 3⟩, throughJunction) ∈ (Graph.junctionReduced.eliminate 1).edges.entries := by decide +kernel
  exact ⟨⟨hr, hnormal _ hr⟩, ⟨hfirst, hplain _ _ _ _ hfirst⟩, hG, hthrough, hreduced _ _ hG _ _ hthrough⟩

end FiniteAutomata
