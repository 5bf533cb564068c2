import Mathlib.Data.List.Nodup
import FiniteAutomata.Proofs.Elimination.Extraction
import FiniteAutomata.Proofs.TransitionTable

/-!
The transitions of an automaton may come in any order when its graph is made. The words of the expression that is
extracted do not depend on it (`matches_toRegexFrom_iff`). The expression itself does, because alternatives stand in
the order in which they came; but where one label at most joins each two states there are no alternatives to begin
with. Then transitions with the same ends are the same, those with different ends touch different edges, and the
graph that every elimination begins with is the same whatever the order (`addTransitions_perm`).
-/

namespace FiniteAutomata

namespace TransitionTable

variable {T : TransitionTable}

/-- No two states are joined by different labels. -/
def SinglyLabelled (T : TransitionTable) : Prop :=
  ∀ t ∈ T, ∀ u ∈ T, t.source = u.source → t.target = u.target → t.label = u.label

theorem singlyLabelled_iff : T.SinglyLabelled ↔ T.hasParallel = false := by
  simp [SinglyLabelled, hasParallel]

end TransitionTable

namespace Graph

variable {G : Graph} {i j p q : Nat} {r s : Regex} {ts us : List Transition}

/-- Edges of different places may be added in either order. -/
theorem addEdge_comm (h : (⟨i, j⟩ : Arrow) ≠ ⟨p, q⟩) :
    (G.addEdge i j r).addEdge p q s = (G.addEdge p q s).addEdge i j r := by
  have hforth : ¬(p = i ∧ q = j) := fun he => h (by rw [he.1, he.2])
  have hback : ¬(i = p ∧ j = q) := fun he => h (by rw [he.1, he.2])
  have hedges : ((G.addEdge i j r).addEdge p q s).edges = ((G.addEdge p q s).addEdge i j r).edges := by
    refine OrderedMap.ext_get? fun a => ?_
    simp only [get?_addEdge, edge_addEdge, if_neg hforth, if_neg hback]
    by_cases ha : a = ⟨p, q⟩
    · have hne : a ≠ ⟨i, j⟩ := fun he => h (he.symm.trans ha)
      rw [if_pos ha, if_neg hne, if_pos ha]
    · rw [if_neg ha, if_neg ha]
  exact congrArg (fun edges => { G with edges }) hedges

theorem addTransitions_perm (hperm : ts.Perm us)
    (hone : ∀ t ∈ ts, ∀ u ∈ ts, t.source = u.source → t.target = u.target → t = u) (G : Graph) :
    G.addTransitions ts = G.addTransitions us := by
  refine hperm.foldl_eq' (fun t ht u hu H => ?_) G
  by_cases hends : t.source = u.source ∧ t.target = u.target
  · rw [hone t ht u hu hends.1 hends.2]
  · exact addEdge_comm fun ha => hends ⟨congrArg Arrow.source ha, congrArg Arrow.target ha⟩

/-- Where no two states are joined by different labels, every enumeration of the transitions makes the same graph. -/
theorem addTransitions_eq_of_enumeratedBy {T : TransitionTable} (hone : T.SinglyLabelled)
    (hts : T.EnumeratedBy ts) (hus : T.EnumeratedBy us) (G : Graph) : G.addTransitions ts = G.addTransitions us := by
  refine addTransitions_perm (hts.perm hus) ?_ G
  rintro ⟨i, l, j⟩ ht ⟨i', l', j'⟩ hu rfl rfl
  obtain rfl : l = l' := hone _ ((hts.mem_iff _).mp ht) _ ((hts.mem_iff _).mp hu) rfl rfl
  rfl

end Graph

namespace Automaton

variable {A : Automaton} {ts us : List Transition}

/-- However the transitions are enumerated, the expression has the same words, and it is the same expression if two
states are never joined by different labels. -/
theorem toRegexFrom_order_independent (hA : A.WellFormed) (hts : A.table.EnumeratedBy ts)
    (hus : A.table.EnumeratedBy us) :
    (∀ w, Matches (A.toRegexFrom ts) w ↔ Matches (A.toRegexFrom us) w) ∧
      (A.table.SinglyLabelled → A.toRegexFrom ts = A.toRegexFrom us) := by
  refine ⟨fun w => ?_, fun hone => ?_⟩
  · rw [matches_toRegexFrom_iff hA hts, matches_toRegexFrom_iff hA hus]
  · rw [toRegexFrom, toRegexFrom, Graph.joinedFrom, Graph.joinedFrom, Graph.addTransitions_eq_of_enumeratedBy hone hts hus]

/-- Two start states, with a round trip between them, a loop and an empty move. -/
def carousel : Automaton := .ofEdits
  [.addStart ⟨"p"⟩, .addStart ⟨"q"⟩, .addTransition ⟨"p"⟩ (.symbol ⟨"a"⟩) ⟨"q"⟩,
    .addTransition ⟨"q"⟩ (.symbol ⟨"b"⟩) ⟨"p"⟩, .addEpsilon ⟨"q"⟩ ⟨"r"⟩, .addTransition ⟨"r"⟩ (.symbol ⟨"a"⟩) ⟨"r"⟩,
    .addTransition ⟨"r"⟩ (.symbol ⟨"b"⟩) ⟨"q"⟩, .addFinal ⟨"p"⟩, .addFinal ⟨"r"⟩]

theorem carousel_toRegex_eq_toRegexFrom_reverse :
    carousel.WellFormed ∧ carousel.table.EnumeratedBy carousel.table.edges.reverse ∧
      (∀ w, Matches carousel.toRegex w ↔ Matches (carousel.toRegexFrom carousel.table.edges.reverse) w) ∧
      carousel.table.SinglyLabelled ∧ carousel.toRegex = carousel.toRegexFrom carousel.table.edges.reverse := by
  have hA : carousel.WellFormed := wellFormed_ofEdits _
  have hedges := carousel.table.enumeratedBy_edges
  have hone : carousel.table.SinglyLabelled := TransitionTable.singlyLabelled_iff.mpr (by decide +kernel)
  obtain ⟨hwords, hsame⟩ := toRegexFrom_order_independent hA hedges hedges.reverse
  exact ⟨hA, hedges.reverse, hwords, hone, hsame hone⟩

/-- Two labels from one state to another. -/
def eitherWay : Automaton := .ofEdits
  [.addStart ⟨"p"⟩, .addFinal ⟨"q"⟩, .addTransition ⟨"p"⟩ (.symbol ⟨"a"⟩) ⟨"q"⟩,
    .addTransition ⟨"p"⟩ (.symbol ⟨"b"⟩) ⟨"q"⟩]

/-- The alternatives show in which order they came. -/
example : eitherWay.toRegexFrom eitherWay.table.edges ≠ eitherWay.toRegexFrom eitherWay.table.edges.reverse := by
  decide +kernel

end Automaton

end FiniteAutomata
