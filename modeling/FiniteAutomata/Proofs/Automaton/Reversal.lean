import FiniteAutomata.Automaton.Reverse
import FiniteAutomata.Proofs.Automaton.Edits
import FiniteAutomata.Proofs.Automaton.Runs

/-!
Reversal. The names and the symbols of a well-formed automaton are distinct and its alphabet has every symbol that a
transition reads, so the reversed automaton has the same states and symbols in the same order (`reverse_eq`). Paths
are those of the automaton, walked backwards; empty moves keep their places on a path, so a word is accepted if it
is accepted read backwards, and reversing twice gives the automaton back.
-/

namespace FiniteAutomata

namespace Automaton

variable {A : Automaton} {t : Transition} {i j : Nat} {w : List Symbol}

/-! ### The reversed automaton -/

theorem mem_turned_iff : t ∈ TransitionTable.ofList (A.table.edges.map Transition.flip) ↔ t.flip ∈ A.table := by
  rw [TransitionTable.mem_ofList, List.mem_map]
  constructor
  · rintro ⟨u, hu, rfl⟩
    exact TransitionTable.mem_edges.mp hu
  · exact fun ht => ⟨t.flip, TransitionTable.mem_edges.mpr ht, rfl⟩

theorem reverse_eq (hA : A.WellFormed) : A.reverse = { A with
    table := .ofList (A.table.edges.map Transition.flip)
    starts := A.finals
    finals := A.starts } := by
  have hplaced : ((∅ : Automaton).addStates A.states).2.addSymbols A.symbols =
      { states := A.states, symbols := A.symbols } := by
    have hjoin : Symbol.join [] A.symbols = A.symbols := by simp [Symbol.join]
    rw [addStates_eq hA.states_nodup fun _ _ => List.not_mem_nil, addSymbols_eq hA.symbols_nodup]
    exact congrArg (fun as => ({ states := A.states, symbols := as } : Automaton)) hjoin
  have hdeclared : ∀ t ∈ A.table.edges.map Transition.flip, ∀ a, t.label = .symbol a → a ∈ A.symbols := by
    intro t ht a ha
    obtain ⟨⟨i, l, j⟩, hu, rfl⟩ := List.mem_map.mp ht
    obtain rfl : l = .symbol a := ha
    exact hA.declared i j a (TransitionTable.mem_edges.mp hu)
  rw [reverse, hplaced, foldl_connect_eq (A := { states := A.states, symbols := A.symbols }) hdeclared]
  rfl

/-- The reversed automaton has the transitions of the automaton turned round, and no others. -/
theorem mem_table_reverse (hA : A.WellFormed) : t ∈ A.reverse.table ↔ t.flip ∈ A.table := by
  rw [reverse_eq hA, mem_turned_iff]

theorem wellFormed_reverse (hA : A.WellFormed) : A.reverse.WellFormed := by
  rw [reverse_eq hA]
  refine ((hA.withTable (TransitionTable.Sound.empty.insertMany _) (fun t ht => ?_) fun i j a ht => ?_).withStarts
    hA.finals_lt).withFinals hA.starts_lt
  · have hturned := mem_turned_iff.mp ht
    exact ⟨hA.target_lt _ hturned, hA.source_lt _ hturned⟩
  · exact hA.declared j i a (mem_turned_iff.mp ht)

/-- Reversing twice gives back the automaton, with its states and symbols in their order. -/
theorem reverse_reverse (hA : A.WellFormed) : A.reverse.reverse = A := by
  have hR := wellFormed_reverse hA
  have htable : A.reverse.reverse.table = A.table := by
    refine (wellFormed_reverse hR).sound.ext hA.sound fun t => ?_
    rw [mem_table_reverse hR, mem_table_reverse hA]
    rfl
  rw [reverse_eq hR] at htable ⊢
  dsimp only at htable
  rw [htable, reverse_eq hA]

/-! ### Words read backwards -/

theorem Path.reverse {ls : List Label} (hA : A.WellFormed) (h : A.Path i ls j) : A.reverse.Path j ls.reverse i := by
  induction h with
  | nil i => exact .nil i
  | @cons i k j l ls ht _ ih =>
    rw [List.reverse_cons]
    exact ih.append (.cons ((mem_table_reverse hA).mpr ht) (.nil i))

theorem Leads.reverse (hA : A.WellFormed) (h : A.Leads i w j) : A.reverse.Leads j w.reverse i := by
  obtain ⟨ls, hp, rfl⟩ := h
  exact ⟨ls.reverse, hp.reverse hA, List.filterMap_reverse⟩

theorem Spells.reverse (hA : A.WellFormed) (h : A.Spells w) : A.reverse.Spells w.reverse := by
  obtain ⟨i, hi, j, hj, hij⟩ := h
  exact ⟨j, hj, i, hi, hij.reverse hA⟩

theorem spells_reverse_iff (hA : A.WellFormed) : A.reverse.Spells w ↔ A.Spells w.reverse := by
  constructor
  · intro h
    have hback := h.reverse (wellFormed_reverse hA)
    rwa [reverse_reverse hA] at hback
  · intro h
    have hback := h.reverse hA
    rwa [List.reverse_reverse] at hback

/-- The reversed automaton accepts the words that the automaton accepts read backwards, and reversed again it is the
automaton. -/
theorem reverse_accepts_involutive (hA : A.WellFormed) : A.reverse.WellFormed ∧
    (∀ ls, A.reverse.accepts ls = true ↔ A.accepts ls.reverse = true) ∧ A.reverse.reverse = A := by
  refine ⟨wellFormed_reverse hA, fun ls => ?_, reverse_reverse hA⟩
  have hspelled : Label.spelled ls.reverse = (Label.spelled ls).reverse := List.filterMap_reverse
  rw [accepts_iff, accepts_iff, hspelled, spells_reverse_iff hA]

/-- The words of `a` followed by any number of `b`, and the empty word: two start states, one of them final, with an
empty move before reading and one that leads back. -/
def twoEntrances : Automaton := .ofEdits
  [.addSymbol ⟨"c"⟩, .addStart ⟨"p"⟩, .addStart ⟨"q"⟩, .addFinal ⟨"q"⟩, .addEpsilon ⟨"p"⟩ ⟨"r"⟩,
    .addTransition ⟨"r"⟩ (.symbol ⟨"a"⟩) ⟨"s"⟩, .addTransition ⟨"s"⟩ (.symbol ⟨"b"⟩) ⟨"t"⟩, .addEpsilon ⟨"t"⟩ ⟨"s"⟩,
    .addFinal ⟨"s"⟩]

theorem twoEntrances_reverse_reverse : twoEntrances.WellFormed ∧ twoEntrances.reverse.WellFormed ∧
    (∀ ls, twoEntrances.reverse.accepts ls = true ↔ twoEntrances.accepts ls.reverse = true) ∧
    twoEntrances.reverse.reverse = twoEntrances := by
  have hA : twoEntrances.WellFormed := wellFormed_ofEdits _
  exact ⟨hA, reverse_accepts_involutive hA⟩

end Automaton

end FiniteAutomata
