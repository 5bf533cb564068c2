import FiniteAutomata.Proofs.Deterministic.Equivalence
import FiniteAutomata.Proofs.Deterministic.Powerset
import FiniteAutomata.Proofs.Elimination.Extraction
import FiniteAutomata.Proofs.Regex.Thompson

/-!
Two automata are compared by their powerset automata (`isEquivalentTo_iff_determinize`), so the answer is right
where these accept the words of the automata, which is a question of names. If sets of one name accept the same
words, the answer is right. If they do not, it is wrong for some partner, also where the powerset automaton is
deterministic: the automaton of the expression has the same words, and its states are named by numbers, so nothing
can go wrong on its side (`isEquivalentTo_exact`). A semicolon in a name is enough for it (`merging`).
-/

namespace FiniteAutomata.Automaton

variable {A B : Automaton} {w : List Symbol}

theorem isEquivalentTo_iff_determinize (hA : A.WellFormed) (hB : B.WellFormed) :
    A.isEquivalentTo B = true ↔ ∀ ls, A.determinize.accepts ls = B.determinize.accepts ls :=
  Deterministic.isEquivalentTo_eq_true_iff (wellFormed_determinize hA) (wellFormed_determinize hB)

/-! ### A partner whose names are apart -/

theorem accepts_toAutomaton_toRegex (hA : A.WellFormed) (ls : List Label) :
    A.toRegex.toAutomaton.accepts ls = A.accepts ls := by
  rw [Bool.eq_iff_iff, accepts_iff, accepts_iff, Regex.spells_toAutomaton_iff, toRegex,
    matches_toRegexFrom_iff hA A.table.enumeratedBy_edges]

theorem determinize_accepts_toAutomaton_toRegex (hA : A.WellFormed) (ls : List Label) :
    A.toRegex.toAutomaton.determinize.accepts ls = A.accepts ls := by
  have hwf := A.toRegex.wellFormed_toAutomaton
  have hapart := A.toRegex.namesApart_toAutomaton.setsApart hwf
  rw [determinize_accepts hwf hapart.namesTellWords, accepts_toAutomaton_toRegex hA]

/-- If its deterministic powerset automaton confuses sets, an automaton is told apart from one for the same words. -/
theorem isEquivalentTo_toAutomaton_toRegex_eq_false (hA : A.WellFormed)
    (hdet : A.determinize.automaton.isDeterministic = true) (hn : ¬A.NamesTellWords) :
    A.isEquivalentTo A.toRegex.toAutomaton = false := by
  rw [← Bool.not_eq_true, isEquivalentTo_iff_determinize hA A.toRegex.wellFormed_toAutomaton]
  intro hsame
  have hC := (isDeterministic_iff (wellFormed_determinize hA)).mp hdet
  refine hn (namesTellWords_of_determinize_accepts hA hC fun ls => ?_)
  rw [hsame ls, determinize_accepts_toAutomaton_toRegex hA]

/-! ### The result -/

/-- The answer is exact where names tell words. Where they do not, and the powerset automaton is deterministic, it
is wrong for some partner. -/
theorem isEquivalentTo_exact (hA : A.WellFormed) :
    (A.NamesTellWords → ∀ B : Automaton, B.WellFormed → B.NamesTellWords →
      (A.isEquivalentTo B = true ↔ ∀ ls, A.accepts ls = B.accepts ls)) ∧
    (A.determinize.automaton.isDeterministic = true → ¬A.NamesTellWords →
      ∃ B : Automaton, B.WellFormed ∧ B.NamesApart ∧ (∀ ls, A.accepts ls = B.accepts ls) ∧
        A.isEquivalentTo B = false) := by
  refine ⟨fun hn B hB hm => ?_, fun hdet hn => ?_⟩
  · rw [isEquivalentTo_iff_determinize hA hB]
    exact forall_congr' fun ls => by rw [determinize_accepts hA hn, determinize_accepts hB hm]
  · refine ⟨A.toRegex.toAutomaton, A.toRegex.wellFormed_toAutomaton, A.toRegex.namesApart_toAutomaton, ?_, ?_⟩
    · intro ls
      exact (accepts_toAutomaton_toRegex hA ls).symm
    · exact isEquivalentTo_toAutomaton_toRegex_eq_false hA hdet hn

/-- The state after `y` is named as if it were both states after `x`. -/
def merging : Automaton := .ofEdits
  [.addStart ⟨"s"⟩, .addFinal ⟨"a"⟩, .addTransition ⟨"s"⟩ (.symbol ⟨"x"⟩) ⟨"a"⟩,
    .addTransition ⟨"s"⟩ (.symbol ⟨"x"⟩) ⟨"b"⟩, .addTransition ⟨"s"⟩ (.symbol ⟨"y"⟩) ⟨"a;b"⟩]

/-- Either of two symbols. -/
def eitherSymbol : Automaton := .ofEdits
  [.addStart ⟨"0"⟩, .addFinal ⟨"1"⟩, .addTransition ⟨"0"⟩ (.symbol ⟨"x"⟩) ⟨"1"⟩,
    .addTransition ⟨"0"⟩ (.symbol ⟨"y"⟩) ⟨"1"⟩]

/-- Either of two symbols again, with a semicolon in a name. -/
def eitherOrElse : Automaton := .ofEdits
  [.addStart ⟨"s"⟩, .addFinal ⟨"a;b"⟩, .addTransition ⟨"s"⟩ (.symbol ⟨"x"⟩) ⟨"a;b"⟩,
    .addTransition ⟨"s"⟩ (.symbol ⟨"y"⟩) ⟨"a;b"⟩]

theorem eitherOrElse_accepts_and_merging_mistaken :
    (eitherOrElse.WellFormed ∧ eitherOrElse.NamesTellWords ∧
      ∀ ls, eitherOrElse.accepts ls = eitherSymbol.accepts ls) ∧
    (merging.WellFormed ∧ merging.determinize.automaton.isDeterministic = true ∧ ¬merging.NamesTellWords ∧
      ∃ B : Automaton, B.WellFormed ∧ B.NamesApart ∧ (∀ ls, merging.accepts ls = B.accepts ls) ∧
        merging.isEquivalentTo B = false) := by
  have hdet : merging.determinize.automaton.isDeterministic = true := by decide +kernel
  have hmerging : merging.WellFormed := wellFormed_ofEdits _
  have hconfused : ¬merging.NamesTellWords := fun hn =>
    absurd (determinize_accepts hmerging hn [.symbol ⟨"y"⟩]) (by decide +kernel)
  have hwf : eitherOrElse.WellFormed := wellFormed_ofEdits _
  have htell : eitherOrElse.NamesTellWords := SetsApart.namesTellWords (by decide +kernel)
  have htell' : eitherSymbol.NamesTellWords := SetsApart.namesTellWords (by decide +kernel)
  refine ⟨⟨hwf, htell, ?_⟩, hmerging, hdet, hconfused, (isEquivalentTo_exact hmerging).2 hdet hconfused⟩
  exact ((isEquivalentTo_exact hwf).1 htell eitherSymbol (wellFormed_ofEdits _) htell').mp (by decide +kernel)

/-- One of the automata accepts `y` and the other does not, but they count as equivalent. -/
theorem merging_isEquivalentTo_eitherSymbol : merging.WellFormed ∧ eitherSymbol.WellFormed ∧
    merging.isEquivalentTo eitherSymbol = true ∧ ¬∀ ls, merging.accepts ls = eitherSymbol.accepts ls := by
  refine ⟨wellFormed_ofEdits _, wellFormed_ofEdits _, by decide +kernel, fun h => ?_⟩
  exact absurd (h [.symbol ⟨"y"⟩]) (by decide +kernel)

end FiniteAutomata.Automaton
