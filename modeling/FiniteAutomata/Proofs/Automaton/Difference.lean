import FiniteAutomata.Proofs.Automaton.Complement
import FiniteAutomata.Proofs.Automaton.Product

/-!
The difference of two automata, the right one deterministic. A word of the left automaton is over the extended
alphabet, so the complement of the right one accepts it if the right one does not; but a complement has the start
states of its automaton, so without one it accepts nothing, and nor does the difference
(`difference_accepts_iff_start`).
-/

namespace FiniteAutomata.Automaton

variable {A B : Automaton} {as : List Symbol} {ls : List Label}

/-! ### More symbols -/

theorem wellFormed_extend (hB : B.WellFormed) (has : as.Nodup) : (B.extend as).WellFormed := by
  rw [extend, ← addSymbols_eq has]
  exact hB.addSymbols as

theorem mem_symbols_extend {a : Symbol} : a ∈ (B.extend as).symbols ↔ a ∈ B.symbols ∨ a ∈ as := Symbol.mem_join

theorem accepts_extend (B : Automaton) (as : List Symbol) (ls : List Label) :
    (B.extend as).accepts ls = B.accepts ls := rfl

theorem isDeterministic_extend (B : Automaton) (as : List Symbol) :
    (B.extend as).isDeterministic = B.isDeterministic := rfl

/-! ### Words of the difference -/

theorem exists_start_of_accepts (h : A.accepts ls = true) : ∃ i, i ∈ A.starts := by
  obtain ⟨i, hi, -⟩ := accepts_iff.mp h
  exact ⟨i, hi⟩

theorem accepts_eq_false (h : ¬∃ i, i ∈ A.starts) : A.accepts ls = false := by
  rw [← Bool.not_eq_true]
  exact fun haccepts => h (exists_start_of_accepts haccepts)

theorem difference_accepts (hA : A.WellFormed) (hB : B.WellFormed) (hdet : B.isDeterministic = true)
    (hn : A.PairsApart (B.extend A.symbols).complement) (ls : List Label) : (A.difference B).accepts ls = true ↔
      (∃ i, i ∈ B.starts) ∧ A.accepts ls = true ∧ B.accepts ls = false := by
  have hC := wellFormed_extend hB hA.symbols_nodup
  have hdetC := (isDeterministic_extend B A.symbols).trans hdet
  rw [difference, intersection_accepts hA (wellFormed_complement hC) hn]
  constructor
  · rintro ⟨hleft, hright⟩
    have hstart : ∃ i, i ∈ (B.extend A.symbols).complement.starts := exists_start_of_accepts hright
    refine ⟨hstart, hleft, ?_⟩
    rw [← Bool.not_eq_true, ← accepts_extend B A.symbols]
    exact fun h => not_accepts_both hC hdetC ⟨h, hright⟩
  · rintro ⟨hstart, hleft, hright⟩
    refine ⟨hleft, (accepts_or_complement_accepts hC hstart fun a ha => ?_).resolve_left ?_⟩
    · exact mem_symbols_extend.mpr (Or.inr (mem_symbols_of_accepts hA hleft a ha))
    · rw [accepts_extend, hright]
      exact Bool.false_ne_true

/-! ### The result -/

/-- If the right automaton is deterministic and has a start state, the difference accepts what the left one accepts
and the right one does not. Without a start state it accepts nothing, and is right only if the left one accepts
nothing. -/
theorem difference_accepts_iff_start (hA : A.WellFormed) (hB : B.WellFormed) (hdet : B.isDeterministic = true)
    (hnames : ∀ q ∈ A.states, ¬State.pairSeparator <:+: q.name.toList) :
    (∀ ls, (A.difference B).accepts ls = true ↔
      (∃ i, i ∈ B.starts) ∧ A.accepts ls = true ∧ B.accepts ls = false) ∧
    ((∀ ls, (A.difference B).accepts ls = true ↔ A.accepts ls = true ∧ B.accepts ls = false) ↔
      (∃ i, i ∈ B.starts) ∨ ∀ ls, A.accepts ls = false) := by
  have haccepts := difference_accepts hA hB hdet (pairsApart_of_no_separator hnames _)
  refine ⟨haccepts, ?_⟩
  constructor
  · intro hexact
    by_cases hstart : ∃ i, i ∈ B.starts
    · exact Or.inl hstart
    · refine Or.inr fun ls => ?_
      rw [← Bool.not_eq_true]
      intro hleft
      exact hstart ((haccepts ls).mp ((hexact ls).mpr ⟨hleft, accepts_eq_false hstart⟩)).1
  · rintro (hstart | hnone) ls
    · rw [haccepts]
      exact and_iff_right hstart
    · rw [haccepts, hnone]
      simp

theorem lastIsA_difference_takingTurns :
    (lastIsA.WellFormed ∧ takingTurns.WellFormed ∧ takingTurns.isDeterministic = true ∧
      ∀ q ∈ lastIsA.states, ¬State.pairSeparator <:+: q.name.toList) ∧
    (∀ ls, (lastIsA.difference takingTurns).accepts ls = true ↔
      (∃ i, i ∈ takingTurns.starts) ∧ lastIsA.accepts ls = true ∧ takingTurns.accepts ls = false) ∧
    ((∀ ls, (lastIsA.difference takingTurns).accepts ls = true ↔
        lastIsA.accepts ls = true ∧ takingTurns.accepts ls = false) ↔
      (∃ i, i ∈ takingTurns.starts) ∨ ∀ ls, lastIsA.accepts ls = false) := by
  have hA : lastIsA.WellFormed := wellFormed_ofEdits _
  have hB : takingTurns.WellFormed := wellFormed_ofEdits _
  have hdet : takingTurns.isDeterministic = true := by decide +kernel
  have hnames : ∀ q ∈ lastIsA.states, ¬State.pairSeparator <:+: q.name.toList := by decide +kernel
  exact ⟨⟨hA, hB, hdet, hnames⟩, difference_accepts_iff_start hA hB hdet hnames⟩

/-- The word `a` and no other. -/
def justA : Automaton := .ofEdits
  [.addStart ⟨"s"⟩, .addFinal ⟨"f"⟩, .addTransition ⟨"s"⟩ (.symbol ⟨"a"⟩) ⟨"f"⟩]

/-- The empty automaton is deterministic and accepts nothing, but taking its words away leaves nothing. -/
theorem justA_difference_empty : justA.WellFormed ∧ WellFormed ∅ ∧ isDeterministic ∅ = true ∧
    (∀ q ∈ justA.states ++ states ∅, ¬State.pairSeparator <:+: q.name.toList) ∧
    ¬∀ ls, (justA.difference ∅).accepts ls = true ↔ justA.accepts ls = true ∧ accepts ∅ ls = false := by
  refine ⟨wellFormed_ofEdits _, wellFormed_empty, by decide +kernel, by decide +kernel, fun h => ?_⟩
  exact absurd (h [.symbol ⟨"a"⟩]) (by decide +kernel)

end FiniteAutomata.Automaton
