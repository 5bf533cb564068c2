import FiniteAutomata.Proofs.Elimination.Extraction

/-!
The expression of an automaton stage by stage. The closed form of a graph is refused exactly if the graph is not
simple (`exists_simpleRegex_eq_ok_iff`), and has the words that the graph spells where it is given
(`matches_simpleRegex_iff`). The graph of an automaton is simple once its start states are joined and its basic states
are away, if there is a start state and not more than one final state (`simple_stagedFrom_iff`); what these stages
keep are the words. The order in which the transitions were added shows in the closed forms, but nowhere in this.
-/

namespace FiniteAutomata

namespace Graph

variable {A : Automaton} {G H : Graph} {i k s f n : Nat} {r : Regex} {e : AutomatonError} {w : List Symbol}

/-! ### What taking states away leaves as it was -/

@[simp] theorem starts_eliminate : (G.eliminate k).starts = G.starts := (gains_eliminate G k).starts

@[simp] theorem finals_eliminate : (G.eliminate k).finals = G.finals := (gains_eliminate G k).finals

theorem marks_eliminateBasic (G : Graph) :
    G.eliminateBasic.starts = G.starts ∧ G.eliminateBasic.finals = G.finals := by
  refine List.foldlRecOn G.basicStates.toList Graph.eliminate
    (motive := fun H => H.starts = G.starts ∧ H.finals = G.finals) ⟨rfl, rfl⟩ fun H hH k _ => ?_
  rwa [starts_eliminate, finals_eliminate]

theorem states_eliminateBasic (G : Graph) : G.eliminateBasic.states = G.states ∩ (G.starts ∪ G.finals) :=
  StateSet.ext fun i => by
    rw [mem_states_eliminateBasic, StateSet.mem_inter, StateSet.mem_union]

theorem not_mem_basicStates_eliminateBasic (G : Graph) (i : Nat) : i ∉ G.eliminateBasic.basicStates := by
  obtain ⟨hstarts, hfinals⟩ := marks_eliminateBasic G
  rw [mem_basicStates, mem_states_eliminateBasic, hstarts, hfinals]
  rintro ⟨⟨-, hi⟩, hs, hf⟩
  exact hi.elim hs hf

/-- Once the basic states are away, there is nothing left to take away. -/
theorem eliminateBasic_eliminateBasic (G : Graph) : G.eliminateBasic.eliminateBasic = G.eliminateBasic := by
  have hnil : G.eliminateBasic.basicStates.toList = [] := List.eq_nil_iff_forall_not_mem.mpr fun i hi =>
    not_mem_basicStates_eliminateBasic G i (StateSet.mem_toList.mp hi)
  change G.eliminateBasic.basicStates.toList.foldl eliminate G.eliminateBasic = _
  rw [hnil, List.foldl_nil]

/-- A graph spells the same words without its basic states. -/
theorem spells_eliminateBasic_iff : G.eliminateBasic.Spells w ↔ G.Spells w := by
  obtain ⟨hstarts, hfinals⟩ := marks_eliminateBasic G
  rw [Spells, hstarts, hfinals]
  exact exists_congr fun i => and_congr_right fun hi => exists_congr fun j => and_congr_right fun hj =>
    path_eliminateBasic_iff (Or.inl hi) (Or.inr hj)

/-! ### Simple graphs -/

/-- One start state, at most one final state and no other state. -/
structure Simple (G : Graph) : Prop where
  one_start : G.starts.size = 1
  one_final : G.finals.size ≤ 1
  only_marked : ∀ i ∈ G.states, i ∈ G.starts ∨ i ∈ G.finals

theorem simple_iff : G.Simple ↔
    G.starts.size = 1 ∧ G.finals.size ≤ 1 ∧ ∀ i ∈ G.states, i ∈ G.starts ∨ i ∈ G.finals :=
  ⟨fun h => ⟨h.one_start, h.one_final, h.only_marked⟩, fun ⟨hs, hf, ho⟩ => ⟨hs, hf, ho⟩⟩

theorem basicStates_isEmpty_iff : G.basicStates.isEmpty = true ↔ ∀ i ∈ G.states, i ∈ G.starts ∨ i ∈ G.finals := by
  rw [StateSet.isEmpty_iff]
  refine forall_congr' fun i => ?_
  rw [mem_basicStates, not_and, ← not_or, Classical.not_not]

/-- What a simple graph answers: the closed form, or no words if no state is final. -/
theorem Simple.simpleRegex_eq (h : G.Simple) : ∃ s, (∀ i, i ∈ G.starts ↔ i = s) ∧
    ((∀ i, i ∉ G.finals) ∧ G.simpleRegex = .ok .empty ∨
      ∃ f, (∀ i, i ∈ G.finals ↔ i = f) ∧ G.simpleRegex = .ok (G.between s f)) := by
  obtain ⟨s, hs⟩ := StateSet.size_eq_one_iff.mp h.one_start
  have hstart : ∀ i, i ∈ G.starts ↔ i = s := fun i => by rw [← StateSet.mem_toList, hs, List.mem_singleton]
  refine ⟨s, hstart, ?_⟩
  rw [simpleRegex, if_pos (basicStates_isEmpty_iff.mpr h.only_marked), hs]
  match hf : G.finals.toList with
  | [] => exact Or.inl ⟨fun i hi => List.not_mem_nil (hf ▸ StateSet.mem_toList.mpr hi), rfl⟩
  | [f] => exact Or.inr ⟨f, fun i => by rw [← StateSet.mem_toList, hf, List.mem_singleton], rfl⟩
  | f :: f' :: l =>
    have hsize : (f :: f' :: l).length ≤ 1 := hf ▸ h.one_final
    exact absurd hsize (by simp)

theorem simpleRegex_of_not_simple (h : ¬G.Simple) : G.simpleRegex = .error G.notSimple := by
  have hnot : ∀ {s}, G.basicStates.isEmpty = true → G.starts.toList = [s] → ¬G.finals.size ≤ 1 := fun hbasic hs hf =>
    h ⟨StateSet.size_eq_one_iff.mpr ⟨_, hs⟩, hf, basicStates_isEmpty_iff.mp hbasic⟩
  -- an answer is given in two cases only, and in both the graph is simple
  rw [simpleRegex]
  split
  · rename_i hbasic
    split
    · rename_i hs hf
      exact absurd (by rw [StateSet.size, hf]; exact Nat.zero_le 1) (hnot hbasic hs)
    · rename_i hs hf
      exact absurd (by rw [StateSet.size, hf]; exact Nat.le_refl 1) (hnot hbasic hs)
    · rfl
  · rfl

theorem exists_simpleRegex_eq_ok_iff : (∃ r, G.simpleRegex = .ok r) ↔ G.Simple := by
  constructor
  · rintro ⟨r, hr⟩
    by_contra h
    rw [simpleRegex_of_not_simple h] at hr
    cases hr
  · intro h
    obtain ⟨s, -, ⟨-, hr⟩ | ⟨f, -, hr⟩⟩ := h.simpleRegex_eq
    · exact ⟨_, hr⟩
    · exact ⟨_, hr⟩

theorem eq_notSimple_of_simpleRegex_eq_error (he : G.simpleRegex = .error e) : e = G.notSimple := by
  have h : ¬G.Simple := by
    intro h
    obtain ⟨r, hr⟩ := exists_simpleRegex_eq_ok_iff.mpr h
    rw [hr] at he
    cases he
  rw [simpleRegex_of_not_simple h] at he
  exact (Except.error.inj he).symm

/-- The answer has the words that the graph spells. -/
theorem matches_simpleRegex_iff (hG : G.WellFormed) (hr : G.simpleRegex = .ok r) : Matches r w ↔ G.Spells w := by
  have h := exists_simpleRegex_eq_ok_iff.mp ⟨r, hr⟩
  obtain ⟨s, hs, ⟨hnone, hempty⟩ | ⟨f, hf, hbetween⟩⟩ := h.simpleRegex_eq
  · rw [hr, Except.ok.injEq] at hempty
    rw [hempty]
    exact iff_of_false Matches.not_empty fun ⟨_, _, j, hj, _⟩ => hnone j hj
  · rw [hr, Except.ok.injEq] at hbetween
    have hjoins : G.Joins s f := hG.joins fun i hi => (h.only_marked i hi).imp (hs i).mp (hf i).mp
    rw [hbetween, ← path_iff_between hjoins]
    simp only [Spells, hs, hf, exists_eq_left]

/-! ### The stages for an automaton -/

/-- The graph of an automaton with one start state, its transitions added in the given order and its basic states
taken away. -/
def stagedFrom (A : Automaton) (ts : List Transition) : Graph := (joinedFrom A ts).eliminateBasic

theorem finals_joinedFrom (A : Automaton) (ts : List Transition) : (joinedFrom A ts).finals = A.finals := by
  have hfinals : ((bare A).addTransitions ts).finals = A.finals := (addTransitions_frame (bare A) ts).2.2
  rw [joinedFrom, withOneStart]
  split
  · rw [finals_enterFrom, hfinals]
  · exact hfinals

theorem exists_mem_starts_joinedFrom_iff (A : Automaton) (ts : List Transition) :
    (∃ i, i ∈ (joinedFrom A ts).starts) ↔ ∃ i, i ∈ A.starts := by
  have hstarts : ((bare A).addTransitions ts).starts = A.starts := (addTransitions_frame (bare A) ts).2.1
  rw [joinedFrom, withOneStart]
  split
  · rename_i hsize
    rw [hstarts] at hsize
    have hsome := StateSet.size_pos_iff.mp (Nat.zero_lt_of_lt hsize)
    exact iff_of_true ⟨A.numStates, StateSet.mem_singleton.mpr rfl⟩ hsome
  · rw [hstarts]

theorem simple_stagedFrom_iff (A : Automaton) (ts : List Transition) :
    (stagedFrom A ts).Simple ↔ (∃ i, i ∈ A.starts) ∧ A.finals.size ≤ 1 := by
  obtain ⟨hstarts, hfinals⟩ := marks_eliminateBasic (joinedFrom A ts)
  have hone : (joinedFrom A ts).starts.size ≤ 1 :=
    StateSet.size_le_one_iff.mpr (Mirrors.withOneStart_unique A ((bare A).addTransitions ts))
  have hmarked := basicStates_isEmpty_iff.mp
    (StateSet.isEmpty_iff.mpr (not_mem_basicStates_eliminateBasic (joinedFrom A ts)))
  rw [simple_iff, stagedFrom, and_iff_left hmarked, hstarts, hfinals, finals_joinedFrom,
    ← exists_mem_starts_joinedFrom_iff A ts, ← StateSet.size_pos_iff]
  exact and_congr_left fun _ => ⟨fun h => h ▸ Nat.zero_lt_one, Nat.le_antisymm hone⟩

namespace Mirrors

variable (h : G.Mirrors A)
include h

theorem simple_iff : G.Simple ↔
    A.starts.size = 1 ∧ A.finals.size ≤ 1 ∧ ∀ i < A.numStates, i ∈ A.starts ∨ i ∈ A.finals := by
  rw [Graph.simple_iff, h.starts, h.finals, h.states]
  simp only [StateSet.mem_below]

theorem notSimple_eq : G.notSimple = .notSimple A.starts.size A.finals.size A.numStates := by
  rw [notSimple, numStates, h.starts, h.finals, h.states, StateSet.size_below]

theorem matches_simpleRegex_iff (hr : G.simpleRegex = .ok r) : Matches r w ↔ A.Spells w := by
  rw [Graph.matches_simpleRegex_iff h.wellFormed hr]
  simp only [Spells, Automaton.Spells, h.starts, h.finals, h.carries.path_iff]

theorem matches_simpleRegex_eliminateBasic_iff (hA : A.WellFormed)
    (hr : (withOneStart A G).eliminateBasic.simpleRegex = .ok r) : Matches r w ↔ A.Spells w := by
  rw [Graph.matches_simpleRegex_iff (h.wellFormed_withOneStart hA).eliminateBasic hr, spells_eliminateBasic_iff,
    h.spells_withOneStart_iff hA]

end Mirrors

end Graph

/-! ### The result -/

/-- With its basic states away, the graph of an automaton has its start and final states only, nothing is left to take
away, and there is a closed form if the automaton has a start state and at most one final state. The automaton as it
is has one if it has one start state, at most one final state and no other state, and is refused with its own numbers
otherwise. The closed forms have the words of the automaton. All of this holds in whatever order the transitions
came. -/
theorem Automaton.staged_elimination_exact {A : Automaton} {ts : List Transition} (hA : A.WellFormed)
    (hts : A.table.EnumeratedBy ts) :
    ((Graph.stagedFrom A ts).starts = (Graph.joinedFrom A ts).starts ∧
      (Graph.stagedFrom A ts).finals = (Graph.joinedFrom A ts).finals ∧
      (Graph.stagedFrom A ts).numStates =
        ((Graph.joinedFrom A ts).states ∩ ((Graph.joinedFrom A ts).starts ∪ (Graph.joinedFrom A ts).finals)).size) ∧
    (Graph.stagedFrom A ts).eliminateBasic = Graph.stagedFrom A ts ∧
    ((∃ r, (Graph.stagedFrom A ts).simpleRegex = .ok r) ↔ (∃ i, i ∈ A.starts) ∧ A.finals.size ≤ 1) ∧
    (∀ r, (Graph.stagedFrom A ts).simpleRegex = .ok r →
      ∀ ls, A.accepts ls = true ↔ Matches r (Label.spelled ls)) ∧
    ((∃ r, A.simpleRegexFrom ts = .ok r) ↔
      A.starts.size = 1 ∧ A.finals.size ≤ 1 ∧ ∀ i < A.numStates, i ∈ A.starts ∨ i ∈ A.finals) ∧
    (∀ r, A.simpleRegexFrom ts = .ok r → ∀ ls, A.accepts ls = true ↔ Matches r (Label.spelled ls)) ∧
    ∀ e, A.simpleRegexFrom ts = .error e → e = .notSimple A.starts.size A.finals.size A.numStates := by
  have h := Graph.mirrors_addTransitions hA hts.mem_iff
  obtain ⟨hstarts, hfinals⟩ := Graph.marks_eliminateBasic (Graph.joinedFrom A ts)
  refine ⟨⟨hstarts, hfinals, ?_⟩, Graph.eliminateBasic_eliminateBasic _, ?_, ?_, ?_, ?_, ?_⟩
  · exact congrArg StateSet.size (Graph.states_eliminateBasic _)
  · exact Graph.exists_simpleRegex_eq_ok_iff.trans (Graph.simple_stagedFrom_iff A ts)
  · intro r hr ls
    rw [accepts_iff, h.matches_simpleRegex_eliminateBasic_iff hA hr]
  · exact Graph.exists_simpleRegex_eq_ok_iff.trans h.simple_iff
  · intro r hr ls
    rw [accepts_iff, h.matches_simpleRegex_iff hr]
  · intro e he
    exact (Graph.eq_notSimple_of_simpleRegex_eq_error he).trans h.notSimple_eq

/-- Two start states, one of them final, a round trip between them with a choice of letters and a state in between to
be taken away. -/
def roundTrip : Automaton := .ofEdits
  [.addStart ⟨"p"⟩, .addStart ⟨"q"⟩, .addFinal ⟨"q"⟩, .addTransition ⟨"p"⟩ (.symbol ⟨"a"⟩) ⟨"q"⟩,
    .addTransition ⟨"p"⟩ (.symbol ⟨"b"⟩) ⟨"q"⟩, .addTransition ⟨"q"⟩ (.symbol ⟨"b"⟩) ⟨"m"⟩,
    .addTransition ⟨"m"⟩ (.symbol ⟨"a"⟩) ⟨"m"⟩, .addEpsilon ⟨"m"⟩ ⟨"p"⟩, .addTransition ⟨"q"⟩ (.symbol ⟨"c"⟩) ⟨"q"⟩]

/-- It has a closed form only once its graph has one start state and no other states but the final one. The letters
of the choice stand in the order in which they came. -/
theorem roundTrip_staged_elimination_exact :
    (roundTrip.WellFormed ∧ roundTrip.table.EnumeratedBy roundTrip.table.edges.reverse) ∧
    Graph.stagedFrom roundTrip roundTrip.table.edges.reverse ≠ Graph.stagedFrom roundTrip roundTrip.table.edges ∧
    (∃ r, (Graph.stagedFrom roundTrip roundTrip.table.edges.reverse).simpleRegex = .ok r ∧
      ∀ ls, roundTrip.accepts ls = true ↔ Matches r (Label.spelled ls)) ∧
    roundTrip.simpleRegexFrom roundTrip.table.edges.reverse = .error (.notSimple 2 1 3) := by
  have hA : roundTrip.WellFormed := Automaton.wellFormed_ofEdits _
  have hts := roundTrip.table.enumeratedBy_edges.reverse
  obtain ⟨-, -, hstaged, hwords, hsimple, -, herror⟩ := Automaton.staged_elimination_exact hA hts
  obtain ⟨r, hr⟩ := hstaged.mpr ⟨⟨0, by decide +kernel⟩, by decide +kernel⟩
  refine ⟨⟨hA, hts⟩, by decide +kernel, ⟨r, hr, hwords r hr⟩, ?_⟩
  cases he : roundTrip.simpleRegexFrom roundTrip.table.edges.reverse with
  | ok r =>
    obtain ⟨hstart, -⟩ := hsimple.mp ⟨r, he⟩
    exact absurd hstart (by decide +kernel)
  | error e =>
    rw [herror e he]
    exact congrArg Except.error (by decide +kernel)

end FiniteAutomata
