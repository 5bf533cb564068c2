import FiniteAutomata.Proofs.Deterministic.Equivalence
import FiniteAutomata.Proofs.Deterministic.Minimal
import FiniteAutomata.Proofs.Deterministic.Quotient

/-!
Minimization keeps the words accepted (`minimize_deterministic_accepts`), and ends in the least automaton for
them, which is the only one up to the names of its states (`minimize_least_canonical`).

Both rest on a simulation: reading a word in the minimized automaton leads to the block of the state that the
word leads to in the given one, and is dead where that block is (`Represents`). Each state of a block accepts
the same words, so the simulation gives the words accepted from every state of the minimized automaton, and with
them that it is minimal.
-/

namespace FiniteAutomata.Deterministic

open Refinement (Partition Together)

variable {D E : Deterministic} {B C : StateSet} {i j m n s : Nat} {a : Symbol} {w : List Symbol}

theorem entry_eq (hs : D.start? = some s) : D.entry = s := by rw [entry, hs, Option.getD_some]

theorem minimize_eq (hs : D.start? = some s) : D.minimize = ⟨D.quotient D.blocks s⟩ := by rw [minimize, hs]

/-- The state `m` of the minimized automaton stands for the block of `j`, or both are as good as dead. -/
inductive Represents (D : Deterministic) (s : Nat) : Nat → Nat → Prop
  | block {m j : Nat} {B : StateSet} : B ∈ D.keptBlocks D.blocks s → j ∈ B →
      D.minimize.automaton.states[m]? = some (D.merge B) → Represents D s m j
  | dead {j : Nat} : Together D.blocks j D.dead → Represents D s D.minimize.dead j

/-! ### The simulation -/

section Simulation
variable (hD : D.automaton.WellFormed) (hn : D.automaton.NamesApart) (hs : D.start? = some s)
include hD hs

theorem wellFormed_minimize : D.minimize.automaton.WellFormed := by
  rw [minimize_eq hs]
  exact wellFormed_quotient hD D.blocks s

include hn

theorem functional_minimize : D.minimize.automaton.content.Functional := by
  rw [minimize_eq hs]
  exact functional_quotient hD hn hs

theorem exists_block (hm : m < D.minimize.dead) :
    ∃ B ∈ D.keptBlocks D.blocks s, D.minimize.automaton.states[m]? = some (D.merge B) := by
  have hget := Automaton.getElem?_states hm
  have hmem : D.minimize.automaton.state m ∈ D.minimize.automaton.content.states := List.mem_of_getElem? hget
  rw [minimize_eq hs, content_quotient hD hn hs] at hmem
  obtain ⟨B, hB, he⟩ := hmem
  rw [← minimize_eq hs] at he
  exact ⟨B, hB, he ▸ hget⟩

theorem exists_start_block : D.minimize.start? ≠ none ∧ ∃ B ∈ D.keptBlocks D.blocks s, s ∈ B ∧
    D.minimize.automaton.states[D.minimize.entry]? = some (D.merge B) := by
  have hmem : s ∈ D.participants := entry_eq hs ▸ entry_mem_participants hD
  obtain ⟨B, hB, hsB⟩ := ((partition_blocks hD).cover s).mp hmem
  have hstart : D.merge B ∈ D.minimize.automaton.content.starts := by
    rw [minimize_eq hs, content_quotient hD hn hs]
    exact ⟨B, hB, hsB, rfl⟩
  obtain ⟨i, hi, hget⟩ :=
    start?_of_mem_starts (functional_minimize hD hn hs) (wellFormed_minimize hD hs) hstart
  refine ⟨fun hnone => ?_, B, mem_keptBlocks_iff.mpr ⟨hB, Or.inr hsB⟩, hsB, ?_⟩
  · rw [hi] at hnone
    cases hnone
  · rw [entry, hi]
    exact hget

theorem represents_entry : Represents D s D.minimize.entry D.entry := by
  obtain ⟨-, B, hB, hsB, hget⟩ := exists_start_block hD hn hs
  rw [entry_eq hs]
  exact .block hB hsB hget

theorem next?_block (hB : B ∈ D.keptBlocks D.blocks s)
    (hm : D.minimize.automaton.states[m]? = some (D.merge B)) (h : D.minimize.next? m a = some n) :
    ∃ C ∈ D.blocks, D.dead ∉ B ∧ D.dead ∉ C ∧ (∃ i ∈ B, D.next i a ∈ C) ∧
      D.minimize.automaton.states[n]? = some (D.merge C) := by
  have hM := wellFormed_minimize hD hs
  have harc := arc_of_next? hM h
  rw [Automaton.state_of_getElem? hm] at harc
  have hget := Automaton.getElem?_states (target_lt hM h)
  rw [minimize_eq hs, content_quotient hD hn hs, ← minimize_eq hs] at harc
  obtain ⟨B', hB', C, hC, a', -, hdead, hdeadC, ⟨i, hi, hnext⟩, he⟩ := harc
  rw [Prod.mk.injEq, Prod.mk.injEq, Label.symbol.injEq] at he
  obtain ⟨hname, rfl, htarget⟩ := he
  have hsame := merge_inj hD hn hs hB (mem_keptBlocks_iff.mpr ⟨hB', Or.inl hdead⟩) hname
  rw [← hsame] at hi hdead
  exact ⟨C, hC, hdead, hdeadC, ⟨i, hi, hnext⟩, htarget ▸ hget⟩

/-- One step of the simulation. -/
theorem Represents.next (h : Represents D s m j) (a : Symbol) :
    Represents D s (D.minimize.next m a) (D.next j a) := by
  have hM := wellFormed_minimize hD hs
  have hpartition := partition_blocks hD
  cases h with
  | dead hdead =>
    rw [next_dead]
    have hnext := together_next hD hdead a
    rw [next_dead] at hnext
    exact .dead hnext
  | @block _ _ B hB hj hm =>
    have hB' := (mem_keptBlocks_iff.mp hB).1
    have hpart := next_mem_participants hD (hpartition.mem hB' hj) a
    obtain ⟨C, hC, hjC⟩ := (hpartition.cover _).mp hpart
    by_cases hlive : D.dead ∉ B ∧ D.dead ∉ C
    · have ha : a ∈ D.symbols := Classical.not_not.mp fun ha =>
        hlive.2 (next_of_not_mem_symbols hD ha ▸ hjC)
      have harc : (D.merge B, .symbol a, D.merge C) ∈ D.minimize.automaton.content.arcs := by
        rw [minimize_eq hs, content_quotient hD hn hs]
        exact ⟨B, hB', C, hC, a, ha, hlive.1, hlive.2, ⟨j, hj, hjC⟩, rfl⟩
      obtain ⟨n, hnext, hget⟩ := next?_of_arc hM (functional_minimize hD hn hs) hm harc
      rw [next_of_next? hM hnext]
      exact .block (mem_keptBlocks_iff.mpr ⟨hC, Or.inl hlive.2⟩) hjC hget
    · -- no transition is left, and the next state of the given automaton is as good as dead
      have hnone : D.minimize.next? m a = none := by
        cases hnext : D.minimize.next? m a with
        | none => rfl
        | some n =>
          obtain ⟨C', hC', hdead, hdeadC', ⟨i, hi, hiC'⟩, -⟩ := next?_block hD hn hs hB hm hnext
          have he := hpartition.eq_of_together hC' hC hiC' hjC (together_next hD ⟨B, hB', hi, hj⟩ a)
          exact absurd ⟨hdead, he ▸ hdeadC'⟩ hlive
      rw [next_eq hM, hnone, Option.getD_none]
      refine .dead ?_
      by_cases hdead : D.dead ∈ B
      · have hnext := together_next hD ⟨B, hB', hj, hdead⟩ a
        rwa [next_dead] at hnext
      · have hdeadC : D.dead ∈ C := Classical.not_not.mp fun h => hlive ⟨hdead, h⟩
        exact ⟨C, hC, hjC, hdeadC⟩

theorem Represents.after (h : Represents D s m j) (w : List Symbol) :
    Represents D s (D.minimize.after m w) (D.after j w) := by
  induction w generalizing m j with
  | nil => exact h
  | cons a w ih => exact ih (h.next hD hn hs a)

theorem Represents.mem_finals_iff (h : Represents D s m j) : m ∈ D.minimize.finals ↔ j ∈ D.finals := by
  have hM := wellFormed_minimize hD hs
  have hfinal := (refined_blocks hD).final_iff
  cases h with
  | dead hdead =>
    exact iff_of_false (dead_not_mem_finals hM) fun hj => dead_not_mem_finals hD ((hfinal j _ hdead).mp hj)
  | @block _ _ B hB hj hm =>
    have hB' := (mem_keptBlocks_iff.mp hB).1
    have hcontent : D.merge B ∈ D.minimize.automaton.content.finals ↔ m ∈ D.minimize.finals :=
      Automaton.mem_named_iff hM.states_nodup hm
    rw [← hcontent, minimize_eq hs, content_quotient hD hn hs]
    constructor
    · intro h'
      obtain ⟨C, hC, ⟨i, hi, hif⟩, he⟩ := h'
      rw [merge_inj hD hn hs hC hB he] at hi
      exact (hfinal i j ⟨B, hB', hi, hj⟩).mp hif
    · intro hjf
      exact ⟨B, hB, ⟨j, hj, hjf⟩, rfl⟩

theorem Represents.sameWords (h : Represents D s m j) : SameWords D.minimize D m j := fun w =>
  (h.after hD hn hs w).mem_finals_iff hD hn hs

/-! ### Minimality -/

theorem minimize_reached (hm : m < D.minimize.dead) : ∃ w, D.minimize.after D.minimize.entry w = m := by
  have hM := wellFormed_minimize hD hs
  have hpartition := partition_blocks hD
  obtain ⟨B, hB, hget⟩ := exists_block hD hn hs hm
  have hsame : ∀ {n : Nat}, D.minimize.automaton.states[n]? = some (D.merge B) → n = m :=
    fun hget' => Automaton.id_unique hM.states_nodup hget' hget
  by_cases hdead : D.dead ∈ B
  · obtain ⟨-, C, hC, hsC, hgetC⟩ := exists_start_block hD hn hs
    obtain ⟨hB', hkept⟩ := mem_keptBlocks_iff.mp hB
    have he : C = B := hpartition.block_unique (mem_keptBlocks_iff.mp hC).1 hB' hsC
      (hkept.resolve_left (not_not_intro hdead))
    exact ⟨[], hsame (he ▸ hgetC)⟩
  · have hB' := (mem_keptBlocks_iff.mp hB).1
    obtain ⟨j, hj⟩ := hpartition.nonempty B hB'
    rcases (mem_participants_iff hD).mp (hpartition.mem hB' hj) with rfl | ⟨w, rfl⟩
    · exact absurd hj hdead
    · refine ⟨w, ?_⟩
      have hrep := (represents_entry hD hn hs).after hD hn hs w
      generalize D.minimize.after D.minimize.entry w = n at hrep
      cases hrep with
      | dead htogether =>
        obtain ⟨C, hC, hjC, hdeadC⟩ := htogether
        rw [hpartition.block_unique hB' hC hj hjC] at hdead
        exact absurd hdeadC hdead
      | @block _ _ C hC hjC hgetC =>
        have he : C = B := hpartition.block_unique (mem_keptBlocks_iff.mp hC).1 hB' hjC hj
        exact hsame (he ▸ hgetC)

theorem minimize_apart (hm : m < D.minimize.dead) (hm' : n < D.minimize.dead)
    (h : SameWords D.minimize D.minimize m n) : m = n := by
  have hM := wellFormed_minimize hD hs
  have hpartition := partition_blocks hD
  obtain ⟨B, hB, hget⟩ := exists_block hD hn hs hm
  obtain ⟨C, hC, hget'⟩ := exists_block hD hn hs hm'
  have hB' := (mem_keptBlocks_iff.mp hB).1
  have hC' := (mem_keptBlocks_iff.mp hC).1
  obtain ⟨j, hj⟩ := hpartition.nonempty B hB'
  obtain ⟨k, hk⟩ := hpartition.nonempty C hC'
  have hsame : SameWords D D j k :=
    ((Represents.block hB hj hget).sameWords hD hn hs).symm.trans
      (h.trans ((Represents.block hC hk hget').sameWords hD hn hs))
  have htogether := (together_blocks_iff hD (hpartition.mem hB' hj) (hpartition.mem hC' hk)).mpr hsame
  rw [hpartition.eq_of_together hB' hC' hj hk htogether] at hget
  exact Automaton.id_unique hM.states_nodup hget hget'

theorem minimal_minimize : D.minimize.Minimal where
  wellFormed := wellFormed_minimize hD hs
  started := (exists_start_block hD hn hs).1
  reached m hm := minimize_reached hD hn hs hm
  apart m hm n hm' h := minimize_apart hD hn hs hm hm' h
  live m a n h := by
    have hM := wellFormed_minimize hD hs
    obtain ⟨B, hB, hget⟩ := exists_block hD hn hs (source_lt hM h)
    obtain ⟨C, hC, -, hdead, ⟨i, -, hi⟩, hget'⟩ := next?_block hD hn hs hB hget h
    have hrep : Represents D s n (D.next i a) := .block (mem_keptBlocks_iff.mpr ⟨hC, Or.inl hdead⟩) hi hget'
    obtain ⟨w, hw⟩ := exists_after_mem_finals hD hC hdead hi
    exact ⟨w, (hrep.sameWords hD hn hs w).mpr hw⟩

theorem minimize_accepts (ls : List Label) : D.minimize.accepts ls = D.accepts ls :=
  ((represents_entry hD hn hs).sameWords hD hn hs).accepts_eq (wellFormed_minimize hD hs) hD ls

end Simulation

/-! ### Results -/

/-- The minimized automaton is deterministic and accepts the words that the given one accepts. -/
theorem minimize_deterministic_accepts (hD : D.automaton.WellFormed) (hn : D.automaton.NamesApart) :
    D.minimize.automaton.isDeterministic = true ∧ ∀ ls, D.minimize.accepts ls = D.accepts ls := by
  cases hs : D.start? with
  | some s =>
    have hdet := Automaton.isDeterministic_iff (wellFormed_minimize hD hs)
    exact ⟨hdet.mpr (functional_minimize hD hn hs), minimize_accepts hD hn hs⟩
  | none =>
    have hempty : D.minimize = ∅ := by rw [minimize, hs]
    rw [hempty]
    refine ⟨rfl, fun ls => ?_⟩
    rw [accepts, accepts, hs]
    rfl

theorem oddToFour_minimize_accepts : oddToFour.minimize.automaton.isDeterministic = true ∧
    ∀ ls, oddToFour.minimize.accepts ls = oddToFour.accepts ls :=
  minimize_deterministic_accepts (Automaton.wellFormed_ofEdits _)
    (Automaton.namesApart_of_no_semicolon (by decide +kernel))

/-- The minimized automaton has no more states than any other automaton with a start state for the same words,
and minimizing that one gives the same automaton up to the names of the states. -/
theorem minimize_least_canonical (hD : D.automaton.WellFormed) (hn : D.automaton.NamesApart)
    (hs : D.start? ≠ none) : ∀ E : Deterministic, E.automaton.WellFormed → E.start? ≠ none →
      (∀ ls, D.accepts ls = E.accepts ls) → D.minimize.numStates ≤ E.numStates ∧
        (E.automaton.NamesApart → Isomorphic D.minimize E.minimize) := by
  intro E hE hsE hwords
  obtain ⟨s, hs⟩ := Option.ne_none_iff_exists'.mp hs
  obtain ⟨t, ht⟩ := Option.ne_none_iff_exists'.mp hsE
  have hminimal := minimal_minimize hD hn hs
  refine ⟨hminimal.numStates_le hE hsE fun ls => (minimize_accepts hD hn hs ls).trans (hwords ls), ?_⟩
  intro hnE
  refine hminimal.isomorphic (minimal_minimize hE hnE ht) fun ls => ?_
  rw [minimize_accepts hD hn hs, minimize_accepts hE hnE ht, hwords]

/-- Counting to four is counting to two, once minimized. -/
theorem oddToFour_minimize_isomorphic :
    oddToFour.minimize.numStates ≤ odd.numStates ∧ Isomorphic oddToFour.minimize odd.minimize := by
  have hwords := (isEquivalentTo_eq_true_iff (D := oddToFour) (E := odd) (Automaton.wellFormed_ofEdits _)
    (Automaton.wellFormed_ofEdits _)).mp (by decide +kernel)
  obtain ⟨hle, hiso⟩ := minimize_least_canonical (D := oddToFour) (Automaton.wellFormed_ofEdits _)
    (Automaton.namesApart_of_no_semicolon (by decide +kernel)) (by decide +kernel) odd
    (Automaton.wellFormed_ofEdits _) (by decide +kernel) hwords
  exact ⟨hle, hiso (Automaton.namesApart_of_no_semicolon (by decide +kernel))⟩

end FiniteAutomata.Deterministic
