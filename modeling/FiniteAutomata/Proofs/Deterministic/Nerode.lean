import FiniteAutomata.Proofs.Automaton.Named
import FiniteAutomata.Proofs.Deterministic.Minimization
import FiniteAutomata.Proofs.Deterministic.SingleState

/-!
The minimized automaton by names alone (`content_minimize`). The last partition depends on ids, and so do the order
of its blocks and their least members, but the block of a state that a word leads to holds the states that words like
it lead to, words after which the same words are accepted. So each block kept is said by a word, and so are the final
blocks and the transitions between blocks.
-/

namespace FiniteAutomata

namespace Content

/-- After the two words the same words are accepted. -/
def Alike (C : Content) (v w : List Symbol) : Prop := ∀ x, C.Accepts (v ++ x) ↔ C.Accepts (w ++ x)

/-- The states that words like the given one lead to. -/
def block (C : Content) (w : List Symbol) : Set State := {q | ∃ v, C.Alike v w ∧ q ∈ C.run v}

/-- The word may be read on to one that is accepted. -/
def Live (C : Content) (w : List Symbol) : Prop := ∃ x, C.Accepts (w ++ x)

/-- A state for each block of states that words not yet lost lead to; the block of the start state is kept in any
case, if there is one. -/
def minimized (C : Content) : Content where
  states := {q | ∃ w, (C.Live w ∨ w = [] ∧ C.starts.Nonempty) ∧ q.Names (C.block w)}
  symbols := {a | C.starts.Nonempty ∧ a ∈ C.symbols}
  starts := {q | C.starts.Nonempty ∧ q.Names (C.block [])}
  finals := {q | ∃ w, C.Accepts w ∧ q.Names (C.block w)}
  arcs := {x | ∃ w a, C.Live (w ++ [a]) ∧
    x.1.Names (C.block w) ∧ x.2.1 = .symbol a ∧ x.2.2.Names (C.block (w ++ [a]))}

variable {C : Content} {v w : List Symbol}

theorem Accepts.live (h : C.Accepts w) : C.Live w := ⟨[], by rwa [List.append_nil]⟩

theorem Live.of_append (h : C.Live (v ++ w)) : C.Live v := by
  obtain ⟨x, hx⟩ := h
  exact ⟨w ++ x, by rwa [← List.append_assoc]⟩

theorem Live.nonempty_starts (h : C.Live w) : C.starts.Nonempty := by
  obtain ⟨x, hx⟩ := h
  exact hx.nonempty_starts

theorem minimized_of_no_start (h : ¬C.starts.Nonempty) : C.minimized = ⟨∅, ∅, ∅, ∅, ∅⟩ := by
  refine Content.mk.injEq .. |>.mpr ⟨?_, ?_, ?_, ?_, ?_⟩ <;> refine Set.eq_empty_of_forall_notMem ?_
  · rintro q ⟨w, hlive | ⟨-, hstart⟩, -⟩
    · exact h hlive.nonempty_starts
    · exact h hstart
  · exact fun a ha => h ha.1
  · exact fun q hq => h hq.1
  · rintro q ⟨w, haccepts, -⟩
    exact h haccepts.nonempty_starts
  · rintro x ⟨w, a, hlive, -⟩
    exact h hlive.nonempty_starts

end Content

namespace Deterministic

open Refinement (Together)

variable {D : Deterministic} {B : StateSet} {i s : Nat} {q : State} {v w : List Symbol}

/-! ### Words and blocks -/

theorem exists_block_of_word (hD : D.automaton.WellFormed) (w : List Symbol) :
    ∃ B ∈ D.blocks, D.after D.entry w ∈ B :=
  ((partition_blocks hD).cover _).mp ((mem_participants_iff hD).mpr (Or.inr ⟨w, rfl⟩))

theorem exists_word_of_mem (hD : D.automaton.WellFormed) (hB : B ∈ D.blocks) (hi : i ∈ B) (hne : i ≠ D.dead) :
    ∃ w, D.after D.entry w = i :=
  ((mem_participants_iff hD).mp ((partition_blocks hD).mem hB hi)).resolve_left hne

theorem exists_word_of_not_dead (hD : D.automaton.WellFormed) (hB : B ∈ D.blocks) (hdead : D.dead ∉ B) :
    ∃ w, D.after D.entry w ∈ B := by
  obtain ⟨i, hi⟩ := (partition_blocks hD).nonempty B hB
  obtain ⟨w, rfl⟩ := exists_word_of_mem hD hB hi fun he => hdead (he ▸ hi)
  exact ⟨w, hi⟩

section Blocks
variable (hD : D.automaton.WellFormed) (hdet : D.automaton.isDeterministic = true)
include hD hdet

theorem accepts_content_iff_after : D.automaton.content.Accepts w ↔ D.after D.entry w ∈ D.finals := by
  rw [Automaton.accepts_content_iff hD]
  constructor
  · rintro ⟨i, hi, hf⟩
    rwa [((mem_run_iff_after_entry hD hdet).mp hi).2]
  · intro hf
    exact ⟨_, (mem_run_iff_after_entry hD hdet).mpr ⟨hD.finals_lt _ hf, rfl⟩, hf⟩

/-- The same words are accepted after two words if they are from the states that the words lead to. -/
theorem alike_iff_sameWords :
    D.automaton.content.Alike v w ↔ SameWords D D (D.after D.entry v) (D.after D.entry w) := by
  refine forall_congr' fun x => ?_
  rw [accepts_content_iff_after hD hdet, accepts_content_iff_after hD hdet, after_append, after_append]

theorem live_iff_dead_not_mem (hB : B ∈ D.blocks) (hw : D.after D.entry w ∈ B) :
    D.automaton.content.Live w ↔ D.dead ∉ B := by
  constructor
  · rintro ⟨x, hx⟩ hdead
    rw [accepts_content_iff_after hD hdet, after_append] at hx
    have hsame := (together_blocks_iff hD ((partition_blocks hD).mem hB hw) (dead_mem_participants D)).mp
      ⟨B, hB, hw, hdead⟩
    exact after_dead_not_mem_finals hD x ((hsame x).mp hx)
  · intro hdead
    obtain ⟨x, hx⟩ := exists_after_mem_finals hD hB hdead hw
    refine ⟨x, (accepts_content_iff_after hD hdet).mpr ?_⟩
    rwa [after_append]

/-- The states of a block, by name. -/
theorem mem_members_erase_iff_mem_block (hB : B ∈ D.blocks) (hw : D.after D.entry w ∈ B) :
    q ∈ D.automaton.members (B.erase D.dead) ↔ q ∈ D.automaton.content.block w := by
  have hpartition := partition_blocks hD
  constructor
  · -- a member other than the dead state is where some word leads
    intro hq
    obtain ⟨i, hi, rfl⟩ := List.mem_map.mp hq
    obtain ⟨hne, hiB⟩ := StateSet.mem_erase.mp (StateSet.mem_toList.mp hi)
    have hpart := hpartition.mem hB hiB
    obtain ⟨v, rfl⟩ := ((mem_participants_iff hD).mp hpart).resolve_left hne
    have hlt := Nat.lt_of_le_of_ne (le_of_mem_participants hD hpart) hne
    refine ⟨v, ?_, ?_⟩
    · rw [alike_iff_sameWords hD hdet, ← together_blocks_iff hD hpart (hpartition.mem hB hw)]
      exact ⟨B, hB, hiB, hw⟩
    · rw [← Automaton.named_run hD]
      exact ⟨_, (mem_run_iff_after_entry hD hdet).mpr ⟨hlt, rfl⟩, Automaton.getElem?_states hlt⟩
  · rintro ⟨v, hv, hq⟩
    rw [← Automaton.named_run hD] at hq
    obtain ⟨i, hi, hq⟩ := hq
    obtain ⟨hlt, rfl⟩ := (mem_run_iff_after_entry hD hdet).mp hi
    rw [← Automaton.state_of_getElem? hq, mem_members_erase_iff hD hB hlt]
    have hpart := (mem_participants_iff hD).mpr (Or.inr ⟨v, rfl⟩)
    have htogether := (together_blocks_iff hD hpart (hpartition.mem hB hw)).mpr
      ((alike_iff_sameWords hD hdet).mp hv)
    obtain ⟨B', hB', hvB', hwB'⟩ := htogether
    rwa [hpartition.block_unique hB hB' hw hwB']

theorem names_block_iff (hB : B ∈ D.blocks) (hw : D.after D.entry w ∈ B) :
    q.Names (D.automaton.content.block w) ↔ D.merge B = q := by
  rw [eq_comm (a := D.merge B)]
  exact State.names_iff fun _ => mem_members_erase_iff_mem_block hD hdet hB hw

/-! ### The quotient by words -/

theorem exists_final_block_iff : (∃ B ∈ D.keptBlocks D.blocks s, (∃ i ∈ B, i ∈ D.finals) ∧ D.merge B = q) ↔
    ∃ w, D.automaton.content.Accepts w ∧ q.Names (D.automaton.content.block w) := by
  constructor
  · rintro ⟨B, hB, ⟨i, hi, hf⟩, hq⟩
    have hB := (mem_keptBlocks_iff.mp hB).1
    have hne : i ≠ D.dead := fun he => dead_not_mem_finals hD (he ▸ hf)
    obtain ⟨w, rfl⟩ := exists_word_of_mem hD hB hi hne
    exact ⟨w, (accepts_content_iff_after hD hdet).mpr hf, (names_block_iff hD hdet hB hi).mpr hq⟩
  · rintro ⟨w, haccepts, hq⟩
    obtain ⟨B, hB, hw⟩ := exists_block_of_word hD w
    have hdead := (live_iff_dead_not_mem hD hdet hB hw).mp haccepts.live
    have hf := (accepts_content_iff_after hD hdet).mp haccepts
    exact ⟨B, mem_keptBlocks_iff.mpr ⟨hB, Or.inl hdead⟩, ⟨_, hw, hf⟩, (names_block_iff hD hdet hB hw).mp hq⟩

theorem exists_edge_iff {x : State × Label × State} :
    (∃ B ∈ D.blocks, ∃ C ∈ D.blocks, ∃ a ∈ D.symbols, D.dead ∉ B ∧ D.dead ∉ C ∧ (∃ i ∈ B, D.next i a ∈ C) ∧
        x = (D.merge B, .symbol a, D.merge C)) ↔
      ∃ w a, D.automaton.content.Live (w ++ [a]) ∧ x.1.Names (D.automaton.content.block w) ∧ x.2.1 = .symbol a ∧
        x.2.2.Names (D.automaton.content.block (w ++ [a])) := by
  constructor
  · rintro ⟨B, hB, C, hC, a, -, hdead, hdeadC, ⟨i, hi, hnext⟩, rfl⟩
    have hne : i ≠ D.dead := fun he => hdead (he ▸ hi)
    obtain ⟨w, rfl⟩ := exists_word_of_mem hD hB hi hne
    have hw : D.after D.entry (w ++ [a]) ∈ C := by rwa [after_append]
    exact ⟨w, a, (live_iff_dead_not_mem hD hdet hC hw).mpr hdeadC, (names_block_iff hD hdet hB hi).mpr rfl, rfl,
      (names_block_iff hD hdet hC hw).mpr rfl⟩
  · obtain ⟨p, l, q⟩ := x
    rintro ⟨w, a, hlive, hp, rfl, hq⟩
    obtain ⟨B, hB, hw⟩ := exists_block_of_word hD w
    obtain ⟨C, hC, hwa⟩ := exists_block_of_word hD (w ++ [a])
    have hdead := (live_iff_dead_not_mem hD hdet hB hw).mp hlive.of_append
    have hdeadC := (live_iff_dead_not_mem hD hdet hC hwa).mp hlive
    have hnext : D.next (D.after D.entry w) a ∈ C := by rwa [after_append] at hwa
    have ha : a ∈ D.symbols := Classical.not_not.mp fun ha => hdeadC (next_of_not_mem_symbols hD ha ▸ hnext)
    refine ⟨B, hB, C, hC, a, ha, hdead, hdeadC, ⟨_, hw, hnext⟩, ?_⟩
    rw [(names_block_iff hD hdet hB hw).mp hp, (names_block_iff hD hdet hC hwa).mp hq]

section Started
variable (hs : D.start? = some s)
include hs

theorem exists_start_block_iff : (∃ B ∈ D.blocks, s ∈ B ∧ D.merge B = q) ↔
    q.Names (D.automaton.content.block []) := by
  have hentry : D.after D.entry [] = s := entry_eq hs
  constructor
  · rintro ⟨B, hB, hsB, hq⟩
    exact (names_block_iff hD hdet hB (hentry ▸ hsB)).mpr hq
  · intro hq
    obtain ⟨B, hB, hw⟩ := exists_block_of_word hD []
    exact ⟨B, hB, hentry ▸ hw, (names_block_iff hD hdet hB hw).mp hq⟩

theorem exists_kept_block_iff : (∃ B ∈ D.keptBlocks D.blocks s, D.merge B = q) ↔
    ∃ w, (D.automaton.content.Live w ∨ w = []) ∧ q.Names (D.automaton.content.block w) := by
  constructor
  · rintro ⟨B, hB, hq⟩
    -- the block of the start state is kept even if it is dead
    obtain ⟨hB, hdead | hsB⟩ := mem_keptBlocks_iff.mp hB
    · obtain ⟨w, hw⟩ := exists_word_of_not_dead hD hB hdead
      exact ⟨w, Or.inl ((live_iff_dead_not_mem hD hdet hB hw).mpr hdead), (names_block_iff hD hdet hB hw).mpr hq⟩
    · exact ⟨[], Or.inr rfl, (exists_start_block_iff hD hdet hs).mp ⟨B, hB, hsB, hq⟩⟩
  · rintro ⟨w, hlive | rfl, hq⟩
    · obtain ⟨B, hB, hw⟩ := exists_block_of_word hD w
      have hdead := (live_iff_dead_not_mem hD hdet hB hw).mp hlive
      exact ⟨B, mem_keptBlocks_iff.mpr ⟨hB, Or.inl hdead⟩, (names_block_iff hD hdet hB hw).mp hq⟩
    · obtain ⟨B, hB, hsB, hq⟩ := (exists_start_block_iff hD hdet hs).mpr hq
      exact ⟨B, mem_keptBlocks_iff.mpr ⟨hB, Or.inr hsB⟩, hq⟩

end Started

/-! ### The content of the minimized automaton -/

/-- The minimized automaton is made of the words of the content. -/
theorem content_minimize (hn : D.automaton.NamesApart) :
    D.minimize.automaton.content = D.automaton.content.minimized := by
  cases hs : D.start? with
  | some s =>
    have hstart : D.automaton.content.starts.Nonempty :=
      ⟨_, s, StateSet.mem_of_min?_eq_some hs, Automaton.getElem?_states (start_lt hD hs)⟩
    rw [minimize_eq hs, content_quotient hD hn hs]
    refine Content.mk.injEq .. |>.mpr ⟨?_, ?_, ?_, ?_, ?_⟩
    · ext q
      simp only [Set.mem_ofPred_eq, exists_kept_block_iff hD hdet hs, hstart, and_true]
    · ext a
      exact (and_iff_right hstart).symm
    · ext q
      exact (exists_start_block_iff hD hdet hs).trans (and_iff_right hstart).symm
    · ext q
      exact exists_final_block_iff hD hdet
    · ext x
      exact exists_edge_iff hD hdet
  | none =>
    have hnone : ¬D.automaton.content.starts.Nonempty := by
      rintro ⟨p, i, hi, -⟩
      exact StateSet.min?_eq_none_iff.mp hs i hi
    have hempty : D.minimize = ∅ := by rw [minimize, hs]
    rw [hempty, Content.minimized_of_no_start hnone]
    exact (Automaton.content_noStates []).trans (by simp)

end Blocks

end Deterministic

end FiniteAutomata
