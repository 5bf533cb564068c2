import FiniteAutomata.Deterministic.Minimize
import FiniteAutomata.Proofs.Automaton.Layout
import FiniteAutomata.Proofs.Deterministic.Functional
import FiniteAutomata.Proofs.Deterministic.Refinement
import FiniteAutomata.Proofs.State.Names

/-!
The quotient of an automaton by the last partition, described by names (`content_quotient`): one state for each
block kept, and a transition from block to block wherever a member steps into the other block, neither of the
two dead. Names tell blocks apart as far as the names of sets of states do.
-/

namespace FiniteAutomata.Deterministic

open Refinement (Partition Together)

variable {D : Deterministic} {B C : StateSet} {blocks : List StateSet} {i j s : Nat} {a : Symbol} {q : State}

/-! ### Blocks -/

theorem blockOf?_eq_some_iff {U : StateSet} (h : Partition U blocks) :
    blockOf? blocks i = some B ↔ B ∈ blocks ∧ i ∈ B := by
  rw [blockOf?]
  constructor
  · intro hfind
    have hi := List.find?_some hfind
    exact ⟨List.mem_of_find?_eq_some hfind, hi⟩
  · intro h'
    obtain ⟨hB, hi⟩ := h'
    cases hfind : blocks.find? (·.contains i) with
    | none => exact absurd hi (List.find?_eq_none.mp hfind B hB)
    | some C =>
      have hC := List.mem_of_find?_eq_some hfind
      have hiC := List.find?_some hfind
      rw [h.block_unique hC hB hiC hi]

theorem mem_keptBlocks_iff : B ∈ D.keptBlocks blocks s ↔ B ∈ blocks ∧ (D.dead ∉ B ∨ s ∈ B) := by
  rw [keptBlocks, List.mem_filter, Bool.or_eq_true, Bool.not_eq_true', ← Bool.not_eq_true]
  exact Iff.rfl

/-- The next block is the one that the members lead to, unless that is dead. -/
theorem nextBlock?_eq_some_iff (hD : D.automaton.WellFormed) (hB : B ∈ D.blocks) :
    D.nextBlock? D.blocks B a = some C ↔ C ∈ D.blocks ∧ D.dead ∉ C ∧ ∃ i ∈ B, D.next i a ∈ C := by
  have hpartition := partition_blocks hD
  rw [nextBlock?, Option.filter_eq_some_iff, Bool.not_eq_true', ← Bool.not_eq_true]
  cases hm : B.min? with
  | none =>
    obtain ⟨i, hi⟩ := hpartition.nonempty B hB
    exact absurd hi (StateSet.min?_eq_none_iff.mp hm i)
  | some i =>
    have hi := StateSet.mem_of_min?_eq_some hm
    rw [Option.map_some, Option.bind_some, blockOf?_eq_some_iff hpartition]
    constructor
    · intro h
      obtain ⟨⟨hC, hnext⟩, hdead⟩ := h
      exact ⟨hC, hdead, i, hi, hnext⟩
    · intro h
      obtain ⟨hC, hdead, j, hj, hnext⟩ := h
      obtain ⟨C', hC', hiC', hjC'⟩ := together_next hD ⟨B, hB, hi, hj⟩ a
      rw [hpartition.block_unique hC hC' hnext hjC']
      exact ⟨⟨hC', hiC'⟩, hpartition.block_unique hC hC' hnext hjC' ▸ hdead⟩

theorem mem_blockMoves_iff (hD : D.automaton.WellFormed) (hB : B ∈ D.blocks) {m : Label × StateSet} :
    m ∈ D.blockMoves D.blocks B ↔ ∃ C ∈ D.blocks, ∃ a ∈ D.symbols,
      D.dead ∉ B ∧ D.dead ∉ C ∧ (∃ i ∈ B, D.next i a ∈ C) ∧ m = (.symbol a, C) := by
  rw [blockMoves]
  constructor
  · intro hm
    split at hm
    · cases hm
    · rename_i hdead
      obtain ⟨a, ha, hm⟩ := List.mem_filterMap.mp hm
      obtain ⟨C, hC, rfl⟩ := Option.map_eq_some_iff.mp hm
      obtain ⟨hCB, hdeadC, hnext⟩ := (nextBlock?_eq_some_iff hD hB).mp hC
      exact ⟨C, hCB, a, ha, hdead, hdeadC, hnext, rfl⟩
  · rintro ⟨C, hC, a, ha, hdead, hdeadC, hnext, rfl⟩
    rw [if_neg (mt StateSet.contains_iff.mp hdead), List.mem_filterMap]
    exact ⟨a, ha, by rw [(nextBlock?_eq_some_iff hD hB).mpr ⟨hC, hdeadC, hnext⟩, Option.map_some]⟩

/-! ### Names of blocks -/

theorem exists_mem_ne_dead (hD : D.automaton.WellFormed) (hs : D.start? = some s)
    (hB : B ∈ D.keptBlocks D.blocks s) : ∃ i ∈ B, i < D.dead := by
  obtain ⟨hB, hkept⟩ := mem_keptBlocks_iff.mp hB
  rcases hkept with hdead | hsB
  · obtain ⟨i, hi⟩ := (partition_blocks hD).nonempty B hB
    have hle := le_of_mem_participants hD ((partition_blocks hD).mem hB hi)
    exact ⟨i, hi, Nat.lt_of_le_of_ne hle fun he => hdead (he ▸ hi)⟩
  · exact ⟨s, hsB, start_lt hD hs⟩

theorem mem_members_erase_iff (hD : D.automaton.WellFormed) (hB : B ∈ D.blocks) (hi : i < D.dead) :
    D.automaton.state i ∈ D.automaton.members (B.erase D.dead) ↔ i ∈ B := by
  rw [Automaton.members, List.mem_map]
  constructor
  · intro h
    obtain ⟨j, hj, he⟩ := h
    obtain ⟨hne, hjB⟩ := StateSet.mem_erase.mp (StateSet.mem_toList.mp hj)
    have hle := le_of_mem_participants hD ((partition_blocks hD).mem hB hjB)
    rwa [Automaton.state_inj hD hi (Nat.lt_of_le_of_ne hle hne) he.symm]
  · intro hiB
    exact ⟨i, StateSet.mem_toList.mpr (StateSet.mem_erase.mpr ⟨Nat.ne_of_lt hi, hiB⟩), rfl⟩

theorem members_erase_subset (hD : D.automaton.WellFormed) (hB : B ∈ D.blocks) :
    ∀ q ∈ D.automaton.members (B.erase D.dead), q ∈ D.automaton.states := by
  intro q hq
  obtain ⟨j, hj, rfl⟩ := List.mem_map.mp hq
  obtain ⟨hne, hjB⟩ := StateSet.mem_erase.mp (StateSet.mem_toList.mp hj)
  have hle := le_of_mem_participants hD ((partition_blocks hD).mem hB hjB)
  exact List.mem_of_getElem? (Automaton.getElem?_states (Nat.lt_of_le_of_ne hle hne))

/-- Different blocks have different names. -/
theorem merge_inj (hD : D.automaton.WellFormed) (hn : D.automaton.NamesApart) (hs : D.start? = some s)
    (hB : B ∈ D.keptBlocks D.blocks s) (hC : C ∈ D.keptBlocks D.blocks s) (he : D.merge B = D.merge C) :
    B = C := by
  have hB' := (mem_keptBlocks_iff.mp hB).1
  have hC' := (mem_keptBlocks_iff.mp hC).1
  obtain ⟨i, hi, hlt⟩ := exists_mem_ne_dead hD hs hB
  obtain ⟨j, hj, hlt'⟩ := exists_mem_ne_dead hD hs hC
  have hiB := (mem_members_erase_iff hD hB' hlt).mpr hi
  have hjC := (mem_members_erase_iff hD hC' hlt').mpr hj
  have hsame := hn _ _ (List.ne_nil_of_mem hiB) (List.ne_nil_of_mem hjC) (members_erase_subset hD hB')
    (members_erase_subset hD hC') he
  have hiC := (mem_members_erase_iff hD hC' hlt).mp ((hsame _).mp hiB)
  exact (partition_blocks hD).block_unique hB' hC' hi hiC

/-! ### The content of the quotient -/

theorem wellFormed_quotient (hD : D.automaton.WellFormed) (blocks : List StateSet) (s : Nat) :
    (D.quotient blocks s).WellFormed :=
  Layout.wellFormed_build (L := D.quotientLayout blocks s) hD.symbols_nodup

/-- The block of the start state is kept, and none leads to the dead block. -/
theorem closed_quotientLayout (hD : D.automaton.WellFormed) (s : Nat) : (D.quotientLayout D.blocks s).Closed where
  symbols_nodup := hD.symbols_nodup
  starts_mem B hB := by
    obtain ⟨hB, hsB⟩ := (blockOf?_eq_some_iff (partition_blocks hD)).mp (Option.mem_toList.mp hB)
    exact mem_keptBlocks_iff.mpr ⟨hB, Or.inr hsB⟩
  targets_mem B hB m hm := by
    obtain ⟨C, hC, a, -, -, hdead, -, rfl⟩ := (mem_blockMoves_iff hD (mem_keptBlocks_iff.mp hB).1).mp hm
    exact mem_keptBlocks_iff.mpr ⟨hC, Or.inl hdead⟩
  declared B hB m hm b hb := by
    obtain ⟨C, -, a, ha, -, -, -, rfl⟩ := (mem_blockMoves_iff hD (mem_keptBlocks_iff.mp hB).1).mp hm
    cases hb
    exact ha

theorem marksAgree_quotientLayout (hD : D.automaton.WellFormed) (hn : D.automaton.NamesApart)
    (hs : D.start? = some s) : (D.quotientLayout D.blocks s).MarksAgree (D.keptBlocks D.blocks s) :=
  Layout.marksAgree_of_names fun _ hB _ hC => merge_inj hD hn hs hB hC

/-- The quotient by names. -/
theorem content_quotient (hD : D.automaton.WellFormed) (hn : D.automaton.NamesApart) (hs : D.start? = some s) :
    (D.quotient D.blocks s).content = {
      states := {q | ∃ B ∈ D.keptBlocks D.blocks s, D.merge B = q}
      symbols := {a | a ∈ D.symbols}
      starts := {q | ∃ B ∈ D.blocks, s ∈ B ∧ D.merge B = q}
      finals := {q | ∃ B ∈ D.keptBlocks D.blocks s, (∃ i ∈ B, i ∈ D.finals) ∧ D.merge B = q}
      arcs := {x | ∃ B ∈ D.blocks, ∃ C ∈ D.blocks, ∃ a ∈ D.symbols, D.dead ∉ B ∧ D.dead ∉ C ∧
        (∃ i ∈ B, D.next i a ∈ C) ∧ x = (D.merge B, .symbol a, D.merge C)} } := by
  refine (Layout.content_build (closed_quotientLayout hD s) (marksAgree_quotientLayout hD hn hs)).trans ?_
  refine Content.mk.injEq .. |>.mpr ⟨?_, rfl, ?_, ?_, ?_⟩
  · exact Set.ext fun q => exists_congr fun B => and_congr_right fun _ => eq_comm
  · ext q
    refine exists_congr fun B => ?_
    change B ∈ (blockOf? D.blocks s).toList ∧ q = D.merge B ↔ _
    rw [Option.mem_toList, blockOf?_eq_some_iff (partition_blocks hD), and_assoc, eq_comm]
  · ext q
    refine exists_congr fun B => and_congr_right fun _ => and_congr ?_ eq_comm
    change some (B.intersects D.finals) = some true ↔ _
    rw [Option.some.injEq, StateSet.intersects_iff]
  · ext x
    constructor
    · rintro ⟨B, hB, m, hm, rfl⟩
      have hB := (mem_keptBlocks_iff.mp hB).1
      obtain ⟨C, hC, a, ha, hdead, hdeadC, hnext, rfl⟩ := (mem_blockMoves_iff hD hB).mp hm
      exact ⟨B, hB, C, hC, a, ha, hdead, hdeadC, hnext, rfl⟩
    · rintro ⟨B, hB, C, hC, a, ha, hdead, hdeadC, hnext, rfl⟩
      exact ⟨B, mem_keptBlocks_iff.mpr ⟨hB, Or.inl hdead⟩, _,
        (mem_blockMoves_iff hD hB).mpr ⟨C, hC, a, ha, hdead, hdeadC, hnext, rfl⟩, rfl⟩

theorem functional_quotient (hD : D.automaton.WellFormed) (hn : D.automaton.NamesApart)
    (hs : D.start? = some s) : (D.quotient D.blocks s).content.Functional := by
  have hpartition := partition_blocks hD
  rw [content_quotient hD hn hs]
  refine ⟨?_, ?_, ?_⟩
  · rintro p ⟨B, hB, hsB, rfl⟩ q ⟨C, hC, hsC, rfl⟩
    rw [hpartition.block_unique hB hC hsB hsC]
  · rintro p q ⟨B, -, C, -, a, -, -, -, -, he⟩
    cases he
  · rintro p l q q' ⟨B, hB, C, hC, a, -, hdead, -, ⟨i, hi, hiC⟩, he⟩ ⟨B', hB', C', hC', a', -, hdead', -,
      ⟨j, hj, hjC'⟩, he'⟩
    rw [Prod.mk.injEq, Prod.mk.injEq] at he he'
    obtain ⟨rfl, rfl, rfl⟩ := he
    obtain ⟨hBB', haa', rfl⟩ := he'
    rw [Label.symbol.injEq] at haa'
    have hsame : B = B' := merge_inj hD hn hs (mem_keptBlocks_iff.mpr ⟨hB, Or.inl hdead⟩)
      (mem_keptBlocks_iff.mpr ⟨hB', Or.inl hdead'⟩) hBB'
    rw [← hsame] at hj
    rw [← haa'] at hjC'
    rw [hpartition.eq_of_together hC hC' hiC hjC' (together_next hD ⟨B, hB, hi, hj⟩ a)]

end FiniteAutomata.Deterministic
