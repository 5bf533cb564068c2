import Mathlib.Data.List.Perm.Subperm
import Mathlib.Logic.Relation
import FiniteAutomata.Proofs.Deterministic.Reachable

/-!
Refinement ends in a partition of the participants into states that accept the same words
(`together_blocks_iff`).

A step splits every block by the states that lead into one block, so two states stay together if they agree on
that (`together_pieces_iff`). The queue may hold only the smaller part of a block split later on, and the whole
block may have been taken off it before; so the invariant does not say that the partition is stable for each
block not queued. It says that two states of one block lead into one block on `a` as soon as they lead into the
same of the blocks queued with `a` (`Refined.settled`): what is known of a block split in two is known again
once one part is queued. The loop is a sequence of passes, each of which keeps this (`Refined.reflTransGen`), and it
ends with the queue empty (`reflTransGen_blocks`), when nothing is left to agree on.
-/

namespace FiniteAutomata

namespace Refinement

variable {P B C K N U : StateSet} {blocks : List StateSet} {i j k : Nat} {a : Symbol} {symbols : List Symbol}

/-! ### Splitting one block -/

/-- A block is left whole if all of its members agree on `P`, and otherwise falls into those in `P` and the
others. -/
theorem split_cases (P B : StateSet) :
    split P B = (B, none) ∧ (∀ i ∈ B, ∀ j ∈ B, i ∈ P ↔ j ∈ P) ∨
      (∃ i ∈ B, i ∈ P) ∧ (∃ i ∈ B, i ∉ P) ∧
        (split P B = (B \ P, some (B ∩ P)) ∨ split P B = (B ∩ P, some (B \ P))) := by
  unfold split
  dsimp only
  split
  · rename_i hempty
    rw [Bool.or_eq_true, StateSet.isEmpty_iff, StateSet.isEmpty_iff] at hempty
    refine Or.inl ⟨rfl, fun i hi j hj => ?_⟩
    rcases hempty with hinside | houtside
    · exact iff_of_false (fun hp => hinside i (StateSet.mem_inter.mpr ⟨hi, hp⟩))
        (fun hp => hinside j (StateSet.mem_inter.mpr ⟨hj, hp⟩))
    · have hall : ∀ i ∈ B, i ∈ P := fun i hi =>
        Classical.not_not.mp fun hp => houtside i (StateSet.mem_sdiff.mpr ⟨hi, hp⟩)
      exact iff_of_true (hall i hi) (hall j hj)
  · rename_i hsome
    rw [Bool.or_eq_true, not_or, StateSet.not_isEmpty_iff, StateSet.not_isEmpty_iff] at hsome
    obtain ⟨⟨i, hi⟩, ⟨j, hj⟩⟩ := hsome
    refine Or.inr ⟨⟨i, StateSet.mem_inter.mp hi⟩, ⟨j, StateSet.mem_sdiff.mp hj⟩, ?_⟩
    split
    · exact Or.inl rfl
    · exact Or.inr rfl

/-- `C` is a part of `B` that splitting by `P` keeps in place or makes new. -/
def Piece (P B C : StateSet) : Prop := C = (split P B).1 ∨ (split P B).2 = some C

theorem piece_kept (P B : StateSet) : Piece P B (split P B).1 := Or.inl rfl

theorem Piece.cases (h : Piece P B C) : C = B ∧ (∀ i ∈ B, ∀ j ∈ B, i ∈ P ↔ j ∈ P) ∨
    C = B ∩ P ∧ (∃ i ∈ B, i ∈ P) ∨ C = B \ P ∧ ∃ i ∈ B, i ∉ P := by
  rcases split_cases P B with ⟨hs, hagree⟩ | ⟨hin, hout, hs | hs⟩ <;> rw [Piece, hs] at h
  · rcases h with rfl | h
    · exact Or.inl ⟨rfl, hagree⟩
    · cases h
  · rcases h with rfl | h
    · exact Or.inr (Or.inr ⟨rfl, hout⟩)
    · cases h
      exact Or.inr (Or.inl ⟨rfl, hin⟩)
  · rcases h with rfl | h
    · exact Or.inr (Or.inl ⟨rfl, hin⟩)
    · cases h
      exact Or.inr (Or.inr ⟨rfl, hout⟩)

theorem Piece.subset (h : Piece P B C) (hi : i ∈ C) : i ∈ B := by
  rcases h.cases with ⟨rfl, -⟩ | ⟨rfl, -⟩ | ⟨rfl, -⟩
  · exact hi
  · exact (StateSet.mem_inter.mp hi).1
  · exact (StateSet.mem_sdiff.mp hi).1

/-- A piece holds those members of its block that agree on `P` with one of its own. -/
theorem Piece.mem_iff (h : Piece P B C) (hi : i ∈ C) (hj : j ∈ B) : j ∈ C ↔ (i ∈ P ↔ j ∈ P) := by
  rcases h.cases with ⟨rfl, hagree⟩ | ⟨rfl, -⟩ | ⟨rfl, -⟩
  · exact iff_of_true hj (hagree i hi j hj)
  · rw [StateSet.mem_inter] at hi ⊢
    simp [hi, hj]
  · rw [StateSet.mem_sdiff] at hi ⊢
    simp [hi, hj]

theorem Piece.nonempty (h : Piece P B C) (hB : ∃ i, i ∈ B) : ∃ i, i ∈ C := by
  rcases h.cases with ⟨rfl, -⟩ | ⟨rfl, i, hi, hiP⟩ | ⟨rfl, i, hi, hiP⟩
  · exact hB
  · exact ⟨i, StateSet.mem_inter.mpr ⟨hi, hiP⟩⟩
  · exact ⟨i, StateSet.mem_sdiff.mpr ⟨hi, hiP⟩⟩

theorem exists_piece (P : StateSet) (hi : i ∈ B) : ∃ C, Piece P B C ∧ i ∈ C := by
  rcases split_cases P B with ⟨hs, -⟩ | ⟨-, -, hs | hs⟩
  · exact ⟨B, Or.inl (by rw [hs]), hi⟩
  · by_cases hiP : i ∈ P
    · exact ⟨B ∩ P, Or.inr (by rw [hs]), StateSet.mem_inter.mpr ⟨hi, hiP⟩⟩
    · exact ⟨B \ P, Or.inl (by rw [hs]), StateSet.mem_sdiff.mpr ⟨hi, hiP⟩⟩
  · by_cases hiP : i ∈ P
    · exact ⟨B ∩ P, Or.inl (by rw [hs]), StateSet.mem_inter.mpr ⟨hi, hiP⟩⟩
    · exact ⟨B \ P, Or.inr (by rw [hs]), StateSet.mem_sdiff.mpr ⟨hi, hiP⟩⟩

theorem not_mem_new_of_mem_kept (h : (split P B).2 = some N) (hi : i ∈ (split P B).1) : i ∉ N := by
  rcases split_cases P B with ⟨hs, -⟩ | ⟨-, -, hs | hs⟩ <;> rw [hs] at h hi <;> cases h
  · exact fun hN => (StateSet.mem_sdiff.mp hi).2 (StateSet.mem_inter.mp hN).2
  · exact fun hN => (StateSet.mem_sdiff.mp hN).2 (StateSet.mem_inter.mp hi).2

theorem mem_kept_or_mem_new (hi : i ∈ B) : i ∈ (split P B).1 ∨ ∃ N, (split P B).2 = some N ∧ i ∈ N := by
  obtain ⟨C, hC, hiC⟩ := exists_piece P hi
  rcases hC with rfl | hC
  · exact Or.inl hiC
  · exact Or.inr ⟨C, hC, hiC⟩

/-! ### Splitting a partition -/

/-- The parts made new when all blocks are split by `P`. -/
def newPieces (P : StateSet) (blocks : List StateSet) : List StateSet :=
  (blocks.map (split P)).filterMap (·.2)

/-- All blocks split by `P`: the parts kept in place, then the new ones. -/
def pieces (P : StateSet) (blocks : List StateSet) : List StateSet :=
  (blocks.map (split P)).map (·.1) ++ newPieces P blocks

theorem mem_newPieces : N ∈ newPieces P blocks ↔ ∃ B ∈ blocks, (split P B).2 = some N := by
  rw [newPieces, List.filterMap_map, List.mem_filterMap]
  exact Iff.rfl

theorem mem_pieces : C ∈ pieces P blocks ↔ ∃ B ∈ blocks, Piece P B C := by
  rw [pieces, List.mem_append, mem_newPieces, List.map_map, List.mem_map]
  constructor
  · intro h'
    rcases h' with ⟨B, hB, rfl⟩ | ⟨B, hB, h⟩
    · exact ⟨B, hB, Or.inl rfl⟩
    · exact ⟨B, hB, Or.inr h⟩
  · intro h'
    obtain ⟨B, hB, rfl | h⟩ := h'
    · exact Or.inl ⟨B, hB, rfl⟩
    · exact Or.inr ⟨B, hB, h⟩

theorem length_pieces : (pieces P blocks).length = blocks.length + (newPieces P blocks).length := by
  rw [pieces, List.length_append, List.length_map, List.length_map]

theorem getD_pieces (hk : k < blocks.length) :
    (pieces P blocks).getD k ∅ = (split P (blocks.getD k ∅)).1 := by
  rw [pieces, List.getD_eq_getElem?_getD, List.getElem?_append_left (by simpa using hk), List.map_map,
    List.getElem?_map, List.getD_eq_getElem?_getD, List.getElem?_eq_getElem hk]
  rfl

theorem exists_position_of_mem_newPieces (h : N ∈ newPieces P blocks) :
    ∃ k ∈ List.range' blocks.length (newPieces P blocks).length, (pieces P blocks).getD k ∅ = N := by
  obtain ⟨m, hm, rfl⟩ := List.mem_iff_getElem.mp h
  refine ⟨blocks.length + m, List.mem_range'_1.mpr ⟨Nat.le_add_right _ _, by omega⟩, ?_⟩
  have hlen : ((blocks.map (split P)).map (·.1)).length = blocks.length := by
    rw [List.length_map, List.length_map]
  rw [pieces, List.getD_eq_getElem?_getD, List.getElem?_append_right (by omega), hlen, Nat.add_sub_cancel_left,
    List.getElem?_eq_getElem hm, Option.getD_some]

theorem mem_splitters {positions : List Nat} :
    (k, a) ∈ splitters symbols positions ↔ k ∈ positions ∧ a ∈ symbols := by
  rw [splitters, List.mem_flatMap]
  constructor
  · intro h'
    obtain ⟨k', hk, h⟩ := h'
    obtain ⟨a', ha, he⟩ := List.mem_map.mp h
    cases he
    exact ⟨hk, ha⟩
  · intro h'
    obtain ⟨hk, ha⟩ := h'
    exact ⟨k, hk, List.mem_map.mpr ⟨a, ha, rfl⟩⟩

theorem length_splitters (symbols : List Symbol) (positions : List Nat) :
    (splitters symbols positions).length = positions.length * symbols.length := by
  rw [splitters, List.length_flatMap]
  simp

/-! ### Partitions -/

/-- Nonempty sets without a common member that make up `U`. -/
structure Partition (U : StateSet) (blocks : List StateSet) : Prop where
  nonempty : ∀ B ∈ blocks, ∃ i, i ∈ B
  disjoint : blocks.Pairwise fun B C => ∀ i ∈ B, i ∉ C
  cover : ∀ i, i ∈ U ↔ ∃ B ∈ blocks, i ∈ B

namespace Partition

theorem block_unique (h : Partition U blocks) (hB : B ∈ blocks) (hC : C ∈ blocks) (hiB : i ∈ B)
    (hiC : i ∈ C) : B = C := by
  have hforth : blocks.Pairwise fun B C => ∀ i ∈ B, i ∈ C → B = C :=
    h.disjoint.imp fun hBC i hi hi' => absurd hi' (hBC i hi)
  have hback : blocks.Pairwise fun B C => ∀ i ∈ C, i ∈ B → C = B :=
    h.disjoint.imp fun hBC i hi hi' => absurd hi (hBC i hi')
  exact List.Pairwise.forall_of_forall_of_flip (fun _ _ _ _ _ => rfl) hforth hback hB hC i hiB hiC

theorem mem (h : Partition U blocks) (hB : B ∈ blocks) (hi : i ∈ B) : i ∈ U := (h.cover i).mpr ⟨B, hB, hi⟩

theorem split (h : Partition U blocks) (P : StateSet) : Partition U (pieces P blocks) where
  nonempty C hC := by
    obtain ⟨B, hB, hpiece⟩ := mem_pieces.mp hC
    exact hpiece.nonempty (h.nonempty B hB)
  disjoint := by
    have hsub : ∀ {B C : StateSet}, (∀ i ∈ B, i ∉ C) → ∀ {K M : StateSet}, Piece P B K → Piece P C M →
        ∀ i ∈ K, i ∉ M := fun hBC _ _ hK hM i hiK hiM => hBC i (hK.subset hiK) (hM.subset hiM)
    rw [pieces, newPieces, List.map_map, List.filterMap_map, List.pairwise_append]
    refine ⟨?_, ?_, ?_⟩
    · exact List.Pairwise.map _ (fun B C hBC => hsub hBC (piece_kept P B) (piece_kept P C)) h.disjoint
    · rw [List.pairwise_filterMap]
      exact h.disjoint.imp fun hBC K hK M hM => hsub hBC (Or.inr hK) (Or.inr hM)
    · intro K hK N hN i hiK hiN
      obtain ⟨B, hB, rfl⟩ := List.mem_map.mp hK
      obtain ⟨C, hC, hsplit⟩ := List.mem_filterMap.mp hN
      have hCB : C = B := h.block_unique hC hB (Piece.subset (Or.inr hsplit) hiN) ((piece_kept P B).subset hiK)
      rw [hCB] at hsplit
      exact not_mem_new_of_mem_kept hsplit hiK hiN
  cover i := by
    rw [h.cover]
    constructor
    · intro h'
      obtain ⟨B, hB, hi⟩ := h'
      obtain ⟨C, hC, hiC⟩ := exists_piece P hi
      exact ⟨C, mem_pieces.mpr ⟨B, hB, hC⟩, hiC⟩
    · intro h'
      obtain ⟨C, hC, hi⟩ := h'
      obtain ⟨B, hB, hpiece⟩ := mem_pieces.mp hC
      exact ⟨B, hB, hpiece.subset hi⟩

theorem length_le (h : Partition U blocks) : blocks.length ≤ U.size := by
  have hmin : ∀ B ∈ blocks, B.min?.getD 0 ∈ B := by
    intro B hB
    cases hm : B.min? with
    | none =>
      obtain ⟨i, hi⟩ := h.nonempty B hB
      exact absurd hi (StateSet.min?_eq_none_iff.mp hm i)
    | some i => exact StateSet.mem_of_min?_eq_some hm
  have hnodup : (blocks.map fun B => B.min?.getD 0).Nodup := by
    rw [List.Nodup, List.pairwise_map]
    refine h.disjoint.imp_of_mem fun {B C} hB hC hBC he => ?_
    exact hBC _ (hmin B hB) (he ▸ hmin C hC)
  have hsub : (blocks.map fun B => B.min?.getD 0) ⊆ U.toList := by
    intro i hi
    obtain ⟨B, hB, rfl⟩ := List.mem_map.mp hi
    exact StateSet.mem_toList.mpr ((h.cover _).mpr ⟨B, hB, hmin B hB⟩)
  have hle := (List.subperm_of_subset hnodup hsub).length_le
  rw [List.length_map] at hle
  exact hle

end Partition

/-- `i` and `j` are in one block. -/
def Together (blocks : List StateSet) (i j : Nat) : Prop := ∃ B ∈ blocks, i ∈ B ∧ j ∈ B

theorem Partition.eq_of_together (h : Partition U blocks) (hB : B ∈ blocks) (hC : C ∈ blocks) (hi : i ∈ B)
    (hj : j ∈ C) (hij : Together blocks i j) : B = C := by
  obtain ⟨M, hM, hiM, hjM⟩ := hij
  exact (h.block_unique hB hM hi hiM).trans (h.block_unique hM hC hjM hj)

/-- Two states stay together if they agree on what the blocks are split by. -/
theorem together_pieces_iff : Together (pieces P blocks) i j ↔ Together blocks i j ∧ (i ∈ P ↔ j ∈ P) := by
  constructor
  · intro h
    obtain ⟨C, hC, hi, hj⟩ := h
    obtain ⟨B, hB, hpiece⟩ := mem_pieces.mp hC
    exact ⟨⟨B, hB, hpiece.subset hi, hpiece.subset hj⟩, (hpiece.mem_iff hi (hpiece.subset hj)).mp hj⟩
  · intro h
    obtain ⟨⟨B, hB, hi, hj⟩, hP⟩ := h
    obtain ⟨C, hC, hiC⟩ := exists_piece P hi
    exact ⟨C, mem_pieces.mpr ⟨B, hB, hC⟩, hiC, (hC.mem_iff hiC hj).mpr hP⟩

end Refinement

namespace Deterministic

open Refinement (Partition Together pieces newPieces splitters)

variable {D : Deterministic} {B S U : StateSet} {i j : Nat} {a : Symbol} {r r' : Refinement}

theorem mem_sourcesInto_iff (ha : a ∈ D.symbols) :
    i ∈ sourcesInto (D.moves U) S a ↔ i ∈ U ∧ D.next i a ∈ S := by
  rw [sourcesInto, StateSet.mem_ofList, List.mem_map]
  constructor
  · intro h
    obtain ⟨t, ht, rfl⟩ := h
    obtain ⟨hmove, htest⟩ := List.mem_filter.mp ht
    obtain ⟨k, hk, hmove⟩ := List.mem_flatMap.mp hmove
    obtain ⟨b, -, rfl⟩ := List.mem_map.mp hmove
    rw [Bool.and_eq_true, beq_iff_eq, Label.symbol.injEq] at htest
    rw [← htest.1]
    exact ⟨StateSet.mem_toList.mp hk, htest.2⟩
  · intro h
    obtain ⟨hi, hS⟩ := h
    refine ⟨⟨i, .symbol a, D.next i a⟩, List.mem_filter.mpr ⟨List.mem_flatMap.mpr ⟨i, ?_, ?_⟩, ?_⟩, rfl⟩
    · exact StateSet.mem_toList.mpr hi
    · exact List.mem_map.mpr ⟨a, ha, rfl⟩
    · rw [Bool.and_eq_true, beq_iff_eq]
      exact ⟨rfl, hS⟩

/-! ### The invariant of the queue -/

/-- What refinement keeps: the blocks part the participants, never two states that accept the same words, always
final states from others, and a step parts no two states of a block that the queue does not part. -/
structure Refined (D : Deterministic) (r : Refinement) : Prop where
  partition : Partition D.participants r.blocks
  queued : ∀ k a, (k, a) ∈ r.queue → k < r.blocks.length ∧ a ∈ D.symbols
  final_iff : ∀ i j, Together r.blocks i j → (i ∈ D.finals ↔ j ∈ D.finals)
  together : ∀ i ∈ D.participants, ∀ j ∈ D.participants, SameWords D D i j → Together r.blocks i j
  settled : ∀ i j, Together r.blocks i j → ∀ a ∈ D.symbols,
    (∀ k, (k, a) ∈ r.queue → (D.next i a ∈ r.blocks.getD k ∅ ↔ D.next j a ∈ r.blocks.getD k ∅)) →
      Together r.blocks (D.next i a) (D.next j a)

/-- One step of the refinement of `D`. -/
def refine (D : Deterministic) (r : Refinement) : Refinement :=
  r.step D.symbols (sourcesInto (D.moves D.participants))

theorem refine_cons (D : Deterministic) (blocks : List StateSet) (k : Nat) (a : Symbol)
    (queue : List (Nat × Symbol)) :
    let P := sourcesInto (D.moves D.participants) (blocks.getD k ∅) a
    D.refine ⟨blocks, (k, a) :: queue⟩ =
      ⟨pieces P blocks, queue ++ splitters D.symbols (List.range' blocks.length (newPieces P blocks).length)⟩ :=
  rfl

theorem getD_mem {blocks : List StateSet} {k : Nat} (hk : k < blocks.length) : blocks.getD k ∅ ∈ blocks := by
  rw [List.getD_eq_getElem?_getD, List.getElem?_eq_getElem hk, Option.getD_some]
  exact List.getElem_mem hk

theorem exists_getD_eq {blocks : List StateSet} {B : StateSet} (hB : B ∈ blocks) :
    ∃ k < blocks.length, blocks.getD k ∅ = B := by
  obtain ⟨k, hk, rfl⟩ := List.mem_iff_getElem.mp hB
  exact ⟨k, hk, by rw [List.getD_eq_getElem?_getD, List.getElem?_eq_getElem hk, Option.getD_some]⟩

theorem Refined.participants_of_together (h : D.Refined r) (hij : Together r.blocks i j) :
    i ∈ D.participants ∧ j ∈ D.participants := by
  obtain ⟨B, hB, hi, hj⟩ := hij
  exact ⟨h.partition.mem hB hi, h.partition.mem hB hj⟩

theorem Refined.mem_iff_of_sameWords (hD : D.automaton.WellFormed) (h : D.Refined r) (hi : i ∈ D.participants)
    (hj : j ∈ D.participants) (hsame : SameWords D D i j) (a : Symbol) {B : StateSet} (hB : B ∈ r.blocks) :
    D.next i a ∈ B ↔ D.next j a ∈ B := by
  obtain ⟨C, hC, hiC, hjC⟩ :=
    h.together _ (next_mem_participants hD hi a) _ (next_mem_participants hD hj a) (hsame.next a)
  constructor
  · intro hin
    rwa [h.partition.block_unique hB hC hin hiC]
  · intro hjn
    rwa [h.partition.block_unique hB hC hjn hjC]

/-- Two states agree on a block split in two once they agree on the part kept and on the new part. -/
theorem mem_iff_of_mem_split_iff {P B : StateSet}
    (hkept : i ∈ (Refinement.split P B).1 ↔ j ∈ (Refinement.split P B).1)
    (hnew : ∀ N, (Refinement.split P B).2 = some N → (i ∈ N ↔ j ∈ N)) : i ∈ B ↔ j ∈ B := by
  have hone : ∀ {i j : Nat}, (i ∈ (Refinement.split P B).1 → j ∈ (Refinement.split P B).1) →
      (∀ N, (Refinement.split P B).2 = some N → i ∈ N → j ∈ N) → i ∈ B → j ∈ B := by
    intro i j hkept hnew hi
    rcases Refinement.mem_kept_or_mem_new (P := P) hi with hk | ⟨N, hN, hiN⟩
    · exact (Refinement.piece_kept P B).subset (hkept hk)
    · exact Refinement.Piece.subset (Or.inr hN) (hnew N hN hiN)
  exact ⟨hone hkept.mp fun N hN => (hnew N hN).mp, hone hkept.mpr fun N hN => (hnew N hN).mpr⟩

/-- Two states of one block stay together where the block is split, once they agree on the new part. -/
theorem together_pieces_of_new {P : StateSet} {blocks : List StateSet} (hij : Together blocks i j)
    (hnew : ∀ N ∈ newPieces P blocks, (i ∈ N ↔ j ∈ N)) : Together (pieces P blocks) i j := by
  refine Refinement.together_pieces_iff.mpr ⟨hij, ?_⟩
  obtain ⟨B, hB, hi, hj⟩ := hij
  rcases Refinement.split_cases P B with ⟨-, hall⟩ | ⟨-, -, hs | hs⟩
  · exact hall i hi j hj
  · have hN := hnew _ (Refinement.mem_newPieces.mpr ⟨B, hB, congrArg Prod.snd hs⟩)
    rw [StateSet.mem_inter, StateSet.mem_inter, and_iff_right hi, and_iff_right hj] at hN
    exact hN
  · have hN := hnew _ (Refinement.mem_newPieces.mpr ⟨B, hB, congrArg Prod.snd hs⟩)
    rw [StateSet.mem_sdiff, StateSet.mem_sdiff, and_iff_right hi, and_iff_right hj] at hN
    exact not_iff_not.mp hN

/-- The heart of the invariant: the splitter used is one that states of one block now agree on, and a splitter
split in two is known from its parts. -/
theorem Refined.settled_pieces {blocks : List StateSet} {queue : List (Nat × Symbol)} {k : Nat} {b : Symbol}
    {P : StateSet} (h : D.Refined ⟨blocks, (k, a) :: queue⟩)
    (hP : ∀ i ∈ D.participants, i ∈ P ↔ D.next i a ∈ blocks.getD k ∅) (hij : Together (pieces P blocks) i j)
    (hb : b ∈ D.symbols) (hqueue : ∀ m, (m, b) ∈ queue →
      (D.next i b ∈ (pieces P blocks).getD m ∅ ↔ D.next j b ∈ (pieces P blocks).getD m ∅))
    (hnew : ∀ N ∈ newPieces P blocks, (D.next i b ∈ N ↔ D.next j b ∈ N)) :
    Together (pieces P blocks) (D.next i b) (D.next j b) := by
  obtain ⟨hold, hPij⟩ := Refinement.together_pieces_iff.mp hij
  obtain ⟨hi, hj⟩ := h.participants_of_together hold
  refine together_pieces_of_new (h.settled i j hold b hb fun m hm => ?_) hnew
  rcases List.mem_cons.mp hm with he | hm
  · cases he
    exact (hP i hi).symm.trans (hPij.trans (hP j hj))
  · have hlt : m < blocks.length := (h.queued m b (List.mem_cons_of_mem _ hm)).1
    refine mem_iff_of_mem_split_iff (P := P) ?_ fun N hN =>
      hnew N (Refinement.mem_newPieces.mpr ⟨_, getD_mem hlt, hN⟩)
    rw [← Refinement.getD_pieces hlt]
    exact hqueue m hm

theorem Refined.refine (hD : D.automaton.WellFormed) (h : D.Refined r) : D.Refined (D.refine r) := by
  obtain ⟨blocks, queue⟩ := r
  match queue with
  | [] => exact h
  | (k, a) :: queue =>
    obtain ⟨hk, ha⟩ := h.queued k a List.mem_cons_self
    rw [refine_cons]
    have hP : ∀ i ∈ D.participants, i ∈ sourcesInto (D.moves D.participants) (blocks.getD k ∅) a ↔
        D.next i a ∈ blocks.getD k ∅ := fun i hi => (mem_sourcesInto_iff ha).trans (and_iff_right hi)
    generalize sourcesInto (D.moves D.participants) (blocks.getD k ∅) a = P at hP
    refine ⟨h.partition.split P, ?_, ?_, ?_, ?_⟩
    · intro m b hm
      dsimp only at hm ⊢
      rw [Refinement.length_pieces]
      rcases List.mem_append.mp hm with hm | hm
      · obtain ⟨hlt, hb⟩ := h.queued m b (List.mem_cons_of_mem _ hm)
        exact ⟨Nat.lt_of_lt_of_le hlt (Nat.le_add_right _ _), hb⟩
      · obtain ⟨hlt, hb⟩ := Refinement.mem_splitters.mp hm
        exact ⟨(List.mem_range'_1.mp hlt).2, hb⟩
    · intro i j hij
      exact h.final_iff i j (Refinement.together_pieces_iff.mp hij).1
    · intro i hi j hj hsame
      refine Refinement.together_pieces_iff.mpr ⟨h.together i hi j hj hsame, ?_⟩
      rw [hP i hi, hP j hj]
      exact h.mem_iff_of_sameWords hD hi hj hsame a (getD_mem hk)
    · intro i j hij b hb hagree
      refine h.settled_pieces hP hij hb (fun m hm => hagree m (List.mem_append_left _ hm)) fun N hN => ?_
      obtain ⟨m, hm, rfl⟩ := Refinement.exists_position_of_mem_newPieces hN
      exact hagree m (List.mem_append_right _ (Refinement.mem_splitters.mpr ⟨hm, hb⟩))

/-! ### The run -/

/-- A pass of the loop: while the queue is not empty, its first splitter is used. -/
def Pass (D : Deterministic) (r r' : Refinement) : Prop := r.queue ≠ [] ∧ r' = D.refine r

theorem Refined.reflTransGen (hD : D.automaton.WellFormed) (h : D.Refined r)
    (hpasses : Relation.ReflTransGen D.Pass r r') : D.Refined r' := by
  induction hpasses with
  | refl => exact h
  | tail _ hpass ih =>
    obtain ⟨-, rfl⟩ := hpass
    exact ih.refine hD

/-- Using splitters up to a number of times is passing through the loop. -/
theorem reflTransGen_run (D : Deterministic) (fuel : Nat) (r : Refinement) :
    Relation.ReflTransGen D.Pass r (r.run D.symbols (sourcesInto (D.moves D.participants)) fuel) := by
  induction fuel generalizing r with
  | zero => exact .refl
  | succ fuel ih =>
    rw [Refinement.run]
    split
    · exact .refl
    · rename_i hsome
      exact .head ⟨mt List.isEmpty_iff.mpr hsome, rfl⟩ (ih (D.refine r))

/-- The number of splitters that may still be used. -/
def potential (D : Deterministic) (r : Refinement) : Nat :=
  r.queue.length + (D.participants.size - r.blocks.length) * D.symbols.length

theorem queue_eq_nil_of_potential_eq_zero (h : D.potential r = 0) : r.queue = [] :=
  List.eq_nil_of_length_eq_zero (Nat.eq_zero_of_add_eq_zero_right h)

/-- A step uses one splitter up: each new block pays for those that it queues. -/
theorem Refined.potential_refine (hD : D.automaton.WellFormed) (h : D.Refined r) (hne : r.queue ≠ []) :
    D.potential (D.refine r) + 1 = D.potential r := by
  have hle := (h.refine hD).partition.length_le
  obtain ⟨blocks, queue⟩ := r
  match queue with
  | [] => exact absurd rfl hne
  | (k, a) :: queue =>
    rw [refine_cons] at hle ⊢
    generalize sourcesInto (D.moves D.participants) (blocks.getD k ∅) a = P at hle ⊢
    dsimp only at hle
    rw [Refinement.length_pieces] at hle
    rw [potential, potential, Refinement.length_pieces, List.length_append, Refinement.length_splitters,
      List.length_range', List.length_cons]
    have hsplit : D.participants.size - blocks.length =
        D.participants.size - (blocks.length + (newPieces P blocks).length) +
          (newPieces P blocks).length := by omega
    rw [hsplit, Nat.add_mul]
    omega

/-- With enough fuel the queue runs empty. -/
theorem Refined.queue_run (hD : D.automaton.WellFormed) {fuel : Nat} (h : D.Refined r)
    (hfuel : D.potential r ≤ fuel) :
    (r.run D.symbols (sourcesInto (D.moves D.participants)) fuel).queue = [] := by
  induction fuel generalizing r with
  | zero => exact queue_eq_nil_of_potential_eq_zero (Nat.le_zero.mp hfuel)
  | succ fuel ih =>
    rw [Refinement.run]
    split
    · rename_i hempty
      exact List.isEmpty_iff.mp hempty
    · rename_i hsome
      have hless := h.potential_refine hD (mt List.isEmpty_iff.mpr hsome)
      exact ih (h.refine hD) (by rw [Deterministic.refine] at hless; omega)

/-! ### The first partition -/

theorem mem_finalBlocks_iff {B : StateSet} :
    B ∈ D.finalBlocks U ↔ (B = U ∩ D.finals ∨ B = U \ D.finals) ∧ ∃ i, i ∈ B := by
  rw [finalBlocks, List.mem_filter, Bool.not_eq_true', ← Bool.not_eq_true, StateSet.not_isEmpty_iff]
  simp

theorem partition_finalBlocks (D : Deterministic) (U : StateSet) : Partition U (D.finalBlocks U) where
  nonempty B hB := (mem_finalBlocks_iff.mp hB).2
  disjoint := by
    refine List.Pairwise.filter _ (List.pairwise_pair.mpr fun i hi hi' => ?_)
    exact (StateSet.mem_sdiff.mp hi').2 (StateSet.mem_inter.mp hi).2
  cover i := by
    constructor
    · intro hi
      by_cases hf : i ∈ D.finals
      · have hiB := StateSet.mem_inter.mpr ⟨hi, hf⟩
        exact ⟨_, mem_finalBlocks_iff.mpr ⟨Or.inl rfl, i, hiB⟩, hiB⟩
      · have hiB := StateSet.mem_sdiff.mpr ⟨hi, hf⟩
        exact ⟨_, mem_finalBlocks_iff.mpr ⟨Or.inr rfl, i, hiB⟩, hiB⟩
    · intro h
      obtain ⟨B, hB, hi⟩ := h
      rcases (mem_finalBlocks_iff.mp hB).1 with rfl | rfl
      · exact (StateSet.mem_inter.mp hi).1
      · exact (StateSet.mem_sdiff.mp hi).1

theorem together_finalBlocks_iff :
    Together (D.finalBlocks U) i j ↔ i ∈ U ∧ j ∈ U ∧ (i ∈ D.finals ↔ j ∈ D.finals) := by
  constructor
  · intro h
    obtain ⟨B, hB, hi, hj⟩ := h
    rcases (mem_finalBlocks_iff.mp hB).1 with rfl | rfl
    · rw [StateSet.mem_inter] at hi hj
      exact ⟨hi.1, hj.1, iff_of_true hi.2 hj.2⟩
    · rw [StateSet.mem_sdiff] at hi hj
      exact ⟨hi.1, hj.1, iff_of_false hi.2 hj.2⟩
  · intro h
    obtain ⟨hi, hj, hf⟩ := h
    obtain ⟨B, hB, hiB⟩ := ((partition_finalBlocks D U).cover i).mp hi
    refine ⟨B, hB, hiB, ?_⟩
    rcases (mem_finalBlocks_iff.mp hB).1 with rfl | rfl
    · rw [StateSet.mem_inter] at hiB ⊢
      exact ⟨hj, hf.mp hiB.2⟩
    · rw [StateSet.mem_sdiff] at hiB ⊢
      exact ⟨hj, mt hf.mpr hiB.2⟩

/-- What the loop begins with: the final participants and the others, every splitter queued. -/
def unrefined (D : Deterministic) : Refinement := .start D.symbols (D.finalBlocks D.participants)

theorem refined_unrefined (hD : D.automaton.WellFormed) : D.Refined D.unrefined where
  partition := partition_finalBlocks D D.participants
  queued k a h := by
    obtain ⟨hk, ha⟩ := Refinement.mem_splitters.mp h
    exact ⟨List.mem_range.mp hk, ha⟩
  final_iff i j h := (together_finalBlocks_iff.mp h).2.2
  together i hi j hj h := together_finalBlocks_iff.mpr ⟨hi, hj, h []⟩
  settled i j h a ha hagree := by
    obtain ⟨hi, -, -⟩ := together_finalBlocks_iff.mp h
    obtain ⟨B, hB, hiB⟩ :=
      ((partition_finalBlocks D D.participants).cover _).mp (next_mem_participants hD hi a)
    obtain ⟨k, hk, rfl⟩ := exists_getD_eq hB
    have hiff := hagree k (Refinement.mem_splitters.mpr ⟨List.mem_range.mpr hk, ha⟩)
    exact ⟨_, hB, hiB, hiff.mp hiB⟩

theorem potential_unrefined (D : Deterministic) :
    D.potential D.unrefined = D.participants.size * D.symbols.length := by
  have hle := (partition_finalBlocks D D.participants).length_le
  rw [potential, unrefined, Refinement.start, Refinement.length_splitters, List.length_range, ← Nat.add_mul,
    Nat.add_sub_cancel' hle]

/-! ### The last partition -/

/-- The loop ends with the blocks of minimization. -/
theorem reflTransGen_blocks (hD : D.automaton.WellFormed) :
    Relation.ReflTransGen D.Pass D.unrefined ⟨D.blocks, []⟩ := by
  have hrun := reflTransGen_run D (D.participants.size * D.symbols.length) D.unrefined
  have hempty := (refined_unrefined hD).queue_run hD (Nat.le_of_eq (potential_unrefined D))
  rwa [← hempty]

theorem refined_blocks (hD : D.automaton.WellFormed) : D.Refined ⟨D.blocks, []⟩ :=
  (refined_unrefined hD).reflTransGen hD (reflTransGen_blocks hD)

theorem partition_blocks (hD : D.automaton.WellFormed) : Partition D.participants D.blocks :=
  (refined_blocks hD).partition

theorem together_next (hD : D.automaton.WellFormed) (h : Together D.blocks i j) (a : Symbol) :
    Together D.blocks (D.next i a) (D.next j a) := by
  by_cases ha : a ∈ D.symbols
  · exact (refined_blocks hD).settled i j h a ha fun _ hk => absurd hk List.not_mem_nil
  · rw [next_of_not_mem_symbols hD ha, next_of_not_mem_symbols hD ha]
    obtain ⟨B, hB, hdead⟩ := ((partition_blocks hD).cover D.dead).mp (dead_mem_participants D)
    exact ⟨B, hB, hdead, hdead⟩

/-- Refinement ends with two participants in one block exactly if the same words are accepted from both. -/
theorem together_blocks_iff (hD : D.automaton.WellFormed) (hi : i ∈ D.participants) (hj : j ∈ D.participants) :
    Together D.blocks i j ↔ SameWords D D i j := by
  constructor
  · intro h w
    induction w generalizing i j with
    | nil => exact (refined_blocks hD).final_iff i j h
    | cons a w ih =>
      exact ih (next_mem_participants hD hi a) (next_mem_participants hD hj a) (together_next hD h a)
  · exact (refined_blocks hD).together i hi j hj

/-- A state in a block other than the dead one accepts something. -/
theorem exists_after_mem_finals (hD : D.automaton.WellFormed) (hB : B ∈ D.blocks)
    (hdead : D.dead ∉ B) (hj : j ∈ B) : ∃ w, D.after j w ∈ D.finals := by
  have hpartition := partition_blocks hD
  refine Classical.byContradiction fun hnone => hdead ?_
  have hsame : SameWords D D j D.dead := fun w =>
    iff_of_false (fun hw => hnone ⟨w, hw⟩) (after_dead_not_mem_finals hD w)
  obtain ⟨C, hC, hjC, hdeadC⟩ :=
    (together_blocks_iff hD (hpartition.mem hB hj) (dead_mem_participants D)).mpr hsame
  rwa [hpartition.block_unique hB hC hj hjC]

end Deterministic

end FiniteAutomata
