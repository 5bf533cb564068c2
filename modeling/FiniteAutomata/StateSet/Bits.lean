import FiniteAutomata.StateSet

/-!
Stores of bits. A store has a length and one bit for each number below it. Any bit may be asked for, and those from
the length on are not set; but only a bit below the length may be set, so a store may have to grow first. Two stores
of different lengths can be put together: what the shorter one lacks is not set (`LawfulBitStore`). What is done with
a store that breaks these terms, such as setting a bit that it has no place for, is left open.
-/

namespace FiniteAutomata

/-- What can be done with a store of bits. -/
class BitStore (β : Type) where
  /-- A store of the length asked for. -/
  clear : Nat → β
  length : β → Nat
  /-- Makes the store at least as long as asked for. -/
  grow : β → Nat → β
  get : β → Nat → Bool
  /-- Sets a bit, and says what it was before. -/
  put : β → Nat → Bool × β
  assign : β → Nat → Bool → β
  isClear : β → Bool
  /-- The number of bits that are set. -/
  count : β → Nat
  /-- The places of the bits that are set. -/
  ones : β → List Nat
  union : β → β → β
  inter : β → β → β
  diff : β → β → β
  /-- The places of the bits that are set in both stores. -/
  common : β → β → List Nat

/-- What a user of a store may rely on. -/
class LawfulBitStore (β : Type) [BitStore β] : Prop where
  length_clear (n : Nat) : BitStore.length (BitStore.clear n : β) = n
  get_clear (n i : Nat) : BitStore.get (BitStore.clear n : β) i = false
  length_grow (b : β) (n : Nat) : BitStore.length (BitStore.grow b n) = max (BitStore.length b) n
  get_grow (b : β) (n i : Nat) : BitStore.get (BitStore.grow b n) i = BitStore.get b i
  get_of_length_le {b : β} {i : Nat} : BitStore.length b ≤ i → BitStore.get b i = false
  put_fst {b : β} {i : Nat} : i < BitStore.length b → (BitStore.put b i).1 = BitStore.get b i
  get_put {b : β} {i : Nat} (j : Nat) : i < BitStore.length b →
    BitStore.get (BitStore.put b i).2 j = (decide (j = i) || BitStore.get b j)
  get_assign {b : β} {i : Nat} (v : Bool) (j : Nat) : i < BitStore.length b →
    BitStore.get (BitStore.assign b i v) j = if j = i then v else BitStore.get b j
  isClear_iff (b : β) : BitStore.isClear b = true ↔ ∀ i < BitStore.length b, BitStore.get b i = false
  count_eq (b : β) : BitStore.count b = (List.range (BitStore.length b)).countP (BitStore.get b)
  ones_pairwise (b : β) : (BitStore.ones b).Pairwise (· < ·)
  mem_ones {b : β} {i : Nat} : i ∈ BitStore.ones b ↔ BitStore.get b i = true
  get_union {b c : β} (i : Nat) : BitStore.length c ≤ BitStore.length b →
    BitStore.get (BitStore.union b c) i = (BitStore.get b i || BitStore.get c i)
  get_inter (b c : β) (i : Nat) : BitStore.get (BitStore.inter b c) i = (BitStore.get b i && BitStore.get c i)
  get_diff (b c : β) (i : Nat) : BitStore.get (BitStore.diff b c) i = (BitStore.get b i && !BitStore.get c i)
  mem_common {b c : β} {i : Nat} : i ∈ BitStore.common b c ↔ BitStore.get b i = true ∧ BitStore.get c i = true

theorem LawfulBitStore.lt_length {β : Type} [BitStore β] [LawfulBitStore β] {b : β} {i : Nat}
    (h : BitStore.get b i = true) : i < BitStore.length b := by
  refine Nat.lt_of_not_le fun hle => ?_
  rw [LawfulBitStore.get_of_length_le hle] at h
  cases h

/-- The places of the bits that are set are counted by asking for each bit. -/
theorem length_eq_countP {l : List Nat} {n : Nat} {p : Nat → Bool} (hl : l.Nodup) (hmem : ∀ i, i ∈ l ↔ p i = true)
    (hlt : ∀ i, p i = true → i < n) : l.length = (List.range n).countP p := by
  have hperm : l.Perm ((List.range n).filter p) := by
    refine (List.perm_ext_iff_of_nodup hl (List.nodup_range.filter _)).mpr fun i => ?_
    rw [hmem, List.mem_filter, List.mem_range]
    exact (and_iff_right_of_imp (hlt i)).symm
  rw [hperm.length_eq, List.countP_eq_length_filter]

/-- A store that keeps the places of the bits that are set, all of them below its length. -/
structure Bits where
  length : Nat
  ones : StateSet
  lt_length : ∀ i ∈ ones, i < length

namespace Bits

/-- Nothing is set in a place that is not there. -/
def put (b : Bits) (i : Nat) : Bool × Bits :=
  (b.ones.contains i,
    if h : i < b.length then
      ⟨b.length, b.ones.insert i, fun j hj => (StateSet.mem_insert.mp hj).elim (fun he => he ▸ h) (b.lt_length j)⟩
    else b)

def unset (b : Bits) (i : Nat) : Bits :=
  ⟨b.length, b.ones.erase i, fun j hj => b.lt_length j (StateSet.mem_erase.mp hj).2⟩

instance : BitStore Bits where
  clear n := ⟨n, ∅, fun i hi => absurd hi (StateSet.not_mem_empty i)⟩
  length := length
  grow b n := ⟨max b.length n, b.ones, fun i hi => Nat.lt_of_lt_of_le (b.lt_length i hi) (Nat.le_max_left _ _)⟩
  get b i := b.ones.contains i
  put := put
  assign b i v := if v then (b.put i).2 else b.unset i
  isClear b := b.ones.isEmpty
  count b := b.ones.size
  ones b := b.ones.toList
  union b c := ⟨max b.length c.length, b.ones ∪ c.ones, fun i hi => (StateSet.mem_union.mp hi).elim
    (fun hi => Nat.lt_of_lt_of_le (b.lt_length i hi) (Nat.le_max_left _ _))
    (fun hi => Nat.lt_of_lt_of_le (c.lt_length i hi) (Nat.le_max_right _ _))⟩
  inter b c := ⟨b.length, b.ones ∩ c.ones, fun i hi => b.lt_length i (StateSet.mem_inter.mp hi).1⟩
  diff b c := ⟨b.length, b.ones \ c.ones, fun i hi => b.lt_length i (StateSet.mem_sdiff.mp hi).1⟩
  common b c := (b.ones ∩ c.ones).toList

theorem get_iff {b : Bits} {i : Nat} : BitStore.get b i = true ↔ i ∈ b.ones := Iff.rfl

theorem mem_put {b : Bits} {i j : Nat} (h : i < b.length) : j ∈ (b.put i).2.ones ↔ j = i ∨ j ∈ b.ones := by
  rw [put, dif_pos h]
  exact StateSet.mem_insert

instance : LawfulBitStore Bits where
  length_clear _ := rfl
  get_clear _ i := Bool.eq_false_iff.mpr (StateSet.not_mem_empty i)
  length_grow _ _ := rfl
  get_grow _ _ _ := rfl
  get_of_length_le {b i} h := Bool.eq_false_iff.mpr fun hi => Nat.not_lt.mpr h (b.lt_length i hi)
  put_fst _ := rfl
  get_put {b i} j h := by
    rw [Bool.eq_iff_iff, Bool.or_eq_true, decide_eq_true_eq]
    exact mem_put h
  get_assign {b i} v j h := by
    rw [Bool.eq_iff_iff]
    cases v with
    | true =>
      refine (mem_put h).trans ?_
      by_cases hj : j = i <;> simp [hj, get_iff]
    | false =>
      refine StateSet.mem_erase.trans ?_
      by_cases hj : j = i <;> simp [hj, get_iff]
  isClear_iff b := by
    refine StateSet.isEmpty_iff.trans ⟨fun h i _ => Bool.eq_false_iff.mpr (h i), fun h i hi => ?_⟩
    exact Bool.eq_false_iff.mp (h i (b.lt_length i hi)) hi
  count_eq b := length_eq_countP b.ones.toList_nodup (fun _ => StateSet.mem_toList) b.lt_length
  ones_pairwise b := b.ones.toList_pairwise
  mem_ones := StateSet.mem_toList
  get_union {b c} i _ := by
    rw [Bool.eq_iff_iff, Bool.or_eq_true]
    exact StateSet.mem_union
  get_inter b c i := by
    rw [Bool.eq_iff_iff, Bool.and_eq_true]
    exact StateSet.mem_inter
  get_diff b c i := by
    rw [Bool.eq_iff_iff, Bool.and_eq_true, Bool.not_eq_true', ← Bool.not_eq_true]
    exact StateSet.mem_sdiff
  mem_common := StateSet.mem_toList.trans StateSet.mem_inter

end Bits

end FiniteAutomata
