import FiniteAutomata.State

/-!
Finite sets of states, each given by its id, the position at which its automaton holds it. A set is packed
into one number: bit `i` says whether `i` is a member. A number has no room to spare and none to lack, so
sets with the same members are the same set (`StateSet.ext`). Each operation is described by its members;
`toList` lists them in ascending order.
-/

namespace FiniteAutomata

/-- A finite set of state ids. -/
structure StateSet where
  mask : Nat
deriving DecidableEq, Inhabited

namespace StateSet

def contains (S : StateSet) (i : Nat) : Bool := S.mask.testBit i

instance : Membership Nat StateSet := ⟨fun S i => S.contains i = true⟩

instance (S : StateSet) (i : Nat) : Decidable (i ∈ S) := inferInstanceAs (Decidable (S.contains i = true))

theorem contains_iff {S : StateSet} {i : Nat} : S.contains i = true ↔ i ∈ S := Iff.rfl

theorem mem_iff_testBit {S : StateSet} {i : Nat} : i ∈ S ↔ S.mask.testBit i = true := Iff.rfl

/-- Sets with the same members are equal. -/
theorem ext {S T : StateSet} (h : ∀ i, i ∈ S ↔ i ∈ T) : S = T := by
  have hm : S.mask = T.mask := Nat.eq_of_testBit_eq fun i => Bool.eq_iff_iff.mpr (h i)
  cases S; cases T; cases hm; rfl

/-! ### Construction -/

instance : EmptyCollection StateSet := ⟨⟨0⟩⟩

/-- The empty set; room asked for in advance changes nothing. -/
def emptyWithCapacity (_capacity : Nat) : StateSet := ∅

def singleton (i : Nat) : StateSet := ⟨1 <<< i⟩

def insert (S : StateSet) (i : Nat) : StateSet := ⟨S.mask ||| 1 <<< i⟩

def erase (S : StateSet) (i : Nat) : StateSet := if S.contains i then ⟨S.mask ^^^ 1 <<< i⟩ else S

/-- Puts `i` in, and says whether it was missing. -/
def add (S : StateSet) (i : Nat) : Bool × StateSet := (!S.contains i, S.insert i)

/-- Takes `i` out, and says whether it was there. -/
def remove (S : StateSet) (i : Nat) : Bool × StateSet := (S.contains i, S.erase i)

def insertMany (S : StateSet) (l : List Nat) : StateSet := l.foldl insert S

def ofList (l : List Nat) : StateSet := insertMany ∅ l

def below (n : Nat) : StateSet := ⟨1 <<< n - 1⟩

instance : Union StateSet := ⟨fun S T => ⟨S.mask ||| T.mask⟩⟩

instance : Inter StateSet := ⟨fun S T => ⟨S.mask &&& T.mask⟩⟩

instance : SDiff StateSet := ⟨fun S T => ⟨S.mask ^^^ (S.mask &&& T.mask)⟩⟩

/-! ### Views -/

/-- The positions of the bits of `m`, a number of at most `2 ^ k` bits, each raised by `start`, in ascending
order. A half without bits is passed over, so what counts is the number of bits set, not the highest one. -/
def bitsFrom : Nat → Nat → Nat → List Nat
  | 0, m, start => if m = 0 then [] else [start]
  | k + 1, m, start =>
    if m = 0 then []
    else bitsFrom k (m &&& (1 <<< (1 <<< k) - 1)) start ++ bitsFrom k (m >>> (1 <<< k)) (start + 1 <<< k)

/-- The members in ascending order. -/
def toList (S : StateSet) : List Nat := bitsFrom (S.mask.log2.log2 + 1) S.mask 0

def size (S : StateSet) : Nat := S.toList.length

def isEmpty (S : StateSet) : Bool := S.mask == 0

def min? (S : StateSet) : Option Nat := S.toList.head?

/-- Whether some id is a member of both. -/
def intersects (S T : StateSet) : Bool := !(S ∩ T).isEmpty

def isSubset (S T : StateSet) : Bool := S.toList.all T.contains

def filter (S : StateSet) (p : Nat → Bool) : StateSet := ofList (S.toList.filter p)

/-- The set of what `f` gives for the members. -/
def map (S : StateSet) (f : Nat → Nat) : StateSet := ofList (S.toList.map f)

/-- The union of the sets that `f` gives for the members. -/
def biUnion (S : StateSet) (f : Nat → StateSet) : StateSet := S.toList.foldl (fun U i => U ∪ f i) ∅

/-- What a hash is computed from: the members in ascending order and their number. -/
def hashInput (S : StateSet) : List Nat := S.toList ++ [S.size]

instance : Hashable StateSet := ⟨fun S => hash S.hashInput⟩

/-! ### Members -/

@[simp] theorem not_mem_empty (i : Nat) : i ∉ (∅ : StateSet) := by
  rw [mem_iff_testBit]
  change ¬(0 : Nat).testBit i = true
  simp

@[simp] theorem mem_singleton {i j : Nat} : j ∈ singleton i ↔ j = i := by
  rw [mem_iff_testBit, singleton, Nat.testBit_shiftLeft, Bool.and_eq_true, decide_eq_true_eq,
    Nat.testBit_one_eq_true_iff_self_eq_zero]
  exact ⟨fun h => by omega, fun h => by omega⟩

@[simp] theorem mem_insert {S : StateSet} {i j : Nat} : j ∈ S.insert i ↔ j = i ∨ j ∈ S := by
  rw [← mem_singleton (i := i)]
  simp only [mem_iff_testBit, insert, singleton, Nat.testBit_or, Bool.or_eq_true]
  exact Or.comm

@[simp] theorem mem_erase {S : StateSet} {i j : Nat} : j ∈ S.erase i ↔ j ≠ i ∧ j ∈ S := by
  unfold erase
  split
  · rename_i h
    have hs : (1 <<< i).testBit j = true ↔ j = i := mem_singleton
    rw [mem_iff_testBit, mem_iff_testBit, Nat.testBit_xor]
    by_cases hj : j = i
    · have hx : S.mask.testBit j = true := hj ▸ h
      rw [hs.mpr hj, hx]
      simp [hj]
    · rw [Bool.eq_false_iff.mpr fun h => hj (hs.mp h)]
      simp [hj]
  · rename_i h
    refine ⟨fun hj => ⟨fun he => h ?_, hj⟩, And.right⟩
    rw [← he]
    exact hj

theorem add_fst {S : StateSet} {i : Nat} : (S.add i).1 = true ↔ i ∉ S := by
  rw [add, Bool.not_eq_true', ← Bool.not_eq_true, contains_iff]

theorem remove_fst {S : StateSet} {i : Nat} : (S.remove i).1 = true ↔ i ∈ S := Iff.rfl

@[simp] theorem mem_insertMany {l : List Nat} {i : Nat} :
    ∀ {S : StateSet}, i ∈ S.insertMany l ↔ i ∈ S ∨ i ∈ l := by
  induction l with
  | nil => simp [insertMany]
  | cons j l ih =>
    intro S
    have h := ih (S := S.insert j)
    rw [insertMany] at h ⊢
    rw [List.foldl_cons, h, mem_insert, List.mem_cons, or_assoc, or_left_comm]

@[simp] theorem mem_ofList {l : List Nat} {i : Nat} : i ∈ ofList l ↔ i ∈ l := by
  rw [ofList, mem_insertMany]
  simp

@[simp] theorem mem_below {n i : Nat} : i ∈ below n ↔ i < n := by
  rw [mem_iff_testBit, below, Nat.one_shiftLeft, Nat.testBit_two_pow_sub_one, decide_eq_true_eq]

@[simp] theorem mem_union {S T : StateSet} {i : Nat} : i ∈ S ∪ T ↔ i ∈ S ∨ i ∈ T := by
  change (S.mask ||| T.mask).testBit i = true ↔ _
  rw [Nat.testBit_or, Bool.or_eq_true]
  exact Iff.rfl

@[simp] theorem mem_inter {S T : StateSet} {i : Nat} : i ∈ S ∩ T ↔ i ∈ S ∧ i ∈ T := by
  change (S.mask &&& T.mask).testBit i = true ↔ _
  rw [Nat.testBit_and, Bool.and_eq_true]
  exact Iff.rfl

@[simp] theorem mem_sdiff {S T : StateSet} {i : Nat} : i ∈ S \ T ↔ i ∈ S ∧ i ∉ T := by
  change (S.mask ^^^ (S.mask &&& T.mask)).testBit i = true ↔ _
  rw [Nat.testBit_xor, Nat.testBit_and, mem_iff_testBit, mem_iff_testBit]
  cases S.mask.testBit i <;> cases T.mask.testBit i <;> decide

/-- The lower half of a number has half of its bits. -/
theorem lowerHalf_lt (m k : Nat) : m &&& (1 <<< (1 <<< k) - 1) < 1 <<< (1 <<< k) := by
  rw [Nat.one_shiftLeft (1 <<< k)]
  exact Nat.lt_of_le_of_lt Nat.and_le_right (Nat.sub_one_lt (Nat.ne_of_gt (Nat.two_pow_pos _)))

/-- The upper half of a number has half of its bits. -/
theorem shiftRight_lt {k m : Nat} (h : m < 1 <<< (1 <<< (k + 1))) : m >>> (1 <<< k) < 1 <<< (1 <<< k) := by
  simp only [Nat.one_shiftLeft] at h ⊢
  rw [Nat.shiftRight_eq_div_pow, Nat.div_lt_iff_lt_mul (Nat.two_pow_pos _), ← Nat.pow_add, ← Nat.two_mul,
    Nat.mul_comm, ← Nat.pow_succ]
  exact h

theorem mem_bitsFrom {i : Nat} : ∀ {k m start : Nat}, m < 1 <<< (1 <<< k) →
    (i ∈ bitsFrom k m start ↔ start ≤ i ∧ m.testBit (i - start) = true)
  | 0, m, start, h => by
    have hm : m = 0 ∨ m = 1 := by change m < 2 at h; omega
    rcases hm with rfl | rfl
    · simp [bitsFrom]
    · rw [Nat.testBit_one_eq_true_iff_self_eq_zero]
      simp only [bitsFrom, Nat.one_ne_zero, if_false, List.mem_singleton]
      omega
  | k + 1, m, start, h => by
    rw [bitsFrom]
    split
    · rename_i h0
      simp [h0]
    · have hlow := lowerHalf_lt m k
      have hhigh := shiftRight_lt h
      rw [List.mem_append, mem_bitsFrom hlow, mem_bitsFrom hhigh, Nat.testBit_and,
        Nat.one_shiftLeft (1 <<< k), Nat.testBit_two_pow_sub_one, Nat.testBit_shiftRight, Bool.and_eq_true,
        decide_eq_true_eq]
      by_cases hi : start + 1 <<< k ≤ i
      · rw [Nat.sub_add_eq, Nat.add_sub_cancel' (Nat.le_sub_of_add_le' hi)]
        exact ⟨fun h => h.elim (fun h => ⟨h.1, h.2.1⟩) fun h => ⟨Nat.le_of_add_right_le hi, h.2⟩,
          fun h => Or.inr ⟨hi, h.2⟩⟩
      · exact ⟨fun h => h.elim (fun h => ⟨h.1, h.2.1⟩) fun h => absurd h.1 hi,
          fun h => Or.inl ⟨h.1, h.2, Nat.sub_lt_left_of_lt_add h.1 (Nat.lt_of_not_le hi)⟩⟩

theorem bitsFrom_pairwise : ∀ {k m start : Nat}, m < 1 <<< (1 <<< k) → (bitsFrom k m start).Pairwise (· < ·)
  | 0, m, start, _ => by
    rw [bitsFrom]
    split
    · exact List.Pairwise.nil
    · exact List.pairwise_singleton _ _
  | k + 1, m, start, h => by
    rw [bitsFrom]
    split
    · exact List.Pairwise.nil
    · have hlow := lowerHalf_lt m k
      have hhigh := shiftRight_lt h
      refine List.pairwise_append.mpr ⟨bitsFrom_pairwise hlow, bitsFrom_pairwise hhigh, fun i hi j hj => ?_⟩
      obtain ⟨hi₁, hi₂⟩ := (mem_bitsFrom hlow).mp hi
      have hj₁ := ((mem_bitsFrom hhigh).mp hj).1
      rw [Nat.testBit_and, Nat.one_shiftLeft (1 <<< k), Nat.testBit_two_pow_sub_one, Bool.and_eq_true,
        decide_eq_true_eq] at hi₂
      omega

theorem mask_lt (S : StateSet) : S.mask < 1 <<< (1 <<< (S.mask.log2.log2 + 1)) := by
  simp only [Nat.one_shiftLeft]
  exact Nat.lt_of_lt_of_le Nat.lt_log2_self (Nat.pow_le_pow_right (by decide) Nat.lt_log2_self)

@[simp] theorem mem_toList {S : StateSet} {i : Nat} : i ∈ S.toList ↔ i ∈ S := by
  rw [toList, mem_bitsFrom S.mask_lt, Nat.sub_zero, mem_iff_testBit]
  exact and_iff_right (Nat.zero_le i)

/-- The members are listed in strictly ascending order. -/
theorem toList_pairwise (S : StateSet) : S.toList.Pairwise (· < ·) := bitsFrom_pairwise S.mask_lt

theorem toList_nodup (S : StateSet) : S.toList.Nodup := S.toList_pairwise.imp Nat.ne_of_lt

theorem mem_of_min?_eq_some {S : StateSet} {i : Nat} (h : S.min? = some i) : i ∈ S :=
  mem_toList.mp (List.mem_of_head? h)

theorem min?_eq_none_iff {S : StateSet} : S.min? = none ↔ ∀ i, i ∉ S := by
  rw [min?, List.head?_eq_none_iff, List.eq_nil_iff_forall_not_mem]
  exact forall_congr' fun i => not_congr mem_toList

/-- A set has at most one member if no two members are different. -/
theorem size_le_one_iff {S : StateSet} : S.size ≤ 1 ↔ ∀ i ∈ S, ∀ j ∈ S, i = j := by
  constructor
  · intro h i hi j hj
    rw [← mem_toList] at hi hj
    rw [size] at h
    match hl : S.toList with
    | [] => rw [hl] at hi; cases hi
    | [k] =>
      rw [hl] at hi hj
      rw [List.mem_singleton.mp hi, List.mem_singleton.mp hj]
    | k :: m :: l => rw [hl] at h; simp at h
  · intro h
    rw [size]
    match hl : S.toList with
    | [] => exact Nat.zero_le 1
    | [k] => exact Nat.le_refl 1
    | k :: m :: l =>
      have hk : k ∈ S := mem_toList.mp (hl ▸ List.mem_cons_self)
      have hm : m ∈ S := mem_toList.mp (hl ▸ List.mem_cons_of_mem k List.mem_cons_self)
      have hp := S.toList_pairwise
      rw [hl] at hp
      have hlt := List.rel_of_pairwise_cons hp List.mem_cons_self
      exact absurd (h k hk m hm) (Nat.ne_of_lt hlt)

theorem size_eq_one_iff {S : StateSet} : S.size = 1 ↔ ∃ i, S.toList = [i] := List.length_eq_one_iff

theorem size_pos_iff {S : StateSet} : 0 < S.size ↔ ∃ i, i ∈ S := by
  rw [size, List.length_pos_iff_exists_mem]
  exact exists_congr fun i => mem_toList

theorem size_below (n : Nat) : (below n).size = n := by
  have hperm : (below n).toList.Perm (List.range n) :=
    (List.perm_ext_iff_of_nodup (toList_nodup _) List.nodup_range).mpr fun i => by
      rw [mem_toList, mem_below, List.mem_range]
  rw [size, hperm.length_eq, List.length_range]

theorem size_erase {S : StateSet} {i : Nat} (h : i ∈ S) : (S.erase i).size + 1 = S.size := by
  have hnodup : (i :: (S.erase i).toList).Nodup :=
    List.nodup_cons.mpr ⟨fun hi => (mem_erase.mp (mem_toList.mp hi)).1 rfl, toList_nodup _⟩
  have hperm : S.toList.Perm (i :: (S.erase i).toList) :=
    (List.perm_ext_iff_of_nodup S.toList_nodup hnodup).mpr fun j => by
      rw [mem_toList, List.mem_cons, mem_toList, mem_erase]
      by_cases hj : j = i
      · exact iff_of_true (hj ▸ h) (Or.inl hj)
      · exact ⟨fun hjS => Or.inr ⟨hj, hjS⟩, fun hor => (hor.resolve_left hj).2⟩
  rw [size, size, hperm.length_eq, List.length_cons]

theorem isEmpty_iff {S : StateSet} : S.isEmpty = true ↔ ∀ i, i ∉ S := by
  rw [isEmpty, beq_iff_eq]
  refine ⟨fun h i hi => ?_, fun h => congrArg mask (ext fun i => ?_ : S = ∅)⟩
  · rw [mem_iff_testBit, h] at hi
    simp at hi
  · exact iff_of_false (h i) (not_mem_empty i)

theorem not_isEmpty_iff {S : StateSet} : ¬S.isEmpty = true ↔ ∃ i, i ∈ S := by
  rw [isEmpty_iff, Classical.not_forall_not]

theorem intersects_iff {S T : StateSet} : S.intersects T = true ↔ ∃ i, i ∈ S ∧ i ∈ T := by
  rw [intersects, Bool.not_eq_true', ← Bool.not_eq_true, not_isEmpty_iff]
  exact exists_congr fun i => mem_inter

theorem isSubset_iff {S T : StateSet} : S.isSubset T = true ↔ ∀ i, i ∈ S → i ∈ T := by
  simp [isSubset, contains_iff]

@[simp] theorem mem_filter {S : StateSet} {p : Nat → Bool} {i : Nat} :
    i ∈ S.filter p ↔ i ∈ S ∧ p i = true := by
  rw [filter, mem_ofList, List.mem_filter, mem_toList]

@[simp] theorem mem_map {S : StateSet} {f : Nat → Nat} {j : Nat} : j ∈ S.map f ↔ ∃ i ∈ S, f i = j := by
  simp [map]

theorem mem_foldl_union {α : Type} {f : α → StateSet} {i : Nat} {l : List α} :
    ∀ {U : StateSet}, i ∈ l.foldl (fun U x => U ∪ f x) U ↔ i ∈ U ∨ ∃ x ∈ l, i ∈ f x := by
  induction l with
  | nil => simp
  | cons x l ih =>
    intro U
    rw [List.foldl_cons, ih, mem_union, or_assoc]
    simp

@[simp] theorem mem_biUnion {S : StateSet} {f : Nat → StateSet} {i : Nat} :
    i ∈ S.biUnion f ↔ ∃ j ∈ S, i ∈ f j := by
  rw [biUnion, mem_foldl_union]
  simp

end StateSet

end FiniteAutomata
