import FiniteAutomata.StateSet.Bits

/-!
Sets of state ids in a store of bits. How much room a store has shows in no answer: a set grows when a member is put
in for which it has no room, or when it takes in a set with more room, and it is asked for its members only. So a set
of any room is described by its members, as a `StateSet` is, and the set of its members is that `StateSet`
(`SizedSet.members`).
-/

namespace FiniteAutomata

/-- A finite set of state ids: the places of the bits that are set. -/
structure SizedSet (β : Type) where
  bits : β

namespace SizedSet

variable {β : Type} [BitStore β]

def contains (S : SizedSet β) (i : Nat) : Bool := decide (i < BitStore.length S.bits) && BitStore.get S.bits i

instance : Membership Nat (SizedSet β) := ⟨fun S i => S.contains i = true⟩

/-! ### Construction -/

/-- The empty set, with room for the ids below `n`. -/
def withCapacity (n : Nat) : SizedSet β := ⟨BitStore.clear n⟩

instance : EmptyCollection (SizedSet β) := ⟨withCapacity 0⟩

/-- The store, made long enough for the ids below `n`. -/
def roomFor (n : Nat) (b : β) : β := if BitStore.length b < n then BitStore.grow b n else b

/-- Puts `i` in, and says whether it was missing. -/
def add (S : SizedSet β) (i : Nat) : Bool × SizedSet β :=
  let (present, bits) := BitStore.put (roomFor (i + 1) S.bits) i
  (!present, ⟨bits⟩)

def insert (S : SizedSet β) (i : Nat) : SizedSet β := (S.add i).2

def insertMany (S : SizedSet β) (l : List Nat) : SizedSet β := l.foldl insert S

def ofList (l : List Nat) : SizedSet β := insertMany ∅ l

def singleton (i n : Nat) : SizedSet β := (withCapacity n).insert i

/-- Takes `i` out, and says whether it was there. -/
def remove (S : SizedSet β) (i : Nat) : Bool × SizedSet β :=
  if S.contains i then (true, ⟨BitStore.assign S.bits i false⟩) else (false, S)

instance : Union (SizedSet β) :=
  ⟨fun S T => ⟨BitStore.union (roomFor (BitStore.length T.bits) S.bits) T.bits⟩⟩

instance : Inter (SizedSet β) := ⟨fun S T => ⟨BitStore.inter S.bits T.bits⟩⟩

instance : SDiff (SizedSet β) := ⟨fun S T => ⟨BitStore.diff S.bits T.bits⟩⟩

/-! ### Views -/

def isEmpty (S : SizedSet β) : Bool := BitStore.isClear S.bits

def size (S : SizedSet β) : Nat := BitStore.count S.bits

/-- The members in ascending order. -/
def toList (S : SizedSet β) : List Nat := BitStore.ones S.bits

/-- Whether some id is a member of both. -/
def intersects (S T : SizedSet β) : Bool := !(BitStore.common S.bits T.bits).isEmpty

def isSubset (S T : SizedSet β) : Bool := S.toList.all T.contains

/-- Sets are compared by their members. -/
instance : BEq (SizedSet β) := ⟨fun S T => S.toList == T.toList⟩

/-- What a hash is computed from: the members in ascending order and their number. -/
def hashInput (S : SizedSet β) : List Nat := S.toList ++ [S.size]

instance : Hashable (SizedSet β) := ⟨fun S => hash S.hashInput⟩

/-- The set of the members, without the room. -/
def members (S : SizedSet β) : StateSet := .ofList S.toList

/-! ### Members -/

variable [LawfulBitStore β] {S T : SizedSet β} {i j n : Nat} {l : List Nat}

theorem mem_iff_get : i ∈ S ↔ BitStore.get S.bits i = true := by
  change (decide (i < BitStore.length S.bits) && BitStore.get S.bits i) = true ↔ _
  rw [Bool.and_eq_true, decide_eq_true_eq]
  exact and_iff_right_of_imp LawfulBitStore.lt_length

theorem le_length_roomFor (n : Nat) (b : β) : n ≤ BitStore.length (roomFor n b) := by
  unfold roomFor
  split
  · rw [LawfulBitStore.length_grow]
    exact Nat.le_max_right _ _
  · rename_i h
    exact Nat.le_of_not_lt h

theorem get_roomFor (n : Nat) (b : β) (i : Nat) : BitStore.get (roomFor n b) i = BitStore.get b i := by
  unfold roomFor
  split
  · exact LawfulBitStore.get_grow b n i
  · rfl

@[simp] theorem not_mem_withCapacity : i ∉ (withCapacity n : SizedSet β) := by
  rw [mem_iff_get, withCapacity, LawfulBitStore.get_clear]
  exact Bool.false_ne_true

theorem add_fst : (S.add i).1 = true ↔ i ∉ S := by
  have hput := LawfulBitStore.put_fst (le_length_roomFor (i + 1) S.bits)
  rw [add, mem_iff_get]
  change (!(BitStore.put (roomFor (i + 1) S.bits) i).1) = true ↔ _
  rw [hput, get_roomFor, Bool.not_eq_true', Bool.not_eq_true]

@[simp] theorem mem_insert : j ∈ S.insert i ↔ j = i ∨ j ∈ S := by
  have hput := LawfulBitStore.get_put j (le_length_roomFor (i + 1) S.bits)
  rw [mem_iff_get, mem_iff_get]
  change BitStore.get (BitStore.put (roomFor (i + 1) S.bits) i).2 j = true ↔ _
  rw [hput, get_roomFor, Bool.or_eq_true, decide_eq_true_eq]

@[simp] theorem mem_insertMany : j ∈ S.insertMany l ↔ j ∈ S ∨ j ∈ l := by
  induction l generalizing S with
  | nil => simp [insertMany]
  | cons i l ih =>
    have h := ih (S := S.insert i)
    rw [insertMany] at h ⊢
    rw [List.foldl_cons, h, mem_insert, List.mem_cons, or_assoc, or_left_comm]

@[simp] theorem mem_ofList : j ∈ (ofList l : SizedSet β) ↔ j ∈ l := by
  rw [ofList, mem_insertMany]
  exact or_iff_right not_mem_withCapacity

@[simp] theorem mem_singleton : j ∈ (singleton i n : SizedSet β) ↔ j = i := by
  rw [singleton, mem_insert]
  exact or_iff_left not_mem_withCapacity

omit [LawfulBitStore β] in
theorem remove_fst : (S.remove i).1 = true ↔ i ∈ S := by
  change _ ↔ S.contains i = true
  unfold remove
  split
  · rename_i h
    exact iff_of_true rfl h
  · rename_i h
    exact iff_of_false Bool.false_ne_true h

@[simp] theorem mem_remove : j ∈ (S.remove i).2 ↔ j ≠ i ∧ j ∈ S := by
  unfold remove
  split
  · rename_i h
    -- a bit that is set has its place below the length
    have hi : i < BitStore.length S.bits := by
      rw [contains, Bool.and_eq_true, decide_eq_true_eq] at h
      exact h.1
    rw [mem_iff_get, mem_iff_get, LawfulBitStore.get_assign false j hi]
    by_cases hj : j = i <;> simp [hj]
  · rename_i h
    refine (and_iff_right_of_imp fun hj he => h ?_).symm
    exact he ▸ hj

@[simp] theorem mem_union : i ∈ S ∪ T ↔ i ∈ S ∨ i ∈ T := by
  have hunion := LawfulBitStore.get_union i (le_length_roomFor (BitStore.length T.bits) S.bits)
  rw [mem_iff_get, mem_iff_get, mem_iff_get]
  change BitStore.get (BitStore.union (roomFor (BitStore.length T.bits) S.bits) T.bits) i = true ↔ _
  rw [hunion, get_roomFor, Bool.or_eq_true]

@[simp] theorem mem_inter : i ∈ S ∩ T ↔ i ∈ S ∧ i ∈ T := by
  rw [mem_iff_get, mem_iff_get, mem_iff_get]
  change BitStore.get (BitStore.inter S.bits T.bits) i = true ↔ _
  rw [LawfulBitStore.get_inter, Bool.and_eq_true]

@[simp] theorem mem_sdiff : i ∈ S \ T ↔ i ∈ S ∧ i ∉ T := by
  rw [mem_iff_get, mem_iff_get, mem_iff_get]
  change BitStore.get (BitStore.diff S.bits T.bits) i = true ↔ _
  rw [LawfulBitStore.get_diff, Bool.and_eq_true, Bool.not_eq_true', Bool.not_eq_true]

@[simp] theorem mem_toList : i ∈ S.toList ↔ i ∈ S := by
  rw [toList, LawfulBitStore.mem_ones, mem_iff_get]

@[simp] theorem mem_members : i ∈ S.members ↔ i ∈ S := by
  rw [members, StateSet.mem_ofList, mem_toList]

/-! ### What is asked of a set -/

/-- The members are listed in strictly ascending order. -/
theorem toList_pairwise (S : SizedSet β) : S.toList.Pairwise (· < ·) := LawfulBitStore.ones_pairwise S.bits

theorem toList_nodup (S : SizedSet β) : S.toList.Nodup := S.toList_pairwise.imp Nat.ne_of_lt

theorem size_eq_length (S : SizedSet β) : S.size = S.toList.length := by
  have hlt : ∀ i, BitStore.get S.bits i = true → i < BitStore.length S.bits := fun _ => LawfulBitStore.lt_length
  rw [size, LawfulBitStore.count_eq]
  exact (length_eq_countP S.toList_nodup (fun _ => LawfulBitStore.mem_ones) hlt).symm

theorem isEmpty_iff : S.isEmpty = true ↔ ∀ i, i ∉ S := by
  rw [isEmpty, LawfulBitStore.isClear_iff]
  simp only [mem_iff_get, Bool.not_eq_true]
  refine ⟨fun h i => ?_, fun h i _ => h i⟩
  by_cases hi : i < BitStore.length S.bits
  · exact h i hi
  · exact LawfulBitStore.get_of_length_le (Nat.le_of_not_lt hi)

theorem intersects_iff : S.intersects T = true ↔ ∃ i, i ∈ S ∧ i ∈ T := by
  rw [intersects, Bool.not_eq_true', List.isEmpty_eq_false_iff_exists_mem]
  exact exists_congr fun i => by rw [LawfulBitStore.mem_common, mem_iff_get, mem_iff_get]

theorem isSubset_iff : S.isSubset T = true ↔ ∀ i ∈ S, i ∈ T := by
  rw [isSubset, List.all_eq_true]
  exact forall_congr' fun i => by rw [mem_toList]; rfl

/-- The members decide what is listed. -/
theorem toList_eq_iff : S.toList = T.toList ↔ ∀ i, i ∈ S ↔ i ∈ T := by
  constructor
  · intro h i
    rw [← mem_toList, h, mem_toList]
  · intro h
    refine eq_of_pairwise_of_mem_iff Nat.lt_irrefl (fun _ _ _ => Nat.lt_trans) S.toList_pairwise T.toList_pairwise ?_
    intro i
    rw [mem_toList, mem_toList, h]

theorem beq_iff : (S == T) = true ↔ ∀ i, i ∈ S ↔ i ∈ T := by
  change (S.toList == T.toList) = true ↔ _
  rw [beq_iff_eq, toList_eq_iff]

/-- Sets with the same members are hashed alike. -/
theorem hashInput_congr (h : ∀ i, i ∈ S ↔ i ∈ T) : S.hashInput = T.hashInput := by
  rw [hashInput, hashInput, size_eq_length, size_eq_length, toList_eq_iff.mpr h]

end SizedSet

end FiniteAutomata
