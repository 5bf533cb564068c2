import Mathlib.Data.Finset.Card
import Mathlib.Logic.Function.Basic
import FiniteAutomata.StateSet.Sized

/-!
Histories of set commands. A command builds a set in one of the numbered registers, out of nothing or out of the sets
in registers. What the commands do is given by operations (`SetOps`), so one history can be carried out on sets with
room, on sets without, and on the finite sets of mathematics. If each operation keeps a relation between two kinds of
sets, so does each command, and so does each history (`SetOps.Simulates.run`). The relation here is to have the same
members, and all that can be asked of a set with room is asked of its members (`SizedSet.answers_history`).
-/

namespace FiniteAutomata

variable {σ τ : Type}

/-- A command to build a set in the register `x`. The sets that it is built of are in the registers `y` and `z`, or
in `x` before. -/
inductive SetCommand where
  | withCapacity (x n : Nat)
  | singleton (x i n : Nat)
  | collect (x : Nat) (l : List Nat)
  | insert (x i : Nat)
  | remove (x i : Nat)
  | extend (x : Nat) (l : List Nat)
  | unionWith (x y : Nat)
  | intersection (x y z : Nat)
  | difference (x y z : Nat)
deriving DecidableEq, Repr

/-- What commands are carried out with. Putting in and taking out say whether the set changed. -/
structure SetOps (σ : Type) where
  withCapacity : Nat → σ
  singleton : Nat → Nat → σ
  collect : List Nat → σ
  insert : σ → Nat → Bool × σ
  remove : σ → Nat → Bool × σ
  extend : σ → List Nat → σ
  union : σ → σ → σ
  inter : σ → σ → σ
  diff : σ → σ → σ

namespace SetOps

/-! ### Runs of commands -/

/-- The answer to a command, if it gives one, and the registers after it. -/
def step (O : SetOps σ) (r : Nat → σ) : SetCommand → Option Bool × (Nat → σ)
  | .withCapacity x n => (none, Function.update r x (O.withCapacity n))
  | .singleton x i n => (none, Function.update r x (O.singleton i n))
  | .collect x l => (none, Function.update r x (O.collect l))
  | .insert x i => (some (O.insert (r x) i).1, Function.update r x (O.insert (r x) i).2)
  | .remove x i => (some (O.remove (r x) i).1, Function.update r x (O.remove (r x) i).2)
  | .extend x l => (none, Function.update r x (O.extend (r x) l))
  | .unionWith x y => (none, Function.update r x (O.union (r x) (r y)))
  | .intersection x y z => (none, Function.update r x (O.inter (r y) (r z)))
  | .difference x y z => (none, Function.update r x (O.diff (r y) (r z)))

/-- The answers to commands, one after the other, and the registers after them. -/
def run (O : SetOps σ) : (Nat → σ) → List SetCommand → List (Option Bool) × (Nat → σ)
  | r, [] => ([], r)
  | r, c :: cs =>
    let (answer, r) := O.step r c
    let (answers, r) := O.run r cs
    (answer :: answers, r)

/-- A run in which all registers are empty at first. -/
def history (O : SetOps σ) (cs : List SetCommand) : List (Option Bool) × (Nat → σ) :=
  O.run (fun _ => O.withCapacity 0) cs

/-! ### Simulation -/

variable {O : SetOps σ} {P : SetOps τ} {R : σ → τ → Prop} {r : Nat → σ} {r' : Nat → τ}

/-- Each operation keeps the relation `R`, and says the same on both sides. -/
structure Simulates (O : SetOps σ) (P : SetOps τ) (R : σ → τ → Prop) : Prop where
  withCapacity (n : Nat) : R (O.withCapacity n) (P.withCapacity n)
  singleton (i n : Nat) : R (O.singleton i n) (P.singleton i n)
  collect (l : List Nat) : R (O.collect l) (P.collect l)
  insert {S : σ} {F : τ} (i : Nat) : R S F →
    (O.insert S i).1 = (P.insert F i).1 ∧ R (O.insert S i).2 (P.insert F i).2
  remove {S : σ} {F : τ} (i : Nat) : R S F →
    (O.remove S i).1 = (P.remove F i).1 ∧ R (O.remove S i).2 (P.remove F i).2
  extend {S : σ} {F : τ} (l : List Nat) : R S F → R (O.extend S l) (P.extend F l)
  union {S T : σ} {F G : τ} : R S F → R T G → R (O.union S T) (P.union F G)
  inter {S T : σ} {F G : τ} : R S F → R T G → R (O.inter S T) (P.inter F G)
  diff {S T : σ} {F G : τ} : R S F → R T G → R (O.diff S T) (P.diff F G)

theorem related_update (hr : ∀ x, R (r x) (r' x)) {S : σ} {F : τ} (h : R S F) (x y : Nat) :
    R (Function.update r x S y) (Function.update r' x F y) := by
  by_cases hy : y = x
  · rw [hy, Function.update_self, Function.update_self]
    exact h
  · rw [Function.update_of_ne hy, Function.update_of_ne hy]
    exact hr y

theorem Simulates.step (h : O.Simulates P R) (hr : ∀ x, R (r x) (r' x)) (c : SetCommand) :
    (O.step r c).1 = (P.step r' c).1 ∧ ∀ x, R ((O.step r c).2 x) ((P.step r' c).2 x) := by
  cases c with
  | withCapacity x n => exact ⟨rfl, related_update hr (h.withCapacity n) x⟩
  | singleton x i n => exact ⟨rfl, related_update hr (h.singleton i n) x⟩
  | collect x l => exact ⟨rfl, related_update hr (h.collect l) x⟩
  | insert x i =>
    obtain ⟨hsame, hset⟩ := h.insert i (hr x)
    exact ⟨congrArg some hsame, related_update hr hset x⟩
  | remove x i =>
    obtain ⟨hsame, hset⟩ := h.remove i (hr x)
    exact ⟨congrArg some hsame, related_update hr hset x⟩
  | extend x l => exact ⟨rfl, related_update hr (h.extend l (hr x)) x⟩
  | unionWith x y => exact ⟨rfl, related_update hr (h.union (hr x) (hr y)) x⟩
  | intersection x y z => exact ⟨rfl, related_update hr (h.inter (hr y) (hr z)) x⟩
  | difference x y z => exact ⟨rfl, related_update hr (h.diff (hr y) (hr z)) x⟩

theorem Simulates.run (h : O.Simulates P R) (hr : ∀ x, R (r x) (r' x)) (cs : List SetCommand) :
    (O.run r cs).1 = (P.run r' cs).1 ∧ ∀ x, R ((O.run r cs).2 x) ((P.run r' cs).2 x) := by
  induction cs generalizing r r' with
  | nil => exact ⟨rfl, hr⟩
  | cons c cs ih =>
    obtain ⟨hanswer, hr⟩ := h.step hr c
    obtain ⟨hanswers, hr⟩ := ih hr
    exact ⟨congrArg₂ List.cons hanswer hanswers, hr⟩

theorem Simulates.history (h : O.Simulates P R) (cs : List SetCommand) :
    (O.history cs).1 = (P.history cs).1 ∧ ∀ x, R ((O.history cs).2 x) ((P.history cs).2 x) :=
  h.run (fun _ => h.withCapacity 0) cs

/-! ### Finite sets -/

/-- The commands on finite sets of ids. -/
def finset : SetOps (Finset Nat) where
  withCapacity _ := ∅
  singleton i _ := {i}
  collect l := l.toFinset
  insert F i := (decide (i ∉ F), Insert.insert i F)
  remove F i := (decide (i ∈ F), F.erase i)
  extend F l := F ∪ l.toFinset
  union F G := F ∪ G
  inter F G := F ∩ G
  diff F G := F \ G

/-- The commands on sets of ids that need no room. -/
def stateSet : SetOps StateSet where
  withCapacity := .emptyWithCapacity
  singleton i _ := .singleton i
  collect := .ofList
  insert := StateSet.add
  remove := StateSet.remove
  extend := .insertMany
  union S T := S ∪ T
  inter S T := S ∩ T
  diff S T := S \ T

/-- The commands on sets of ids with room in a store of bits. -/
def sized (β : Type) [BitStore β] : SetOps (SizedSet β) where
  withCapacity := .withCapacity
  singleton := .singleton
  collect := .ofList
  insert := SizedSet.add
  remove := SizedSet.remove
  extend := .insertMany
  union S T := S ∪ T
  inter S T := S ∩ T
  diff S T := S \ T

theorem stateSet_simulates : stateSet.Simulates finset fun S F => ∀ i, i ∈ S ↔ i ∈ F where
  withCapacity n i := by simp [stateSet, finset, StateSet.emptyWithCapacity]
  singleton i n j := by simp [stateSet, finset]
  collect l i := by simp [stateSet, finset]
  insert {S F} i h := by
    refine ⟨Bool.eq_iff_iff.mpr ?_, fun j => by simp [stateSet, finset, StateSet.add, h]⟩
    simp [stateSet, finset, StateSet.add_fst, h]
  remove {S F} i h := by
    refine ⟨Bool.eq_iff_iff.mpr ?_, fun j => by simp [stateSet, finset, StateSet.remove, h]⟩
    simp [stateSet, finset, StateSet.remove_fst, h]
  extend {S F} l h i := by simp [stateSet, finset, h]
  union {S T F G} hS hT i := by simp [stateSet, finset, hS, hT]
  inter {S T F G} hS hT i := by simp [stateSet, finset, hS, hT]
  diff {S T F G} hS hT i := by simp [stateSet, finset, hS, hT]

variable (β : Type) [BitStore β] [LawfulBitStore β]

theorem sized_simulates : (sized β).Simulates finset fun S F => ∀ i, i ∈ S ↔ i ∈ F where
  withCapacity n i := by simp [sized, finset]
  singleton i n j := by simp [sized, finset]
  collect l i := by simp [sized, finset]
  insert {S F} i h := by
    refine ⟨Bool.eq_iff_iff.mpr ?_, fun j => ?_⟩
    · simp [sized, finset, SizedSet.add_fst, h]
    · have hj : j ∈ (S.add i).2 ↔ j = i ∨ j ∈ S := SizedSet.mem_insert
      simp [sized, finset, hj, h]
  remove {S F} i h := by
    refine ⟨Bool.eq_iff_iff.mpr ?_, fun j => by simp [sized, finset, h]⟩
    simp [sized, finset, SizedSet.remove_fst, h]
  extend {S F} l h i := by simp [sized, finset, h]
  union {S T F G} hS hT i := by simp [sized, finset, hS, hT]
  inter {S T F G} hS hT i := by simp [sized, finset, hS, hT]
  diff {S T F G} hS hT i := by simp [sized, finset, hS, hT]

end SetOps

namespace SizedSet

variable {β : Type} [BitStore β]

/-! ### Answers -/

/-- What is said of `S`, and of `S` and `T` together, is what holds of the finite sets `F` and `G`. -/
structure Answers (S T : SizedSet β) (F G : Finset Nat) : Prop where
  contains (i : Nat) : S.contains i = true ↔ i ∈ F
  size : S.size = F.card
  isEmpty : S.isEmpty = true ↔ F = ∅
  ascending : S.toList.Pairwise (· < ·)
  mem_toList (i : Nat) : i ∈ S.toList ↔ i ∈ F
  intersects : S.intersects T = true ↔ (F ∩ G).Nonempty
  isSubset : S.isSubset T = true ↔ F ⊆ G
  beq : (S == T) = true ↔ F = G
  hashInput : F = G → S.hashInput = T.hashInput

variable [LawfulBitStore β] {S T : SizedSet β} {F G : Finset Nat}

theorem size_eq_card (hS : ∀ i, i ∈ S ↔ i ∈ F) : S.size = F.card := by
  have hF : S.toList.toFinset = F := Finset.ext fun i => by rw [List.mem_toFinset, SizedSet.mem_toList, hS]
  rw [size_eq_length, ← hF, List.toFinset_card_of_nodup S.toList_nodup]

theorem answers_of_mem_iff (hS : ∀ i, i ∈ S ↔ i ∈ F) (hT : ∀ i, i ∈ T ↔ i ∈ G) : Answers S T F G where
  contains := hS
  size := size_eq_card hS
  isEmpty := by simp only [isEmpty_iff, hS, Finset.eq_empty_iff_forall_notMem]
  ascending := S.toList_pairwise
  mem_toList i := SizedSet.mem_toList.trans (hS i)
  intersects := by simp only [intersects_iff, hS, hT, Finset.Nonempty, Finset.mem_inter]
  isSubset := by simp only [isSubset_iff, hS, hT, Finset.subset_iff]
  beq := by simp only [beq_iff, hS, hT, Finset.ext_iff]
  hashInput h := hashInput_congr fun i => by rw [hS, hT, h]

variable (β) in
/-- After any history of commands, on sets of whatever room, everything that is said of the sets in the registers is
what holds of the finite sets that the same commands build, and so were the answers to the commands. -/
theorem answers_history (cs : List SetCommand) :
    ((SetOps.sized β).history cs).1 = (SetOps.finset.history cs).1 ∧
      ∀ x y, Answers (((SetOps.sized β).history cs).2 x) (((SetOps.sized β).history cs).2 y)
        ((SetOps.finset.history cs).2 x) ((SetOps.finset.history cs).2 y) := by
  obtain ⟨hanswers, hmem⟩ := (SetOps.sized_simulates β).history cs
  exact ⟨hanswers, fun x y => answers_of_mem_iff (hmem x) (hmem y)⟩

/-- Commands that meet sets with less room and with more, on either side. -/
def mixedRooms : List SetCommand :=
  [.singleton 0 2 3, .withCapacity 1 128, .insert 1 2, .insert 0 100, .insert 1 100, .insert 1 2,
    .collect 2 [7, 2, 100], .difference 3 2 1, .unionWith 2 0, .remove 2 7, .remove 2 7, .intersection 4 0 2,
    .extend 3 [100, 2], .remove 3 7]

/-- Two sets with the same members have different rooms here. -/
theorem answers_history_mixedRooms :
    LawfulBitStore Bits ∧
      ((SetOps.sized Bits).history mixedRooms).1 = [none, none, some true, some true, some true, some false, none,
        none, none, some true, some false, none, none, some true] ∧
      (((SetOps.sized Bits).history mixedRooms).2 0).bits.length = 101 ∧
      (((SetOps.sized Bits).history mixedRooms).2 1).bits.length = 128 ∧
      (((SetOps.sized Bits).history mixedRooms).2 0 == ((SetOps.sized Bits).history mixedRooms).2 1) = true ∧
      (((SetOps.sized Bits).history mixedRooms).2 0).hashInput =
        (((SetOps.sized Bits).history mixedRooms).2 1).hashInput ∧
      (((SetOps.sized Bits).history mixedRooms).2 3).size = 2 := by
  obtain ⟨hanswers, hsets⟩ := answers_history Bits mixedRooms
  have hsame : (SetOps.finset.history mixedRooms).2 0 = (SetOps.finset.history mixedRooms).2 1 := by decide
  have hcard : ((SetOps.finset.history mixedRooms).2 3).card = 2 := by decide
  exact ⟨inferInstance, hanswers.trans (by decide), rfl, rfl, (hsets 0 1).beq.mpr hsame, (hsets 0 1).hashInput hsame,
    (hsets 3 3).size.trans hcard⟩

/-- A set without room is what is left of a set with room when its room is forgotten. -/
theorem members_history (cs : List SetCommand) (x : Nat) :
    (((SetOps.sized β).history cs).2 x).members = (SetOps.stateSet.history cs).2 x := by
  refine StateSet.ext fun i => ?_
  have hsized := ((SetOps.sized_simulates β).history cs).2 x i
  have hstateSet := (SetOps.stateSet_simulates.history cs).2 x i
  rw [mem_members, hsized, hstateSet]

end SizedSet

end FiniteAutomata
