import Mathlib.Data.Set.Card
import Mathlib.Logic.Relation
import FiniteAutomata.Proofs.DisjointSets

/-!
Histories of disjoint sets. Whatever is found and joined, in whatever order, two numbers are in one set if the pairs that
were joined link them, and in no other case (`answers_ofRequests`): finding leaves every representative where it is, and
a union links its two arguments. So each request is answered by the links that there are before it, and the size noted
for a representative counts the numbers that are linked to it.
-/

namespace FiniteAutomata.DisjointSets

open Relation (EqvGen)

/-- What can be asked for. -/
inductive Request where
  | find (x : Nat)
  | union (x y : Nat)
deriving DecidableEq, Repr

namespace Request

/-- The sets after a request. -/
def apply : Request → DisjointSets → DisjointSets
  | .find x, s => (s.find x).2
  | .union x y, s => (s.union x y).2

/-- The request is about numbers below `n`. -/
def Below (n : Nat) : Request → Prop
  | .find x => x < n
  | .union x y => x < n ∧ y < n

instance (n : Nat) : (q : Request) → Decidable (q.Below n)
  | .find x => inferInstanceAs (Decidable (x < n))
  | .union x y => inferInstanceAs (Decidable (x < n ∧ y < n))

end Request

/-- The sets that a history of requests makes of the numbers below `n`. -/
def ofRequests (n : Nat) (qs : List Request) : DisjointSets := qs.foldl (fun s q => q.apply s) (discrete n)

/-- A chain of pairs that were joined, each taken in either direction, leads from one number to the other. -/
def Linked (qs : List Request) : Nat → Nat → Prop := EqvGen fun x y => .union x y ∈ qs

variable {s t : DisjointSets} {n x y r u v : Nat} {qs : List Request} {q : Request}

/-! ### Links -/

theorem linked_nil_iff : Linked [] u v ↔ u = v := by
  constructor
  · intro h
    induction h with
    | rel _ _ hmem => exact absurd hmem List.not_mem_nil
    | refl => rfl
    | symm _ _ _ ih => exact ih.symm
    | trans _ _ _ _ _ ih₁ ih₂ => exact ih₁.trans ih₂
  · rintro rfl
    exact .refl u

theorem Linked.concat (h : Linked qs u v) (q : Request) : Linked (qs ++ [q]) u v :=
  EqvGen.mono (fun _ _ hmem => List.mem_append_left _ hmem) u v h

theorem linked_concat_find_iff : Linked (qs ++ [.find x]) u v ↔ Linked qs u v := by
  refine ⟨EqvGen.mono (fun a b hmem => ?_) u v, fun h => h.concat _⟩
  rcases List.mem_append.mp hmem with hmem | hmem
  · exact hmem
  · cases List.mem_singleton.mp hmem

/-! ### What a request keeps -/

/-- Sets of the numbers below `n` that are the classes of `R`. -/
structure Holds (s : DisjointSets) (n : Nat) (R : Nat → Nat → Prop) : Prop where
  valid : s.Valid n
  same_iff (u v : Nat) : s.Same u v ↔ R u v

theorem Holds.discrete (n : Nat) : (discrete n).Holds n (Linked []) where
  valid := valid_discrete n
  same_iff _ _ := same_discrete_iff.trans linked_nil_iff.symm

theorem Holds.find (h : s.Holds n (Linked qs)) (x : Nat) : (s.find x).2.Holds n (Linked (qs ++ [.find x])) where
  valid := (h.valid.shortens_find x).valid h.valid
  same_iff u v := by
    have hroot := (h.valid.shortens_find x).root_eq h.valid.toRanked
    rw [linked_concat_find_iff, ← h.same_iff, Same, Same, hroot, hroot]

theorem Holds.union (h : s.Holds n (Linked qs)) (hx : x < n) (hy : y < n) :
    (s.union x y).2.Holds n (Linked (qs ++ [.union x y])) := by
  have hjoins := (unites_union h.valid.toRanked x y).joins h.valid hx hy
  have hpair : Linked (qs ++ [.union x y]) x y := .rel x y (List.mem_append_right _ List.mem_cons_self)
  have hold : ∀ {a b}, s.Same a b → Linked (qs ++ [.union x y]) a b :=
    fun hs => ((h.same_iff _ _).mp hs).concat _
  refine ⟨hjoins.valid, fun u v => ⟨fun hs => ?_, fun hl => ?_⟩⟩
  · rcases (hjoins.same_iff u v).mp hs with hs | ⟨hux, hyv⟩ | ⟨huy, hxv⟩
    · exact hold hs
    · exact (hold hux).trans _ _ _ (hpair.trans _ _ _ (hold hyv))
    · exact (hold huy).trans _ _ _ ((hpair.symm _ _).trans _ _ _ (hold hxv))
  · -- being in one set is an equivalence, so it is enough that each pair that was joined is in one set
    induction hl with
    | rel a b hmem =>
      rw [hjoins.same_iff]
      rcases List.mem_append.mp hmem with hmem | hmem
      · exact Or.inl ((h.same_iff a b).mpr (.rel a b hmem))
      · cases List.mem_singleton.mp hmem
        exact Or.inr (Or.inl ⟨rfl, rfl⟩)
    | refl a => exact rfl
    | symm _ _ _ ih => exact Eq.symm ih
    | trans _ _ _ _ _ ih₁ ih₂ => exact Eq.trans ih₁ ih₂

theorem Holds.apply (h : s.Holds n (Linked qs)) (hq : q.Below n) : (q.apply s).Holds n (Linked (qs ++ [q])) := by
  cases q with
  | find x => exact h.find x
  | union x y => exact h.union hq.1 hq.2

theorem holds_ofRequests (h : ∀ q ∈ qs, q.Below n) : (ofRequests n qs).Holds n (Linked qs) := by
  induction qs using List.reverseRecOn with
  | nil => exact .discrete n
  | append_singleton qs q ih =>
    rw [ofRequests, List.foldl_append]
    exact (ih fun q' hq' => h q' (List.mem_append_left _ hq')).apply (h q (List.mem_append_right _ List.mem_cons_self))

/-! ### Finding within range -/

/-- Finding without a bound on its steps, in which every place that is read or written is there. -/
inductive FindsInRange : DisjointSets → Nat → Nat → DisjointSets → Prop
  | here {s : DisjointSets} {x : Nat} : s.parents[x]? = some x → FindsInRange s x x s
  | above {s t : DisjointSets} {x y r : Nat} : s.parents[x]? = some y → y ≠ x → FindsInRange s y r t →
      x < t.parents.size → FindsInRange s x r { t with parents := t.parents.setIfInBounds x r }

theorem Ranked.getElem?_parents (h : s.Ranked n) (hx : x < n) : s.parents[x]? = some (s.parent x) := by
  have hsize : x < s.parents.size := h.size_parents.symm ▸ hx
  rw [parent, Array.getD_eq_getD_getElem?, Array.getElem?_eq_getElem hsize, Option.getD_some]

theorem Ranked.getElem?_sizes (h : s.Ranked n) (hx : x < n) : s.sizes[x]? = some (s.sizeOf x) := by
  have hsize : x < s.sizes.size := h.size_sizes.symm ▸ hx
  rw [sizeOf, Array.getD_eq_getD_getElem?, Array.getElem?_eq_getElem hsize, Option.getD_some]

theorem Finds.inRange (h : Finds s x r t) (hs : s.Ranked n) (hx : x < n) : FindsInRange s x r t := by
  induction h with
  | here hroot =>
    have hget := hs.getElem?_parents hx
    rw [hroot] at hget
    exact .here hget
  | above hne hfinds ih =>
    have hsize := ((hfinds.spec hs).2.ranked hs).size_parents
    exact .above (hs.getElem?_parents hx) hne (ih (hs.parent_lt _ hx)) (hsize.symm ▸ hx)

/-! ### Answers -/

/-- What is answered for the numbers below `n`, and what is noted for them, is what holds of the classes of `R`. Where
two numbers are found, the second is found in what finding the first leaves. -/
structure Answers (s : DisjointSets) (n : Nat) (R : Nat → Nat → Prop) : Prop where
  finds : ∀ x < n, FindsInRange s x (s.find x).1 (s.find x).2
  unites : ∀ x < n, ∀ y < n, Unites s x y (s.union x y).1 (s.union x y).2
  find_eq_find : ∀ x < n, ∀ y < n, (s.find x).1 = ((s.find x).2.find y).1 ↔ R x y
  union_fst : ∀ x < n, ∀ y < n, (s.union x y).1 = true ↔ ¬R x y
  find_find : ∀ x < n, ∀ y < n, ((s.find x).2.find y).1 = (s.find y).1
  find_root : ∀ x < n, s.parents[(s.find x).1]? = some (s.find x).1
  sizes_root : ∀ r, s.parents[r]? = some r → s.sizes[r]? = some {y | y < n ∧ R r y}.ncard

theorem members_eq_ncard : s.members n r = {y | y < n ∧ s.root y = r}.ncard := by
  have hset : {y | y < n ∧ s.root y = r} = (((List.range n).filter (s.root · == r)).toFinset : Set Nat) := by
    ext y
    simp
  rw [hset, Set.ncard_coe_finset, List.toFinset_card_of_nodup (List.nodup_range.filter _), members,
    List.countP_eq_length_filter]

theorem Holds.sizes_root {R : Nat → Nat → Prop} (h : s.Holds n R) (hr : s.parents[r]? = some r) :
    s.sizes[r]? = some {y | y < n ∧ R r y}.ncard := by
  have hranked := h.valid.toRanked
  have hlt : r < n := by
    rw [← hranked.size_parents]
    exact (Array.getElem?_eq_some_iff.mp hr).1
  have hparent : s.parent r = r := Option.some.inj ((hranked.getElem?_parents hlt).symm.trans hr)
  have hroot : s.root r = r := hranked.root_eq_self_iff.mpr hparent
  have hclass : ∀ y, s.root y = r ↔ R r y := by
    intro y
    rw [← h.same_iff, Same, hroot]
    exact eq_comm
  rw [hranked.getElem?_sizes hlt, h.valid.sizeOf_root r hlt hroot, members_eq_ncard]
  simp only [hclass]

theorem Holds.answers {R : Nat → Nat → Prop} (h : s.Holds n R) : s.Answers n R := by
  have hranked := h.valid.toRanked
  have hagain : ∀ x y, ((s.find x).2.find y).1 = s.root y := by
    intro x y
    have hshort := hranked.shortens_find x
    exact ((hshort.ranked hranked).find_fst y).trans (hshort.root_eq hranked y)
  refine {
    finds := fun x hx => (finds_find hranked x).inRange hranked hx
    unites := fun x _ y _ => unites_union hranked x y
    find_eq_find := fun x _ y _ => ?_
    union_fst := fun x hx y hy => ?_
    find_find := fun x _ y _ => (hagain x y).trans (hranked.find_fst y).symm
    find_root := fun x hx => ?_
    sizes_root := fun r hr => h.sizes_root hr }
  · rw [hranked.find_fst, hagain]
    exact h.same_iff x y
  · exact ((unites_union hranked x y).joins h.valid hx hy).joined_iff.trans (not_congr (h.same_iff x y))
  · rw [hranked.find_fst, hranked.getElem?_parents (hranked.root_lt hx), hranked.parent_root]

/-- After any history of requests about the numbers below `n`. -/
theorem answers_ofRequests (h : ∀ q ∈ qs, q.Below n) : (ofRequests n qs).Answers n (Linked qs) :=
  (holds_ofRequests h).answers

/-- Two chains that a union in the middle makes one, with numbers found in between. -/
def chains : List Request :=
  [.union 0 1, .union 3 4, .union 1 0, .find 4, .union 1 4, .find 3, .union 5 3, .find 0]

/-- Five numbers are linked, the sixth is left alone. -/
theorem answers_chains : (∀ q ∈ chains, q.Below 6) ∧ Linked chains 5 1 ∧ ¬Linked chains 2 4 ∧
    ((ofRequests 6 chains).union 4 2).1 = true ∧ {y | y < 6 ∧ Linked chains 0 y}.ncard = 5 := by
  have hbelow : ∀ q ∈ chains, q.Below 6 := by decide
  have hanswers := answers_ofRequests hbelow
  have hroot : (ofRequests 6 chains).parents[0]? = some 0 := by decide +kernel
  have hsize : (ofRequests 6 chains).sizes[0]? = some 5 := by decide +kernel
  refine ⟨hbelow, ?_, ?_, by decide +kernel, ?_⟩
  · exact (hanswers.find_eq_find 5 (by decide) 1 (by decide)).mp (by decide +kernel)
  · exact (hanswers.union_fst 2 (by decide) 4 (by decide)).mp (by decide +kernel)
  · exact Option.some.inj ((hanswers.sizes_root 0 hroot).symm.trans hsize)

end FiniteAutomata.DisjointSets
