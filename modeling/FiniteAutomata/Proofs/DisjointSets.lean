import FiniteAutomata.DisjointSets
import FiniteAutomata.Counting

/-!
Disjoint sets as an equivalence of the numbers below `n`: two numbers are in one set if following parents
leads from both to the same representative (`Same`). Finding shortens paths and changes no set, and a union
joins the sets of its two arguments and no others (`Unites.joins`); it takes one representative away when it
reports that the sets were apart.

What carries every proof is that the size noted grows from a number to its parent and is never above `n`
(`Ranked`): so no path is longer than `n`, and finding ends by itself (`finds_find`).
-/

namespace FiniteAutomata.DisjointSets

variable {s t u : DisjointSets} {n k x y z rx ry : Nat}

/-! ### Following parents -/

/-- The number that `k` steps to the parent lead to. -/
def climb (s : DisjointSets) : Nat → Nat → Nat
  | 0, x => x
  | k + 1, x => climb s k (s.parent x)

/-- The representative that parents lead to from `x`. -/
def root (s : DisjointSets) (x : Nat) : Nat := s.climb s.parents.size x

theorem climb_of_parent_eq (h : s.parent x = x) : ∀ k, s.climb k x = x
  | 0 => rfl
  | k + 1 => by rw [climb, h, climb_of_parent_eq h k]

theorem climb_parent (k x : Nat) : s.climb k (s.parent x) = s.parent (s.climb k x) := by
  induction k generalizing x with
  | zero => rfl
  | succ k ih => rw [climb, climb, ih]

theorem parent_setIfInBounds (hy : y < s.parents.size) (x z : Nat) :
    parent { s with parents := s.parents.setIfInBounds y x } z = if z = y then x else s.parent z := by
  rw [parent, parent, Array.getD_eq_getD_getElem?, Array.getElem?_setIfInBounds, Array.getD_eq_getD_getElem?]
  by_cases h : z = y
  · rw [if_pos h, if_pos h.symm, h, if_pos hy, Option.getD_some]
  · rw [if_neg h, if_neg (Ne.symm h)]

/-! ### Sizes grow towards the representative -/

/-- A forest on the numbers below `n` in which the size noted grows from each number to its parent. -/
structure Ranked (s : DisjointSets) (n : Nat) : Prop where
  size_parents : s.parents.size = n
  size_sizes : s.sizes.size = n
  parent_lt : ∀ x < n, s.parent x < n
  sizeOf_lt : ∀ x, s.parent x ≠ x → s.sizeOf x < s.sizeOf (s.parent x)
  sizeOf_le : ∀ x, s.sizeOf x ≤ n

namespace Ranked

theorem lt_of_parent_ne (h : s.Ranked n) (hx : s.parent x ≠ x) : x < n := by
  refine Nat.lt_of_not_le fun hn => hx ?_
  rw [parent, Array.getD_eq_getD_getElem?, Array.getElem?_eq_none (by rw [h.size_parents]; exact hn),
    Option.getD_none]

/-- As many steps as the size may still grow lead to a representative. -/
theorem parent_climb (h : s.Ranked n) (hk : n ≤ k + s.sizeOf x) : s.parent (s.climb k x) = s.climb k x := by
  induction k generalizing x with
  | zero =>
    refine Classical.byContradiction fun hne => ?_
    have hlt := h.sizeOf_lt x hne
    have hle := h.sizeOf_le (s.parent x)
    omega
  | succ k ih =>
    by_cases hx : s.parent x = x
    · rw [climb_of_parent_eq hx, hx]
    · have hlt := h.sizeOf_lt x hx
      exact ih (by omega)

theorem parent_root (h : s.Ranked n) (x : Nat) : s.parent (s.root x) = s.root x :=
  h.parent_climb (by rw [h.size_parents]; exact Nat.le_add_right _ _)

theorem root_parent (h : s.Ranked n) (x : Nat) : s.root (s.parent x) = s.root x := by
  rw [root, climb_parent]
  exact h.parent_root x

theorem root_eq_self_iff (h : s.Ranked n) : s.root x = x ↔ s.parent x = x := by
  constructor
  · intro hx
    rw [← hx]
    exact h.parent_root x
  · intro hx
    exact climb_of_parent_eq hx _

theorem root_root (h : s.Ranked n) (x : Nat) : s.root (s.root x) = s.root x :=
  climb_of_parent_eq (h.parent_root x) _

theorem climb_lt (h : s.Ranked n) (hx : x < n) : s.climb k x < n := by
  induction k generalizing x with
  | zero => exact hx
  | succ k ih => exact ih (h.parent_lt x hx)

theorem root_lt (h : s.Ranked n) (hx : x < n) : s.root x < n := h.climb_lt hx

theorem sizeOf_le_climb (h : s.Ranked n) (k x : Nat) : s.sizeOf x ≤ s.sizeOf (s.climb k x) := by
  induction k generalizing x with
  | zero => exact Nat.le_refl _
  | succ k ih =>
    refine Nat.le_trans ?_ (ih (s.parent x))
    by_cases hx : s.parent x = x
    · exact Nat.le_of_eq (congrArg s.sizeOf hx.symm)
    · exact Nat.le_of_lt (h.sizeOf_lt x hx)

theorem sizeOf_lt_root (h : s.Ranked n) (hx : s.parent x ≠ x) : s.sizeOf x < s.sizeOf (s.root x) := by
  rw [← h.root_parent]
  exact Nat.lt_of_lt_of_le (h.sizeOf_lt x hx) (h.sizeOf_le_climb _ _)

/-- A function that does not change from a number to its parent is given by what it is at representatives. -/
theorem eq_root (h : s.Ranked n) {f : Nat → Nat} (hroot : ∀ x, s.parent x = x → f x = x)
    (hparent : ∀ x, s.parent x ≠ x → f (s.parent x) = f x) (x : Nat) : f x = s.root x := by
  have hclimb : ∀ k x, f (s.climb k x) = f x := by
    intro k
    induction k with
    | zero => exact fun _ => rfl
    | succ k ih =>
      intro x
      rw [climb, ih]
      by_cases hx : s.parent x = x
      · rw [hx]
      · exact hparent x hx
  rw [← hclimb s.parents.size x]
  exact hroot _ (h.parent_root x)

end Ranked

/-! ### Shortened paths -/

/-- `t` is `s` with some numbers made children of their representatives. -/
structure Shortens (s t : DisjointSets) : Prop where
  size_parents : t.parents.size = s.parents.size
  sizes : t.sizes = s.sizes
  parent : ∀ x, t.parent x = s.parent x ∨ s.parent x ≠ x ∧ t.parent x = s.root x

namespace Shortens

theorem refl (s : DisjointSets) : Shortens s s := ⟨rfl, rfl, fun _ => Or.inl rfl⟩

theorem sizeOf_eq (h : Shortens s t) (x : Nat) : t.sizeOf x = s.sizeOf x := by rw [sizeOf, sizeOf, h.sizes]

theorem parent_eq_self_iff (h : Shortens s t) (hs : s.Ranked n) : t.parent x = x ↔ s.parent x = x := by
  rcases h.parent x with hx | ⟨hne, hx⟩
  · rw [hx]
  · refine iff_of_false (fun he => hne ?_) hne
    have hroot := hs.parent_root x
    rwa [← hx, he] at hroot

theorem ranked (h : Shortens s t) (hs : s.Ranked n) : t.Ranked n where
  size_parents := h.size_parents.trans hs.size_parents
  size_sizes := by rw [h.sizes, hs.size_sizes]
  parent_lt x hx := by
    rcases h.parent x with he | ⟨-, he⟩
    · rw [he]
      exact hs.parent_lt x hx
    · rw [he]
      exact hs.root_lt hx
  sizeOf_lt x hx := by
    rw [h.sizeOf_eq, h.sizeOf_eq]
    rcases h.parent x with he | ⟨hne, he⟩
    · rw [he] at hx ⊢
      exact hs.sizeOf_lt x hx
    · rw [he]
      exact hs.sizeOf_lt_root hne
  sizeOf_le x := by
    rw [h.sizeOf_eq]
    exact hs.sizeOf_le x

theorem root_eq (h : Shortens s t) (hs : s.Ranked n) (x : Nat) : t.root x = s.root x := by
  refine ((h.ranked hs).eq_root (fun x hx => ?_) (fun x _ => ?_) x).symm
  · exact climb_of_parent_eq ((h.parent_eq_self_iff hs).mp hx) _
  · rcases h.parent x with he | ⟨-, he⟩
    · rw [he, hs.root_parent]
    · rw [he, hs.root_root]

theorem setParent (h : Shortens s t) (hs : s.Ranked n) (hx : s.parent x ≠ x) :
    Shortens s { t with parents := t.parents.setIfInBounds x (s.root x) } where
  size_parents := Array.size_setIfInBounds.trans h.size_parents
  sizes := h.sizes
  parent z := by
    have hlt : x < t.parents.size := by
      rw [h.size_parents, hs.size_parents]
      exact hs.lt_of_parent_ne hx
    rw [parent_setIfInBounds hlt]
    split
    · rename_i hz
      rw [hz]
      exact Or.inr ⟨hx, rfl⟩
    · exact h.parent z

end Shortens

/-! ### Finding -/

/-- Finding without a bound: `Finds s x r t` if following parents from `x` ends in `r`, and making `r` the
parent of every number passed turns `s` into `t`. -/
inductive Finds : DisjointSets → Nat → Nat → DisjointSets → Prop
  | here {s : DisjointSets} {x : Nat} : s.parent x = x → Finds s x x s
  | above {s t : DisjointSets} {x r : Nat} : s.parent x ≠ x → Finds s (s.parent x) r t →
      Finds s x r { t with parents := t.parents.setIfInBounds x r }

theorem finds_compress (hs : s.Ranked n) (hk : n ≤ k + s.sizeOf x) :
    Finds s x (compress k s x).1 (compress k s x).2 := by
  induction k generalizing x with
  | zero => exact .here (hs.parent_climb (k := 0) hk)
  | succ k ih =>
    rw [compress]
    split
    · rename_i hx
      exact .here hx
    · rename_i hx
      have hlt := hs.sizeOf_lt x hx
      exact .above hx (ih (by omega))

/-- Finding ends by itself. -/
theorem finds_find (hs : s.Ranked n) (x : Nat) : Finds s x (s.find x).1 (s.find x).2 :=
  finds_compress hs (by rw [hs.size_parents]; exact Nat.le_add_right _ _)

/-- What is found is the representative, and no set changes. -/
theorem Finds.spec (h : Finds s x z t) (hs : s.Ranked n) : z = s.root x ∧ Shortens s t := by
  induction h with
  | here hx => exact ⟨(hs.root_eq_self_iff.mpr hx).symm, .refl _⟩
  | above hx _ ih =>
    obtain ⟨hr, hshort⟩ := ih
    rw [hs.root_parent] at hr
    rw [hr]
    exact ⟨rfl, hshort.setParent hs hx⟩

theorem Ranked.find_fst (hs : s.Ranked n) (x : Nat) : (s.find x).1 = s.root x := ((finds_find hs x).spec hs).1

theorem Ranked.shortens_find (hs : s.Ranked n) (x : Nat) : Shortens s (s.find x).2 := ((finds_find hs x).spec hs).2

/-! ### Sizes of sets -/

/-- The size of the set that `r` represents, counted. -/
def members (s : DisjointSets) (n r : Nat) : Nat := (List.range n).countP (s.root · == r)

/-- The number of sets among the numbers below `n`. -/
def numSets (s : DisjointSets) (n : Nat) : Nat := (List.range n).countP fun x => s.root x == x

/-- A forest in which the size noted for each representative is the size of its set. -/
structure Valid (s : DisjointSets) (n : Nat) : Prop extends s.Ranked n where
  sizeOf_root : ∀ r < n, s.root r = r → s.sizeOf r = s.members n r

theorem Shortens.valid (h : Shortens s t) (hs : s.Valid n) : t.Valid n where
  toRanked := h.ranked hs.toRanked
  sizeOf_root r hr hroot := by
    rw [h.root_eq hs.toRanked] at hroot
    rw [h.sizeOf_eq, hs.sizeOf_root r hr hroot, members, members]
    simp only [h.root_eq hs.toRanked]

theorem Valid.sizeOf_pos (h : s.Valid n) (hr : x < n) (hroot : s.root x = x) : 0 < s.sizeOf x := by
  rw [h.sizeOf_root x hr hroot, members, List.countP_pos_iff]
  exact ⟨x, List.mem_range.mpr hr, beq_iff_eq.mpr hroot⟩

/-! ### Joining two sets -/

/-- Two different representatives. -/
structure Apart (s : DisjointSets) (n x y : Nat) : Prop where
  valid : s.Valid n
  left_lt : x < n
  right_lt : y < n
  root_left : s.root x = x
  root_right : s.root y = y
  ne : x ≠ y

namespace Apart

theorem symm (h : s.Apart n x y) : s.Apart n y x :=
  ⟨h.valid, h.right_lt, h.left_lt, h.root_right, h.root_left, h.ne.symm⟩

theorem parent_attach (h : s.Apart n x y) (z : Nat) :
    (s.attach x y).parent z = if z = y then x else s.parent z :=
  parent_setIfInBounds (by rw [h.valid.size_parents]; exact h.right_lt) x z

theorem sizeOf_attach (h : s.Apart n x y) (z : Nat) :
    (s.attach x y).sizeOf z = if z = x then s.sizeOf x + s.sizeOf y else s.sizeOf z := by
  have hx : x < s.sizes.size := by
    rw [h.valid.size_sizes]
    exact h.left_lt
  rw [sizeOf, attach, Array.getD_eq_getD_getElem?, Array.getElem?_setIfInBounds]
  by_cases hz : z = x
  · rw [if_pos hz, if_pos hz.symm, if_pos hx, Option.getD_some]
  · rw [if_neg hz, if_neg (Ne.symm hz), sizeOf, Array.getD_eq_getD_getElem?]

theorem sizeOf_le_sizeOf_attach (h : s.Apart n x y) (z : Nat) : s.sizeOf z ≤ (s.attach x y).sizeOf z := by
  rw [h.sizeOf_attach]
  split
  · rename_i hz
    rw [hz]
    exact Nat.le_add_right _ _
  · exact Nat.le_refl _

theorem sizeOf_add_sizeOf (h : s.Apart n x y) : s.sizeOf x + s.sizeOf y =
    (List.range n).countP fun z => s.root z == x || s.root z == y := by
  rw [h.valid.sizeOf_root x h.left_lt h.root_left, h.valid.sizeOf_root y h.right_lt h.root_right]
  refine (countP_or fun z _ hz => ?_).symm
  rw [beq_eq_false_iff_ne, beq_iff_eq.mp hz]
  exact h.ne

theorem ranked_attach (h : s.Apart n x y) : (s.attach x y).Ranked n where
  size_parents := Array.size_setIfInBounds.trans h.valid.size_parents
  size_sizes := Array.size_setIfInBounds.trans h.valid.size_sizes
  parent_lt z hz := by
    rw [h.parent_attach]
    split
    · exact h.left_lt
    · exact h.valid.parent_lt z hz
  sizeOf_lt z hz := by
    rw [h.parent_attach] at hz ⊢
    by_cases hzy : z = y
    · have hpos := h.valid.sizeOf_pos h.left_lt h.root_left
      rw [if_pos hzy, h.sizeOf_attach, h.sizeOf_attach, if_pos rfl, hzy, if_neg h.ne.symm]
      omega
    · rw [if_neg hzy] at hz ⊢
      have hzx : z ≠ x := by
        rintro rfl
        exact hz (h.valid.root_eq_self_iff.mp h.root_left)
      rw [h.sizeOf_attach, if_neg hzx]
      exact Nat.lt_of_lt_of_le (h.valid.sizeOf_lt z hz) (h.sizeOf_le_sizeOf_attach _)
  sizeOf_le z := by
    rw [h.sizeOf_attach]
    split
    · rw [h.sizeOf_add_sizeOf]
      exact Nat.le_trans List.countP_le_length (Nat.le_of_eq List.length_range)
    · exact h.valid.sizeOf_le z

theorem root_attach (h : s.Apart n x y) (z : Nat) :
    (s.attach x y).root z = if s.root z = y then x else s.root z := by
  refine (h.ranked_attach.eq_root (f := fun z => if s.root z = y then x else s.root z) (fun z hz => ?_)
    (fun z _ => ?_) z).symm
  · rw [h.parent_attach] at hz
    by_cases hzy : z = y
    · rw [if_pos hzy] at hz
      exact absurd (hz.trans hzy) h.ne
    · rw [if_neg hzy] at hz
      rw [h.valid.root_eq_self_iff.mpr hz, if_neg hzy]
  · rw [h.parent_attach]
    by_cases hzy : z = y
    · rw [if_pos hzy, hzy, h.root_right, if_pos rfl, h.root_left, if_neg h.ne]
    · rw [if_neg hzy, h.valid.root_parent]

theorem root_attach_eq_iff (h : s.Apart n x y) {r : Nat} (hr : r ≠ y) (z : Nat) :
    (s.attach x y).root z = r ↔ s.root z = r ∨ r = x ∧ s.root z = y := by
  rw [h.root_attach]
  split
  · rename_i hz
    rw [hz]
    exact ⟨fun he => Or.inr ⟨he.symm, rfl⟩, fun he => he.elim (fun he => absurd he.symm hr) fun he => he.1.symm⟩
  · rename_i hz
    exact (or_iff_left fun he => hz he.2).symm

theorem valid_attach (h : s.Apart n x y) : (s.attach x y).Valid n where
  toRanked := h.ranked_attach
  sizeOf_root r hr hroot := by
    have hry : r ≠ y := by
      rintro rfl
      rw [h.root_attach, h.root_right, if_pos rfl] at hroot
      exact h.ne hroot
    rw [h.sizeOf_attach, members]
    split
    · rename_i hrx
      rw [h.sizeOf_add_sizeOf]
      refine List.countP_congr fun z _ => ?_
      rw [Bool.or_eq_true, beq_iff_eq, beq_iff_eq, beq_iff_eq, h.root_attach_eq_iff hry, hrx]
      exact or_congr_right (and_iff_right rfl).symm
    · rename_i hrx
      have hself : s.root r = r := ((h.root_attach_eq_iff hry r).mp hroot).resolve_right fun he => hrx he.1
      rw [h.valid.sizeOf_root r hr hself, members]
      refine List.countP_congr fun z _ => ?_
      rw [beq_iff_eq, beq_iff_eq, h.root_attach_eq_iff hry]
      exact (or_iff_left fun he => hrx he.1).symm

theorem numSets_attach_lt (h : s.Apart n x y) : (s.attach x y).numSets n < s.numSets n := by
  refine countP_lt_countP (a := y) (fun z _ hz => ?_) (List.mem_range.mpr h.right_lt)
    (beq_iff_eq.mpr h.root_right) ?_
  · rw [beq_iff_eq, h.root_attach] at hz
    rw [beq_iff_eq]
    split at hz
    · rw [← hz, h.root_left]
    · exact hz
  · rw [beq_eq_false_iff_ne, h.root_attach, h.root_right, if_pos rfl]
    exact h.ne

/-- Two numbers end in one set if they were in one before, or each in one of the two sets joined. -/
theorem root_attach_eq_root_attach_iff (h : s.Apart n x y) (u v : Nat) :
    (s.attach x y).root u = (s.attach x y).root v ↔
      s.root u = s.root v ∨ s.root u = x ∧ s.root v = y ∨ s.root u = y ∧ s.root v = x := by
  rw [h.root_attach, h.root_attach]
  split
  · rename_i hu
    rw [hu]
    split
    · rename_i hv
      exact iff_of_true rfl (Or.inl hv.symm)
    · rename_i hv
      constructor
      · intro he
        exact Or.inr (Or.inr ⟨rfl, he.symm⟩)
      · intro h'
        rcases h' with he | ⟨-, he⟩ | ⟨-, he⟩
        · exact absurd he.symm hv
        · exact absurd he hv
        · exact he.symm
  · rename_i hu
    split
    · rename_i hv
      rw [hv]
      constructor
      · intro he
        exact Or.inr (Or.inl ⟨he, rfl⟩)
      · intro h'
        rcases h' with he | ⟨he, -⟩ | ⟨he, -⟩
        · exact absurd he hu
        · exact he
        · exact absurd he hu
    · rename_i hv
      refine (or_iff_left ?_).symm
      intro h'
      rcases h' with ⟨-, he⟩ | ⟨he, -⟩
      · exact hv he
      · exact hu he

end Apart

/-! ### Union -/

/-- `u` and `v` are in one set. -/
def Same (s : DisjointSets) (u v : Nat) : Prop := s.root u = s.root v

/-- Union without a bound: both representatives are found, and unless they are the same, the one of the
smaller set becomes a child of the other. -/
inductive Unites (s : DisjointSets) (x y : Nat) : Bool → DisjointSets → Prop
  | same {t u : DisjointSets} {r : Nat} : Finds s x r t → Finds t y r u → Unites s x y false u
  | leftUnder {t u : DisjointSets} {rx ry : Nat} : Finds s x rx t → Finds t y ry u → rx ≠ ry →
      u.sizeOf rx < u.sizeOf ry → Unites s x y true (u.attach ry rx)
  | rightUnder {t u : DisjointSets} {rx ry : Nat} : Finds s x rx t → Finds t y ry u → rx ≠ ry →
      ¬u.sizeOf rx < u.sizeOf ry → Unites s x y true (u.attach rx ry)

theorem unites_union (hs : s.Ranked n) (x y : Nat) : Unites s x y (s.union x y).1 (s.union x y).2 := by
  have hx := finds_find hs x
  have hy := finds_find ((hs.shortens_find x).ranked hs) y
  unfold union
  dsimp only
  split
  · rename_i he
    rw [← he] at hy
    exact .same hx hy
  · rename_i hne
    split
    · rename_i hlt
      exact .leftUnder hx hy hne hlt
    · rename_i hlt
      exact .rightUnder hx hy hne hlt

/-- What the union of `x` and `y` does to the sets. -/
structure Joins (s t : DisjointSets) (n x y : Nat) (joined : Bool) : Prop where
  valid : t.Valid n
  joined_iff : joined = true ↔ ¬s.Same x y
  numSets_le : t.numSets n + joined.toNat ≤ s.numSets n
  same_iff : ∀ u v, t.Same u v ↔ s.Same u v ∨ s.Same u x ∧ s.Same y v ∨ s.Same u y ∧ s.Same x v

theorem Joins.symm {b : Bool} (h : Joins s t n x y b) : Joins s t n y x b where
  valid := h.valid
  joined_iff := h.joined_iff.trans (not_congr eq_comm)
  numSets_le := h.numSets_le
  same_iff u v := (h.same_iff u v).trans (or_congr_right or_comm)

theorem numSets_congr (h : ∀ z, t.root z = s.root z) : t.numSets n = s.numSets n := by
  rw [numSets, numSets]
  simp only [h]

theorem Apart.joins (h : t.Apart n (s.root x) (s.root y)) (hroot : ∀ z, t.root z = s.root z) :
    Joins s (t.attach (s.root x) (s.root y)) n x y true where
  valid := h.valid_attach
  joined_iff := iff_of_true rfl h.ne
  numSets_le := by
    rw [← numSets_congr hroot]
    exact h.numSets_attach_lt
  same_iff u v := by
    rw [Same, h.root_attach_eq_root_attach_iff, hroot, hroot]
    exact or_congr_right (or_congr (and_congr_right fun _ => eq_comm) (and_congr_right fun _ => eq_comm))

theorem Finds.spec₂ (hs : s.Valid n) (hx : Finds s x rx t) (hy : Finds t y ry u) :
    rx = s.root x ∧ ry = s.root y ∧ u.Valid n ∧ ∀ z, u.root z = s.root z := by
  obtain ⟨hrx, hst⟩ := hx.spec hs.toRanked
  obtain ⟨hry, htu⟩ := hy.spec (hst.ranked hs.toRanked)
  have hroot := hst.root_eq hs.toRanked
  rw [hroot] at hry
  exact ⟨hrx, hry, htu.valid (hst.valid hs), fun z => (htu.root_eq (hst.ranked hs.toRanked) z).trans (hroot z)⟩

theorem Unites.joins {b : Bool} (h : Unites s x y b t) (hs : s.Valid n) (hx : x < n) (hy : y < n) :
    Joins s t n x y b := by
  have apart : ∀ {u : DisjointSets}, u.Valid n → (∀ z, u.root z = s.root z) → s.root x ≠ s.root y →
      u.Apart n (s.root x) (s.root y) := by
    intro u hu hroot hne
    have hself : ∀ z, u.root (s.root z) = s.root z := fun z => (hroot _).trans (hs.root_root z)
    exact ⟨hu, hs.root_lt hx, hs.root_lt hy, hself x, hself y, hne⟩
  cases h with
  | same hfx hfy =>
    obtain ⟨hrx, hry, ht, hroot⟩ := Finds.spec₂ hs hfx hfy
    have he : s.root x = s.root y := hrx.symm.trans hry
    refine ⟨ht, iff_of_false Bool.false_ne_true (not_not_intro he), Nat.le_of_eq (numSets_congr hroot), ?_⟩
    intro u v
    rw [Same, hroot, hroot]
    refine (or_iff_left_of_imp ?_).symm
    intro h'
    rcases h' with ⟨hux, hyv⟩ | ⟨huy, hxv⟩
    · exact hux.trans (he.trans hyv)
    · exact huy.trans (he.symm.trans hxv)
  | leftUnder hfx hfy hne =>
    obtain ⟨rfl, rfl, hu, hroot⟩ := Finds.spec₂ hs hfx hfy
    exact ((apart hu hroot hne).symm.joins hroot).symm
  | rightUnder hfx hfy hne =>
    obtain ⟨rfl, rfl, hu, hroot⟩ := Finds.spec₂ hs hfx hfy
    exact (apart hu hroot hne).joins hroot

/-! ### Sets of one -/

theorem parent_discrete (n x : Nat) : (discrete n).parent x = x := by
  rw [parent, discrete, Array.getD_eq_getD_getElem?]
  by_cases h : x < n
  · rw [Array.getElem?_eq_getElem (by rw [Array.size_range]; exact h), Array.getElem_range, Option.getD_some]
  · rw [Array.getElem?_eq_none (by rw [Array.size_range]; exact Nat.le_of_not_lt h), Option.getD_none]

theorem root_discrete (n x : Nat) : (discrete n).root x = x := climb_of_parent_eq (parent_discrete n x) _

theorem same_discrete_iff : (discrete n).Same x y ↔ x = y := by rw [Same, root_discrete, root_discrete]

theorem valid_discrete (n : Nat) : (discrete n).Valid n where
  size_parents := Array.size_range
  size_sizes := Array.size_replicate
  parent_lt x hx := by
    rw [parent_discrete]
    exact hx
  sizeOf_lt x hx := absurd (parent_discrete n x) hx
  sizeOf_le x := by
    rw [sizeOf, discrete, Array.getD_eq_getD_getElem?, Array.getElem?_replicate]
    split
    · rename_i hx
      exact Nat.le_trans (Nat.succ_le_succ (Nat.zero_le x)) hx
    · exact Nat.zero_le n
  sizeOf_root r hr _ := by
    have hcount : (List.range n).count r = 1 := by rw [List.count_range, if_pos hr]
    rw [members]
    simp only [root_discrete]
    rw [sizeOf, discrete, Array.getD_eq_getD_getElem?, Array.getElem?_replicate, if_pos hr, Option.getD_some]
    exact hcount.symm

theorem numSets_discrete (n : Nat) : (discrete n).numSets n = n := by
  rw [numSets, List.countP_eq_length.mpr, List.length_range]
  intro x _
  rw [beq_iff_eq]
  exact root_discrete n x

end FiniteAutomata.DisjointSets
