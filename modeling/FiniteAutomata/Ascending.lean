/-!
Strictly ascending lists: the canonical form of a finite set over an ordered type, and the order in
which names are shown. Inserting keeps a list ascending and adds one member; a list sorted without
repetition has the members of the list it was made from, and two ascending lists with the same
members are equal.
-/

namespace FiniteAutomata

/-- What comes strictly before is different. -/
theorem ne_of_compare_lt {α : Type} [Ord α] [Std.ReflOrd α] {a b : α} (h : compare a b = .lt) : a ≠ b := by
  rintro rfl
  rw [Std.ReflOrd.compare_self (α := α)] at h
  cases h

/-- Two lists in the order of one strict relation are equal if they have the same members. -/
theorem eq_of_pairwise_of_mem_iff {α : Type} {r : α → α → Prop} (irrefl : ∀ a, ¬r a a)
    (trans : ∀ a b c, r a b → r b c → r a c) : ∀ {l m : List α}, l.Pairwise r → m.Pairwise r →
      (∀ x, x ∈ l ↔ x ∈ m) → l = m
  | [], [], _, _, _ => rfl
  | [], b :: _, _, _, h => absurd ((h b).mpr List.mem_cons_self) List.not_mem_nil
  | a :: _, [], _, _, h => absurd ((h a).mp List.mem_cons_self) List.not_mem_nil
  | a :: l, b :: m, hl, hm, h => by
    obtain ⟨ha, hl'⟩ := List.pairwise_cons.mp hl
    obtain ⟨hb, hm'⟩ := List.pairwise_cons.mp hm
    have hne {x y : α} (hxy : r x y) : y ≠ x := fun he => irrefl x (he ▸ hxy)
    have hab : a = b := by
      rcases List.mem_cons.mp ((h a).mp List.mem_cons_self) with hab | ham
      · exact hab
      · rcases List.mem_cons.mp ((h b).mpr List.mem_cons_self) with hba | hbl
        · exact hba.symm
        · exact (irrefl a (trans a b a (ha b hbl) (hb a ham))).elim
    subst hab
    refine congrArg (a :: ·) (eq_of_pairwise_of_mem_iff irrefl trans hl' hm' fun x =>
      ⟨fun hx => ?_, fun hx => ?_⟩)
    · exact (List.mem_cons.mp ((h x).mp (List.mem_cons_of_mem _ hx))).resolve_left (hne (ha x hx))
    · exact (List.mem_cons.mp ((h x).mpr (List.mem_cons_of_mem _ hx))).resolve_left (hne (hb x hx))

/-- Each element comes strictly before all later ones. -/
def Ascending {α : Type} [Ord α] (l : List α) : Prop := l.Pairwise fun a b => compare a b = .lt

namespace Ascending

variable {α : Type} [Ord α]

/-- Puts `a` at its place in an ascending list, unless the list holds it already. -/
def insert (a : α) : List α → List α
  | [] => [a]
  | b :: l =>
    match compare a b with
    | .lt => a :: b :: l
    | .eq => b :: l
    | .gt => b :: insert a l

/-- The members of a list, each once, in ascending order. -/
def ofList (l : List α) : List α := l.foldr insert []

/-! ### Members -/

theorem mem_insert [Std.LawfulEqOrd α] {a x : α} : ∀ {l : List α}, x ∈ insert a l ↔ x = a ∨ x ∈ l
  | [] => by simp [insert]
  | b :: l => by
    unfold insert
    split
    · simp
    · rename_i h
      have hab : a = b := Std.LawfulEqOrd.eq_of_compare h
      simp [hab]
    · simp [mem_insert (l := l), or_left_comm]

@[simp] theorem mem_ofList [Std.LawfulEqOrd α] {x : α} : ∀ {l : List α}, x ∈ ofList l ↔ x ∈ l
  | [] => by simp [ofList]
  | a :: l => by
    have ih : x ∈ ofList l ↔ x ∈ l := mem_ofList
    rw [ofList, List.foldr_cons, mem_insert, List.mem_cons]
    exact or_congr_right ih

/-! ### Order -/

theorem insert_ascending [Std.TransOrd α] [Std.LawfulEqOrd α] {a : α} :
    ∀ {l : List α}, Ascending l → Ascending (insert a l)
  | [], _ => List.pairwise_singleton _ _
  | b :: l, h => by
    obtain ⟨hb, hl⟩ := List.pairwise_cons.mp h
    unfold insert
    split
    · rename_i hab
      refine List.pairwise_cons.mpr ⟨fun x hx => ?_, h⟩
      rcases List.mem_cons.mp hx with rfl | hx
      · exact hab
      · exact Std.TransCmp.lt_trans hab (hb x hx)
    · exact h
    · rename_i hab
      refine List.pairwise_cons.mpr ⟨fun x hx => ?_, insert_ascending hl⟩
      rcases mem_insert.mp hx with rfl | hx
      · exact Std.OrientedCmp.lt_of_gt hab
      · exact hb x hx

theorem ofList_ascending [Std.TransOrd α] [Std.LawfulEqOrd α] : ∀ l : List α, Ascending (ofList l)
  | [] => List.Pairwise.nil
  | _ :: l => insert_ascending (ofList_ascending l)

/-- An ascending list is determined by its members. -/
theorem ext [Std.TransOrd α] {l m : List α} (hl : Ascending l) (hm : Ascending m) (h : ∀ x, x ∈ l ↔ x ∈ m) :
    l = m :=
  eq_of_pairwise_of_mem_iff (fun _ ha => ne_of_compare_lt ha rfl) (fun _ _ _ => Std.TransCmp.lt_trans) hl hm h

end Ascending

end FiniteAutomata
