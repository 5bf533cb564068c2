/-!
Counting the members of a list that have a property, for the measures by which searches end.
-/

namespace FiniteAutomata

/-- A property that holds of fewer members holds of strictly fewer if it fails of a member that had it. -/
theorem countP_lt_countP {α : Type} {p q : α → Bool} {a : α} :
    ∀ {l : List α}, (∀ x ∈ l, p x = true → q x = true) → a ∈ l → q a = true → p a = false →
      l.countP p < l.countP q
  | b :: l, himp, ha, hq, hp => by
    have htail : l.countP p ≤ l.countP q :=
      List.countP_mono_left fun x hx => himp x (List.mem_cons_of_mem _ hx)
    rw [List.countP_cons, List.countP_cons]
    rcases List.mem_cons.mp ha with rfl | ha
    · simp only [hp, hq, Bool.false_eq_true, if_false, if_true]
      omega
    · have ih := countP_lt_countP (fun x hx => himp x (List.mem_cons_of_mem _ hx)) ha hq hp
      by_cases hb : p b = true
      · simp only [hb, himp b List.mem_cons_self hb, if_true]
        omega
      · simp only [hb, Bool.false_eq_true, if_false]
        omega

theorem countP_or {α : Type} {p q : α → Bool} {l : List α} (h : ∀ x ∈ l, p x = true → q x = false) :
    l.countP (fun x => p x || q x) = l.countP p + l.countP q := by
  induction l with
  | nil => rfl
  | cons x l ih =>
    have hx := h x List.mem_cons_self
    rw [List.countP_cons, List.countP_cons, List.countP_cons, ih fun y hy => h y (List.mem_cons_of_mem x hy)]
    cases hp : p x with
    | true =>
      simp only [hx hp, Bool.or_false, if_true, Bool.false_eq_true, if_false]
      omega
    | false =>
      simp only [Bool.false_or, Bool.false_eq_true, if_false]
      omega

end FiniteAutomata
