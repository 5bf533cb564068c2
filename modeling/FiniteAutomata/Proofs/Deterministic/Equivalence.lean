import Mathlib.Logic.Relation
import FiniteAutomata.Deterministic.Equivalence
import FiniteAutomata.Proofs.Automaton.Edits
import FiniteAutomata.Proofs.Deterministic.Walk
import FiniteAutomata.Proofs.DisjointSets

/-!
The equivalence test ends by itself and is exact (`isEquivalentTo_decides`).

Only pairs that join two sets are looked at, so the states of one set are not all compared with each other.
What is known of them is that pairs link them each of which was looked at or is still to be (`Explored.linked`).
When no pair is left, acceptance and steps agree along every link, hence within every set, and the start
states are in one. Conversely each pair to be looked at is where one word leads from the two start states, so
a pair that disagrees on acceptance shows a word that one automaton accepts and the other does not.
-/

namespace FiniteAutomata.SideBySide

open Relation (EqvGen)

variable {P : SideBySide} {i j u v : Nat} {a : Symbol} {w : List Symbol}

/-! ### The row of states -/

/-- Both automata are well formed. -/
structure WellFormed (P : SideBySide) : Prop where
  left : P.left.automaton.WellFormed
  right : P.right.automaton.WellFormed

/-- The state after `i` on a word. -/
def after (P : SideBySide) (i : Nat) (w : List Symbol) : Nat := w.foldl P.next i

theorem after_append (i : Nat) (v w : List Symbol) : P.after i (v ++ w) = P.after (P.after i v) w :=
  List.foldl_append

theorem lt_offset_iff : i < P.offset ↔ i ≤ P.left.dead := Nat.lt_succ_iff

theorem next_left (hi : i ≤ P.left.dead) (a : Symbol) : P.next i a = P.left.next i a :=
  if_pos (lt_offset_iff.mpr hi)

theorem next_right (i : Nat) (a : Symbol) : P.next (P.offset + i) a = P.offset + P.right.next i a := by
  rw [next, if_neg (Nat.not_lt.mpr (Nat.le_add_right _ _)), Nat.add_sub_cancel_left]

theorem next_lt_size (hP : P.WellFormed) (i : Nat) (a : Symbol) : P.next i a < P.size := by
  rw [next, size]
  split
  · have hle := Deterministic.next_le hP.left i a
    have ho : P.offset = P.left.dead + 1 := rfl
    omega
  · have hle := Deterministic.next_le hP.right (i - P.offset) a
    omega

theorem after_left (hP : P.WellFormed) (hi : i ≤ P.left.dead) (w : List Symbol) :
    P.after i w = P.left.after i w := by
  induction w generalizing i with
  | nil => rfl
  | cons a w ih =>
    rw [after, List.foldl_cons, next_left hi]
    exact ih (Deterministic.next_le hP.left i a)

theorem after_right (i : Nat) (w : List Symbol) : P.after (P.offset + i) w = P.offset + P.right.after i w := by
  induction w generalizing i with
  | nil => rfl
  | cons a w ih =>
    rw [after, List.foldl_cons, next_right]
    exact ih (P.right.next i a)

theorem accepting_left (hP : P.WellFormed) (hi : i ≤ P.left.dead) :
    P.accepting i = true ↔ i ∈ P.left.finals := by
  rw [accepting, if_pos (lt_offset_iff.mpr hi), Bool.and_eq_true, bne_iff_ne]
  refine and_iff_right_of_imp ?_
  rintro hf rfl
  exact Deterministic.dead_not_mem_finals hP.left hf

theorem accepting_right (hP : P.WellFormed) (i : Nat) :
    P.accepting (P.offset + i) = true ↔ i ∈ P.right.finals := by
  rw [accepting, if_neg (Nat.not_lt.mpr (Nat.le_add_right _ _)), Nat.add_sub_cancel_left, Bool.and_eq_true,
    bne_iff_ne]
  refine and_iff_right_of_imp ?_
  rintro hf rfl
  exact Deterministic.dead_not_mem_finals hP.right hf

theorem roots_lt_size (hP : P.WellFormed) : P.roots.1 < P.size ∧ P.roots.2 < P.size := by
  have hl : P.roots.1 ≤ P.left.dead := Deterministic.entry_le hP.left
  have hr : P.roots.2 ≤ P.offset + P.right.dead := Nat.add_le_add_left (Deterministic.entry_le hP.right) _
  have ho : P.offset = P.left.dead + 1 := rfl
  rw [size]
  omega

theorem accepts_left_iff (hP : P.WellFormed) (ls : List Label) :
    P.left.accepts ls = P.accepting (P.after P.roots.1 (Label.spelled ls)) := by
  have he : P.left.entry ≤ P.left.dead := Deterministic.entry_le hP.left
  rw [Bool.eq_iff_iff, Deterministic.accepts_iff hP.left, show P.roots.1 = P.left.entry from rfl,
    after_left hP he, accepting_left hP (Deterministic.after_le hP.left he _)]

theorem accepts_right_iff (hP : P.WellFormed) (ls : List Label) :
    P.right.accepts ls = P.accepting (P.after P.roots.2 (Label.spelled ls)) := by
  rw [Bool.eq_iff_iff, Deterministic.accepts_iff hP.right,
    show P.roots.2 = P.offset + P.right.entry from rfl, after_right, accepting_right hP]

/-- No word goes on to be accepted after a symbol that neither automaton knows. -/
theorem accepting_after_cons_of_not_mem (hP : P.WellFormed) (ha : a ∉ P.symbols) (i : Nat) (w : List Symbol) :
    P.accepting (P.after i (a :: w)) = false := by
  rw [symbols, Symbol.mem_join, not_or] at ha
  rw [← Bool.not_eq_true]
  rcases Nat.lt_or_ge i P.offset with hi | hi
  · rw [lt_offset_iff] at hi
    rw [after_left hP hi, accepting_left hP (Deterministic.after_le hP.left hi _), Deterministic.after_cons,
      Deterministic.next_of_not_mem_symbols hP.left ha.1]
    exact Deterministic.after_dead_not_mem_finals hP.left w
  · obtain ⟨k, rfl⟩ := Nat.exists_eq_add_of_le hi
    rw [after_right, accepting_right hP, Deterministic.after_cons,
      Deterministic.next_of_not_mem_symbols hP.right ha.2]
    exact Deterministic.after_dead_not_mem_finals hP.right w

/-! ### The loop without bounds -/

/-- Joining on each of some symbols what it leads to from `i` and from `j`; pairs that were apart are put in
front of the pairs to look at. -/
inductive JoinsAll (P : SideBySide) (i j : Nat) : List Symbol → DisjointSets × List (Nat × Nat) →
    DisjointSets × List (Nat × Nat) → Prop
  | nil {work : DisjointSets × List (Nat × Nat)} : JoinsAll P i j [] work work
  | cons {a : Symbol} {as : List Symbol} {work done : DisjointSets × List (Nat × Nat)} {joined : Bool}
      {sets : DisjointSets} : work.1.Unites (P.next i a) (P.next j a) joined sets →
      JoinsAll P i j as (sets, if joined then (P.next i a, P.next j a) :: work.2 else work.2) done →
      JoinsAll P i j (a :: as) work done

/-- Looking at pairs until none is left or one tells the automata apart, however many there are. -/
inductive Decides (P : SideBySide) : DisjointSets × List (Nat × Nat) → Bool → Prop
  | done {sets : DisjointSets} : Decides P (sets, []) true
  | differ {sets : DisjointSets} {i j : Nat} {pairs : List (Nat × Nat)} : P.accepting i ≠ P.accepting j →
      Decides P (sets, (i, j) :: pairs) false
  | look {sets : DisjointSets} {i j : Nat} {pairs : List (Nat × Nat)} {b : Bool}
      {work : DisjointSets × List (Nat × Nat)} : P.accepting i = P.accepting j →
      JoinsAll P i j P.symbols (sets, pairs) work → Decides P work b → Decides P (sets, (i, j) :: pairs) b

/-- The whole test, from joining the two start states on, without a bound on any search in it. -/
def Answers (P : SideBySide) (b : Bool) : Prop := ∃ joined sets,
  (DisjointSets.discrete P.size).Unites P.roots.1 P.roots.2 joined sets ∧ Decides P (sets, [P.roots]) b

/-- What joining on some symbols does to the work. -/
structure Grows (P : SideBySide) (i j : Nat) (as : List Symbol) (work work' : DisjointSets × List (Nat × Nat)) :
    Prop where
  valid : work'.1.Valid P.size
  same : ∀ u v, work.1.Same u v → work'.1.Same u v
  subset : ∀ p ∈ work.2, p ∈ work'.2
  origin : ∀ p ∈ work'.2, p ∈ work.2 ∨ ∃ a, p = (P.next i a, P.next j a)
  joined : ∀ a ∈ as, work'.1.Same (P.next i a) (P.next j a)
  linked : ∀ u v, work'.1.Same u v → EqvGen (fun u v => work.1.Same u v ∨ (u, v) ∈ work'.2) u v
  measure_le : work'.2.length + work'.1.numSets P.size ≤ work.2.length + work.1.numSets P.size

theorem eqvGen_bind {r s : Nat → Nat → Prop} (h : ∀ u v, r u v → EqvGen s u v) (huv : EqvGen r u v) :
    EqvGen s u v := (EqvGen.is_equivalence s).eqvGen_iff.mp (huv.mono h)

theorem Grows.refl {work : DisjointSets × List (Nat × Nat)} (h : work.1.Valid P.size) :
    Grows P i j [] work work where
  valid := h
  same _ _ hs := hs
  subset _ hp := hp
  origin _ hp := Or.inl hp
  joined _ ha := absurd ha List.not_mem_nil
  linked _ _ hs := .rel _ _ (Or.inl hs)
  measure_le := Nat.le_refl _

theorem Grows.trans {as bs : List Symbol} {work work' work'' : DisjointSets × List (Nat × Nat)}
    (h : Grows P i j as work work') (h' : Grows P i j bs work' work'') :
    Grows P i j (as ++ bs) work work'' where
  valid := h'.valid
  same u v hs := h'.same u v (h.same u v hs)
  subset p hp := h'.subset p (h.subset p hp)
  origin p hp := (h'.origin p hp).elim (h.origin p) Or.inr
  joined a ha := (List.mem_append.mp ha).elim (fun ha => h'.same _ _ (h.joined a ha)) (h'.joined a)
  linked u v hs := by
    refine eqvGen_bind (fun x y hxy => ?_) (h'.linked u v hs)
    rcases hxy with hxy | hxy
    · exact (h.linked x y hxy).mono fun _ _ => Or.imp_right (h'.subset _)
    · exact .rel _ _ (Or.inr hxy)
  measure_le := Nat.le_trans h'.measure_le h.measure_le

theorem grows_of_unites (hP : P.WellFormed) {work : DisjointSets × List (Nat × Nat)} {joined : Bool}
    {sets : DisjointSets} (hv : work.1.Valid P.size)
    (hu : work.1.Unites (P.next i a) (P.next j a) joined sets) :
    Grows P i j [a] work (sets, if joined then (P.next i a, P.next j a) :: work.2 else work.2) := by
  have hj := hu.joins hv (next_lt_size hP i a) (next_lt_size hP j a)
  have hpair : EqvGen (fun u v => work.1.Same u v ∨
      (u, v) ∈ if joined then (P.next i a, P.next j a) :: work.2 else work.2) (P.next i a) (P.next j a) := by
    cases joined with
    | true => exact .rel _ _ (Or.inr List.mem_cons_self)
    | false =>
      have hs := Classical.not_not.mp (mt hj.joined_iff.mpr Bool.false_ne_true)
      exact .rel _ _ (Or.inl hs)
  refine {
    valid := hj.valid
    same := fun u v hs => (hj.same_iff u v).mpr (Or.inl hs)
    subset := fun p hp => ?_
    origin := fun p hp => ?_
    joined := fun b hb => ?_
    linked := fun u v hs => ?_
    measure_le := ?_ }
  · cases joined with
    | true => exact List.mem_cons_of_mem _ hp
    | false => exact hp
  · cases joined with
    | true => exact (List.mem_cons.mp hp).elim (fun he => Or.inr ⟨a, he⟩) Or.inl
    | false => exact Or.inl hp
  · rw [List.mem_singleton.mp hb]
    exact (hj.same_iff _ _).mpr (Or.inr (Or.inl ⟨rfl, rfl⟩))
  · rcases (hj.same_iff u v).mp hs with hs | ⟨hux, hyv⟩ | ⟨huy, hxv⟩
    · exact .rel _ _ (Or.inl hs)
    · exact .trans _ _ _ (.rel _ _ (Or.inl hux)) (.trans _ _ _ hpair (.rel _ _ (Or.inl hyv)))
    · exact .trans _ _ _ (.rel _ _ (Or.inl huy)) (.trans _ _ _ hpair.symm (.rel _ _ (Or.inl hxv)))
  · have hle := hj.numSets_le
    cases joined with
    | true =>
      rw [Bool.toNat_true] at hle
      dsimp only
      rw [if_pos rfl, List.length_cons]
      omega
    | false =>
      rw [Bool.toNat_false] at hle
      exact Nat.add_le_add_left hle _

theorem JoinsAll.grows (hP : P.WellFormed) {as : List Symbol} {work work' : DisjointSets × List (Nat × Nat)}
    (h : JoinsAll P i j as work work') (hv : work.1.Valid P.size) : Grows P i j as work work' := by
  induction h with
  | nil => exact .refl hv
  | cons hu _ ih =>
    have hone := grows_of_unites hP hv hu
    exact hone.trans (ih hone.valid)

theorem joinsAll_foldl (hP : P.WellFormed) (as : List Symbol) {work : DisjointSets × List (Nat × Nat)}
    (hv : work.1.Valid P.size) : JoinsAll P i j as work (as.foldl (P.joinOn i j) work) := by
  induction as generalizing work with
  | nil => exact .nil
  | cons a as ih =>
    have hu := DisjointSets.unites_union hv.toRanked (P.next i a) (P.next j a)
    exact .cons hu (ih (grows_of_unites hP hv hu).valid)

/-! ### What the loop knows -/

/-- Two states agree on acceptance, and each symbol leads to one set from both. -/
structure Agree (P : SideBySide) (sets : DisjointSets) (u v : Nat) : Prop where
  accepting : P.accepting u = P.accepting v
  next : ∀ a ∈ P.symbols, sets.Same (P.next u a) (P.next v a)

/-- The invariant of the loop. -/
structure Explored (P : SideBySide) (work : DisjointSets × List (Nat × Nat)) : Prop where
  valid : work.1.Valid P.size
  led : ∀ p ∈ work.2, ∃ w, p = (P.after P.roots.1 w, P.after P.roots.2 w)
  same_roots : work.1.Same P.roots.1 P.roots.2
  linked : ∀ u v, work.1.Same u v → EqvGen (fun u v => P.Agree work.1 u v ∨ (u, v) ∈ work.2) u v

theorem Explored.look {sets : DisjointSets} {pairs : List (Nat × Nat)} {work : DisjointSets × List (Nat × Nat)}
    (h : Explored P (sets, (i, j) :: pairs)) (hacc : P.accepting i = P.accepting j)
    (hg : Grows P i j P.symbols (sets, pairs) work) : Explored P work where
  valid := hg.valid
  led p hp := by
    rcases hg.origin p hp with hp | ⟨a, rfl⟩
    · exact h.led p (List.mem_cons_of_mem _ hp)
    · obtain ⟨w, hw⟩ := h.led (i, j) List.mem_cons_self
      rw [Prod.mk.injEq] at hw
      refine ⟨w ++ [a], ?_⟩
      rw [after_append, after_append, ← hw.1, ← hw.2]
      rfl
  same_roots := hg.same _ _ h.same_roots
  linked u v hs := by
    refine eqvGen_bind (fun x y hxy => ?_) (hg.linked u v hs)
    rcases hxy with hxy | hxy
    · refine (h.linked x y hxy).mono fun x y hxy => ?_
      rcases hxy with hxy | hxy
      · exact Or.inl ⟨hxy.accepting, fun a ha => hg.same _ _ (hxy.next a ha)⟩
      · rcases List.mem_cons.mp hxy with he | hp
        · rw [Prod.mk.injEq] at he
          rw [he.1, he.2]
          exact Or.inl ⟨hacc, hg.joined⟩
        · exact Or.inr (hg.subset _ hp)
    · exact .rel _ _ (Or.inr hxy)

theorem Explored.agree {sets : DisjointSets} (h : Explored P (sets, [])) (hs : sets.Same u v) :
    P.Agree sets u v := by
  have hequiv : Equivalence (P.Agree sets) := {
    refl := fun _ => ⟨rfl, fun _ _ => rfl⟩
    symm := fun h => ⟨h.accepting.symm, fun a ha => (h.next a ha).symm⟩
    trans := fun h h' => ⟨h.accepting.trans h'.accepting, fun a ha => (h.next a ha).trans (h'.next a ha)⟩ }
  refine hequiv.eqvGen_iff.mp ((h.linked u v hs).mono fun _ _ hxy => ?_)
  exact hxy.resolve_right List.not_mem_nil

/-- When no pair is left, the same words are accepted from states of one set. -/
theorem Explored.accepting_after (hP : P.WellFormed) {sets : DisjointSets} (h : Explored P (sets, []))
    (hs : sets.Same u v) (w : List Symbol) : P.accepting (P.after u w) = P.accepting (P.after v w) := by
  induction w generalizing u v with
  | nil => exact (h.agree hs).accepting
  | cons a w ih =>
    by_cases ha : a ∈ P.symbols
    · exact ih ((h.agree hs).next a ha)
    · rw [accepting_after_cons_of_not_mem hP ha, accepting_after_cons_of_not_mem hP ha]

/-- The answer of the loop is right. -/
theorem Decides.correct (hP : P.WellFormed) {work : DisjointSets × List (Nat × Nat)} {b : Bool}
    (h : Decides P work b) (he : Explored P work) :
    b = true ↔ ∀ w, P.accepting (P.after P.roots.1 w) = P.accepting (P.after P.roots.2 w) := by
  induction h with
  | done => exact iff_of_true rfl (he.accepting_after hP he.same_roots)
  | @differ sets i j pairs hne =>
    obtain ⟨w, hw⟩ := he.led (i, j) List.mem_cons_self
    rw [Prod.mk.injEq] at hw
    rw [hw.1, hw.2] at hne
    exact iff_of_false Bool.false_ne_true fun hall => hne (hall w)
  | look hacc hj _ ih => exact ih (he.look hacc (hj.grows hP he.valid))

/-- Each round takes a pair away, and pairs are added only for sets joined: so the loop ends before its fuel
does. -/
theorem decides_agree (hP : P.WellFormed) {fuel : Nat} {sets : DisjointSets} {pairs : List (Nat × Nat)}
    (hv : sets.Valid P.size) (hfuel : pairs.length + sets.numSets P.size ≤ fuel) :
    Decides P (sets, pairs) (P.agree fuel sets pairs) := by
  induction fuel generalizing sets pairs with
  | zero =>
    have hnil : pairs = [] := List.eq_nil_of_length_eq_zero (by omega)
    rw [hnil]
    exact .done
  | succ fuel ih =>
    match pairs with
    | [] => exact .done
    | (i, j) :: pairs =>
      rw [agree]
      split
      · rename_i hne
        exact .differ (bne_iff_ne.mp hne)
      · rename_i hacc
        rw [bne_iff_ne, Classical.not_not] at hacc
        have hj : JoinsAll P i j P.symbols (sets, pairs) (P.symbols.foldl (P.joinOn i j) (sets, pairs)) :=
          joinsAll_foldl hP P.symbols hv
        have hg := hj.grows hP hv
        have hle : _ ≤ pairs.length + sets.numSets P.size := hg.measure_le
        rw [List.length_cons] at hfuel
        exact .look hacc hj (ih hg.valid (by omega))

/-! ### From the start states -/

theorem joins_roots (hP : P.WellFormed) {joined : Bool} {sets : DisjointSets}
    (h : (DisjointSets.discrete P.size).Unites P.roots.1 P.roots.2 joined sets) :
    DisjointSets.Joins (.discrete P.size) sets P.size P.roots.1 P.roots.2 joined :=
  h.joins (DisjointSets.valid_discrete P.size) (roots_lt_size hP).1 (roots_lt_size hP).2

theorem explored_roots {joined : Bool} {sets : DisjointSets}
    (hj : DisjointSets.Joins (.discrete P.size) sets P.size P.roots.1 P.roots.2 joined) :
    Explored P (sets, [P.roots]) where
  valid := hj.valid
  led p hp := ⟨[], List.mem_singleton.mp hp⟩
  same_roots := (hj.same_iff _ _).mpr (Or.inr (Or.inl ⟨rfl, rfl⟩))
  linked u v hs := by
    have hroots : EqvGen (fun u v => P.Agree sets u v ∨ (u, v) ∈ [P.roots]) P.roots.1 P.roots.2 :=
      .rel _ _ (Or.inr List.mem_cons_self)
    rcases (hj.same_iff u v).mp hs with he | ⟨hu, hv⟩ | ⟨hu, hv⟩
    · rw [DisjointSets.same_discrete_iff] at he
      rw [he]
      exact .refl _
    · rw [DisjointSets.same_discrete_iff] at hu hv
      rw [hu, ← hv]
      exact hroots
    · rw [DisjointSets.same_discrete_iff] at hu hv
      rw [hu, ← hv]
      exact hroots.symm

/-- The start states are apart at first, so joining them leaves room for the pair of them. -/
theorem numSets_lt_size {joined : Bool} {sets : DisjointSets} (hP : P.WellFormed)
    (hj : DisjointSets.Joins (.discrete P.size) sets P.size P.roots.1 P.roots.2 joined) :
    sets.numSets P.size < P.size := by
  have hle := hj.numSets_le
  have hne : P.roots.1 ≠ P.roots.2 := by
    have hl : P.roots.1 < P.offset := lt_offset_iff.mpr (Deterministic.entry_le hP.left)
    have hr : P.offset ≤ P.roots.2 := Nat.le_add_right _ _
    omega
  have hjoined := hj.joined_iff.mpr fun hs => hne (DisjointSets.same_discrete_iff.mp hs)
  rw [hjoined, Bool.toNat_true, DisjointSets.numSets_discrete] at hle
  exact hle

theorem answers_equivalent (hP : P.WellFormed) : P.Answers P.equivalent := by
  have hu := DisjointSets.unites_union (DisjointSets.valid_discrete P.size).toRanked P.roots.1 P.roots.2
  have hj := joins_roots hP hu
  have hlt := numSets_lt_size hP hj
  refine ⟨_, _, hu, decides_agree hP hj.valid ?_⟩
  rw [List.length_singleton]
  omega

theorem Answers.correct (hP : P.WellFormed) {b : Bool} (h : P.Answers b) :
    b = true ↔ ∀ w, P.accepting (P.after P.roots.1 w) = P.accepting (P.after P.roots.2 w) := by
  obtain ⟨joined, sets, hu, hdecides⟩ := h
  exact hdecides.correct hP (explored_roots (joins_roots hP hu))

end FiniteAutomata.SideBySide

namespace FiniteAutomata.Deterministic

/-- The equivalence test says whether both automata accept the same words. -/
theorem isEquivalentTo_eq_true_iff {D E : Deterministic} (hD : D.automaton.WellFormed)
    (hE : E.automaton.WellFormed) : D.isEquivalentTo E = true ↔ ∀ ls, D.accepts ls = E.accepts ls := by
  have hP : SideBySide.WellFormed ⟨D, E⟩ := ⟨hD, hE⟩
  have hl := SideBySide.accepts_left_iff hP
  have hr := SideBySide.accepts_right_iff hP
  refine ((SideBySide.answers_equivalent hP).correct hP).trans ?_
  constructor
  · intro h ls
    exact (hl ls).trans ((h (Label.spelled ls)).trans (hr ls).symm)
  · intro h w
    have hw := h (w.map .symbol)
    rw [hl, hr, Label.spelled_map_symbol] at hw
    exact hw

/-- The equivalence test ends by itself, however long its searches are, and its answer is exact. -/
theorem isEquivalentTo_decides {D E : Deterministic} (hD : D.automaton.WellFormed)
    (hE : E.automaton.WellFormed) : SideBySide.Answers ⟨D, E⟩ (D.isEquivalentTo E) ∧
      (D.isEquivalentTo E = true ↔ ∀ ls, D.accepts ls = E.accepts ls) :=
  ⟨SideBySide.answers_equivalent ⟨hD, hE⟩, isEquivalentTo_eq_true_iff hD hE⟩

/-- An odd number of `a`, counted by two states. -/
def odd : Deterministic := ⟨.ofEdits [.addStart ⟨"even"⟩, .addFinal ⟨"odd"⟩,
  .addTransition ⟨"even"⟩ (.symbol ⟨"a"⟩) ⟨"odd"⟩, .addTransition ⟨"odd"⟩ (.symbol ⟨"a"⟩) ⟨"even"⟩]⟩

/-- An odd number of `a`, counted to four; a `b` leads to where nothing is accepted any more. -/
def oddToFour : Deterministic := ⟨.ofEdits [.addFinal ⟨"1"⟩, .addStart ⟨"0"⟩, .addFinal ⟨"3"⟩,
  .addTransition ⟨"0"⟩ (.symbol ⟨"a"⟩) ⟨"1"⟩, .addTransition ⟨"1"⟩ (.symbol ⟨"a"⟩) ⟨"2"⟩,
  .addTransition ⟨"2"⟩ (.symbol ⟨"a"⟩) ⟨"3"⟩, .addTransition ⟨"3"⟩ (.symbol ⟨"a"⟩) ⟨"0"⟩,
  .addTransition ⟨"2"⟩ (.symbol ⟨"b"⟩) ⟨"lost"⟩, .addTransition ⟨"lost"⟩ (.symbol ⟨"b"⟩) ⟨"lost"⟩]⟩

theorem odd_accepts_oddToFour :
    SideBySide.Answers ⟨odd, oddToFour⟩ true ∧ ∀ ls, odd.accepts ls = oddToFour.accepts ls := by
  have htrue : odd.isEquivalentTo oddToFour = true := by decide +kernel
  have h := isEquivalentTo_decides (D := odd) (E := oddToFour) (Automaton.wellFormed_ofEdits _)
    (Automaton.wellFormed_ofEdits _)
  rw [htrue] at h
  exact ⟨h.1, h.2.mp rfl⟩

end FiniteAutomata.Deterministic
