import Mathlib.Logic.Function.Basic
import FiniteAutomata.Regex.Thompson
import FiniteAutomata.Proofs.Automaton.Edits
import FiniteAutomata.Proofs.Automaton.Runs
import FiniteAutomata.Proofs.Regex.Constructors
import FiniteAutomata.Proofs.State.Names

/-!
The automaton of an expression spells the words of the expression (`Regex.spells_toAutomaton_iff`). A word has a
path through the part for its expression, whatever is added to the part (`Part.leads`). For the converse, label
each state with the words that may be left to read there, so that no transition contradicts the labels
(`Respects`): a path to the exit spells a word of the label it begins in. Labels of the states before a part extend
to the part, if they let its expression be read at its entry (`Part.exists_labels`). So parts may share states and
be joined in loops, and nothing needs to be known of the ways in which a path runs through them.
-/

namespace FiniteAutomata

open Automaton (Respects)

/-- A word of `r`, and then a word of `C`. -/
def Followed (r : Regex) (C : List Symbol → Prop) (w : List Symbol) : Prop :=
  ∃ u v, Matches r u ∧ C v ∧ w = u ++ v

namespace Followed

variable {r s : Regex} {C : List Symbol → Prop} {w : List Symbol}

theorem concat (h : Followed r (Followed s C) w) : Followed (.concat r s) C w := by
  obtain ⟨u, x, hu, ⟨v, y, hv, hy, rfl⟩, rfl⟩ := h
  exact ⟨u ++ v, y, .concat hu hv, hy, (List.append_assoc u v y).symm⟩

theorem unionLeft (h : Followed r C w) : Followed (.union r s) C w := by
  obtain ⟨u, v, hu, hv, rfl⟩ := h
  exact ⟨u, v, .unionLeft hu, hv, rfl⟩

theorem unionRight (h : Followed s C w) : Followed (.union r s) C w := by
  obtain ⟨u, v, hu, hv, rfl⟩ := h
  exact ⟨u, v, .unionRight hu, hv, rfl⟩

theorem starNil (h : C w) : Followed (.star r) C w := ⟨[], w, .starNil, h, rfl⟩

theorem starCons (h : Followed r (Followed (.star r) C) w) : Followed (.star r) C w := by
  obtain ⟨u, x, hu, ⟨v, y, hv, hy, rfl⟩, rfl⟩ := h
  exact ⟨u ++ v, y, .starCons hu hv, hy, (List.append_assoc u v y).symm⟩

end Followed

namespace Wiring

/-! ### Parts -/

/-- Two new states, entered from `i`. -/
def forked (W : Wiring) (i : Nat) : Wiring :=
  (W.fresh.2.fresh.2.join i .epsilon W.count).join i .epsilon (W.count + 1)

/-- One new state, entered from `j` and from `k`. -/
def merged (W : Wiring) (j k : Nat) : Wiring := (W.fresh.2.join j .epsilon W.count).join k .epsilon W.count

/-- One new state after the part from `k` to `j`, with the ways into the part, around it and back to its entry. -/
def looped (W : Wiring) (i k j : Nat) : Wiring :=
  (((W.fresh.2.join j .epsilon k).join j .epsilon W.count).join i .epsilon k).join i .epsilon W.count

/-- `Part r i W j W'`: what `W'` adds to `W` is the part for `r`, entered in `i` and left in `j`. -/
inductive Part : Regex → Nat → Wiring → Nat → Wiring → Prop
  | empty {i : Nat} {W : Wiring} : Part .empty i W W.count W.fresh.2
  | epsilon {i : Nat} {W : Wiring} : Part .epsilon i W W.count (W.fresh.2.join i .epsilon W.count)
  | symbol {a : Symbol} {i : Nat} {W : Wiring} : Part (.symbol a) i W W.count (W.fresh.2.join i (.symbol a) W.count)
  | concat {r s : Regex} {i j k : Nat} {W V V' : Wiring} :
      Part r i W j V → Part s j V k V' → Part (.concat r s) i W k V'
  | union {r s : Regex} {i j k : Nat} {W V V' : Wiring} :
      Part r W.count (W.forked i) j V → Part s (W.count + 1) V k V' →
        Part (.union r s) i W V'.count (V'.merged j k)
  | star {r : Regex} {i j : Nat} {W V : Wiring} :
      Part r W.count W.fresh.2 j V → Part (.star r) i W V.count (V.looped i W.count j)

variable {W W' : Wiring} {r : Regex} {l : Label} {i j k : Nat} {w : List Symbol} {t : Transition}

theorem part_build (r : Regex) (i : Nat) (W : Wiring) : Part r i W (build r i W).1 (build r i W).2 := by
  induction r generalizing i W with
  | empty => exact .empty
  | epsilon => exact .epsilon
  | symbol a => exact .symbol
  | concat r s hr hs => exact .concat (hr i W) (hs _ _)
  | union r s hr hs => exact .union (hr _ _) (hs _ _)
  | star r hr => exact .star (hr _ _)

theorem mem_edges_join : t ∈ (W.join i l j).edges ↔ t ∈ W.edges ∨ t = ⟨i, l, j⟩ := by
  simp [join]

theorem edges_forked : (W.forked i).edges = W.edges ++ [⟨i, .epsilon, W.count⟩, ⟨i, .epsilon, W.count + 1⟩] := by
  simp [forked, join, fresh]

theorem edges_merged : (W.merged j k).edges = W.edges ++ [⟨j, .epsilon, W.count⟩, ⟨k, .epsilon, W.count⟩] := by
  simp [merged, join, fresh]

theorem edges_looped : (W.looped i k j).edges = W.edges ++
    [⟨j, .epsilon, k⟩, ⟨j, .epsilon, W.count⟩, ⟨i, .epsilon, k⟩, ⟨i, .epsilon, W.count⟩] := by
  simp [looped, join, fresh]

theorem mem_edges_forked : t ∈ (W.forked i).edges ↔
    t ∈ W.edges ∨ ∃ q, (q = W.count ∨ q = W.count + 1) ∧ t = ⟨i, .epsilon, q⟩ := by
  simp [edges_forked]

theorem mem_edges_merged : t ∈ (W.merged j k).edges ↔
    t ∈ W.edges ∨ ∃ p, (p = j ∨ p = k) ∧ t = ⟨p, .epsilon, W.count⟩ := by
  simp [edges_merged]

theorem mem_edges_looped : t ∈ (W.looped i k j).edges ↔
    t ∈ W.edges ∨ ∃ p q, (p = j ∨ p = i) ∧ (q = k ∨ q = W.count) ∧ t = ⟨p, .epsilon, q⟩ := by
  simp [edges_looped, or_and_right, exists_or, or_assoc]

/-! ### Nothing is taken away -/

theorem Part.count_le (h : Part r i W j W') : W.count ≤ W'.count := by
  induction h with
  | empty | epsilon | symbol => exact Nat.le_succ _
  | concat _ _ hr hs => exact Nat.le_trans hr hs
  | union _ _ hr hs => exact Nat.le_succ_of_le (Nat.le_trans (Nat.le_of_add_right_le (k := 2) hr) hs)
  | star _ hr => exact Nat.le_succ_of_le (Nat.le_of_succ_le hr)

theorem Part.exit_lt (h : Part r i W j W') : j < W'.count := by
  induction h with
  | concat _ _ _ hs => exact hs
  | _ => exact Nat.lt_succ_self _

theorem Part.edges_subset (h : Part r i W j W') : W.edges ⊆ W'.edges := by
  induction h with
  | empty => exact List.Subset.refl _
  | epsilon | symbol => exact fun t ht => mem_edges_join.mpr (Or.inl ht)
  | concat _ _ hr hs => exact List.Subset.trans hr hs
  | union _ _ hr hs => exact fun t ht => mem_edges_merged.mpr (Or.inl (hs (hr (mem_edges_forked.mpr (Or.inl ht)))))
  | star _ hr => exact fun t ht => mem_edges_looped.mpr (Or.inl (hr ht))

/-! ### Every word has a path -/

theorem Part.leads {A : Automaton} (h : Part r i W j W') (hA : ∀ t ∈ W'.edges, t ∈ A.table) (hw : Matches r w) :
    A.Leads i w j := by
  induction h generalizing w with
  | empty => exact absurd hw Matches.not_empty
  | epsilon =>
    rw [Matches.epsilon_iff.mp hw]
    exact .ofTransition (hA _ (mem_edges_join.mpr (Or.inr rfl)))
  | symbol =>
    rw [Matches.symbol_iff.mp hw]
    exact .ofTransition (hA _ (mem_edges_join.mpr (Or.inr rfl)))
  | concat _ hs ihr ihs =>
    obtain ⟨u, v, hu, hv, rfl⟩ := Matches.concat_iff.mp hw
    exact (ihr (fun t ht => hA t (hs.edges_subset ht)) hu).trans (ihs hA hv)
  | @union r s i j k W V V' hr hs ihr ihs =>
    have hold : ∀ t ∈ V'.edges, t ∈ A.table := fun t ht => hA t (mem_edges_merged.mpr (Or.inl ht))
    have hin : ∀ n, n = W.count ∨ n = W.count + 1 → A.Leads i [] n := fun n hn =>
      .ofTransition (hold _ (hs.edges_subset (hr.edges_subset (mem_edges_forked.mpr (Or.inr ⟨n, hn, rfl⟩)))))
    have hout : ∀ n, n = j ∨ n = k → A.Leads n [] V'.count := fun n hn =>
      .ofTransition (hA _ (mem_edges_merged.mpr (Or.inr ⟨n, hn, rfl⟩)))
    rcases Matches.union_iff.mp hw with hw | hw
    · have hpath := ihr (fun t ht => hold t (hs.edges_subset ht)) hw
      simpa using ((hin _ (Or.inl rfl)).trans hpath).trans (hout j (Or.inl rfl))
    · simpa using ((hin _ (Or.inr rfl)).trans (ihs hold hw)).trans (hout k (Or.inr rfl))
  | @star r i j W V hr ih =>
    have hold : ∀ t ∈ V.edges, t ∈ A.table := fun t ht => hA t (mem_edges_looped.mpr (Or.inl ht))
    have hmove : ∀ p q, (p = j ∨ p = i) → (q = W.count ∨ q = V.count) → A.Leads p [] q := fun p q hp hq =>
      .ofTransition (hA _ (mem_edges_looped.mpr (Or.inr ⟨p, q, hp, hq, rfl⟩)))
    -- one round after the other, from whichever state rounds begin and end in
    have hrounds : ∀ p, (p = j ∨ p = i) → A.Leads p w V.count := by
      refine Matches.star_induction (motive := fun w => ∀ p, (p = j ∨ p = i) → A.Leads p w V.count) hw
        (fun p hp => hmove p _ hp (Or.inr rfl)) fun u v hu _ hv p hp => ?_
      have hround := (hmove p _ hp (Or.inl rfl)).trans (ih hold hu)
      exact hround.trans (hv j (Or.inl rfl))
    exact hrounds i (Or.inr rfl)

/-! ### Every path spells a word -/

/-- Transitions join states that are made. -/
def Bounded (W : Wiring) : Prop := ∀ t ∈ W.edges, t.source < W.count ∧ t.target < W.count

theorem Bounded.grow (h : W.Bounded) (hle : W.count ≤ W'.count)
    (hnew : ∀ t ∈ W'.edges, t ∈ W.edges ∨ (t.source < W'.count ∧ t.target < W'.count)) : W'.Bounded := by
  intro t ht
  rcases hnew t ht with hold | hends
  · exact ⟨Nat.lt_of_lt_of_le (h t hold).1 hle, Nat.lt_of_lt_of_le (h t hold).2 hle⟩
  · exact hends

theorem Bounded.fresh (h : W.Bounded) : W.fresh.2.Bounded := h.grow (Nat.le_succ _) fun _ ht => Or.inl ht

theorem Bounded.forked (h : W.Bounded) (hi : i < W.count) : (W.forked i).Bounded := by
  refine h.grow (Nat.le_add_right _ 2) fun t ht => (mem_edges_forked.mp ht).imp_right ?_
  rintro ⟨q, hq, rfl⟩
  change i < W.count + 2 ∧ q < W.count + 2
  omega

theorem Part.bounded (h : Part r i W j W') (hW : W.Bounded) (hi : i < W.count) : W'.Bounded := by
  induction h with
  | empty => exact hW.fresh
  | epsilon | symbol =>
    refine hW.grow (Nat.le_succ _) fun t ht => (mem_edges_join.mp ht).imp_right ?_
    rintro rfl
    exact ⟨Nat.lt_succ_of_lt hi, Nat.lt_succ_self _⟩
  | concat hr _ ihr ihs => exact ihs (ihr hW hi) hr.exit_lt
  | @union r s i j k W V V' hr hs ihr ihs =>
    have hle : W.count + 2 ≤ V.count := hr.count_le
    have hV' := ihs (ihr (hW.forked hi) (Nat.lt_add_of_pos_right Nat.two_pos)) hle
    refine hV'.grow (Nat.le_succ _) fun t ht => (mem_edges_merged.mp ht).imp_right ?_
    rintro ⟨p, hp, rfl⟩
    have hj := Nat.lt_of_lt_of_le hr.exit_lt hs.count_le
    have hk := hs.exit_lt
    change p < V'.count + 1 ∧ V'.count < V'.count + 1
    omega
  | @star r i j W V hr ih =>
    refine (ih hW.fresh (Nat.lt_succ_self _)).grow (Nat.le_succ _) fun t ht => (mem_edges_looped.mp ht).imp_right ?_
    rintro ⟨p, q, hp, hq, rfl⟩
    have hle : W.count + 1 ≤ V.count := hr.count_le
    have hj := hr.exit_lt
    change p < V.count + 1 ∧ q < V.count + 1
    omega

section Labels

variable {L : Nat → List Symbol → Prop} {C D : List Symbol → Prop}

theorem respects_join (hL : Respects L W.edges) (h : ∀ w, L j w → L i (Label.spelled [l] ++ w)) :
    Respects L (W.join i l j).edges := by
  intro t ht
  rcases mem_edges_join.mp ht with ht | rfl
  · exact hL t ht
  · exact h

/-- A new state may have any label. -/
theorem exists_labels_fresh (hW : W.Bounded) (hL : Respects L W.edges) (C : List Symbol → Prop) :
    ∃ L', (∀ q < W.count, L' q = L q) ∧ L' W.count = C ∧ Respects L' W.fresh.2.edges := by
  have hold : ∀ q < W.count, Function.update L W.count C q = L q :=
    fun q hq => Function.update_of_ne (Nat.ne_of_lt hq) ..
  refine ⟨Function.update L W.count C, hold, Function.update_self .., fun t ht w hw => ?_⟩
  obtain ⟨hs, hd⟩ := hW t ht
  rw [hold _ hd] at hw
  rw [hold _ hs]
  exact hL t ht w hw

theorem exists_labels_join (hW : W.Bounded) (hi : i < W.count) (hL : Respects L W.edges)
    (hC : ∀ w, C w → L i (Label.spelled [l] ++ w)) : ∃ L', (∀ q < W.count, L' q = L q) ∧ L' W.count = C ∧
      Respects L' (W.fresh.2.join i l W.count).edges := by
  obtain ⟨L', hold, hexit, hL'⟩ := exists_labels_fresh hW hL C
  refine ⟨L', hold, hexit, respects_join hL' fun w hw => ?_⟩
  rw [hold i hi]
  exact hC w (hexit ▸ hw)

theorem exists_labels_forked (hW : W.Bounded) (hi : i < W.count) (hL : Respects L W.edges)
    (hC : ∀ w, C w → L i w) (hD : ∀ w, D w → L i w) : ∃ L', (∀ q < W.count, L' q = L q) ∧ L' W.count = C ∧
      L' (W.count + 1) = D ∧ Respects L' (W.forked i).edges := by
  obtain ⟨L₁, hold₁, hat₁, hL₁⟩ := exists_labels_fresh hW hL C
  obtain ⟨L₂, hold₂, hat₂, hL₂⟩ := exists_labels_fresh hW.fresh hL₁ D
  have hold : ∀ q < W.count, L₂ q = L q := fun q hq => (hold₂ q (Nat.lt_succ_of_lt hq)).trans (hold₁ q hq)
  have hleft : L₂ W.count = C := (hold₂ _ (Nat.lt_succ_self _)).trans hat₁
  refine ⟨L₂, hold, hleft, hat₂, respects_join (respects_join hL₂ fun w hw => ?_) fun w hw => ?_⟩
  · exact hold i hi ▸ hC w (hleft ▸ hw)
  · exact hold i hi ▸ hD w (hat₂ ▸ hw)

theorem exists_labels_merged (hW : W.Bounded) (hj : j < W.count) (hk : k < W.count) (hL : Respects L W.edges)
    (hLj : L j = C) (hLk : L k = C) : ∃ L', (∀ q < W.count, L' q = L q) ∧ L' W.count = C ∧
      Respects L' (W.merged j k).edges := by
  obtain ⟨L', hold, hexit, hL'⟩ := exists_labels_fresh hW hL C
  refine ⟨L', hold, hexit, respects_join (respects_join hL' fun w hw => ?_) fun w hw => ?_⟩
  · exact hold j hj ▸ hLj ▸ hexit ▸ hw
  · exact hold k hk ▸ hLk ▸ hexit ▸ hw

/-- Both ends of a loop have the label `D`, which takes in the label `C` of what comes after the loop. -/
theorem exists_labels_looped (hW : W.Bounded) (hi : i < W.count) (hj : j < W.count) (hk : k < W.count)
    (hL : Respects L W.edges) (hLj : L j = D) (hLk : L k = D) (hC : ∀ w, C w → D w) (hD : ∀ w, D w → L i w) :
    ∃ L', (∀ q < W.count, L' q = L q) ∧ L' W.count = C ∧ Respects L' (W.looped i k j).edges := by
  obtain ⟨L', hold, hexit, hL'⟩ := exists_labels_fresh hW hL C
  refine ⟨L', hold, hexit, fun t ht => ?_⟩
  rcases mem_edges_looped.mp ht with ht | ⟨p, q, hp, hq, rfl⟩
  · exact hL' t ht
  · intro w hw
    change L' p w
    have hleft : D w := by
      rcases hq with rfl | rfl
      · rwa [hold q hk, hLk] at hw
      · exact hC w (hexit ▸ hw)
    rcases hp with rfl | rfl
    · rwa [hold p hj, hLj]
    · rw [hold p hi]
      exact hD w hleft

/-- Labels of the states there are extend to a part, if they let the words of its expression be read at its entry
before what is left at its exit. -/
theorem Part.exists_labels (h : Part r i W j W') (hW : W.Bounded) (hi : i < W.count) (hL : Respects L W.edges)
    (hC : ∀ w, Followed r C w → L i w) :
    ∃ L', (∀ q < W.count, L' q = L q) ∧ L' j = C ∧ Respects L' W'.edges := by
  induction h generalizing L C with
  | empty => exact exists_labels_fresh hW hL C
  | epsilon => exact exists_labels_join hW hi hL fun w hw => hC _ ⟨[], w, .epsilon, hw, rfl⟩
  | @symbol a => exact exists_labels_join hW hi hL fun w hw => hC _ ⟨[a], w, .symbol a, hw, rfl⟩
  | @concat r s i j k W V V' hr _ ihr ihs =>
    -- where the two parts meet, a word of the second expression is left
    obtain ⟨L₁, hold₁, hj, hL₁⟩ := ihr (C := Followed s C) hW hi hL fun w hw => hC w hw.concat
    obtain ⟨L₂, hold₂, hk, hL₂⟩ := ihs (hr.bounded hW hi) hr.exit_lt hL₁ fun w hw => hj ▸ hw
    exact ⟨L₂, fun q hq => (hold₂ q (Nat.lt_of_lt_of_le hq hr.count_le)).trans (hold₁ q hq), hk, hL₂⟩
  | @union r s i j k W V V' hr hs ihr ihs =>
    have hn : W.count < (W.forked i).count := Nat.lt_add_of_pos_right Nat.two_pos
    have hle : W.count + 2 ≤ V.count := hr.count_le
    have hle' : V.count ≤ V'.count := hs.count_le
    have hin := hW.forked hi
    have hV := hr.bounded hin hn
    obtain ⟨L₁, hold₁, hr₁, hs₁, hL₁⟩ := exists_labels_forked hW hi hL (C := Followed r C) (D := Followed s C)
      (fun w hw => hC w hw.unionLeft) fun w hw => hC w hw.unionRight
    obtain ⟨L₂, hold₂, hj₂, hL₂⟩ := ihr hin hn hL₁ fun w hw => hr₁ ▸ hw
    have hs₂ : L₂ (W.count + 1) = Followed s C := (hold₂ _ (Nat.lt_succ_self _)).trans hs₁
    obtain ⟨L₃, hold₃, hk₃, hL₃⟩ := ihs hV hle hL₂ fun w hw => hs₂ ▸ hw
    have hj₃ : L₃ j = C := (hold₃ j hr.exit_lt).trans hj₂
    obtain ⟨L₄, hold₄, hexit, hL₄⟩ := exists_labels_merged (hs.bounded hV hle)
      (Nat.lt_of_lt_of_le hr.exit_lt hle') hs.exit_lt hL₃ hj₃ hk₃
    refine ⟨L₄, fun q hq => ?_, hexit, hL₄⟩
    rw [hold₄ q (by omega), hold₃ q (by omega), hold₂ q (Nat.lt_add_right 2 hq), hold₁ q hq]
  | @star r i j W V hr ih =>
    have hle : W.count + 1 ≤ V.count := hr.count_le
    -- at both ends of a round the rounds to come are left
    obtain ⟨L₁, hold₁, hn₁, hL₁⟩ := exists_labels_fresh hW hL (Followed (.star r) C)
    obtain ⟨L₂, hold₂, hj₂, hL₂⟩ := ih (C := Followed (.star r) C) hW.fresh (Nat.lt_succ_self _) hL₁ fun w hw =>
      hn₁ ▸ hw.starCons
    have hold : ∀ q < W.count, L₂ q = L q := fun q hq => (hold₂ q (Nat.lt_succ_of_lt hq)).trans (hold₁ q hq)
    have hn₂ : L₂ W.count = Followed (.star r) C := (hold₂ _ (Nat.lt_succ_self _)).trans hn₁
    obtain ⟨L₃, hold₃, hexit, hL₃⟩ := exists_labels_looped (hr.bounded hW.fresh (Nat.lt_succ_self _))
      (Nat.lt_trans hi hle) hr.exit_lt hle hL₂ hj₂ hn₂ (fun w hw => .starNil hw) fun w hw => hold i hi ▸ hC w hw
    refine ⟨L₃, fun q hq => ?_, hexit, hL₃⟩
    rw [hold₃ q (by omega), hold q hq]

end Labels

/-! ### States by number -/

/-- The state with a number. -/
def numbered (i : Nat) : State := ⟨toString i⟩

theorem toList_numbered (i : Nat) : (numbered i).name.toList = Nat.toDigits 10 i := by
  rw [numbered, Nat.toString_eq_repr, Nat.toList_repr]

theorem numbered_injective (h : numbered i = numbered j) : i = j := by
  have hdigits := congrArg (fun q : State => Nat.ofDigitChars 10 q.name.toList 0) h
  simpa only [toList_numbered, Nat.ofDigitChars_ten_toDigits] using hdigits

theorem semicolon_not_mem_numbered (i : Nat) : ';' ∉ (numbered i).name.toList := by
  intro h
  rw [toList_numbered] at h
  exact absurd (Nat.isDigit_of_mem_toDigits (by decide) (by decide) h) (by decide)

theorem states_toAutomaton {start final : Nat} :
    (W.toAutomaton start final).states = (List.range W.count).map numbered :=
  (Automaton.foldl_connect_frame W.edges).1

theorem wellFormed_toAutomaton {start final : Nat} (hW : W.Bounded) (hs : start < W.count) (hf : final < W.count) :
    (W.toAutomaton start final).WellFormed := by
  have hnodup : ((List.range W.count).map numbered).Nodup :=
    List.Pairwise.map _ (fun _ _ hij he => hij (numbered_injective he)) List.nodup_range
  have hlt : ∀ i < W.count, i < ((List.range W.count).map numbered).length := by simp
  have hmade := Automaton.wellFormed_empty.withStates hnodup
  refine ((hmade.withStarts fun i hi => ?_).withFinals fun i hi => ?_).foldl_connect fun t ht => ?_
  · rw [StateSet.mem_singleton.mp hi]
    exact hlt start hs
  · rw [StateSet.mem_singleton.mp hi]
    exact hlt final hf
  · exact ⟨hlt _ (hW t ht).1, hlt _ (hW t ht).2⟩

theorem mem_table_toAutomaton {start final : Nat} : t ∈ (W.toAutomaton start final).table ↔ t ∈ W.edges := by
  rw [toAutomaton, (Automaton.foldl_connect_frame W.edges).2.1, TransitionTable.mem_insertMany]
  exact or_iff_right (TransitionTable.not_mem_empty t)

theorem starts_toAutomaton {start final : Nat} : (W.toAutomaton start final).starts = .singleton start :=
  (Automaton.foldl_connect_frame W.edges).2.2.1

theorem finals_toAutomaton {start final : Nat} : (W.toAutomaton start final).finals = .singleton final :=
  (Automaton.foldl_connect_frame W.edges).2.2.2

end Wiring

namespace Regex

open Wiring

theorem bounded_entry : Bounded ⟨1, []⟩ := fun _ ht => absurd ht List.not_mem_nil

theorem respects_entry (L : Nat → List Symbol → Prop) : Respects L (⟨1, []⟩ : Wiring).edges :=
  fun _ ht => absurd ht List.not_mem_nil

theorem exists_part (r : Regex) : ∃ j W, Part r 0 ⟨1, []⟩ j W ∧ r.toAutomaton = W.toAutomaton 0 j :=
  ⟨_, _, part_build r 0 ⟨1, []⟩, rfl⟩

theorem wellFormed_toAutomaton (r : Regex) : r.toAutomaton.WellFormed := by
  obtain ⟨j, W, hpart, he⟩ := r.exists_part
  rw [he]
  have hbounded := hpart.bounded bounded_entry Nat.one_pos
  exact Wiring.wellFormed_toAutomaton hbounded (Nat.lt_of_lt_of_le Nat.one_pos hpart.count_le) hpart.exit_lt

theorem namesApart_toAutomaton (r : Regex) : r.toAutomaton.NamesApart := by
  obtain ⟨j, W, -, he⟩ := r.exists_part
  refine Automaton.namesApart_of_no_semicolon fun q hq => ?_
  rw [he, states_toAutomaton] at hq
  obtain ⟨i, -, rfl⟩ := List.mem_map.mp hq
  exact semicolon_not_mem_numbered i

/-- The automaton of an expression spells the words of the expression. -/
theorem spells_toAutomaton_iff (r : Regex) (w : List Symbol) : r.toAutomaton.Spells w ↔ Matches r w := by
  obtain ⟨j, W, hpart, he⟩ := r.exists_part
  rw [he, Automaton.Spells, starts_toAutomaton, finals_toAutomaton]
  constructor
  · rintro ⟨i, hi, k, hk, h⟩
    rw [StateSet.mem_singleton.mp hi, StateSet.mem_singleton.mp hk] at h
    -- at the start the words of the expression are left, at the end nothing is
    have hread : ∀ w, Followed r (· = []) w → Matches r w := by
      rintro w ⟨u, v, hu, rfl, rfl⟩
      rwa [List.append_nil]
    obtain ⟨L, hstart, hexit, hL⟩ := hpart.exists_labels (L := fun _ => Matches r) bounded_entry Nat.one_pos
      (respects_entry _) hread
    have hedges : Respects L (W.toAutomaton 0 j).table.edges := fun t ht =>
      hL t (mem_table_toAutomaton.mp (TransitionTable.mem_edges.mp ht))
    have hleft := h.respects hedges (w := []) (by rw [hexit])
    rwa [hstart 0 Nat.one_pos, List.append_nil] at hleft
  · intro h
    refine ⟨0, StateSet.mem_singleton.mpr rfl, j, StateSet.mem_singleton.mpr rfl, ?_⟩
    exact hpart.leads (fun t ht => mem_table_toAutomaton.mpr ht) h

/-- The automaton of an expression accepts exactly the words of the expression. -/
theorem toAutomaton_accepts_iff_matches (r : Regex) (ls : List Label) :
    (r.toAutomaton.accepts ls = true ↔ Matches r (Label.spelled ls)) ∧
      (r.accepts ls = true ↔ Matches r (Label.spelled ls)) := by
  have h : r.toAutomaton.accepts ls = true ↔ Matches r (Label.spelled ls) := by
    rw [Automaton.accepts_iff, spells_toAutomaton_iff]
  exact ⟨h, h⟩

example : (Regex.concat (.star .empty) (.symbol ⟨"epsilon"⟩)).accepts [.epsilon, .symbol ⟨"epsilon"⟩] = true := by
  decide +kernel

end Regex

end FiniteAutomata
