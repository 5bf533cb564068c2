import FiniteAutomata.Proofs.Automaton.Attachment

/-!
The rational operations. Operands are attached one after the other, under tags that no other name begins with, so
each keeps its own states. In a union nothing leads back to the new start state, so a path from there is in one copy
(`spells_union_iff`); in a concatenation it is cut where it crosses from the first copy into the second
(`spells_concatenate_iff`). In a Kleene star words are left to read at each state: at the new state any number of words
of the automaton, at an old state what leads to a final state and then any number of words. No transition contradicts
this, be it old or new (`respects_starLeft`), so no path has to be cut where it comes back to the new state; and
each word leads from the new state back to it (`spells_kleeneStar_iff`).
-/

namespace FiniteAutomata

namespace Automaton

variable {A B : Automaton} {t : Transition} {i j : Nat} {v w : List Symbol}

theorem accepts_map_symbol_iff : A.accepts (w.map .symbol) = true ↔ A.Spells w := by
  rw [accepts_iff, Label.spelled_map_symbol]

/-! ### Kleene star -/

/-- The start state of the star is new, and it comes last. -/
theorem kleeneStar_eq (A : Automaton) : A.kleeneStar = { A with
    states := A.states ++ [A.fresh ⟨"start"⟩]
    table := A.table.insertMany (
      Transition.emptyMoves (.singleton A.numStates) A.starts ++
      Transition.emptyMoves A.finals (.singleton A.numStates))
    starts := .singleton A.numStates
    finals := A.finals.insert A.numStates } := by
  rw [kleeneStar, addState_fresh]

/-- The empty moves that the star adds. -/
theorem mem_starMoves_iff : t ∈ Transition.emptyMoves (.singleton A.numStates) A.starts ++
      Transition.emptyMoves A.finals (.singleton A.numStates) ↔
    (t.source = A.numStates ∧ t.label = .epsilon ∧ t.target ∈ A.starts) ∨
    (t.source ∈ A.finals ∧ t.label = .epsilon ∧ t.target = A.numStates) := by
  simp only [List.mem_append, Transition.mem_emptyMoves_iff, StateSet.mem_singleton]

theorem mem_table_kleeneStar_iff : t ∈ A.kleeneStar.table ↔ t ∈ A.table ∨
    (t.source = A.numStates ∧ t.label = .epsilon ∧ t.target ∈ A.starts) ∨
    (t.source ∈ A.finals ∧ t.label = .epsilon ∧ t.target = A.numStates) := by
  rw [kleeneStar_eq, TransitionTable.mem_insertMany, mem_starMoves_iff]

theorem mem_starts_kleeneStar_iff : i ∈ A.kleeneStar.starts ↔ i = A.numStates := by
  rw [kleeneStar_eq, StateSet.mem_singleton]

theorem mem_finals_kleeneStar_iff : i ∈ A.kleeneStar.finals ↔ i = A.numStates ∨ i ∈ A.finals := by
  rw [kleeneStar_eq, StateSet.mem_insert]

theorem numStates_kleeneStar : A.kleeneStar.numStates = A.numStates + 1 := by
  rw [kleeneStar_eq]
  exact List.length_append

theorem wellFormed_kleeneStar (hA : A.WellFormed) : A.kleeneStar.WellFormed := by
  have hnew : A.numStates < A.kleeneStar.numStates := by
    rw [numStates_kleeneStar]
    exact Nat.lt_succ_self _
  rw [kleeneStar_eq] at hnew ⊢
  have hold : ∀ {i}, i < A.numStates → i < (A.states ++ [A.fresh ⟨"start"⟩]).length :=
    fun hi => Nat.lt_trans hi hnew
  refine (((hA.withFresh ⟨"start"⟩).withTransitions (fun t ht => ?_) fun t ht a he => ?_).withStarts
    fun i hi => ?_).withFinals fun i hi => ?_
  · rcases mem_starMoves_iff.mp ht with ⟨hs, -, ht⟩ | ⟨hs, -, ht⟩
    · exact ⟨hs ▸ hnew, hold (hA.starts_lt _ ht)⟩
    · exact ⟨hold (hA.finals_lt _ hs), ht ▸ hnew⟩
  · rcases mem_starMoves_iff.mp ht with ⟨-, hlabel, -⟩ | ⟨-, hlabel, -⟩
    · exact absurd (hlabel.symm.trans he) nofun
    · exact absurd (hlabel.symm.trans he) nofun
  · exact StateSet.mem_singleton.mp hi ▸ hnew
  · rcases StateSet.mem_insert.mp hi with rfl | hi
    · exact hnew
    · exact hold (hA.finals_lt i hi)

/-- Any number of words of the automaton in a row. -/
def Repeats (A : Automaton) (w : List Symbol) : Prop :=
  ∃ vs : List (List Symbol), w = vs.flatten ∧ ∀ v ∈ vs, A.Spells v

theorem Repeats.nil : A.Repeats [] := ⟨[], rfl, fun _ hv => absurd hv List.not_mem_nil⟩

theorem Repeats.append (hv : A.Spells v) (hw : A.Repeats w) : A.Repeats (v ++ w) := by
  obtain ⟨vs, rfl, hvs⟩ := hw
  exact ⟨v :: vs, rfl, List.forall_mem_cons.mpr ⟨hv, hvs⟩⟩

/-- The words left to read at a state of the star. -/
def StarLeft (A : Automaton) (i : Nat) (w : List Symbol) : Prop :=
  if i = A.numStates then A.Repeats w else ∃ u v, w = u ++ v ∧ (∃ j ∈ A.finals, A.Leads i u j) ∧ A.Repeats v

theorem starLeft_new : A.StarLeft A.numStates w ↔ A.Repeats w := by
  rw [StarLeft, if_pos rfl]

theorem starLeft_old (hi : i < A.numStates) :
    A.StarLeft i w ↔ ∃ u v, w = u ++ v ∧ (∃ j ∈ A.finals, A.Leads i u j) ∧ A.Repeats v := by
  rw [StarLeft, if_neg (Nat.ne_of_lt hi)]

theorem starLeft_final (hA : A.WellFormed) (hi : i ∈ A.finals) (hw : A.Repeats w) : A.StarLeft i w :=
  (starLeft_old (hA.finals_lt i hi)).mpr ⟨[], w, rfl, ⟨i, hi, .refl A i⟩, hw⟩

theorem respects_starLeft (hA : A.WellFormed) : Respects A.StarLeft A.kleeneStar.table.edges := by
  intro t ht w hw
  rcases mem_table_kleeneStar_iff.mp (TransitionTable.mem_edges.mp ht) with ht | ⟨hs, he, ht⟩ | ⟨hs, he, ht⟩
  · obtain ⟨u, v, rfl, ⟨j, hj, huj⟩, hv⟩ := (starLeft_old (hA.target_lt t ht)).mp hw
    refine (starLeft_old (hA.source_lt t ht)).mpr ⟨Label.spelled [t.label] ++ u, v, ?_, ⟨j, hj, ?_⟩, hv⟩
    · rw [List.append_assoc]
    · exact (Leads.ofTransition ht).trans huj
  · -- a word of the automaton begins
    obtain ⟨u, v, rfl, ⟨j, hj, huj⟩, hv⟩ := (starLeft_old (hA.starts_lt _ ht)).mp hw
    have hword : A.Repeats (u ++ v) := .append ⟨t.target, ht, j, hj, huj⟩ hv
    rw [hs, he]
    exact starLeft_new.mpr hword
  · rw [ht] at hw
    rw [he]
    exact starLeft_final hA hs (starLeft_new.mp hw)

/-- A word of the automaton leads from the new state back to it. -/
theorem Spells.leads_kleeneStar (h : A.Spells v) : A.kleeneStar.Leads A.numStates v A.numStates := by
  obtain ⟨i, hi, j, hj, hij⟩ := h
  have henter : (⟨A.numStates, .epsilon, i⟩ : Transition) ∈ A.kleeneStar.table :=
    mem_table_kleeneStar_iff.mpr (Or.inr (Or.inl ⟨rfl, rfl, hi⟩))
  have hleave : (⟨j, .epsilon, A.numStates⟩ : Transition) ∈ A.kleeneStar.table :=
    mem_table_kleeneStar_iff.mpr (Or.inr (Or.inr ⟨hj, rfl, rfl⟩))
  have hinside : A.kleeneStar.Leads i v j := hij.mono fun t ht => mem_table_kleeneStar_iff.mpr (Or.inl ht)
  have hround := (Leads.ofTransition henter).trans (hinside.trans (.ofTransition hleave))
  simpa using hround

theorem Repeats.leads_kleeneStar (h : A.Repeats w) : A.kleeneStar.Leads A.numStates w A.numStates := by
  obtain ⟨vs, rfl, hvs⟩ := h
  induction vs with
  | nil => exact .refl _ _
  | cons v vs ih =>
    obtain ⟨hv, hvs⟩ := List.forall_mem_cons.mp hvs
    exact hv.leads_kleeneStar.trans (ih hvs)

theorem spells_kleeneStar_iff (hA : A.WellFormed) : A.kleeneStar.Spells w ↔ A.Repeats w := by
  constructor
  · rintro ⟨i, hi, j, hj, hij⟩
    obtain rfl := mem_starts_kleeneStar_iff.mp hi
    have hend : A.StarLeft j [] := by
      rcases mem_finals_kleeneStar_iff.mp hj with rfl | hj
      · exact starLeft_new.mpr .nil
      · exact starLeft_final hA hj .nil
    have hleft := hij.respects (respects_starLeft hA) hend
    rwa [List.append_nil, starLeft_new] at hleft
  · intro h
    have hfinal : A.numStates ∈ A.kleeneStar.finals := mem_finals_kleeneStar_iff.mpr (Or.inl rfl)
    exact ⟨_, mem_starts_kleeneStar_iff.mpr rfl, _, hfinal, h.leads_kleeneStar⟩

/-- The star accepts any number of accepted words in a row, and its start state is new. -/
theorem kleeneStar_accepts_iff_flatten (hA : A.WellFormed) : A.kleeneStar.WellFormed ∧
    ∀ ls, A.kleeneStar.accepts ls = true ↔
      ∃ vs : List (List Symbol), Label.spelled ls = vs.flatten ∧ ∀ v ∈ vs, A.accepts (v.map .symbol) = true := by
  refine ⟨wellFormed_kleeneStar hA, fun ls => ?_⟩
  rw [accepts_iff, spells_kleeneStar_iff hA]
  simp only [accepts_map_symbol_iff]
  rfl

/-- Words in which `a` and `b` take turns, from `a` to `a`, with the names of new start states taken. -/
def namedLikeNew : Automaton := .ofEdits
  [.addStart ⟨"start"⟩, .addTransition ⟨"start"⟩ (.symbol ⟨"a"⟩) ⟨"start'"⟩,
    .addTransition ⟨"start'"⟩ (.symbol ⟨"b"⟩) ⟨"start"⟩, .addFinal ⟨"start'"⟩]

theorem namedLikeNew_kleeneStar : namedLikeNew.WellFormed ∧ namedLikeNew.kleeneStar.WellFormed ∧
    ∀ ls, namedLikeNew.kleeneStar.accepts ls = true ↔ ∃ vs : List (List Symbol),
      Label.spelled ls = vs.flatten ∧ ∀ v ∈ vs, namedLikeNew.accepts (v.map .symbol) = true := by
  have hA : namedLikeNew.WellFormed := wellFormed_ofEdits _
  exact ⟨hA, kleeneStar_accepts_iff_flatten hA⟩

/-! ### Union -/

/-- The new start state of a union. -/
def unionEntry : Automaton := ((∅ : Automaton).addState ⟨"start"⟩).2

/-- The start state of a union and the copy of its left operand. -/
def unionLeft (A : Automaton) : (Nat → Nat) × Automaton := unionEntry.attach (.singleton 0) "0:" A

/-- The start state of a union and the copies of both operands. -/
def unionBoth (A B : Automaton) : (Nat → Nat) × Automaton := A.unionLeft.2.attach (.singleton 0) "1:" B

theorem union_eq (A B : Automaton) : A.union B = { (A.unionBoth B).2 with
    starts := .singleton 0
    finals := A.finals.map A.unionLeft.1 ∪ B.finals.map (A.unionBoth B).1 } := rfl

theorem attachable_unionEntry (hA : A.WellFormed) : Attachable unionEntry (.singleton 0) "0:" A where
  left := wellFormed_empty.addState _
  right := hA
  exits_lt i hi := StateSet.mem_singleton.mp hi ▸ Nat.one_pos
  names_new q _ hq := State.tagged_ne (c := '0') (d := 's') rfl rfl (by decide) q (List.mem_singleton.mp hq)

theorem zero_lt_unionLeft (hA : A.WellFormed) : 0 < A.unionLeft.2.numStates := by
  rw [unionLeft, (attachable_unionEntry hA).numStates_eq]
  exact Nat.add_pos_left Nat.one_pos _

theorem attachable_unionLeft (hA : A.WellFormed) (hB : B.WellFormed) :
    Attachable A.unionLeft.2 (.singleton 0) "1:" B where
  left := (attachable_unionEntry hA).wellFormed
  right := hB
  exits_lt i hi := by
    rw [StateSet.mem_singleton.mp hi]
    exact zero_lt_unionLeft hA
  names_new q _ hq := by
    rw [unionLeft, (attachable_unionEntry hA).states_eq] at hq
    rcases List.mem_append.mp hq with hq | hq
    · exact State.tagged_ne (c := '1') (d := 's') rfl rfl (by decide) q (List.mem_singleton.mp hq)
    · obtain ⟨p, -, hp⟩ := List.mem_map.mp hq
      exact State.tagged_ne (c := '1') (d := '0') rfl (State.head?_tagged_name rfl p) (by decide) q hp.symm

theorem mem_finals_union_iff (hA : A.WellFormed) (hB : B.WellFormed) : j ∈ (A.union B).finals ↔
    (∃ i ∈ A.finals, j = unionEntry.numStates + i) ∨ ∃ i ∈ B.finals, j = A.unionLeft.2.numStates + i := by
  rw [union_eq, StateSet.mem_union, unionLeft, (attachable_unionEntry hA).mem_map_iff hA.finals_lt, unionBoth,
    (attachable_unionLeft hA hB).mem_map_iff hB.finals_lt]
  rfl

theorem wellFormed_union (hA : A.WellFormed) (hB : B.WellFormed) : (A.union B).WellFormed := by
  have hleft := attachable_unionEntry hA
  have hboth := attachable_unionLeft hA hB
  have hcount : (A.unionBoth B).2.numStates = A.unionLeft.2.numStates + B.numStates := hboth.numStates_eq
  have hcountLeft : A.unionLeft.2.numStates = unionEntry.numStates + A.numStates := hleft.numStates_eq
  refine (hboth.wellFormed.withStarts (S := .singleton 0) fun i hi => ?_).withFinals fun m hm => ?_
  · change i < (A.unionBoth B).2.numStates
    have hpos := zero_lt_unionLeft hA
    have hi := StateSet.mem_singleton.mp hi
    omega
  · change m < (A.unionBoth B).2.numStates
    rcases (mem_finals_union_iff hA hB).mp hm with ⟨j, hj, rfl⟩ | ⟨j, hj, rfl⟩
    · have hlt := hA.finals_lt j hj
      omega
    · have hlt := hB.finals_lt j hj
      omega

theorem numStates_union (hA : A.WellFormed) (hB : B.WellFormed) :
    (A.union B).numStates = A.numStates + B.numStates + 1 := by
  have hcount : (A.union B).numStates = A.unionLeft.2.numStates + B.numStates :=
    (attachable_unionLeft hA hB).numStates_eq
  have hcountLeft : A.unionLeft.2.numStates = 1 + A.numStates := (attachable_unionEntry hA).numStates_eq
  omega

theorem eq_nil_of_leads_unionEntry (h : unionEntry.Leads i w j) : w = [] := by
  obtain ⟨ls, hp, rfl⟩ := h
  cases hp with
  | nil => rfl
  | cons ht _ => exact absurd ht (TransitionTable.not_mem_empty _)

theorem leads_union_left_iff (hA : A.WellFormed) (hB : B.WellFormed) (hj : j < A.numStates) :
    (A.union B).Leads 0 w (unionEntry.numStates + j) ↔ ∃ s ∈ A.starts, A.Leads s w j := by
  have hleft := attachable_unionEntry hA
  have hlt : unionEntry.numStates + j < A.unionLeft.2.numStates := by
    rw [unionLeft, hleft.numStates_eq]
    exact Nat.add_lt_add_left hj _
  rw [leads_congr (A := A.union B) (B := (A.unionBoth B).2) rfl]
  calc (A.unionBoth B).2.Leads 0 w (unionEntry.numStates + j)
    _ ↔ A.unionLeft.2.Leads 0 w (unionEntry.numStates + j) :=
      (attachable_unionLeft hA hB).leads_iff (zero_lt_unionLeft hA) hlt
    _ ↔ ∃ s ∈ A.starts, A.Leads s w j := hleft.leads_from_exit_iff fun _ => eq_nil_of_leads_unionEntry

theorem leads_union_right_iff (hA : A.WellFormed) (hB : B.WellFormed) :
    (A.union B).Leads 0 w (A.unionLeft.2.numStates + j) ↔ ∃ s ∈ B.starts, B.Leads s w j := by
  rw [leads_congr (A := A.union B) (B := (A.unionBoth B).2) rfl]
  refine (attachable_unionLeft hA hB).leads_from_exit_iff fun u hu => ?_
  exact eq_nil_of_leads_unionEntry (((attachable_unionEntry hA).leads_iff Nat.one_pos Nat.one_pos).mp hu)

theorem spells_union_iff (hA : A.WellFormed) (hB : B.WellFormed) :
    (A.union B).Spells w ↔ A.Spells w ∨ B.Spells w := by
  constructor
  · rintro ⟨i, hi, m, hm, him⟩
    obtain rfl := StateSet.mem_singleton.mp hi
    rcases (mem_finals_union_iff hA hB).mp hm with ⟨j, hj, rfl⟩ | ⟨j, hj, rfl⟩
    · obtain ⟨s, hs, hsj⟩ := (leads_union_left_iff hA hB (hA.finals_lt j hj)).mp him
      exact Or.inl ⟨s, hs, j, hj, hsj⟩
    · obtain ⟨s, hs, hsj⟩ := (leads_union_right_iff hA hB).mp him
      exact Or.inr ⟨s, hs, j, hj, hsj⟩
  · have hstart : 0 ∈ (A.union B).starts := StateSet.mem_singleton.mpr rfl
    rintro (⟨s, hs, j, hj, hsj⟩ | ⟨s, hs, j, hj, hsj⟩)
    · have hfinal := (mem_finals_union_iff hA hB).mpr (Or.inl ⟨j, hj, rfl⟩)
      exact ⟨0, hstart, _, hfinal, (leads_union_left_iff hA hB (hA.finals_lt j hj)).mpr ⟨s, hs, hsj⟩⟩
    · have hfinal := (mem_finals_union_iff hA hB).mpr (Or.inr ⟨j, hj, rfl⟩)
      exact ⟨0, hstart, _, hfinal, (leads_union_right_iff hA hB).mpr ⟨s, hs, hsj⟩⟩

/-- The union accepts what either automaton accepts, whatever the states are called, and its states are those of both
and one more. -/
theorem union_accepts_iff_either (hA : A.WellFormed) (hB : B.WellFormed) : (A.union B).WellFormed ∧
    (A.union B).numStates = A.numStates + B.numStates + 1 ∧
    ∀ ls, (A.union B).accepts ls = true ↔ A.accepts ls = true ∨ B.accepts ls = true := by
  refine ⟨wellFormed_union hA hB, numStates_union hA hB, fun ls => ?_⟩
  rw [accepts_iff, accepts_iff, accepts_iff, spells_union_iff hA hB]

/-- The words `a` and `b`, from two start states to two final states, with names that tagged states have. -/
def namedLikeCopies : Automaton := .ofEdits
  [.addStart ⟨"start"⟩, .addStart ⟨"0:start"⟩, .addTransition ⟨"start"⟩ (.symbol ⟨"a"⟩) ⟨"0:x"⟩,
    .addTransition ⟨"0:start"⟩ (.symbol ⟨"b"⟩) ⟨"1:x"⟩, .addFinal ⟨"0:x"⟩, .addFinal ⟨"1:x"⟩]

theorem namedLikeNew_union_namedLikeCopies : (namedLikeNew.WellFormed ∧ namedLikeCopies.WellFormed) ∧
    (namedLikeNew.union namedLikeCopies).WellFormed ∧
    (namedLikeNew.union namedLikeCopies).numStates = namedLikeNew.numStates + namedLikeCopies.numStates + 1 ∧
    ∀ ls, (namedLikeNew.union namedLikeCopies).accepts ls = true ↔
      namedLikeNew.accepts ls = true ∨ namedLikeCopies.accepts ls = true := by
  have hA : namedLikeNew.WellFormed := wellFormed_ofEdits _
  have hB : namedLikeCopies.WellFormed := wellFormed_ofEdits _
  exact ⟨⟨hA, hB⟩, union_accepts_iff_either hA hB⟩

/-! ### Concatenation -/

/-- The copy of the left operand of a concatenation. -/
def concatLeft (A : Automaton) : (Nat → Nat) × Automaton := (∅ : Automaton).attach ∅ "0:" A

/-- The copies of both operands of a concatenation. -/
def concatBoth (A B : Automaton) : (Nat → Nat) × Automaton :=
  A.concatLeft.2.attach (A.finals.map A.concatLeft.1) "1:" B

theorem concatenate_eq (A B : Automaton) : A.concatenate B = { (A.concatBoth B).2 with
    starts := A.starts.map A.concatLeft.1
    finals := B.finals.map (A.concatBoth B).1 } := rfl

theorem attachable_empty (hA : A.WellFormed) : Attachable ∅ ∅ "0:" A where
  left := wellFormed_empty
  right := hA
  exits_lt i hi := absurd hi (StateSet.not_mem_empty i)
  names_new _ _ hq := List.not_mem_nil hq

theorem numStates_concatLeft (hA : A.WellFormed) : A.concatLeft.2.numStates = A.numStates :=
  (attachable_empty hA).numStates_eq.trans (Nat.zero_add _)

/-- The left copy keeps the ids. -/
theorem map_concatLeft {S : StateSet} (hA : A.WellFormed) (hS : ∀ i ∈ S, i < A.numStates) :
    S.map A.concatLeft.1 = S := by
  refine StateSet.ext fun j => ?_
  rw [concatLeft, (attachable_empty hA).mem_map_iff hS]
  constructor
  · rintro ⟨i, hi, rfl⟩
    exact (Nat.zero_add i).symm ▸ hi
  · exact fun hj => ⟨j, hj, (Nat.zero_add j).symm⟩

theorem leads_concatLeft_iff (hA : A.WellFormed) : A.concatLeft.2.Leads i w j ↔ A.Leads i w j := by
  have hcopy := (attachable_empty hA).leads_copy_iff (i := i) (w := w) (j := j)
  rwa [show numStates ∅ = 0 from rfl, Nat.zero_add, Nat.zero_add] at hcopy

theorem attachable_concatLeft (hA : A.WellFormed) (hB : B.WellFormed) :
    Attachable A.concatLeft.2 (A.finals.map A.concatLeft.1) "1:" B where
  left := (attachable_empty hA).wellFormed
  right := hB
  exits_lt i hi := by
    rw [map_concatLeft hA hA.finals_lt] at hi
    exact numStates_concatLeft hA ▸ hA.finals_lt i hi
  names_new q _ hq := by
    rw [concatLeft, (attachable_empty hA).states_eq] at hq
    obtain ⟨p, -, hp⟩ := List.mem_map.mp ((List.mem_append.mp hq).resolve_left List.not_mem_nil)
    exact State.tagged_ne (c := '1') (d := '0') rfl (State.head?_tagged_name rfl p) (by decide) q hp.symm

theorem starts_concatenate (hA : A.WellFormed) : (A.concatenate B).starts = A.starts := by
  rw [concatenate_eq, map_concatLeft hA hA.starts_lt]

theorem mem_finals_concatenate_iff (hA : A.WellFormed) (hB : B.WellFormed) :
    j ∈ (A.concatenate B).finals ↔ ∃ i ∈ B.finals, j = A.numStates + i := by
  rw [concatenate_eq, concatBoth, (attachable_concatLeft hA hB).mem_map_iff hB.finals_lt, numStates_concatLeft hA]

theorem wellFormed_concatenate (hA : A.WellFormed) (hB : B.WellFormed) : (A.concatenate B).WellFormed := by
  have hcount : (A.concatBoth B).2.numStates = A.numStates + B.numStates := by
    rw [concatBoth, (attachable_concatLeft hA hB).numStates_eq, numStates_concatLeft hA]
  refine ((attachable_concatLeft hA hB).wellFormed.withStarts (S := A.starts.map A.concatLeft.1)
    fun i hi => ?_).withFinals fun m hm => ?_
  · change i < (A.concatBoth B).2.numStates
    rw [map_concatLeft hA hA.starts_lt] at hi
    have hlt := hA.starts_lt i hi
    omega
  · change m < (A.concatBoth B).2.numStates
    obtain ⟨j, hj, rfl⟩ := (mem_finals_concatenate_iff hA hB).mp hm
    have hlt := hB.finals_lt j hj
    omega

/-- From the left copy into the right one, a word falls into one that leads to a final state of the left automaton and
one that leads on from a start state of the right one. -/
theorem leads_concatenate_iff (hA : A.WellFormed) (hB : B.WellFormed) (hi : i < A.numStates) :
    (A.concatenate B).Leads i w (A.numStates + j) ↔
      ∃ u v, w = u ++ v ∧ (∃ k ∈ A.finals, A.Leads i u k) ∧ ∃ s ∈ B.starts, B.Leads s v j := by
  have hinto := (attachable_concatLeft hA hB).leads_into_copy_iff (w := w) (j := j) (numStates_concatLeft hA ▸ hi)
  rw [numStates_concatLeft hA, map_concatLeft hA hA.finals_lt] at hinto
  rw [leads_congr (A := A.concatenate B) (B := (A.concatBoth B).2) rfl, concatBoth, map_concatLeft hA hA.finals_lt]
  simpa only [leads_concatLeft_iff hA] using hinto

theorem spells_concatenate_iff (hA : A.WellFormed) (hB : B.WellFormed) :
    (A.concatenate B).Spells w ↔ ∃ u v, w = u ++ v ∧ A.Spells u ∧ B.Spells v := by
  constructor
  · rintro ⟨i, hi, m, hm, him⟩
    rw [starts_concatenate hA] at hi
    obtain ⟨j, hj, rfl⟩ := (mem_finals_concatenate_iff hA hB).mp hm
    obtain ⟨u, v, rfl, ⟨k, hk, hik⟩, s, hs, hsj⟩ := (leads_concatenate_iff hA hB (hA.starts_lt i hi)).mp him
    exact ⟨u, v, rfl, ⟨i, hi, k, hk, hik⟩, s, hs, j, hj, hsj⟩
  · rintro ⟨u, v, rfl, ⟨i, hi, k, hk, hik⟩, s, hs, j, hj, hsj⟩
    have hleads := (leads_concatenate_iff hA hB (hA.starts_lt i hi)).mpr ⟨u, v, rfl, ⟨k, hk, hik⟩, s, hs, hsj⟩
    exact ⟨i, (starts_concatenate hA).symm ▸ hi, _, (mem_finals_concatenate_iff hA hB).mpr ⟨j, hj, rfl⟩, hleads⟩

/-- The concatenation accepts an accepted word of the left automaton followed by one of the right automaton, whatever
the states are called. -/
theorem concatenate_accepts_iff_append (hA : A.WellFormed) (hB : B.WellFormed) : (A.concatenate B).WellFormed ∧
    ∀ ls, (A.concatenate B).accepts ls = true ↔
      ∃ us vs, ls = us ++ vs ∧ A.accepts us = true ∧ B.accepts vs = true := by
  refine ⟨wellFormed_concatenate hA hB, fun ls => ?_⟩
  rw [accepts_iff, spells_concatenate_iff hA hB]
  constructor
  · rintro ⟨u, v, hw, hu, hv⟩
    obtain ⟨us, vs, rfl, rfl, rfl⟩ := List.filterMap_eq_append_iff.mp hw
    exact ⟨us, vs, rfl, accepts_iff.mpr hu, accepts_iff.mpr hv⟩
  · rintro ⟨us, vs, rfl, hu, hv⟩
    exact ⟨_, _, Label.spelled_append us vs, accepts_iff.mp hu, accepts_iff.mp hv⟩

theorem namedLikeCopies_concatenate_self : namedLikeCopies.WellFormed ∧
    (namedLikeCopies.concatenate namedLikeCopies).WellFormed ∧
    ∀ ls, (namedLikeCopies.concatenate namedLikeCopies).accepts ls = true ↔
      ∃ us vs, ls = us ++ vs ∧ namedLikeCopies.accepts us = true ∧ namedLikeCopies.accepts vs = true := by
  have hA : namedLikeCopies.WellFormed := wellFormed_ofEdits _
  exact ⟨hA, concatenate_accepts_iff_append hA hA⟩

end Automaton

end FiniteAutomata
