import Mathlib.Order.BooleanAlgebra.Set
import FiniteAutomata.Proofs.Automaton.Edits

/-!
What an automaton says by names alone: its states, its symbols, its start and final states and its transitions
as sets, with the state in place of every id. An addition puts into these sets what it mentions and changes
nothing else, because ids never move; so automata made by additions are described without ids.
-/

namespace FiniteAutomata

/-- Sets of states, symbols and transitions, by names. -/
@[ext] structure Content where
  states : Set State
  symbols : Set Symbol
  starts : Set State
  finals : Set State
  arcs : Set (State × Label × State)

namespace Automaton

variable {A B : Automaton} {p q : State} {l : Label} {i j : Nat} {S : StateSet} {t : Transition}

/-- The states that a set of ids stands for. -/
def named (A : Automaton) (S : StateSet) : Set State := {q | ∃ i ∈ S, A.states[i]? = some q}

/-- The transitions, from state to state. -/
def arcs (A : Automaton) : Set (State × Label × State) :=
  {x | ∃ t ∈ A.table, A.states[t.source]? = some x.1 ∧ t.label = x.2.1 ∧ A.states[t.target]? = some x.2.2}

/-- What the automaton says by names. -/
def content (A : Automaton) : Content where
  states := {q | q ∈ A.states}
  symbols := {a | a ∈ A.symbols}
  starts := A.named A.starts
  finals := A.named A.finals
  arcs := A.arcs

theorem mem_content_arcs_iff : (p, l, q) ∈ A.content.arcs ↔
    ∃ i j, A.states[i]? = some p ∧ A.states[j]? = some q ∧ j ∈ A.table.targets i l := by
  constructor
  · intro h
    obtain ⟨⟨i, l, j⟩, ht, hi, rfl, hj⟩ := h
    exact ⟨i, j, hi, hj, ht⟩
  · intro h
    obtain ⟨i, j, hi, hj, ht⟩ := h
    exact ⟨⟨i, l, j⟩, ht, hi, rfl, hj⟩

theorem mem_arcs_iff (h : A.WellFormed) (hi : A.states[i]? = some p) (hj : A.states[j]? = some q) :
    (p, l, q) ∈ A.content.arcs ↔ j ∈ A.table.targets i l := by
  rw [mem_content_arcs_iff]
  constructor
  · intro h'
    obtain ⟨i', j', hi', hj', ht⟩ := h'
    rwa [id_unique h.states_nodup hi hi', id_unique h.states_nodup hj hj']
  · intro ht
    exact ⟨i, j, hi, hj, ht⟩

/-! ### Sets of ids -/

theorem named_congr (h : ∀ i ∈ S, B.states[i]? = A.states[i]?) : B.named S = A.named S := by
  ext q
  exact exists_congr fun i => and_congr_right fun hi => by rw [h i hi]

theorem arcs_congr (ht : B.table = A.table) (hs : ∀ t ∈ A.table, B.states[t.source]? = A.states[t.source]? ∧
    B.states[t.target]? = A.states[t.target]?) : B.arcs = A.arcs := by
  ext x
  rw [arcs, ht]
  exact exists_congr fun t => and_congr_right fun h => by rw [(hs t h).1, (hs t h).2]

theorem mem_named_iff (h : A.states.Nodup) (hi : A.states[i]? = some q) : q ∈ A.named S ↔ i ∈ S := by
  constructor
  · intro h'
    obtain ⟨j, hj, hq⟩ := h'
    exact id_unique h hq hi ▸ hj
  · exact fun hS => ⟨i, hS, hi⟩

theorem named_insert (hi : A.states[i]? = some q) : A.named (S.insert i) = insert q (A.named S) := by
  ext p
  rw [Set.mem_insert_iff]
  constructor
  · intro h
    obtain ⟨j, hj, hp⟩ := h
    rcases StateSet.mem_insert.mp hj with rfl | hj
    · exact Or.inl (Option.some.inj (hp.symm.trans hi))
    · exact Or.inr ⟨j, hj, hp⟩
  · intro h
    rcases h with rfl | ⟨j, hj, hp⟩
    · exact ⟨i, StateSet.mem_insert.mpr (Or.inl rfl), hi⟩
    · exact ⟨j, StateSet.mem_insert.mpr (Or.inr hj), hp⟩

theorem named_erase (h : A.states.Nodup) (hi : A.states[i]? = some q) :
    A.named (S.erase i) = A.named S \ {q} := by
  ext p
  rw [Set.mem_sdiff, Set.mem_singleton_iff]
  constructor
  · intro h'
    obtain ⟨j, hj, hp⟩ := h'
    rw [StateSet.mem_erase] at hj
    refine ⟨⟨j, hj.2, hp⟩, ?_⟩
    rintro rfl
    exact hj.1 (id_unique h hp hi)
  · intro h'
    obtain ⟨⟨j, hj, hp⟩, hne⟩ := h'
    refine ⟨j, StateSet.mem_erase.mpr ⟨?_, hj⟩, hp⟩
    rintro rfl
    exact hne (Option.some.inj (hp.symm.trans hi))

theorem not_mem_named_of_stateId? (h : A.states.Nodup) (hq : A.stateId? q = none) : q ∉ A.named S := by
  rintro ⟨i, -, hi⟩
  rw [(stateId?_eq_some_iff h).mpr hi] at hq
  cases hq

/-- The ends of a transition are known. -/
theorem stateId?_of_mem_arcs (h : A.states.Nodup) (harc : (p, l, q) ∈ A.content.arcs) :
    ∃ i j, A.stateId? p = some i ∧ A.stateId? q = some j := by
  obtain ⟨i, j, hi, hj, -⟩ := mem_content_arcs_iff.mp harc
  exact ⟨i, j, (stateId?_eq_some_iff h).mpr hi, (stateId?_eq_some_iff h).mpr hj⟩

/-! ### No states yet -/

theorem wellFormed_noStates {as : List Symbol} (h : as.Nodup) : ({ symbols := as } : Automaton).WellFormed :=
  { wellFormed_empty with
    symbols_nodup := h
    declared := fun _ _ _ h => absurd h (TransitionTable.not_mem_empty _) }

theorem content_noStates (as : List Symbol) :
    ({ symbols := as } : Automaton).content = ⟨∅, {a | a ∈ as}, ∅, ∅, ∅⟩ := by
  refine Content.ext ?_ rfl ?_ ?_ ?_
  · exact Set.eq_empty_of_forall_notMem fun _ h => List.not_mem_nil h
  · exact Set.eq_empty_of_forall_notMem fun _ ⟨i, hi, _⟩ => StateSet.not_mem_empty i hi
  · exact Set.eq_empty_of_forall_notMem fun _ ⟨i, hi, _⟩ => StateSet.not_mem_empty i hi
  · exact Set.eq_empty_of_forall_notMem fun _ ⟨t, ht, _⟩ => TransitionTable.not_mem_empty t ht

/-! ### Additions -/

theorem content_addState (h : A.WellFormed) (q : State) :
    (A.addState q).2.content = { A.content with states := insert q A.content.states } := by
  obtain ⟨hsymbols, htable, hstarts, hfinals⟩ := addState_frame (A := A) (q := q)
  have hkeep : ∀ i < A.numStates, (A.addState q).2.states[i]? = A.states[i]? :=
    fun i hi => getElem?_states_addState hi
  refine Content.ext ?_ ?_ ?_ ?_ ?_
  · ext p
    exact mem_states_addState
  · exact congrArg (fun as : List Symbol => {a | a ∈ as}) hsymbols
  · change (A.addState q).2.named _ = A.named _
    rw [hstarts]
    exact named_congr fun i hi => hkeep i (h.starts_lt i hi)
  · change (A.addState q).2.named _ = A.named _
    rw [hfinals]
    exact named_congr fun i hi => hkeep i (h.finals_lt i hi)
  · exact arcs_congr htable fun t ht => ⟨hkeep _ (h.source_lt t ht), hkeep _ (h.target_lt t ht)⟩

theorem content_addSymbol (A : Automaton) (a : Symbol) :
    (A.addSymbol a).2.content = { A.content with symbols := insert a A.content.symbols } := by
  rw [addSymbol_eq]
  split
  · rename_i ha
    have ha : a ∈ A.content.symbols := ha
    rw [Set.insert_eq_of_mem ha]
  · refine Content.ext rfl (Set.ext fun b => ?_) rfl rfl rfl
    exact List.mem_append.trans (or_comm.trans (or_congr_left List.mem_singleton))

theorem content_addStart (h : A.WellFormed) (q : State) : (A.addStart q).2.content =
    { A.content with states := insert q A.content.states, starts := insert q A.content.starts } := by
  have hadd := content_addState h q
  have hi := getElem?_states_addState_self h.states_nodup (q := q)
  change { (A.addState q).2.content with
    starts := (A.addState q).2.named ((A.addState q).2.starts.insert (A.addState q).1) } = _
  rw [named_insert hi, show (A.addState q).2.named (A.addState q).2.starts = (A.addState q).2.content.starts
    from rfl, hadd]

theorem content_addFinal (h : A.WellFormed) (q : State) : (A.addFinal q).2.content =
    { A.content with states := insert q A.content.states, finals := insert q A.content.finals } := by
  have hadd := content_addState h q
  have hi := getElem?_states_addState_self h.states_nodup (q := q)
  change { (A.addState q).2.content with
    finals := (A.addState q).2.named ((A.addState q).2.finals.insert (A.addState q).1) } = _
  rw [named_insert hi, show (A.addState q).2.named (A.addState q).2.finals = (A.addState q).2.content.finals
    from rfl, hadd]

theorem content_removeFinal (h : A.WellFormed) (q : State) :
    (A.removeFinal q).2.content = { A.content with finals := A.content.finals \ {q} } := by
  unfold removeFinal
  split
  · rename_i hnone
    have hq : q ∉ A.content.finals := not_mem_named_of_stateId? h.states_nodup hnone
    rw [Set.sdiff_singleton_eq_self hq]
  · rename_i i hi
    rw [stateId?_eq_some_iff h.states_nodup] at hi
    change { A.content with finals := A.named (A.finals.erase i) } = _
    rw [named_erase h.states_nodup hi]
    rfl

theorem content_removeStart (h : A.WellFormed) (q : State) :
    (A.removeStart q).2.content = { A.content with starts := A.content.starts \ {q} } := by
  unfold removeStart
  split
  · rename_i hnone
    have hq : q ∉ A.content.starts := not_mem_named_of_stateId? h.states_nodup hnone
    rw [Set.sdiff_singleton_eq_self hq]
  · rename_i i hi
    rw [stateId?_eq_some_iff h.states_nodup] at hi
    change { A.content with starts := A.named (A.starts.erase i) } = _
    rw [named_erase h.states_nodup hi]
    rfl

theorem content_startAll {α : Type} {f : α → State} (h : A.WellFormed) (xs : List α) :
    (xs.foldl (fun B x => (B.addStart (f x)).2) A).WellFormed ∧
    (xs.foldl (fun B x => (B.addStart (f x)).2) A).content = { A.content with
      states := {q | q ∈ A.content.states ∨ ∃ x ∈ xs, q = f x}
      starts := {q | q ∈ A.content.starts ∨ ∃ x ∈ xs, q = f x} } := by
  induction xs generalizing A with
  | nil => simp [h]
  | cons x xs ih =>
    obtain ⟨hwf, hcontent⟩ := ih (h.addStart (f x))
    refine ⟨hwf, hcontent.trans ?_⟩
    rw [content_addStart h]
    simp [or_left_comm, or_assoc]

theorem content_connect (hs : A.states[t.source]? = some p) (ht : A.states[t.target]? = some q) :
    (A.connect t).2.content = { A.content with
      symbols := {a | t.label = .symbol a} ∪ A.content.symbols
      arcs := insert (p, t.label, q) A.content.arcs } := by
  obtain ⟨hstates, htable, hstarts, hfinals⟩ := declare_frame (A := A) (l := t.label)
  rw [connect_eq]
  refine Content.ext ?_ ?_ ?_ ?_ ?_
  · exact congrArg (fun qs : List State => {q | q ∈ qs}) hstates
  · ext a
    exact mem_symbols_declare
  · change named _ (A.declare t.label).starts = A.named A.starts
    rw [hstarts]
    exact named_congr fun i _ => congrArg (·[i]?) hstates
  · change named _ (A.declare t.label).finals = A.named A.finals
    rw [hfinals]
    exact named_congr fun i _ => congrArg (·[i]?) hstates
  · ext ⟨p', l', q'⟩
    rw [Set.mem_insert_iff]
    change (∃ u ∈ A.table.insert t, (A.declare t.label).states[u.source]? = some p' ∧ u.label = l' ∧
      (A.declare t.label).states[u.target]? = some q') ↔ _
    rw [hstates]
    constructor
    · intro h
      obtain ⟨u, hu, hp, hl, hq⟩ := h
      rcases TransitionTable.mem_insert.mp hu with rfl | hu
      · rw [hs, Option.some.injEq] at hp
        rw [ht, Option.some.injEq] at hq
        exact Or.inl (by rw [hp, hl, hq])
      · exact Or.inr ⟨u, hu, hp, hl, hq⟩
    · intro h
      rcases h with he | ⟨u, hu, hp, hl, hq⟩
      · cases he
        exact ⟨t, TransitionTable.mem_insert.mpr (Or.inl rfl), hs, rfl, ht⟩
      · exact ⟨u, TransitionTable.mem_insert.mpr (Or.inr hu), hp, hl, hq⟩

/-- The ids that a transition is added between are those of its ends. -/
theorem ends_addTransition (h : A.WellFormed) (p q : State) :
    ((A.addState p).2.addState q).2.states[(A.addState p).1]? = some p ∧
      ((A.addState p).2.addState q).2.states[((A.addState p).2.addState q).1]? = some q := by
  refine ⟨?_, getElem?_states_addState_self (h.addState p).states_nodup⟩
  rw [getElem?_states_addState (h.addState_fst_lt p)]
  exact getElem?_states_addState_self h.states_nodup

theorem content_addTransition (h : A.WellFormed) (p : State) (l : Label) (q : State) :
    (A.addTransition p l q).2.content = { A.content with
      states := insert q (insert p A.content.states)
      symbols := {a | l = .symbol a} ∪ A.content.symbols
      arcs := insert (p, l, q) A.content.arcs } := by
  obtain ⟨hp, hq⟩ := ends_addTransition h p q
  have hadd : A.addTransition p l q =
      ((A.addState p).2.addState q).2.connect ⟨(A.addState p).1, l, ((A.addState p).2.addState q).1⟩ := rfl
  rw [hadd, content_connect hp hq, content_addState (h.addState p), content_addState h]

def addTransitions (A : Automaton) (ts : List (State × Label × State)) : Automaton :=
  ts.foldl (fun B (p, l, q) => (B.addTransition p l q).2) A

/-- The transitions of a list join the automaton, with their ends and their symbols. -/
theorem content_addTransitions (h : A.WellFormed) (ts : List (State × Label × State)) :
    (A.addTransitions ts).content = { A.content with
      states := {q | q ∈ A.content.states ∨ ∃ t ∈ ts, q = t.1 ∨ q = t.2.2}
      symbols := {a | a ∈ A.content.symbols ∨ ∃ t ∈ ts, t.2.1 = .symbol a}
      arcs := {t | t ∈ A.content.arcs ∨ t ∈ ts} } := by
  induction ts generalizing A with
  | nil => simp [addTransitions]
  | cons t ts ih =>
    obtain ⟨p, l, q⟩ := t
    have hadd : A.addTransitions ((p, l, q) :: ts) = (A.addTransition p l q).2.addTransitions ts := rfl
    rw [hadd, ih (h.addTransition p l q), content_addTransition h]
    refine Content.ext ?_ ?_ rfl rfl ?_
    · ext r
      simp only [Set.mem_insert_iff, Set.mem_ofPred_eq, List.mem_cons, exists_eq_or_imp]
      simp only [or_left_comm, or_assoc]
    · ext a
      simp only [Set.mem_union, Set.mem_ofPred_eq, List.mem_cons, exists_eq_or_imp]
      rw [or_assoc, or_left_comm]
    · ext x
      simp only [Set.mem_insert_iff, Set.mem_ofPred_eq, List.mem_cons, or_left_comm, or_assoc]

/-- Between states that are there, with symbols that are there, transitions add nothing but themselves. -/
theorem content_addTransitions_of_mem (h : A.WellFormed) (ts : List (State × Label × State))
    (hends : ∀ t ∈ ts, t.1 ∈ A.content.states ∧ t.2.2 ∈ A.content.states)
    (hsymbols : ∀ t ∈ ts, ∀ a, t.2.1 = .symbol a → a ∈ A.content.symbols) :
    (A.addTransitions ts).content = { A.content with arcs := {t | t ∈ A.content.arcs ∨ t ∈ ts} } := by
  rw [content_addTransitions h]
  refine Content.mk.injEq .. |>.mpr ⟨?_, ?_, rfl, rfl, rfl⟩
  · refine Set.ext fun q => or_iff_left_of_imp ?_
    rintro ⟨t, ht, rfl | rfl⟩
    · exact (hends t ht).1
    · exact (hends t ht).2
  · refine Set.ext fun a => or_iff_left_of_imp ?_
    rintro ⟨t, ht, ha⟩
    exact hsymbols t ht a ha

/-! ### Removing a transition -/

theorem content_removeTransition (h : A.WellFormed) (p : State) (l : Label) (q : State) :
    (A.removeTransition p l q).2.content = { A.content with arcs := A.content.arcs \ {(p, l, q)} } := by
  unfold removeTransition
  split
  · rename_i i j hi hj
    rw [stateId?_eq_some_iff h.states_nodup] at hi hj
    refine Content.ext rfl rfl rfl rfl (Set.ext fun ⟨p', l', q'⟩ => ?_)
    rw [Set.mem_sdiff, Set.mem_singleton_iff]
    constructor
    · rintro ⟨u, hu, hp', hl', hq'⟩
      obtain ⟨hne, hold⟩ := TransitionTable.mem_remove.mp hu
      -- a transition that stays differs from the one removed in its names too, since no two ids have one name
      refine ⟨⟨u, hold, hp', hl', hq'⟩, fun he => hne ?_⟩
      cases he
      obtain ⟨i', l', j'⟩ := u
      cases id_unique h.states_nodup hp' hi
      cases id_unique h.states_nodup hq' hj
      cases hl'
      rfl
    · rintro ⟨⟨u, hu, hp', hl', hq'⟩, hne⟩
      refine ⟨u, TransitionTable.mem_remove.mpr ⟨?_, hu⟩, hp', hl', hq'⟩
      rintro rfl
      cases hp'.symm.trans hi
      cases hq'.symm.trans hj
      cases hl'
      exact hne rfl
  · rename_i hunknown
    have hpq : (p, l, q) ∉ A.content.arcs := by
      intro harc
      obtain ⟨i, j, hi, hj⟩ := stateId?_of_mem_arcs h.states_nodup harc
      exact hunknown i j hi hj
    rw [Set.sdiff_singleton_eq_self hpq]

end Automaton

end FiniteAutomata
