import FiniteAutomata.Automaton.Edit
import FiniteAutomata.Automaton.WellFormed
import FiniteAutomata.Proofs.State.Names
import FiniteAutomata.Proofs.TransitionTable

/-!
Changes keep an automaton well formed (`WellFormed.apply`), so every automaton made by changes from the empty
one is (`wellFormed_ofEdits`). Ids are positions that never move: a state that is added comes last.
-/

namespace FiniteAutomata.Automaton

variable {A : Automaton} {p q : State} {l : Label} {a : Symbol} {i j : Nat} {t : Transition}

/-! ### Names and ids -/

theorem stateId?_eq_some_iff (h : A.states.Nodup) : A.stateId? q = some i ↔ A.states[i]? = some q := by
  rw [stateId?, List.idxOf?_eq_some_iff, List.getElem?_eq_some_iff]
  constructor
  · intro h'
    obtain ⟨hi, hq, -⟩ := h'
    exact ⟨hi, hq⟩
  · intro h'
    obtain ⟨hi, hq⟩ := h'
    refine ⟨hi, hq, fun j hj hqj => Nat.ne_of_lt hj ?_⟩
    exact (List.getElem_inj h).mp (hqj.trans hq.symm)

/-- A state has one id only. -/
theorem id_unique (h : A.states.Nodup) (hi : A.states[i]? = some q) (hj : A.states[j]? = some q) : i = j := by
  rw [← stateId?_eq_some_iff h] at hi hj
  exact Option.some.inj (hi.symm.trans hj)

theorem stateId?_eq_none_iff : A.stateId? q = none ↔ q ∉ A.states := List.idxOf?_eq_none_iff

theorem lt_of_getElem?_states (h : A.states[i]? = some q) : i < A.numStates :=
  (List.getElem?_eq_some_iff.mp h).1

theorem state_of_getElem? (h : A.states[i]? = some q) : A.state i = q := by
  rw [state, List.getD_eq_getElem?_getD, h, Option.getD_some]

theorem getElem?_states (h : i < A.numStates) : A.states[i]? = some (A.state i) := by
  obtain ⟨q, hq⟩ : ∃ q, A.states[i]? = some q := ⟨_, List.getElem?_eq_getElem h⟩
  rw [hq, state_of_getElem? hq]

theorem getElem?_states_of_mem_targets (h : A.WellFormed) (ht : j ∈ A.table.targets i l) :
    A.states[i]? = some (A.state i) ∧ A.states[j]? = some (A.state j) :=
  ⟨getElem?_states (h.source_lt ⟨i, l, j⟩ ht), getElem?_states (h.target_lt ⟨i, l, j⟩ ht)⟩

theorem state_inj (h : A.WellFormed) (hi : i < A.numStates) (hj : j < A.numStates)
    (he : A.state i = A.state j) : i = j := by
  have hi' := getElem?_states hi
  rw [he] at hi'
  exact id_unique h.states_nodup hi' (getElem?_states hj)

/-! ### Well-formed parts -/

theorem WellFormed.sound (h : A.WellFormed) : A.table.Sound := ⟨h.slots_inhabited, h.numTransitions_eq⟩

theorem WellFormed.withStates (h : A.WellFormed) {qs : List State} (hn : (A.states ++ qs).Nodup) :
    ({ A with states := A.states ++ qs } : Automaton).WellFormed := by
  have hle : A.numStates ≤ (A.states ++ qs).length := by
    rw [List.length_append]
    exact Nat.le_add_right _ _
  exact {
    states_nodup := hn
    symbols_nodup := h.symbols_nodup
    starts_lt := fun i hi => Nat.lt_of_lt_of_le (h.starts_lt i hi) hle
    finals_lt := fun i hi => Nat.lt_of_lt_of_le (h.finals_lt i hi) hle
    source_lt := fun t ht => Nat.lt_of_lt_of_le (h.source_lt t ht) hle
    target_lt := fun t ht => Nat.lt_of_lt_of_le (h.target_lt t ht) hle
    declared := h.declared
    slots_inhabited := h.slots_inhabited
    numTransitions_eq := h.numTransitions_eq }

theorem WellFormed.withSymbols (h : A.WellFormed) {as : List Symbol} (hn : (A.symbols ++ as).Nodup) :
    ({ A with symbols := A.symbols ++ as } : Automaton).WellFormed :=
  { h with
    symbols_nodup := hn
    declared := fun i j a ht => List.mem_append.mpr (Or.inl (h.declared i j a ht)) }

theorem WellFormed.withStarts (h : A.WellFormed) {S : StateSet} (hS : ∀ i ∈ S, i < A.numStates) :
    ({ A with starts := S } : Automaton).WellFormed :=
  { h with starts_lt := hS }

theorem WellFormed.withFinals (h : A.WellFormed) {S : StateSet} (hS : ∀ i ∈ S, i < A.numStates) :
    ({ A with finals := S } : Automaton).WellFormed :=
  { h with finals_lt := hS }

theorem WellFormed.withTable (h : A.WellFormed) {T : TransitionTable} (hT : T.Sound)
    (hends : ∀ t ∈ T, t.source < A.numStates ∧ t.target < A.numStates)
    (hdeclared : ∀ (i j : Nat) (a : Symbol), (⟨i, .symbol a, j⟩ : Transition) ∈ T → a ∈ A.symbols) :
    ({ A with table := T } : Automaton).WellFormed :=
  { h with
    source_lt := fun t ht => (hends t ht).1
    target_lt := fun t ht => (hends t ht).2
    declared := hdeclared
    slots_inhabited := hT.inhabited
    numTransitions_eq := hT.size_eq }

theorem WellFormed.withTransitions (h : A.WellFormed) {ts : List Transition}
    (hends : ∀ t ∈ ts, t.source < A.numStates ∧ t.target < A.numStates)
    (hdeclared : ∀ t ∈ ts, ∀ a, t.label = .symbol a → a ∈ A.symbols) :
    ({ A with table := A.table.insertMany ts } : Automaton).WellFormed := by
  refine h.withTable (h.sound.insertMany ts) (fun t ht => ?_) fun i j a ht => ?_
  · rcases TransitionTable.mem_insertMany.mp ht with ht | ht
    · exact ⟨h.source_lt t ht, h.target_lt t ht⟩
    · exact hends t ht
  · rcases TransitionTable.mem_insertMany.mp ht with ht | ht
    · exact h.declared i j a ht
    · exact hdeclared _ ht a rfl

/-! ### Adding a state -/

theorem addState_eq : (A.addState q).2 =
    if q ∈ A.states then A else { A with states := A.states ++ [q] } := by
  unfold addState
  split
  · rename_i i h
    have hq : q ∈ A.states := Classical.not_not.mp fun hq => by
      rw [stateId?_eq_none_iff.mpr hq] at h
      cases h
    rw [if_pos hq]
  · rename_i h
    rw [if_neg (stateId?_eq_none_iff.mp h)]

theorem addState_frame : (A.addState q).2.symbols = A.symbols ∧ (A.addState q).2.table = A.table ∧
    (A.addState q).2.starts = A.starts ∧ (A.addState q).2.finals = A.finals := by
  rw [addState_eq]
  split <;> exact ⟨rfl, rfl, rfl, rfl⟩

theorem mem_states_addState : p ∈ (A.addState q).2.states ↔ p = q ∨ p ∈ A.states := by
  rw [addState_eq]
  split
  · rename_i h
    exact (or_iff_right_of_imp fun hp => hp ▸ h).symm
  · rw [List.mem_append, List.mem_singleton, or_comm]

/-- The states that are there keep their ids. -/
theorem getElem?_states_addState (hi : i < A.numStates) : (A.addState q).2.states[i]? = A.states[i]? := by
  rw [addState_eq]
  split
  · rfl
  · exact List.getElem?_append_left hi

theorem numStates_le_addState : A.numStates ≤ (A.addState q).2.numStates := by
  rw [addState_eq]
  split
  · exact Nat.le_refl _
  · rw [numStates, numStates, List.length_append]
    exact Nat.le_add_right _ _

theorem getElem?_states_addState_self (h : A.states.Nodup) :
    (A.addState q).2.states[(A.addState q).1]? = some q := by
  unfold addState
  split
  · rename_i i hi
    exact (stateId?_eq_some_iff h).mp hi
  · exact List.getElem?_concat_length

theorem addState_of_not_mem (h : q ∉ A.states) :
    A.addState q = (A.numStates, { A with states := A.states ++ [q] }) := by
  rw [addState, stateId?_eq_none_iff.mpr h]

theorem addState_fresh (A : Automaton) (q : State) :
    A.addState (A.fresh q) = (A.numStates, { A with states := A.states ++ [A.fresh q] }) :=
  addState_of_not_mem (A.fresh_not_mem q)

/-- Distinct new states come last, in their order, and their ids follow those that are there. -/
theorem addStates_eq {qs : List State} (hnodup : qs.Nodup) (hnew : ∀ q ∈ qs, q ∉ A.states) :
    A.addStates qs = (List.range' A.numStates qs.length, { A with states := A.states ++ qs }) := by
  induction qs generalizing A with
  | nil => rw [addStates, List.append_nil, List.length_nil, List.range'_zero]
  | cons q qs ih =>
    obtain ⟨hq, hnodup⟩ := List.nodup_cons.mp hnodup
    obtain ⟨hqnew, hnew⟩ := List.forall_mem_cons.mp hnew
    have hrest : ∀ p ∈ qs, p ∉ A.states ++ [q] := by
      intro p hp hmem
      rcases List.mem_append.mp hmem with hmem | hmem
      · exact hnew p hp hmem
      · exact hq (List.mem_singleton.mp hmem ▸ hp)
    have hadd := ih (A := { A with states := A.states ++ [q] }) hnodup hrest
    have hcount : ({ A with states := A.states ++ [q] } : Automaton).numStates = A.numStates + 1 := List.length_append
    rw [List.append_assoc, hcount] at hadd
    rw [addStates, addState_of_not_mem hqnew, List.length_cons, List.range'_succ]
    dsimp only
    rw [hadd]
    rfl

theorem WellFormed.addState (h : A.WellFormed) (q : State) : (A.addState q).2.WellFormed := by
  rw [addState_eq]
  split
  · exact h
  · rename_i hq
    refine h.withStates (List.nodup_append.mpr ⟨h.states_nodup, List.pairwise_singleton _ q, ?_⟩)
    rintro p hp r hr rfl
    exact hq (List.mem_singleton.mp hr ▸ hp)

theorem WellFormed.addStates (h : A.WellFormed) (qs : List State) : (A.addStates qs).2.WellFormed := by
  induction qs generalizing A with
  | nil => exact h
  | cons q qs ih => exact ih (h.addState q)

theorem WellFormed.addState_fst_lt (h : A.WellFormed) (q : State) :
    (A.addState q).1 < (A.addState q).2.numStates :=
  lt_of_getElem?_states (getElem?_states_addState_self h.states_nodup)

theorem WellFormed.withFresh (h : A.WellFormed) (q : State) :
    ({ A with states := A.states ++ [A.fresh q] } : Automaton).WellFormed := by
  refine h.withStates (List.nodup_append.mpr ⟨h.states_nodup, List.pairwise_singleton _ _, ?_⟩)
  rintro p hp r hr rfl
  exact A.fresh_not_mem q (List.mem_singleton.mp hr ▸ hp)

/-! ### Symbols -/

theorem addSymbol_eq : (A.addSymbol a).2 =
    if a ∈ A.symbols then A else { A with symbols := A.symbols ++ [a] } := by
  unfold addSymbol
  split <;> rfl

theorem WellFormed.addSymbol (h : A.WellFormed) (a : Symbol) : (A.addSymbol a).2.WellFormed := by
  rw [addSymbol_eq]
  split
  · exact h
  · rename_i ha
    refine h.withSymbols (List.nodup_append.mpr ⟨h.symbols_nodup, List.pairwise_singleton _ a, ?_⟩)
    rintro b hb c hc rfl
    exact ha (List.mem_singleton.mp hc ▸ hb)

theorem WellFormed.addSymbols (h : A.WellFormed) (as : List Symbol) : (A.addSymbols as).WellFormed := by
  induction as generalizing A with
  | nil => exact h
  | cons a as ih => exact ih (h.addSymbol a)

theorem addSymbol_frame : (A.addSymbol a).2.states = A.states ∧ (A.addSymbol a).2.table = A.table ∧
    (A.addSymbol a).2.starts = A.starts ∧ (A.addSymbol a).2.finals = A.finals := by
  rw [addSymbol_eq]
  split <;> exact ⟨rfl, rfl, rfl, rfl⟩

theorem mem_symbols_addSymbol {b : Symbol} : b ∈ (A.addSymbol a).2.symbols ↔ b = a ∨ b ∈ A.symbols := by
  rw [addSymbol_eq]
  split
  · rename_i h
    exact (or_iff_right_of_imp fun hb => hb ▸ h).symm
  · rw [List.mem_append, List.mem_singleton, or_comm]

/-- The symbols that are missing come last, in their order. -/
theorem addSymbols_eq {as : List Symbol} (h : as.Nodup) :
    A.addSymbols as = { A with symbols := Symbol.join A.symbols as } := by
  induction as generalizing A with
  | nil => rw [addSymbols, List.foldl_nil, Symbol.join, List.filter_nil, List.append_nil]
  | cons a as ih =>
    obtain ⟨ha, has⟩ := List.nodup_cons.mp h
    have hcons : A.addSymbols (a :: as) = (A.addSymbol a).2.addSymbols as := rfl
    rw [hcons, ih has, addSymbol_eq]
    split
    · rename_i hold
      rw [Symbol.join_cons_of_mem hold]
    · rename_i hnew
      rw [Symbol.join_cons_of_not_mem hnew ha]

theorem declare_frame : (A.declare l).states = A.states ∧ (A.declare l).table = A.table ∧
    (A.declare l).starts = A.starts ∧ (A.declare l).finals = A.finals := by
  cases l with
  | symbol a => exact addSymbol_frame
  | epsilon => exact ⟨rfl, rfl, rfl, rfl⟩

theorem mem_symbols_declare {b : Symbol} :
    b ∈ (A.declare l).symbols ↔ l = .symbol b ∨ b ∈ A.symbols := by
  cases l with
  | symbol a =>
    rw [declare, mem_symbols_addSymbol, Label.symbol.injEq]
    exact or_congr_left eq_comm
  | epsilon => simp [declare]

theorem WellFormed.declare (h : A.WellFormed) (l : Label) : (A.declare l).WellFormed := by
  cases l with
  | symbol a => exact h.addSymbol a
  | epsilon => exact h

/-! ### Marks -/

theorem WellFormed.addStart (h : A.WellFormed) (q : State) : (A.addStart q).2.WellFormed := by
  refine (h.addState q).withStarts fun i hi => ?_
  rcases StateSet.mem_insert.mp hi with rfl | hi
  · exact h.addState_fst_lt q
  · exact (h.addState q).starts_lt i hi

theorem WellFormed.addFinal (h : A.WellFormed) (q : State) : (A.addFinal q).2.WellFormed := by
  refine (h.addState q).withFinals fun i hi => ?_
  rcases StateSet.mem_insert.mp hi with rfl | hi
  · exact h.addState_fst_lt q
  · exact (h.addState q).finals_lt i hi

theorem WellFormed.removeStart (h : A.WellFormed) (q : State) : (A.removeStart q).2.WellFormed := by
  unfold Automaton.removeStart
  split
  · exact h
  · exact h.withStarts fun i hi => h.starts_lt i (StateSet.mem_erase.mp hi).2

theorem WellFormed.removeFinal (h : A.WellFormed) (q : State) : (A.removeFinal q).2.WellFormed := by
  unfold Automaton.removeFinal
  split
  · exact h
  · exact h.withFinals fun i hi => h.finals_lt i (StateSet.mem_erase.mp hi).2

/-! ### Transitions -/

theorem connect_eq : (A.connect t).2 = { A.declare t.label with table := (A.table.add t).2 } := by
  change { A.declare t.label with table := ((A.declare t.label).table.add t).2 } = _
  rw [declare_frame.2.1]

theorem states_connect (t : Transition) : (A.connect t).2.states = A.states := by
  rw [connect_eq]
  exact declare_frame.1

theorem WellFormed.connect (h : A.WellFormed) (hs : t.source < A.numStates) (ht : t.target < A.numStates) :
    (A.connect t).2.WellFormed := by
  have hn : (A.declare t.label).numStates = A.numStates := congrArg List.length declare_frame.1
  rw [connect_eq]
  refine (h.declare t.label).withTable (h.sound.add t) (fun u hu => ?_) fun i j a hu => ?_
  · rw [hn]
    rcases TransitionTable.mem_insert.mp hu with rfl | hu
    · exact ⟨hs, ht⟩
    · exact ⟨h.source_lt u hu, h.target_lt u hu⟩
  · rw [mem_symbols_declare]
    rcases TransitionTable.mem_insert.mp hu with rfl | hu
    · exact Or.inl rfl
    · exact Or.inr (h.declared i j a hu)

theorem foldl_connect_frame (ts : List Transition) :
    (ts.foldl (fun A t => (A.connect t).2) A).states = A.states ∧
    (ts.foldl (fun A t => (A.connect t).2) A).table = A.table.insertMany ts ∧
    (ts.foldl (fun A t => (A.connect t).2) A).starts = A.starts ∧
    (ts.foldl (fun A t => (A.connect t).2) A).finals = A.finals := by
  induction ts generalizing A with
  | nil => exact ⟨rfl, rfl, rfl, rfl⟩
  | cons t ts ih =>
    obtain ⟨hstates, -, hstarts, hfinals⟩ := declare_frame (A := A) (l := t.label)
    obtain ⟨ihstates, ihtable, ihstarts, ihfinals⟩ := ih (A := (A.connect t).2)
    rw [List.foldl_cons, ihstates, ihtable, ihstarts, ihfinals, connect_eq]
    exact ⟨hstates, rfl, hstarts, hfinals⟩

theorem declare_of_declared (h : ∀ a, l = .symbol a → a ∈ A.symbols) : A.declare l = A := by
  cases l with
  | symbol a =>
    change (A.addSymbol a).2 = A
    rw [addSymbol_eq, if_pos (h a rfl)]
  | epsilon => rfl

/-- Where the alphabet has the symbols already, adding transitions changes the table only. -/
theorem foldl_connect_eq {ts : List Transition} (h : ∀ t ∈ ts, ∀ a, t.label = .symbol a → a ∈ A.symbols) :
    ts.foldl (fun A t => (A.connect t).2) A = { A with table := A.table.insertMany ts } := by
  induction ts generalizing A with
  | nil => rfl
  | cons t ts ih =>
    obtain ⟨ht, hts⟩ := List.forall_mem_cons.mp h
    rw [List.foldl_cons, connect_eq, declare_of_declared ht]
    exact ih hts

theorem symbols_declare_congr {B : Automaton} (h : B.symbols = A.symbols) :
    (B.declare l).symbols = (A.declare l).symbols := by
  cases l with
  | symbol a => simp only [declare, addSymbol_eq, apply_ite Automaton.symbols, h]
  | epsilon => exact h

/-- Adding transitions by ids looks at the symbols and the table only. -/
theorem foldl_connect_congr {B : Automaton} (hsymbols : B.symbols = A.symbols) (htable : B.table = A.table)
    (ts : List Transition) : ts.foldl (fun A t => (A.connect t).2) B =
      { ts.foldl (fun A t => (A.connect t).2) A with states := B.states, starts := B.starts, finals := B.finals } := by
  induction ts generalizing A B with
  | nil =>
    cases A
    cases B
    cases hsymbols
    cases htable
    rfl
  | cons t ts ih =>
    have hsymbols' : (B.connect t).2.symbols = (A.connect t).2.symbols := by
      rw [connect_eq, connect_eq]
      exact symbols_declare_congr hsymbols
    have htable' : (B.connect t).2.table = (A.connect t).2.table := by
      rw [connect_eq, connect_eq, htable]
    obtain ⟨hstates, -, hstarts, hfinals⟩ := foldl_connect_frame (A := B) [t]
    rw [List.foldl_cons, List.foldl_nil] at hstates hstarts hfinals
    rw [List.foldl_cons, List.foldl_cons, ih hsymbols' htable', hstates, hstarts, hfinals]

theorem WellFormed.foldl_connect {ts : List Transition} (h : A.WellFormed)
    (hts : ∀ t ∈ ts, t.source < A.numStates ∧ t.target < A.numStates) :
    (ts.foldl (fun A t => (A.connect t).2) A).WellFormed := by
  induction ts generalizing A with
  | nil => exact h
  | cons t ts ih =>
    obtain ⟨hs, ht⟩ := hts t List.mem_cons_self
    have hn : (A.connect t).2.numStates = A.numStates := congrArg List.length (states_connect t)
    exact ih (h.connect hs ht) fun u hu => hn.symm ▸ hts u (List.mem_cons_of_mem _ hu)

theorem WellFormed.addTransition (h : A.WellFormed) (p : State) (l : Label) (q : State) :
    (A.addTransition p l q).2.WellFormed :=
  ((h.addState p).addState q).connect (Nat.lt_of_lt_of_le (h.addState_fst_lt p) numStates_le_addState)
    ((h.addState p).addState_fst_lt q)

theorem WellFormed.removeTransition (h : A.WellFormed) (p : State) (l : Label) (q : State) :
    (A.removeTransition p l q).2.WellFormed := by
  unfold Automaton.removeTransition
  split
  · refine h.withTable (h.sound.remove _) (fun u hu => ?_) fun i j a hu => ?_
    · have hold := (TransitionTable.mem_remove.mp hu).2
      exact ⟨h.source_lt u hold, h.target_lt u hold⟩
    · exact h.declared i j a (TransitionTable.mem_remove.mp hu).2
  · exact h

/-! ### Histories -/

theorem WellFormed.apply (h : A.WellFormed) (e : Edit) : (e.apply A).2.WellFormed := by
  cases e with
  | addState q => exact h.addState q
  | addSymbol a => exact h.addSymbol a
  | addStart q => exact h.addStart q
  | removeStart q => exact h.removeStart q
  | addFinal q => exact h.addFinal q
  | removeFinal q => exact h.removeFinal q
  | addTransition p l q => exact h.addTransition p l q
  | removeTransition p l q => exact h.removeTransition p l q

theorem WellFormed.edited (h : A.WellFormed) (es : List Edit) : (A.edited es).WellFormed := by
  induction es generalizing A with
  | nil => exact h
  | cons e es ih => exact ih (h.apply e)

/-- Every history of changes makes a well-formed automaton. -/
theorem wellFormed_ofEdits (es : List Edit) : (ofEdits es).WellFormed := wellFormed_empty.edited es

end FiniteAutomata.Automaton
