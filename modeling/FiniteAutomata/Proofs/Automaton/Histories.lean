import Mathlib.Data.List.Infix
import FiniteAutomata.Proofs.Automaton.Named

/-!
Histories of changes, said by names. The states are those that additions mention, in the order of first mention, and so
are the symbols; what comes later puts states and symbols behind them and moves none. The rest is what the same changes
make of plain sets of names and of transitions between names (`Content.ofEdits`), and each change says whether it changed
the set that it is about. Each change to an automaton does to its content what it does to plain sets
(`content_apply`), and a history follows by induction.
-/

namespace FiniteAutomata

theorem eraseDups_concat {α : Type} [DecidableEq α] (l : List α) (a : α) :
    (l ++ [a]).eraseDups = if a ∈ l then l.eraseDups else l.eraseDups ++ [a] := by
  rw [List.eraseDups_append]
  split
  · rename_i h
    simp [List.removeAll, h]
  · rename_i h
    simp [List.removeAll, h, List.eraseDups_cons]

namespace Edit

/-- The states that an addition mentions, in the order in which they join. -/
def mentions : Edit → List State
  | .addState q => [q]
  | .addStart q => [q]
  | .addFinal q => [q]
  | .addTransition p _ q => [p, q]
  | _ => []

/-- The symbols that an addition mentions. -/
def declares : Edit → List Symbol
  | .addSymbol a => [a]
  | .addTransition _ (.symbol a) _ => [a]
  | _ => []

/-- The change to plain sets of names. -/
def onContent : Edit → Content → Content
  | .addState q, C => { C with states := insert q C.states }
  | .addSymbol a, C => { C with symbols := insert a C.symbols }
  | .addStart q, C => { C with states := insert q C.states, starts := insert q C.starts }
  | .removeStart q, C => { C with starts := C.starts \ {q} }
  | .addFinal q, C => { C with states := insert q C.states, finals := insert q C.finals }
  | .removeFinal q, C => { C with finals := C.finals \ {q} }
  | .addTransition p l q, C =>
    { C with
      states := insert q (insert p C.states)
      symbols := {a | l = .symbol a} ∪ C.symbols
      arcs := insert (p, l, q) C.arcs }
  | .removeTransition p l q, C => { C with arcs := C.arcs \ {(p, l, q)} }

/-- The set that a change is about is different after it. -/
def Changes (e : Edit) (C : Content) : Prop :=
  match e with
  | .addState _ => (e.onContent C).states ≠ C.states
  | .addSymbol _ => (e.onContent C).symbols ≠ C.symbols
  | .addStart _ | .removeStart _ => (e.onContent C).starts ≠ C.starts
  | .addFinal _ | .removeFinal _ => (e.onContent C).finals ≠ C.finals
  | .addTransition .. | .removeTransition .. => (e.onContent C).arcs ≠ C.arcs

/-- A change answers the id of the state asked for, or whether the set that it is about changed. -/
def Answered (e : Edit) (A : Automaton) : Prop :=
  match e with
  | .addState q => ∃ i, (e.apply A).1 = .id i ∧ (e.apply A).2.states[i]? = some q
  | _ => ∃ b, (e.apply A).1 = .changed b ∧ (b = true ↔ e.Changes A.content)

end Edit

/-- The plain sets after a history of changes, all of them empty at first. -/
def Content.ofEdits (es : List Edit) : Content := es.foldl (fun C e => e.onContent C) ⟨∅, ∅, ∅, ∅, ∅⟩

namespace Automaton

variable {A : Automaton} {p q : State} {l : Label} {a : Symbol} {qs : List State} {as : List Symbol}

/-! ### The order of first mention -/

theorem removeStart_frame : (A.removeStart q).2.states = A.states ∧ (A.removeStart q).2.symbols = A.symbols := by
  unfold removeStart
  split <;> exact ⟨rfl, rfl⟩

theorem removeFinal_frame : (A.removeFinal q).2.states = A.states ∧ (A.removeFinal q).2.symbols = A.symbols := by
  unfold removeFinal
  split <;> exact ⟨rfl, rfl⟩

theorem removeTransition_frame : (A.removeTransition p l q).2.states = A.states ∧
    (A.removeTransition p l q).2.symbols = A.symbols := by
  unfold removeTransition
  split <;> exact ⟨rfl, rfl⟩

theorem states_addState (h : A.states = qs.eraseDups) (q : State) :
    (A.addState q).2.states = (qs ++ [q]).eraseDups := by
  rw [addState_eq, eraseDups_concat]
  simp only [h, List.mem_eraseDups]
  split
  · exact h
  · rfl

theorem symbols_addSymbol (h : A.symbols = as.eraseDups) (a : Symbol) :
    (A.addSymbol a).2.symbols = (as ++ [a]).eraseDups := by
  rw [addSymbol_eq, eraseDups_concat]
  simp only [h, List.mem_eraseDups]
  split
  · exact h
  · rfl

theorem states_apply (h : A.states = qs.eraseDups) (e : Edit) :
    (e.apply A).2.states = (qs ++ e.mentions).eraseDups := by
  have hkeep : A.states = (qs ++ []).eraseDups := by rw [List.append_nil, h]
  cases e with
  | addState q => exact states_addState h q
  | addSymbol a => exact addSymbol_frame.1.trans hkeep
  | addStart q => exact states_addState h q
  | removeStart q => exact removeStart_frame.1.trans hkeep
  | addFinal q => exact states_addState h q
  | removeFinal q => exact removeFinal_frame.1.trans hkeep
  | addTransition p l q =>
    -- the source joins before the target
    have hends := states_addState (states_addState h p) q
    rw [List.append_assoc] at hends
    exact declare_frame.1.trans hends
  | removeTransition p l q => exact removeTransition_frame.1.trans hkeep

theorem symbols_apply (h : A.symbols = as.eraseDups) (e : Edit) :
    (e.apply A).2.symbols = (as ++ e.declares).eraseDups := by
  have hkeep : A.symbols = (as ++ []).eraseDups := by rw [List.append_nil, h]
  cases e with
  | addState q => exact addState_frame.1.trans hkeep
  | addSymbol a => exact symbols_addSymbol h a
  | addStart q => exact addState_frame.1.trans hkeep
  | removeStart q => exact removeStart_frame.2.trans hkeep
  | addFinal q => exact addState_frame.1.trans hkeep
  | removeFinal q => exact removeFinal_frame.2.trans hkeep
  | addTransition p l q =>
    have hends : ((A.addState p).2.addState q).2.symbols = A.symbols := addState_frame.1.trans addState_frame.1
    cases l with
    | symbol a => exact symbols_addSymbol (hends.trans h) a
    | epsilon => exact hends.trans hkeep
  | removeTransition p l q => exact removeTransition_frame.2.trans hkeep

/-- Additions put what they mention behind what is there, unless it is there already. -/
theorem states_edited (h : A.states = qs.eraseDups) (es : List Edit) :
    (A.edited es).states = (qs ++ es.flatMap Edit.mentions).eraseDups := by
  induction es generalizing A qs with
  | nil => rw [edited, List.foldl_nil, List.flatMap_nil, List.append_nil, h]
  | cons e es ih =>
    rw [List.flatMap_cons, ← List.append_assoc]
    exact ih (states_apply h e)

theorem symbols_edited (h : A.symbols = as.eraseDups) (es : List Edit) :
    (A.edited es).symbols = (as ++ es.flatMap Edit.declares).eraseDups := by
  induction es generalizing A as with
  | nil => rw [edited, List.foldl_nil, List.flatMap_nil, List.append_nil, h]
  | cons e es ih =>
    rw [List.flatMap_cons, ← List.append_assoc]
    exact ih (symbols_apply h e)

theorem states_ofEdits (es : List Edit) : (ofEdits es).states = (es.flatMap Edit.mentions).eraseDups := by
  have hempty : (∅ : Automaton).states = ([] : List State).eraseDups := rfl
  exact states_edited hempty es

theorem symbols_ofEdits (es : List Edit) : (ofEdits es).symbols = (es.flatMap Edit.declares).eraseDups := by
  have hempty : (∅ : Automaton).symbols = ([] : List Symbol).eraseDups := rfl
  exact symbols_edited hempty es

/-! ### Plain sets -/

theorem content_apply (h : A.WellFormed) (e : Edit) : (e.apply A).2.content = e.onContent A.content := by
  cases e with
  | addState q => exact content_addState h q
  | addSymbol a => exact content_addSymbol A a
  | addStart q => exact content_addStart h q
  | removeStart q => exact content_removeStart h q
  | addFinal q => exact content_addFinal h q
  | removeFinal q => exact content_removeFinal h q
  | addTransition p l q => exact content_addTransition h p l q
  | removeTransition p l q => exact content_removeTransition h p l q

theorem content_edited (h : A.WellFormed) (es : List Edit) :
    (A.edited es).content = es.foldl (fun C e => e.onContent C) A.content := by
  induction es generalizing A with
  | nil => rfl
  | cons e es ih =>
    rw [List.foldl_cons, ← content_apply h e]
    exact ih (h.apply e)

theorem content_ofEdits (es : List Edit) : (ofEdits es).content = Content.ofEdits es := by
  have hempty : content ∅ = ⟨∅, ∅, ∅, ∅, ∅⟩ := by
    refine (content_noStates []).trans ?_
    simp
  rw [ofEdits, content_edited wellFormed_empty, hempty, Content.ofEdits]

theorem any_contains_iff (h : A.states.Nodup) {S : StateSet} :
    (A.stateId? q).any S.contains = true ↔ q ∈ A.named S := by
  cases hq : A.stateId? q with
  | none => exact iff_of_false Bool.false_ne_true (not_mem_named_of_stateId? h hq)
  | some i => exact (mem_named_iff h ((stateId?_eq_some_iff h).mp hq)).symm

theorem isStart_iff (h : A.WellFormed) : A.isStart q = true ↔ q ∈ A.content.starts := any_contains_iff h.states_nodup

theorem isFinal_iff (h : A.WellFormed) : A.isFinal q = true ↔ q ∈ A.content.finals := any_contains_iff h.states_nodup

theorem mem_lookup_iff (h : A.WellFormed) : q ∈ A.lookup p l ↔ (p, l, q) ∈ A.content.arcs := by
  unfold lookup
  split
  · rename_i i hi
    rw [stateId?_eq_some_iff h.states_nodup] at hi
    have htargets : ∀ j ∈ A.table.targets i l, j < A.numStates := fun j hj => h.target_lt ⟨i, l, j⟩ hj
    rw [sortedMembers, Ascending.mem_ofList, mem_members_iff_mem_named htargets, mem_content_arcs_iff]
    constructor
    · rintro ⟨j, hj, hq⟩
      exact ⟨i, j, hi, hq, hj⟩
    · rintro ⟨i', j, hi', hq, hj⟩
      rw [id_unique h.states_nodup hi hi']
      exact ⟨j, hj, hq⟩
  · rename_i hnone
    refine iff_of_false List.not_mem_nil fun harc => ?_
    obtain ⟨i, j, hi, -⟩ := stateId?_of_mem_arcs h.states_nodup harc
    rw [hi] at hnone
    cases hnone

/-! ### Answers -/

theorem addSymbol_fst : (A.addSymbol a).1 = true ↔ a ∉ A.content.symbols := by
  unfold addSymbol
  split
  · rename_i ha
    exact iff_of_false Bool.false_ne_true (not_not_intro ha)
  · rename_i ha
    exact iff_of_true rfl ha

/-- A state that is new has an id that is in no set yet. -/
theorem contains_addState_fst {S : StateSet} (hS : ∀ i ∈ S, i < A.numStates) :
    S.contains (A.addState q).1 = (A.stateId? q).any S.contains := by
  unfold addState
  split
  · rename_i i hi
    rw [hi, Option.any_some]
  · rename_i hnone
    rw [hnone, Option.any_none]
    exact Bool.eq_false_iff.mpr fun hmem => Nat.lt_irrefl _ (hS _ hmem)

theorem addStart_fst (h : A.WellFormed) : (A.addStart q).1 = !A.isStart q := by
  change (!(A.addState q).2.starts.contains (A.addState q).1) = _
  rw [addState_frame.2.2.1, contains_addState_fst h.starts_lt, isStart]

theorem addFinal_fst (h : A.WellFormed) : (A.addFinal q).1 = !A.isFinal q := by
  change (!(A.addState q).2.finals.contains (A.addState q).1) = _
  rw [addState_frame.2.2.2, contains_addState_fst h.finals_lt, isFinal]

theorem removeStart_fst : (A.removeStart q).1 = A.isStart q := by
  unfold removeStart isStart
  cases A.stateId? q <;> rfl

theorem removeFinal_fst : (A.removeFinal q).1 = A.isFinal q := by
  unfold removeFinal isFinal
  cases A.stateId? q <;> rfl

theorem addTransition_fst (h : A.WellFormed) : (A.addTransition p l q).1 = true ↔ (p, l, q) ∉ A.content.arcs := by
  obtain ⟨hp, hq⟩ := ends_addTransition h p q
  have harc := mem_arcs_iff (l := l) ((h.addState p).addState q) hp hq
  rw [content_addState (h.addState p), content_addState h, ← (declare_frame (l := l)).2.1] at harc
  exact TransitionTable.add_fst.trans (not_congr harc.symm)

theorem removeTransition_fst (h : A.WellFormed) :
    (A.removeTransition p l q).1 = true ↔ (p, l, q) ∈ A.content.arcs := by
  unfold removeTransition
  split
  · rename_i i j hi hj
    rw [stateId?_eq_some_iff h.states_nodup] at hi hj
    exact TransitionTable.remove_fst.trans (mem_arcs_iff h hi hj).symm
  · rename_i hunknown
    refine iff_of_false Bool.false_ne_true fun harc => ?_
    obtain ⟨i, j, hi, hj⟩ := stateId?_of_mem_arcs h.states_nodup harc
    exact hunknown i j hi hj

theorem answered (h : A.WellFormed) (e : Edit) : e.Answered A := by
  have hadd : ∀ {α : Type} {s : Set α} {x : α}, x ∉ s ↔ insert x s ≠ s := not_congr Set.insert_eq_self.symm
  have hremove : ∀ {α : Type} {s : Set α} {x : α}, x ∈ s ↔ s \ {x} ≠ s := by
    intro α s x
    rw [Ne, sdiff_eq_left, Set.disjoint_singleton_right, not_not]
  cases e with
  | addState q => exact ⟨_, rfl, getElem?_states_addState_self h.states_nodup⟩
  | addSymbol a => exact ⟨_, rfl, addSymbol_fst.trans hadd⟩
  | addStart q =>
    refine ⟨!A.isStart q, congrArg Edit.Answer.changed (addStart_fst h), ?_⟩
    rw [Bool.not_eq_true', ← Bool.not_eq_true, isStart_iff h]
    exact hadd
  | removeStart q => exact ⟨A.isStart q, congrArg Edit.Answer.changed removeStart_fst, (isStart_iff h).trans hremove⟩
  | addFinal q =>
    refine ⟨!A.isFinal q, congrArg Edit.Answer.changed (addFinal_fst h), ?_⟩
    rw [Bool.not_eq_true', ← Bool.not_eq_true, isFinal_iff h]
    exact hadd
  | removeFinal q => exact ⟨A.isFinal q, congrArg Edit.Answer.changed removeFinal_fst, (isFinal_iff h).trans hremove⟩
  | addTransition p l q => exact ⟨_, rfl, (addTransition_fst h).trans hadd⟩
  | removeTransition p l q => exact ⟨_, rfl, (removeTransition_fst h).trans hremove⟩

/-! ### Histories -/

theorem stateId?_of_prefix {B : Automaton} {i : Nat} (hB : B.states.Nodup) (h : A.states <+: B.states)
    (hq : A.stateId? q = some i) : B.stateId? q = some i := by
  rw [stateId?_eq_some_iff (h.sublist.nodup hB)] at hq
  obtain ⟨qs, hqs⟩ := h
  rw [stateId?_eq_some_iff hB, ← hqs, List.getElem?_append_left (lt_of_getElem?_states hq), hq]

/-- The automaton is what the history makes of a model of named sets, and further changes move no state and no
symbol. -/
structure Records (A : Automaton) (es : List Edit) : Prop where
  states : A.states = (es.flatMap Edit.mentions).eraseDups
  symbols : A.symbols = (es.flatMap Edit.declares).eraseDups
  content : A.content = Content.ofEdits es
  isStart (q : State) : A.isStart q = true ↔ q ∈ (Content.ofEdits es).starts
  isFinal (q : State) : A.isFinal q = true ↔ q ∈ (Content.ofEdits es).finals
  mem_lookup (p : State) (l : Label) (q : State) : q ∈ A.lookup p l ↔ (p, l, q) ∈ (Content.ofEdits es).arcs
  answered (e : Edit) : e.Answered A
  states_prefix (es' : List Edit) : A.states <+: (A.edited es').states
  symbols_prefix (es' : List Edit) : A.symbols <+: (A.edited es').symbols
  stateId? (es' : List Edit) (q : State) (i : Nat) : A.stateId? q = some i → (A.edited es').stateId? q = some i

/-- After any history of changes, mixing additions with removals of what is not there or no longer there. -/
theorem records_ofEdits (es : List Edit) : (ofEdits es).Records es := by
  have h := wellFormed_ofEdits es
  have hstates : ∀ es', (ofEdits es).states <+: ((ofEdits es).edited es').states := by
    intro es'
    rw [states_edited (states_ofEdits es) es', states_ofEdits, List.eraseDups_append]
    exact List.prefix_append _ _
  have hsymbols : ∀ es', (ofEdits es).symbols <+: ((ofEdits es).edited es').symbols := by
    intro es'
    rw [symbols_edited (symbols_ofEdits es) es', symbols_ofEdits, List.eraseDups_append]
    exact List.prefix_append _ _
  refine {
    states := states_ofEdits es
    symbols := symbols_ofEdits es
    content := content_ofEdits es
    isStart := fun q => content_ofEdits es ▸ isStart_iff h
    isFinal := fun q => content_ofEdits es ▸ isFinal_iff h
    mem_lookup := fun p l q => content_ofEdits es ▸ mem_lookup_iff h
    answered := answered h
    states_prefix := hstates
    symbols_prefix := hsymbols
    stateId? := fun es' q i hq => stateId?_of_prefix (h.edited es').states_nodup (hstates es') hq }

end Automaton

end FiniteAutomata
