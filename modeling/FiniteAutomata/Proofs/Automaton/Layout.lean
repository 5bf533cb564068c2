import Mathlib.Data.List.Induction
import FiniteAutomata.Automaton.Layout
import FiniteAutomata.Proofs.Automaton.Content

/-!
Laid out by ids or put together by names, the automaton is the same (`build_eq_byName`): the id that is kept with a key
is the one that the name of its state is found under. This holds of no keys and still holds once one more key is given
its state (`Keeps.give`), so starts and transitions between kept ids are those between names. By names the automaton is
described at once (`content_build`), as long as keys of one name do not contradict each other in whether their state is
final.
-/

namespace FiniteAutomata

namespace Automaton

variable {A B : Automaton} {p q : State} {l : Label} {i j : Nat}

/-! ### Additions between known states -/

theorem stateId?_congr (h : A.states = B.states) (q : State) : A.stateId? q = B.stateId? q := by
  rw [stateId?, stateId?, h]

theorem addState_of_stateId? (h : A.stateId? q = some i) : A.addState q = (i, A) := by
  rw [addState, h]

theorem addStart_of_stateId? (h : A.stateId? q = some i) :
    (A.addStart q).2 = { A with starts := A.starts.insert i } := by
  rw [addStart, addState_of_stateId? h]
  rfl

theorem addTransition_of_stateId? (hp : A.stateId? p = some i) (hq : A.stateId? q = some j) :
    A.addTransition p l q = A.connect ⟨i, l, j⟩ := by
  rw [addTransition, addState_of_stateId? hp]
  dsimp only
  rw [addState_of_stateId? hq]

/-! ### Final marks -/

/-- Adds a state unless it is there, and makes it final or not. -/
def place (A : Automaton) (q : State) (final : Bool) : Automaton :=
  if final then (A.addFinal q).2 else ((A.addState q).2.removeFinal q).2

/-- Of the state that was just added, the id is known. -/
theorem place_eq (h : A.WellFormed) (q : State) (final : Bool) :
    A.place q final = (A.addState q).2.setFinal (A.addState q).1 final := by
  cases final with
  | true => rfl
  | false =>
    have hid : (A.addState q).2.stateId? q = some (A.addState q).1 :=
      (stateId?_eq_some_iff (h.addState q).states_nodup).mpr (getElem?_states_addState_self h.states_nodup)
    change ((A.addState q).2.removeFinal q).2 = _
    rw [removeFinal, hid]
    rfl

theorem WellFormed.place (h : A.WellFormed) (q : State) (final : Bool) : (A.place q final).WellFormed := by
  cases final with
  | true => exact h.addFinal q
  | false => exact (h.addState q).removeFinal q

/-- Placing a state settles whether it is final, whatever was said before. -/
theorem content_place (h : A.WellFormed) (q : State) (final : Bool) : (A.place q final).content =
    { A.content with
      states := insert q A.content.states
      finals := if final then insert q A.content.finals else A.content.finals \ {q} } := by
  cases final with
  | true => exact content_addFinal h q
  | false =>
    change ((A.addState q).2.removeFinal q).2.content = _
    rw [content_removeFinal (h.addState q), content_addState h]
    rfl

end Automaton

namespace Layout

open Automaton

variable {κ : Type} {L : Layout κ} {A : Automaton} {given : Given κ} {k : κ} {ks : List κ} {i : Nat}

/-! ### The automaton by names -/

/-- Adds the state of a key, and marks it, by its name. -/
def placeKey (L : Layout κ) (A : Automaton) (k : κ) : Automaton :=
  match L.mark? k with
  | some final => A.place (L.name k) final
  | none => (A.addState (L.name k)).2

/-- The states of some keys, without transitions, by their names. -/
def placeKeys (L : Layout κ) (ks : List κ) : Automaton := ks.foldl L.placeKey { symbols := L.symbols }

def namedArc (L : Layout κ) : κ × Label × κ → State × Label × State
  | (k, l, k') => (L.name k, l, L.name k')

/-- The automaton that is put together by names alone. -/
def byName (L : Layout κ) : Automaton :=
  (L.starts.foldl (fun A k => (A.addStart (L.name k)).2) (L.placeKeys L.keys)).addTransitions (L.arcs.map L.namedArc)

theorem placeKeys_append (ks : List κ) (k : κ) : L.placeKeys (ks ++ [k]) = L.placeKey (L.placeKeys ks) k := by
  rw [placeKeys, List.foldl_append]
  rfl

theorem wellFormed_placeKey (h : A.WellFormed) (k : κ) : (L.placeKey A k).WellFormed := by
  unfold placeKey
  split
  · exact h.place _ _
  · exact h.addState _

theorem placeKey_frame (h : A.WellFormed) (k : κ) : (L.placeKey A k).states = (A.addState (L.name k)).2.states ∧
    (L.placeKey A k).symbols = A.symbols ∧ (L.placeKey A k).starts = A.starts := by
  obtain ⟨hsymbols, -, hstarts, -⟩ := addState_frame (A := A) (q := L.name k)
  unfold placeKey
  split
  · rw [place_eq h]
    exact ⟨rfl, hsymbols, hstarts⟩
  · exact ⟨rfl, hsymbols, hstarts⟩

/-! ### The ids that are kept -/

theorem given_append (ks : List κ) (k : κ) : L.given (ks ++ [k]) = L.give (L.given ks) k := by
  rw [Layout.given, List.foldl_append]
  rfl

theorem give_eq (h : given.automaton.WellFormed) (k : κ) : L.give given k =
    ⟨(k, (given.automaton.addState (L.name k)).1) :: given.ids, L.placeKey given.automaton k⟩ := by
  unfold give placeKey
  cases L.mark? k with
  | none => rfl
  | some final =>
    dsimp only
    rw [place_eq h]

section Ids
variable [DecidableEq κ]

/-- Each of the keys `ks` has an id, and every id that is kept is that of a state with the name of its key. -/
structure Keeps (L : Layout κ) (ks : List κ) (given : Given κ) : Prop where
  wellFormed : given.automaton.WellFormed
  symbols : given.automaton.symbols = L.symbols
  starts : given.automaton.starts = ∅
  found : ∀ k ∈ ks, ∃ i, given.ids.lookup k = some i
  named : ∀ k i, given.ids.lookup k = some i → given.automaton.states[i]? = some (L.name k)

theorem lookup_cons (k k' : κ) (i : Nat) (ids : List (κ × Nat)) :
    ((k, i) :: ids).lookup k' = if k' = k then some i else ids.lookup k' := by
  rw [List.lookup_cons]
  split
  · rename_i he
    rw [if_pos (beq_iff_eq.mp he)]
  · rename_i he
    rw [if_neg (beq_eq_false_iff_ne.mp he)]

/-- Giving one more key its state moves no state that was given before. -/
theorem Keeps.give (h : L.Keeps ks given) (k : κ) : L.Keeps (ks ++ [k]) (L.give given k) := by
  obtain ⟨hstates, hsymbols, hstarts⟩ := placeKey_frame (L := L) h.wellFormed k
  rw [give_eq h.wellFormed]
  refine ⟨wellFormed_placeKey h.wellFormed k, hsymbols.trans h.symbols, hstarts.trans h.starts, ?_, ?_⟩
  · intro k' hk'
    rw [lookup_cons]
    split
    · exact ⟨_, rfl⟩
    · rename_i hne
      exact h.found k' ((List.mem_append.mp hk').resolve_right fun hlast => hne (List.mem_singleton.mp hlast))
  · intro k' i hi
    rw [lookup_cons] at hi
    dsimp only
    rw [hstates]
    split at hi
    · rename_i he
      rw [← Option.some.inj hi, he]
      exact getElem?_states_addState_self h.wellFormed.states_nodup
    · have hold := h.named k' i hi
      rw [getElem?_states_addState (lt_of_getElem?_states hold)]
      exact hold

theorem keeps_given (hsymbols : L.symbols.Nodup) (ks : List κ) : L.Keeps ks (L.given ks) := by
  induction ks using List.reverseRecOn with
  | nil => exact ⟨wellFormed_noStates hsymbols, rfl, rfl, fun _ hk => absurd hk List.not_mem_nil, fun _ _ => nofun⟩
  | append_singleton ks k ih =>
    rw [given_append]
    exact ih.give k

theorem automaton_given (hsymbols : L.symbols.Nodup) (ks : List κ) : (L.given ks).automaton = L.placeKeys ks := by
  induction ks using List.reverseRecOn with
  | nil => rfl
  | append_singleton ks k ih => rw [given_append, placeKeys_append, give_eq (keeps_given hsymbols ks).wellFormed, ih]

theorem Keeps.lt (h : L.Keeps ks given) (hi : given.ids.lookup k = some i) : i < given.automaton.numStates :=
  lt_of_getElem?_states (h.named k i hi)

/-- The id kept with a key is the one that its name is found under. -/
theorem Keeps.exists_id (h : L.Keeps ks given) (hA : A.states = given.automaton.states) (hk : k ∈ ks) :
    ∃ i, given.ids.lookup k = some i ∧ A.stateId? (L.name k) = some i := by
  obtain ⟨i, hi⟩ := h.found k hk
  refine ⟨i, hi, ?_⟩
  rw [stateId?_congr hA, stateId?_eq_some_iff h.wellFormed.states_nodup]
  exact h.named k i hi

/-! ### Both ways to the same automaton -/

theorem Keeps.foldl_addStart (h : L.Keeps ks given) (hA : A.states = given.automaton.states) {ss : List κ}
    (hss : ∀ k ∈ ss, k ∈ ks) : ss.foldl (fun A k => (A.addStart (L.name k)).2) A =
      { A with starts := A.starts.insertMany (ss.filterMap fun k => given.ids.lookup k) } := by
  induction ss generalizing A with
  | nil => rfl
  | cons k ss ih =>
    obtain ⟨hk, hss⟩ := List.forall_mem_cons.mp hss
    obtain ⟨i, hi, hid⟩ := h.exists_id hA hk
    simp only [List.filterMap_cons, hi, List.foldl_cons, addStart_of_stateId? hid]
    exact ih hA hss

theorem Keeps.addTransitions (h : L.Keeps ks given) (hA : A.states = given.automaton.states)
    {es : List (κ × Label × κ)} (hes : ∀ e ∈ es, e.1 ∈ ks ∧ e.2.2 ∈ ks) : A.addTransitions (es.map L.namedArc) =
      (es.filterMap (transition? given.ids)).foldl (fun B t => (B.connect t).2) A := by
  induction es generalizing A with
  | nil => rfl
  | cons e es ih =>
    obtain ⟨k, l, k'⟩ := e
    obtain ⟨⟨hk, hk'⟩, hes⟩ := List.forall_mem_cons.mp hes
    obtain ⟨i, hi, hid⟩ := h.exists_id hA hk
    obtain ⟨j, hj, hjd⟩ := h.exists_id hA hk'
    have ht : transition? given.ids (k, l, k') = some ⟨i, l, j⟩ := by
      rw [transition?, hi, hj]
      rfl
    rw [List.filterMap_cons_some ht, List.foldl_cons]
    change (A.addTransition (L.name k) l (L.name k')).2.addTransitions (es.map L.namedArc) = _
    rw [addTransition_of_stateId? hid hjd]
    exact ih ((states_connect _).trans hA) hes

/-- The alphabet holds each symbol once, the keys of start states are among the keys, and each key leads to keys, on
symbols of the alphabet. -/
structure Closed (L : Layout κ) : Prop where
  symbols_nodup : L.symbols.Nodup
  starts_mem : ∀ k ∈ L.starts, k ∈ L.keys
  targets_mem : ∀ k ∈ L.keys, ∀ m ∈ L.moves k, m.2 ∈ L.keys
  declared : ∀ k ∈ L.keys, ∀ m ∈ L.moves k, ∀ a, m.1 = .symbol a → a ∈ L.symbols

omit [DecidableEq κ] in
theorem mem_arcs_iff {e : κ × Label × κ} : e ∈ L.arcs ↔ e.1 ∈ L.keys ∧ e.2 ∈ L.moves e.1 := by
  obtain ⟨k, m⟩ := e
  simp [arcs, List.mem_flatMap]

/-- Laid out by ids, the automaton is the one put together by names. -/
theorem build_eq_byName (h : L.Closed) : L.build = L.byName := by
  have hkeeps := keeps_given h.symbols_nodup L.keys
  have hends : ∀ e ∈ L.arcs, e.1 ∈ L.keys ∧ e.2.2 ∈ L.keys := fun e he => by
    obtain ⟨hk, hm⟩ := mem_arcs_iff.mp he
    exact ⟨hk, h.targets_mem e.1 hk e.2 hm⟩
  have hstarted := hkeeps.foldl_addStart rfl h.starts_mem
  rw [hkeeps.starts] at hstarted
  rw [byName, ← automaton_given h.symbols_nodup, hstarted]
  refine Eq.symm (hkeeps.addTransitions ?_ hends)
  rfl

/-! ### What is laid out fits together -/

theorem transition?_eq_some_iff {ids : List (κ × Nat)} {e : κ × Label × κ} {t : Transition} :
    transition? ids e = some t ↔
      ids.lookup e.1 = some t.source ∧ e.2.1 = t.label ∧ ids.lookup e.2.2 = some t.target := by
  obtain ⟨k, l, k'⟩ := e
  obtain ⟨i, l', j⟩ := t
  change ((ids.lookup k).bind fun i => (ids.lookup k').bind fun j => some (⟨i, l, j⟩ : Transition)) = some ⟨i, l', j⟩ ↔ _
  simp only [Option.bind_eq_some_iff, Option.some.injEq, Transition.mk.injEq]
  constructor
  · rintro ⟨_, hi, _, hj, rfl, rfl, rfl⟩
    exact ⟨hi, rfl, hj⟩
  · rintro ⟨hi, hl, hj⟩
    exact ⟨i, hi, j, hj, rfl, hl, rfl⟩

/-- Only ids that were given are used, whatever the keys lead to. -/
theorem wellFormed_build (h : L.symbols.Nodup) : L.build.WellFormed := by
  have hkeeps := keeps_given h L.keys
  refine (hkeeps.wellFormed.withStarts fun i hi => ?_).foldl_connect fun t ht => ?_
  · obtain ⟨k, -, hk⟩ := List.mem_filterMap.mp (StateSet.mem_ofList.mp hi)
    exact hkeeps.lt hk
  · obtain ⟨e, -, he⟩ := List.mem_filterMap.mp ht
    obtain ⟨hsource, -, htarget⟩ := transition?_eq_some_iff.mp he
    exact ⟨hkeeps.lt hsource, hkeeps.lt htarget⟩

theorem symbols_build (h : L.Closed) : L.build.symbols = L.symbols := by
  have hkeeps := keeps_given h.symbols_nodup L.keys
  refine (congrArg Automaton.symbols (foldl_connect_eq fun t ht a ha => ?_)).trans hkeeps.symbols
  obtain ⟨e, he, hte⟩ := List.mem_filterMap.mp ht
  obtain ⟨hk, hm⟩ := mem_arcs_iff.mp he
  obtain ⟨-, hlabel, -⟩ := transition?_eq_some_iff.mp hte
  change a ∈ (L.given L.keys).automaton.symbols
  rw [hkeeps.symbols]
  exact h.declared e.1 hk e.2 hm a (hlabel.trans ha)

end Ids

/-! ### The content -/

/-- No state is made final for one of the keys and not final for another. -/
def MarksAgree (L : Layout κ) (ks : List κ) : Prop :=
  ∀ k ∈ ks, ∀ k' ∈ ks, L.name k = L.name k' → L.mark? k = some true → L.mark? k' ≠ some false

/-- If no two keys have one name, no two marks are set on one state. -/
theorem marksAgree_of_names (h : ∀ k ∈ ks, ∀ k' ∈ ks, L.name k = L.name k' → k = k') : L.MarksAgree ks := by
  intro k hk k' hk' hname hfinal
  rw [← h k hk k' hk' hname, hfinal]
  exact fun he => Bool.false_ne_true (Option.some.inj he).symm

theorem content_placeKey (h : A.WellFormed) (k : κ) : (L.placeKey A k).content = { A.content with
    states := insert (L.name k) A.content.states
    finals := match L.mark? k with
      | some true => insert (L.name k) A.content.finals
      | some false => A.content.finals \ {L.name k}
      | none => A.content.finals } := by
  unfold placeKey
  cases L.mark? k with
  | none => exact content_addState h (L.name k)
  | some final =>
    refine (content_place h (L.name k) final).trans ?_
    cases final with
    | true => rfl
    | false => rfl

theorem content_placeKeys (h : L.symbols.Nodup) (hmarks : L.MarksAgree ks) : (L.placeKeys ks).WellFormed ∧
    (L.placeKeys ks).content = ⟨{q | ∃ k ∈ ks, q = L.name k}, {a | a ∈ L.symbols}, ∅,
      {q | ∃ k ∈ ks, L.mark? k = some true ∧ q = L.name k}, ∅⟩ := by
  induction ks using List.reverseRecOn with
  | nil =>
    refine ⟨wellFormed_noStates h, (content_noStates L.symbols).trans ?_⟩
    simp
  | append_singleton ks k ih =>
    obtain ⟨hwf, hcontent⟩ := ih fun k hk k' hk' =>
      hmarks k (List.mem_append_left _ hk) k' (List.mem_append_left _ hk')
    have hsplit : ∀ P : κ → State → Prop, {q | ∃ x ∈ ks ++ [k], P x q} = {q | P k q ∨ ∃ x ∈ ks, P x q} := fun P => by
      simp [or_comm, or_and_right, exists_or]
    rw [placeKeys_append]
    refine ⟨wellFormed_placeKey hwf k, ?_⟩
    rw [content_placeKey hwf, hcontent]
    refine Content.mk.injEq .. |>.mpr ⟨?_, rfl, rfl, ?_, rfl⟩
    · exact (hsplit fun x q => q = L.name x).symm
    · rw [hsplit fun x q => L.mark? x = some true ∧ q = L.name x]
      cases hk : L.mark? k with
      | none => exact Set.ext fun q => by simp
      | some final =>
        cases final with
        | true => exact Set.ext fun q => by simp
        | false =>
          -- no key of this name has made its state final, so there is no mark to take away
          have hnew : L.name k ∉ {q | ∃ k' ∈ ks, L.mark? k' = some true ∧ q = L.name k'} := by
            rintro ⟨k', hk', hfinal, hname⟩
            exact hmarks k' (List.mem_append_left _ hk') k (List.mem_append_right _ (List.mem_singleton_self k))
              hname.symm hfinal hk
          exact (Set.sdiff_singleton_eq_self hnew).trans (Set.ext fun q => by simp)

theorem mem_namedArcs_iff {x : State × Label × State} : x ∈ L.arcs.map L.namedArc ↔
    ∃ k ∈ L.keys, ∃ m ∈ L.moves k, x = (L.name k, m.1, L.name m.2) := by
  rw [List.mem_map]
  constructor
  · rintro ⟨⟨k, m⟩, he, rfl⟩
    obtain ⟨hk, hm⟩ := mem_arcs_iff.mp he
    exact ⟨k, hk, m, hm, rfl⟩
  · rintro ⟨k, hk, m, hm, rfl⟩
    exact ⟨(k, m), mem_arcs_iff.mpr ⟨hk, hm⟩, rfl⟩

/-- The automaton that is laid out, by names. -/
theorem content_build [DecidableEq κ] (h : L.Closed) (hmarks : L.MarksAgree L.keys) : L.build.content = {
    states := {q | ∃ k ∈ L.keys, q = L.name k}
    symbols := {a | a ∈ L.symbols}
    starts := {q | ∃ k ∈ L.starts, q = L.name k}
    finals := {q | ∃ k ∈ L.keys, L.mark? k = some true ∧ q = L.name k}
    arcs := {x | ∃ k ∈ L.keys, ∃ m ∈ L.moves k, x = (L.name k, m.1, L.name m.2)} } := by
  obtain ⟨hwf, hplaced⟩ := content_placeKeys h.symbols_nodup hmarks
  obtain ⟨hwf, hstarted⟩ := content_startAll (f := L.name) hwf L.starts
  have hadd := content_addTransitions_of_mem hwf (L.arcs.map L.namedArc)
  rw [hstarted, hplaced] at hadd
  rw [build_eq_byName h, byName, hadd]
  · refine Content.mk.injEq .. |>.mpr ⟨?_, rfl, ?_, rfl, ?_⟩
    · refine Set.ext fun q => or_iff_left_of_imp ?_
      rintro ⟨k, hk, rfl⟩
      exact ⟨k, h.starts_mem k hk, rfl⟩
    · exact Set.ext fun q => or_iff_right (Set.notMem_empty q)
    · exact Set.ext fun x => (or_iff_right (Set.notMem_empty x)).trans mem_namedArcs_iff
  · intro x hx
    obtain ⟨k, hk, m, hm, rfl⟩ := mem_namedArcs_iff.mp hx
    exact ⟨Or.inl ⟨k, hk, rfl⟩, Or.inl ⟨m.2, h.targets_mem k hk m hm, rfl⟩⟩
  · intro x hx a ha
    obtain ⟨k, hk, m, hm, rfl⟩ := mem_namedArcs_iff.mp hx
    exact h.declared k hk m hm a ha

end Layout

end FiniteAutomata
