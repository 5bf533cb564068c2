import FiniteAutomata.Proofs.Automaton.Accessible
import FiniteAutomata.Proofs.Automaton.Named

/-!
Closures under empty moves. The closure of names is what empty moves lead to from those of them that are known
(`mem_ecloseAll_iff`), and what else can be said of closures follows from that, whatever cycles the empty moves form.
A search with a stack finds the same states: of the states found all but those on the stack have been looked at, and a
state goes on the stack only when it is found, so the search ends (`stackSearch_ends`) and finds the closure
(`mem_iff_of_stackSearch`).
-/

namespace FiniteAutomata

/-- A transition that reads nothing. -/
def Content.EmptyMove (C : Content) (p q : State) : Prop := (p, .epsilon, q) ∈ C.arcs

theorem Content.leads_nil_iff {C : Content} {p q : State} :
    C.Leads p [] q ↔ Relation.ReflTransGen C.EmptyMove p q := by
  constructor
  · rintro ⟨ls, hp, hw⟩
    induction hp with
    | nil => exact .refl
    | @cons p q r l ls harc _ ih =>
      cases l with
      | symbol a => cases hw
      | epsilon => exact .head harc (ih hw)
  · intro h
    induction h using Relation.ReflTransGen.head_induction_on with
    | refl => exact ⟨[], .nil q, rfl⟩
    | head harc _ ih =>
      obtain ⟨ls, hp, hw⟩ := ih
      exact ⟨.epsilon :: ls, .cons harc hp, hw⟩

namespace Automaton

variable {A B : Automaton} {p q : State} {S : StateSet} {X Y : List State} {found : List Nat} {i j : Nat}

/-! ### The search with a stack -/

def emptyTargets (A : Automaton) (i : Nat) : List Nat := (A.table.targets i .epsilon).toList

/-- Starting with the states of `S` on the stack, looking at the state put on last and putting on what it leads to
unless it is found already, until the stack is empty, finds the states listed. -/
def StackSearch (A : Automaton) (S : StateSet) (found : List Nat) : Prop :=
  Search.Ends (fun new todo => new.reverse ++ todo) A.emptyTargets S.toList.reverse S.toList found

theorem reached_iff_mem_closure : Search.Reached A.emptyTargets S.toList j ↔ j ∈ A.closure S := by
  rw [mem_closure_iff]
  refine exists_congr fun i => ?_
  rw [StateSet.mem_toList, ← linked_iff_leads_nil]
  refine and_congr_right fun _ => ?_
  constructor
  · intro h
    induction h with
    | refl => exact .refl i
    | tail _ hk ih => exact .tail ih (StateSet.mem_toList.mp hk)
  · intro h
    induction h with
    | refl => exact .refl
    | tail _ hk ih => exact .tail ih (StateSet.mem_toList.mpr hk)

theorem searching_stack (A : Automaton) (S : StateSet) :
    Search.Searching A.emptyTargets S.toList S.toList.reverse S.toList where
  nodup := S.toList_nodup
  roots_found _ hi := hi
  todo_found _ hi := List.mem_reverse.mp hi
  reached i hi := ⟨i, hi, .refl⟩
  closed _ hi hnot := absurd (List.mem_reverse.mpr hi) hnot

theorem stackSearch_ends (A : Automaton) (S : StateSet) : ∃ found, A.StackSearch S found := by
  have hnodes : ∀ j, Search.Reached A.emptyTargets S.toList j → j ∈ (A.closure S).toList := fun j hj =>
    StateSet.mem_toList.mpr (reached_iff_mem_closure.mp hj)
  -- each state of the closure is on the stack once, the states of `S` from the beginning
  have hsteps : S.toList.reverse.length + (A.closure S).toList.length ≤
      (A.closure S).toList.length + S.toList.length := by
    rw [List.length_reverse, Nat.add_comm]
  exact ⟨_, (searching_stack A S).ends (fun new todo => new.reverse_perm.append_right todo) hnodes hsteps⟩

theorem StackSearch.searching (h : A.StackSearch S found) : Search.Searching A.emptyTargets S.toList [] found :=
  Search.Ends.searching (fun new todo => new.reverse_perm.append_right todo) h (searching_stack A S)

theorem mem_iff_of_stackSearch (h : A.StackSearch S found) : j ∈ found ↔ j ∈ A.closure S :=
  h.searching.mem_iff.trans reached_iff_mem_closure

/-! ### Closures by name -/

/-- The ids of the states of a list that are known. -/
def seeds (A : Automaton) (X : List State) : StateSet := .ofList (X.filterMap A.stateId?)

theorem mem_seeds_iff (h : A.states.Nodup) : i ∈ A.seeds X ↔ ∃ p ∈ X, A.states[i]? = some p := by
  rw [seeds, StateSet.mem_ofList, List.mem_filterMap]
  exact exists_congr fun p => and_congr_right fun _ => stateId?_eq_some_iff h

/-- What the search finds, by name, is the closure. -/
theorem ofList_map_state_eq_ecloseAll (h : A.StackSearch (A.seeds X) found) :
    Ascending.ofList (found.map A.state) = A.ecloseAll X := by
  refine Ascending.ext (Ascending.ofList_ascending _) (Ascending.ofList_ascending _) fun q => ?_
  change _ ↔ q ∈ A.sortedMembers (A.closure (A.seeds X))
  rw [sortedMembers, Ascending.mem_ofList, Ascending.mem_ofList, members, List.mem_map, List.mem_map]
  exact exists_congr fun j => by rw [mem_iff_of_stackSearch h, StateSet.mem_toList]

/-- What holds of the closures of all names. -/
structure ClosureLaws (A : Automaton) : Prop where
  ends (X : List State) : ∃ found, A.StackSearch (A.seeds X) found
  finds (X : List State) (found : List Nat) : A.StackSearch (A.seeds X) found →
    found.Nodup ∧ Ascending.ofList (found.map A.state) = A.ecloseAll X
  mem_iff (X : List State) (q : State) :
    q ∈ A.ecloseAll X ↔ ∃ p ∈ X, p ∈ A.states ∧ Relation.ReflTransGen A.content.EmptyMove p q
  ascending (X : List State) : Ascending (A.ecloseAll X)
  union (X : List State) (q : State) : q ∈ A.ecloseAll X ↔ ∃ p ∈ X, q ∈ A.eclose p
  idempotent (X : List State) : A.ecloseAll (A.ecloseAll X) = A.ecloseAll X
  extensive (X : List State) (p : State) : p ∈ X → p ∈ A.states → p ∈ A.ecloseAll X
  mono (X Y : List State) : X ⊆ Y → A.ecloseAll X ⊆ A.ecloseAll Y
  mono_moves (B : Automaton) (X : List State) : B.WellFormed → A.states ⊆ B.states →
    (∀ p q, A.content.EmptyMove p q → B.content.EmptyMove p q) → A.ecloseAll X ⊆ B.ecloseAll X

section Laws
variable (hA : A.WellFormed)
include hA

theorem lt_of_mem_closure_seeds (hj : j ∈ A.closure (A.seeds X)) : j < A.numStates := by
  obtain ⟨i, hi, hij⟩ := mem_closure_iff.mp hj
  obtain ⟨p, -, hp⟩ := (mem_seeds_iff hA.states_nodup).mp hi
  exact leads_lt hA (lt_of_getElem?_states hp) hij

/-- Empty moves lead to the members of the closure from the names that are known, and nowhere else. -/
theorem mem_ecloseAll_iff :
    q ∈ A.ecloseAll X ↔ ∃ p ∈ X, p ∈ A.states ∧ Relation.ReflTransGen A.content.EmptyMove p q := by
  change q ∈ A.sortedMembers (A.closure (A.seeds X)) ↔ _
  rw [sortedMembers, Ascending.mem_ofList, mem_members_iff_mem_named fun j => lt_of_mem_closure_seeds hA]
  constructor
  · rintro ⟨j, hj, hq⟩
    obtain ⟨i, hi, hij⟩ := mem_closure_iff.mp hj
    obtain ⟨p, hp, hpi⟩ := (mem_seeds_iff hA.states_nodup).mp hi
    have hleads := (leads_content_iff hA hpi).mpr ⟨j, hq, hij⟩
    exact ⟨p, hp, List.mem_of_getElem? hpi, Content.leads_nil_iff.mp hleads⟩
  · rintro ⟨p, hp, hpA, hpq⟩
    obtain ⟨i, hi⟩ := List.mem_iff_getElem?.mp hpA
    obtain ⟨j, hq, hij⟩ := (leads_content_iff hA hi).mp (Content.leads_nil_iff.mpr hpq)
    exact ⟨j, mem_closure_iff.mpr ⟨i, (mem_seeds_iff hA.states_nodup).mpr ⟨p, hp, hi⟩, hij⟩, hq⟩

theorem mem_states_of_mem_ecloseAll (h : q ∈ A.ecloseAll X) : q ∈ A.states := by
  obtain ⟨p, -, hp, hpq⟩ := (mem_ecloseAll_iff hA).mp h
  rcases hpq.cases_tail with rfl | ⟨r, -, hrq⟩
  · exact hp
  · obtain ⟨-, j, -, hj, -⟩ := mem_content_arcs_iff.mp hrq
    exact List.mem_of_getElem? hj

/-- The closure of one state is that of the list of the state alone. -/
theorem eclose_eq (q : State) : A.eclose q = A.ecloseAll [q] := by
  unfold eclose
  split
  · rename_i i hi
    have hseeds : A.seeds [q] = .singleton i := StateSet.ext fun j => by simp [seeds, hi]
    change _ = A.sortedMembers (A.closure (A.seeds [q]))
    rw [hseeds]
  · rename_i hnone
    refine (List.eq_nil_iff_forall_not_mem.mpr fun p hp => ?_).symm
    obtain ⟨r, hr, hknown, -⟩ := (mem_ecloseAll_iff hA).mp hp
    exact stateId?_eq_none_iff.mp hnone (List.mem_singleton.mp hr ▸ hknown)

theorem mem_ecloseAll_iff_exists_eclose : q ∈ A.ecloseAll X ↔ ∃ p ∈ X, q ∈ A.eclose p := by
  simp only [eclose_eq hA, mem_ecloseAll_iff hA, List.mem_singleton, exists_eq_left]

theorem mem_ecloseAll_of_mem (hp : p ∈ X) (hknown : p ∈ A.states) : p ∈ A.ecloseAll X :=
  (mem_ecloseAll_iff hA).mpr ⟨p, hp, hknown, .refl⟩

theorem ecloseAll_ecloseAll (X : List State) : A.ecloseAll (A.ecloseAll X) = A.ecloseAll X := by
  refine Ascending.ext (Ascending.ofList_ascending _) (Ascending.ofList_ascending _) fun q => ?_
  constructor
  · intro h
    obtain ⟨p, hp, -, hpq⟩ := (mem_ecloseAll_iff hA).mp h
    obtain ⟨r, hr, hknown, hrp⟩ := (mem_ecloseAll_iff hA).mp hp
    exact (mem_ecloseAll_iff hA).mpr ⟨r, hr, hknown, hrp.trans hpq⟩
  · intro h
    exact mem_ecloseAll_of_mem hA h (mem_states_of_mem_ecloseAll hA h)

/-- More names, more states and more empty moves give more. -/
theorem ecloseAll_subset (hB : B.WellFormed) (hX : X ⊆ Y) (hstates : A.states ⊆ B.states)
    (hmoves : ∀ p q, A.content.EmptyMove p q → B.content.EmptyMove p q) : A.ecloseAll X ⊆ B.ecloseAll Y := by
  intro q hq
  obtain ⟨p, hp, hknown, hpq⟩ := (mem_ecloseAll_iff hA).mp hq
  exact (mem_ecloseAll_iff hB).mpr ⟨p, hX hp, hstates hknown, Relation.ReflTransGen.mono hmoves _ _ hpq⟩

/-- The laws hold in every automaton whose parts fit together. -/
theorem closureLaws : A.ClosureLaws where
  ends X := stackSearch_ends A (A.seeds X)
  finds _ _ h := ⟨h.searching.nodup, ofList_map_state_eq_ecloseAll h⟩
  mem_iff _ _ := mem_ecloseAll_iff hA
  ascending _ := Ascending.ofList_ascending _
  union _ _ := mem_ecloseAll_iff_exists_eclose hA
  idempotent := ecloseAll_ecloseAll hA
  extensive _ _ := mem_ecloseAll_of_mem hA
  mono _ _ h := ecloseAll_subset hA hA h (List.Subset.refl _) fun _ _ => id
  mono_moves _ X hB := ecloseAll_subset hA hB (List.Subset.refl X)

end Laws

/-- One state leads into a cycle here, and the other name is unknown. -/
theorem closureLaws_whirl :
    whirl.WellFormed ∧ whirl.ClosureLaws ∧ whirl.ecloseAll [⟨"r"⟩, ⟨"x"⟩] = [⟨"p"⟩, ⟨"q"⟩, ⟨"r"⟩] ∧
      whirl.ecloseAll [⟨"p"⟩, ⟨"q"⟩, ⟨"r"⟩] = [⟨"p"⟩, ⟨"q"⟩, ⟨"r"⟩] ∧
      Relation.ReflTransGen whirl.content.EmptyMove ⟨"r"⟩ ⟨"p"⟩ := by
  have hwhirl : whirl.WellFormed := wellFormed_ofEdits _
  have laws := closureLaws hwhirl
  have hall : whirl.ecloseAll [⟨"r"⟩, ⟨"x"⟩] = [⟨"p"⟩, ⟨"q"⟩, ⟨"r"⟩] := by decide +kernel
  refine ⟨hwhirl, laws, hall, ?_, ?_⟩
  · rw [← hall, laws.idempotent]
  · have hp : (⟨"p"⟩ : State) ∈ whirl.ecloseAll [⟨"r"⟩, ⟨"x"⟩] := by
      rw [hall]
      decide
    obtain ⟨s, hs, hknown, hsp⟩ := (laws.mem_iff _ _).mp hp
    rcases List.mem_pair.mp hs with rfl | rfl
    · exact hsp
    · exact absurd hknown (by decide +kernel)

end Automaton

end FiniteAutomata
