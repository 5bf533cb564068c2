import FiniteAutomata.Proofs.Deterministic.Minimal
import FiniteAutomata.Proofs.Deterministic.Powerset

/-!
Determinizing builds the accessible powerset automaton and nothing else (`powersetOf_determinize`). The sets are
said here by what they hold: the states that empty moves lead to from a start state, and the states that a set
leads to by one transition and empty moves after it. The content of the powerset automaton speaks of sets by their
names; where accessible sets have names of their own, what it says of a name is what is so of the set.
-/

namespace FiniteAutomata.Automaton

variable {A : Automaton} {S T : StateSet} {a : Symbol} {i j : Nat} {w : List Symbol} {q : State}

/-! ### Accessible subsets -/

/-- The set of the states that the start states lead to by empty moves. -/
def IsInitial (A : Automaton) (S : StateSet) : Prop := ∀ j, j ∈ S ↔ ∃ i ∈ A.starts, A.Leads i [] j

/-- `T` is the set of the states that `S` leads to by one transition on `a` and empty moves after it. -/
def MovesTo (A : Automaton) (S : StateSet) (a : Symbol) (T : StateSet) : Prop :=
  ∀ k, k ∈ T ↔ ∃ i ∈ S, ∃ j, (⟨i, .symbol a, j⟩ : Transition) ∈ A.table ∧ A.Leads j [] k

/-- The sets that moves on symbols of the alphabet lead to from the initial one. -/
inductive Accessible (A : Automaton) : StateSet → Prop
  | initial {S : StateSet} : A.IsInitial S → Accessible A S
  | move {S T : StateSet} {a : Symbol} : Accessible A S → a ∈ A.symbols → A.MovesTo S a T → Accessible A T

theorem isInitial_iff : A.IsInitial S ↔ S = A.initial := by
  constructor
  · exact fun h => StateSet.ext fun j => (h j).trans mem_closure_iff.symm
  · rintro rfl j
    exact mem_closure_iff

theorem movesTo_iff : A.MovesTo S a T ↔ T = A.step S a := by
  constructor
  · exact fun h => StateSet.ext fun k => (h k).trans mem_step_iff.symm
  · rintro rfl k
    exact mem_step_iff

theorem Accessible.exists_run (h : A.Accessible S) : ∃ w, S = A.run w := by
  induction h with
  | initial hS => exact ⟨[], isInitial_iff.mp hS⟩
  | @move S T a _ _ hT ih =>
    obtain ⟨w, rfl⟩ := ih
    exact ⟨w ++ [a], (movesTo_iff.mp hT).trans (A.run_append w a).symm⟩

/-- A symbol outside the alphabet leads nowhere, so a run that is in some state has met none. -/
theorem accessible_run (hA : A.WellFormed) (hi : i ∈ A.run w) : A.Accessible (A.run w) := by
  induction w using List.reverseRecOn generalizing i with
  | nil => exact .initial (isInitial_iff.mpr rfl)
  | append_singleton w a ih =>
    rw [run_append] at hi ⊢
    obtain ⟨j, hj⟩ := exists_mem_of_mem_step hi
    exact .move (ih hj) (mem_symbols_of_mem_step hA hi) (movesTo_iff.mpr rfl)

theorem mem_accessibleSets_iff_accessible (hA : A.WellFormed) :
    S ∈ A.accessibleSets ↔ A.Accessible S ∧ ∃ i, i ∈ S := by
  rw [mem_accessibleSets_iff hA]
  constructor
  · rintro ⟨⟨i, hi⟩, w, rfl⟩
    exact ⟨accessible_run hA hi, i, hi⟩
  · rintro ⟨hS, hsome⟩
    exact ⟨hsome, hS.exists_run⟩

/-! ### The parts of the powerset automaton -/

/-- The alphabet is the one given, in its order. -/
theorem symbols_determinize (hA : A.WellFormed) : A.determinize.symbols = A.symbols :=
  Layout.symbols_build (closed_powersetLayout hA)

theorem mem_states_determinize_iff (hA : A.WellFormed) :
    q ∈ A.determinize.automaton.states ↔ ∃ S ∈ A.accessibleSets, q = A.merge S := by
  have hstates := congrArg Content.states (content_determinize hA)
  exact Set.ext_iff.mp hstates q

theorem exists_id_of_mem_accessibleSets (hA : A.WellFormed) (hS : S ∈ A.accessibleSets) :
    ∃ i : Nat, A.determinize.automaton.states[i]? = some (A.merge S) :=
  List.mem_iff_getElem?.mp ((mem_states_determinize_iff hA).mpr ⟨S, hS, rfl⟩)

theorem states_determinize_perm (hA : A.WellFormed) (hn : A.SetsApart) :
    A.determinize.automaton.states.Perm (A.accessibleSets.map A.merge) := by
  have hnodup : (A.accessibleSets.map A.merge).Nodup :=
    (accessibleSets_nodup hA).map_on fun S hS T hT he => hn S hS T hT he
  refine (List.perm_ext_iff_of_nodup (wellFormed_determinize hA).states_nodup hnodup).mpr fun q => ?_
  rw [mem_states_determinize_iff hA, List.mem_map]
  exact exists_congr fun S => and_congr_right fun _ => eq_comm

theorem startState?_determinize (hA : A.WellFormed) (hi : i ∈ A.initial) :
    A.determinize.startState? = some (A.merge A.initial) := by
  obtain ⟨s, hs, hget⟩ := start?_determinize hA hi
  rw [Deterministic.startState?, hs, Option.map_some, state_of_getElem? hget]

/-- Without a start state there is nothing to begin with. -/
theorem states_determinize_eq_nil (hA : A.WellFormed) (h : ∀ i, i ∉ A.starts) :
    A.determinize.automaton.states = [] := by
  refine List.eq_nil_iff_forall_not_mem.mpr fun q hq => ?_
  obtain ⟨S, hS, -⟩ := (mem_states_determinize_iff hA).mp hq
  obtain ⟨⟨j, hj⟩, w, rfl⟩ := (mem_accessibleSets_iff hA).mp hS
  obtain ⟨i, hi, -⟩ := mem_run_iff.mp hj
  exact h i hi

theorem isFinal_merge_iff (hA : A.WellFormed) (hn : A.SetsApart) (hS : S ∈ A.accessibleSets) :
    A.determinize.automaton.isFinal (A.merge S) = true ↔ ∃ i ∈ S, i ∈ A.finals := by
  obtain ⟨i, hi⟩ := exists_id_of_mem_accessibleSets hA hS
  rw [Deterministic.isFinal_eq (wellFormed_determinize hA) hi, ← acceptsFrom_nil_iff,
    ← mem_finals_determinize_iff hA hn.namesTellWords hS hi]
  exact StateSet.contains_iff

theorem transition?_merge (hA : A.WellFormed) (hn : A.SetsApart) (hS : S ∈ A.accessibleSets) (a : Symbol) :
    A.determinize.transition? (A.merge S) a =
      if (A.step S a).isEmpty then none else some (A.merge (A.step S a)) := by
  have hD := wellFormed_determinize hA
  obtain ⟨i, hi⟩ := exists_id_of_mem_accessibleSets hA hS
  rw [Deterministic.transition?_eq hD hi]
  split
  · rename_i hnone
    rw [StateSet.isEmpty_iff] at hnone
    cases hnext : A.determinize.next? i a with
    | none => rfl
    | some k =>
      -- a transition on `a` would be that of a set of the same name, which is `S`
      obtain ⟨T, hT, he, hstep, -⟩ := exists_step_of_next? hA hi hnext
      rw [← hn S hS T hT he] at hstep
      obtain ⟨⟨j, hj⟩, -⟩ := (mem_accessibleSets_iff hA).mp hstep
      exact absurd hj (hnone j)
  · rename_i hsome
    obtain ⟨j, hj⟩ := StateSet.not_isEmpty_iff.mp hsome
    obtain ⟨k, hk, hget⟩ :=
      Deterministic.next?_of_arc hD (functional_determinize hA hn) hi (arc_mem_determinize hA hS hj)
    rw [hk, Option.map_some, state_of_getElem? hget]

/-! ### The result -/

/-- `D` is the accessible powerset automaton of `A`: a state for each accessible set that is not empty, named after
its members, with the moves of the sets as the only transitions. -/
structure PowersetOf (A : Automaton) (D : Deterministic) : Prop where
  symbols : D.symbols = A.symbols
  states_nodup : D.automaton.states.Nodup
  states : ∃ sets : List StateSet, sets.Nodup ∧ (∀ S, S ∈ sets ↔ A.Accessible S ∧ ∃ i, i ∈ S) ∧
    D.automaton.states.Perm (sets.map A.merge)
  start : ∀ S, A.IsInitial S → (∃ i, i ∈ S) → D.startState? = some (A.merge S)
  unstarted : (∀ i, i ∉ A.starts) → D.automaton.states = [] ∧ D.startState? = none
  final : ∀ S, A.Accessible S → (∃ i, i ∈ S) →
    (D.automaton.isFinal (A.merge S) = true ↔ ∃ i ∈ S, i ∈ A.finals)
  transition : ∀ S, A.Accessible S → (∃ i, i ∈ S) → ∀ a T, A.MovesTo S a T →
    D.transition? (A.merge S) a = if T.isEmpty then none else some (A.merge T)
  deterministic : D.automaton.isDeterministic = true

theorem powersetOf_determinize (hA : A.WellFormed) (hn : A.SetsApart) : A.PowersetOf A.determinize where
  symbols := symbols_determinize hA
  states_nodup := (wellFormed_determinize hA).states_nodup
  states := ⟨A.accessibleSets, accessibleSets_nodup hA, fun _ => mem_accessibleSets_iff_accessible hA,
    states_determinize_perm hA hn⟩
  start S hS := by
    rintro ⟨i, hi⟩
    rw [isInitial_iff] at hS
    exact hS ▸ startState?_determinize hA (hS ▸ hi)
  unstarted hnone := by
    refine ⟨states_determinize_eq_nil hA hnone, ?_⟩
    rw [Deterministic.startState?, start?_determinize_eq_none hA, Option.map_none]
    intro j hj
    obtain ⟨i, hi, -⟩ := mem_closure_iff.mp hj
    exact hnone i hi
  final _ hS hsome := isFinal_merge_iff hA hn ((mem_accessibleSets_iff_accessible hA).mpr ⟨hS, hsome⟩)
  transition _ hS hsome a T hT := by
    rw [movesTo_iff] at hT
    exact hT ▸ transition?_merge hA hn ((mem_accessibleSets_iff_accessible hA).mpr ⟨hS, hsome⟩) a
  deterministic := (isDeterministic_iff (wellFormed_determinize hA)).mpr (functional_determinize hA hn)

/-- A choice on the first letter, and one of the ways on in silence; the last state and its symbol are out of
reach. -/
def detour : Automaton := .ofEdits
  [.addStart ⟨"p"⟩, .addTransition ⟨"p"⟩ (.symbol ⟨"a"⟩) ⟨"q"⟩, .addTransition ⟨"p"⟩ (.symbol ⟨"a"⟩) ⟨"r"⟩,
    .addEpsilon ⟨"r"⟩ ⟨"p"⟩, .addTransition ⟨"q"⟩ (.symbol ⟨"b"⟩) ⟨"t"⟩, .addFinal ⟨"t"⟩,
    .addTransition ⟨"u"⟩ (.symbol ⟨"c"⟩) ⟨"p"⟩]

theorem detour_powersetOf :
    (detour.WellFormed ∧ detour.SetsApart) ∧ detour.PowersetOf detour.determinize := by
  have hA : detour.WellFormed := wellFormed_ofEdits _
  have hn : detour.SetsApart := by decide +kernel
  exact ⟨⟨hA, hn⟩, powersetOf_determinize hA hn⟩

example : detour.determinize.automaton.states = [⟨"\x7bp\x7d"⟩, ⟨"\x7bp;q;r\x7d"⟩, ⟨"\x7bt\x7d"⟩] := by
  decide +kernel

end FiniteAutomata.Automaton
