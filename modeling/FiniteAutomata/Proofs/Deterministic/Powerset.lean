import FiniteAutomata.Proofs.Automaton.Accessible
import FiniteAutomata.Proofs.Automaton.Layout
import FiniteAutomata.Proofs.Automaton.Named
import FiniteAutomata.Proofs.Deterministic.Functional
import FiniteAutomata.Proofs.State.Names

/-!
The powerset automaton by names (`content_determinize`), whatever the names are: a state for each name of an
accessible set, and the transitions of all sets of that name. It is deterministic if each accessible set has a name
of its own (`functional_determinize`). It accepts the words of the given automaton if sets of one name accept the
same words (`determinize_accepts`); where it is deterministic, only then (`namesTellWords_of_determinize_accepts`).
-/

namespace FiniteAutomata

namespace Automaton

variable {A : Automaton} {S T : StateSet} {a : Symbol} {i j n : Nat} {v w : List Symbol}

/-! ### Words accepted from a set -/

/-- Whether a run that is in `S` may be in a final state after the word. -/
def acceptsFrom (A : Automaton) (S : StateSet) (w : List Symbol) : Bool := (w.foldl A.step S).intersects A.finals

theorem acceptsFrom_nil_iff : A.acceptsFrom S [] = true ↔ ∃ i ∈ S, i ∈ A.finals := StateSet.intersects_iff

theorem acceptsFrom_run (v w : List Symbol) : A.acceptsFrom (A.run v) w = A.acceptsFrom A.initial (v ++ w) := by
  simp [acceptsFrom, run, List.foldl_append]

theorem exists_mem_of_acceptsFrom (h : A.acceptsFrom S w = true) : ∃ i, i ∈ S := by
  induction w generalizing S with
  | nil =>
    obtain ⟨i, hi, -⟩ := acceptsFrom_nil_iff.mp h
    exact ⟨i, hi⟩
  | cons a w ih =>
    obtain ⟨j, hj⟩ := ih h
    exact exists_mem_of_mem_step hj

/-! ### Names of sets -/

/-- Accessible sets have different names. -/
def SetsApart (A : Automaton) : Prop :=
  ∀ S ∈ A.accessibleSets, ∀ T ∈ A.accessibleSets, A.merge S = A.merge T → S = T

instance (A : Automaton) : Decidable A.SetsApart :=
  inferInstanceAs (Decidable (∀ S ∈ A.accessibleSets, ∀ T ∈ A.accessibleSets, _))

/-- Accessible sets of one name accept the same words. -/
def NamesTellWords (A : Automaton) : Prop :=
  ∀ S ∈ A.accessibleSets, ∀ T ∈ A.accessibleSets, A.merge S = A.merge T → ∀ w, A.acceptsFrom S w = A.acceptsFrom T w

theorem SetsApart.namesTellWords (h : A.SetsApart) : A.NamesTellWords := fun S hS T hT he w => by
  rw [h S hS T hT he]

theorem mem_members_iff (hA : A.WellFormed) (hS : ∀ i ∈ S, i < A.numStates) (hi : i < A.numStates) :
    A.state i ∈ A.members S ↔ i ∈ S := by
  rw [mem_members_iff_mem_named hS, mem_named_iff hA.states_nodup (getElem?_states hi)]

theorem members_subset (hS : ∀ i ∈ S, i < A.numStates) : ∀ q ∈ A.members S, q ∈ A.states := by
  intro q hq
  obtain ⟨i, hi, rfl⟩ := List.mem_map.mp hq
  exact List.mem_of_getElem? (getElem?_states (hS i (StateSet.mem_toList.mp hi)))

theorem NamesApart.setsApart (hn : A.NamesApart) (hA : A.WellFormed) : A.SetsApart := by
  intro S hS T hT he
  have hSlt := lt_of_mem_accessibleSets hA hS
  have hTlt := lt_of_mem_accessibleSets hA hT
  obtain ⟨i, hi⟩ := ((mem_accessibleSets_iff hA).mp hS).1
  obtain ⟨j, hj⟩ := ((mem_accessibleSets_iff hA).mp hT).1
  have hSne := List.ne_nil_of_mem ((mem_members_iff hA hSlt (hSlt i hi)).mpr hi)
  have hTne := List.ne_nil_of_mem ((mem_members_iff hA hTlt (hTlt j hj)).mpr hj)
  have hsame := hn _ _ hSne hTne (members_subset hSlt) (members_subset hTlt) he
  refine StateSet.ext fun k => ⟨fun hk => ?_, fun hk => ?_⟩
  · rwa [← mem_members_iff hA hTlt (hSlt k hk), ← hsame, mem_members_iff hA hSlt (hSlt k hk)]
  · rwa [← mem_members_iff hA hSlt (hTlt k hk), hsame, mem_members_iff hA hTlt (hTlt k hk)]

/-! ### The content of the powerset automaton -/

theorem mem_powersetMoves_iff {m : Label × StateSet} : m ∈ A.powersetMoves S ↔
    ∃ a ∈ A.symbols, (∃ j, j ∈ A.step S a) ∧ m = (.symbol a, A.step S a) := by
  rw [powersetMoves, List.mem_filterMap]
  refine exists_congr fun a => and_congr_right fun _ => ?_
  dsimp only
  split
  · rename_i hnone
    rw [StateSet.isEmpty_iff] at hnone
    simp [hnone]
  · rename_i hsome
    rw [StateSet.not_isEmpty_iff] at hsome
    simp [hsome, eq_comm]

theorem mem_starts_powersetLayout_iff : S ∈ A.powersetLayout.starts ↔ (∃ i, i ∈ A.initial) ∧ S = A.initial := by
  change S ∈ (if A.initial.isEmpty then [] else [A.initial]) ↔ _
  split
  · rename_i hnone
    rw [StateSet.isEmpty_iff] at hnone
    simp [hnone]
  · rename_i hsome
    rw [StateSet.not_isEmpty_iff] at hsome
    simp [hsome]

theorem mark?_powersetLayout_iff : A.powersetLayout.mark? S = some true ↔ ∃ i ∈ S, i ∈ A.finals := by
  rw [← StateSet.intersects_iff]
  change (if S.intersects A.finals then some true else none) = some true ↔ _
  split <;> simp_all

/-- Accessible sets lead to accessible sets, since none leads anywhere on a symbol that is not in the alphabet. -/
theorem closed_powersetLayout (hA : A.WellFormed) : A.powersetLayout.Closed where
  symbols_nodup := hA.symbols_nodup
  starts_mem S hS := by
    obtain ⟨⟨i, hi⟩, rfl⟩ := mem_starts_powersetLayout_iff.mp hS
    exact initial_mem_accessibleSets hA hi
  targets_mem S hS m hm := by
    obtain ⟨a, -, ⟨j, hj⟩, rfl⟩ := mem_powersetMoves_iff.mp hm
    exact step_mem_accessibleSets hA hS hj
  declared S _ m hm b hb := by
    obtain ⟨a, ha, -, rfl⟩ := mem_powersetMoves_iff.mp hm
    cases hb
    exact ha

/-- Final marks are only ever set, so a name that comes again may become final. -/
theorem marksAgree_powersetLayout (sets : List StateSet) : A.powersetLayout.MarksAgree sets := by
  intro S _ T _ _ _
  change (if T.intersects A.finals then some true else none) ≠ some false
  split <;> simp

theorem wellFormed_determinize (hA : A.WellFormed) : A.determinize.automaton.WellFormed :=
  Layout.wellFormed_build (L := A.powersetLayout) hA.symbols_nodup

/-- The powerset automaton by names. -/
theorem content_determinize (hA : A.WellFormed) : A.determinize.automaton.content = {
    states := {q | ∃ S ∈ A.accessibleSets, q = A.merge S}
    symbols := {a | a ∈ A.symbols}
    starts := {q | (∃ i, i ∈ A.initial) ∧ q = A.merge A.initial}
    finals := {q | ∃ S ∈ A.accessibleSets, (∃ i ∈ S, i ∈ A.finals) ∧ q = A.merge S}
    arcs := {x | ∃ S ∈ A.accessibleSets, ∃ a ∈ A.symbols, (∃ j, j ∈ A.step S a) ∧
      x = (A.merge S, .symbol a, A.merge (A.step S a))} } := by
  refine (Layout.content_build (closed_powersetLayout hA) (marksAgree_powersetLayout _)).trans ?_
  refine Content.mk.injEq .. |>.mpr ⟨rfl, rfl, ?_, ?_, ?_⟩
  · ext q
    simp only [mem_starts_powersetLayout_iff, Set.mem_ofPred_eq]
    constructor
    · rintro ⟨S, ⟨hsome, rfl⟩, hq⟩
      exact ⟨hsome, hq⟩
    · rintro ⟨hsome, hq⟩
      exact ⟨_, ⟨hsome, rfl⟩, hq⟩
  · simp only [mark?_powersetLayout_iff]
    rfl
  · ext x
    refine exists_congr fun S => and_congr_right fun _ => ?_
    constructor
    · rintro ⟨m, hm, rfl⟩
      obtain ⟨a, ha, hsome, rfl⟩ := mem_powersetMoves_iff.mp hm
      exact ⟨a, ha, hsome, rfl⟩
    · rintro ⟨a, ha, hsome, rfl⟩
      exact ⟨_, mem_powersetMoves_iff.mpr ⟨a, ha, hsome, rfl⟩, rfl⟩

/-! ### Determinism -/

theorem functional_determinize (hA : A.WellFormed) (hn : A.SetsApart) :
    A.determinize.automaton.content.Functional := by
  rw [content_determinize hA]
  refine ⟨?_, ?_, ?_⟩
  · rintro p ⟨-, rfl⟩ q ⟨-, rfl⟩
    rfl
  · rintro p q ⟨S, -, a, -, -, he⟩
    cases he
  · rintro p l q q' ⟨S, hS, a, -, -, he⟩ ⟨T, hT, b, -, -, he'⟩
    rw [Prod.mk.injEq, Prod.mk.injEq] at he he'
    obtain ⟨rfl, rfl, rfl⟩ := he
    obtain ⟨hST, hab, rfl⟩ := he'
    rw [Label.symbol.injEq] at hab
    rw [hn S hS T hT hST, hab]

/-! ### Words of the powerset automaton -/

section Language
variable (hA : A.WellFormed)
include hA

theorem mem_finals_determinize_iff (hn : A.NamesTellWords) (hS : S ∈ A.accessibleSets)
    (hi : A.determinize.automaton.states[i]? = some (A.merge S)) :
    i ∈ A.determinize.finals ↔ A.acceptsFrom S [] = true := by
  have hfinal : A.merge S ∈ A.determinize.automaton.content.finals ↔ i ∈ A.determinize.finals :=
    mem_named_iff (wellFormed_determinize hA).states_nodup hi
  rw [← hfinal, content_determinize hA]
  constructor
  · rintro ⟨T, hT, hfinals, he⟩
    rw [hn S hS T hT he]
    exact acceptsFrom_nil_iff.mpr hfinals
  · exact fun h => ⟨S, hS, acceptsFrom_nil_iff.mp h, rfl⟩

/-- A step of the powerset automaton is a step of some set of that name. -/
theorem exists_step_of_next? (hi : A.determinize.automaton.states[i]? = some (A.merge S))
    (h : A.determinize.next? i a = some n) : ∃ T ∈ A.accessibleSets, A.merge S = A.merge T ∧
      A.step T a ∈ A.accessibleSets ∧ A.determinize.automaton.states[n]? = some (A.merge (A.step T a)) := by
  have hD := wellFormed_determinize hA
  have harc := Deterministic.arc_of_next? hD h
  rw [state_of_getElem? hi] at harc
  have hget := getElem?_states (Deterministic.target_lt hD h)
  rw [content_determinize hA] at harc
  obtain ⟨T, hT, b, -, ⟨j, hj⟩, he⟩ := harc
  rw [Prod.mk.injEq, Prod.mk.injEq, Label.symbol.injEq] at he
  obtain ⟨hST, rfl, htarget⟩ := he
  exact ⟨T, hT, hST, step_mem_accessibleSets hA hT hj, htarget ▸ hget⟩

theorem arc_mem_determinize (hS : S ∈ A.accessibleSets) (hj : j ∈ A.step S a) :
    (A.merge S, .symbol a, A.merge (A.step S a)) ∈ A.determinize.automaton.content.arcs := by
  rw [content_determinize hA]
  exact ⟨S, hS, a, mem_symbols_of_mem_step hA hj, ⟨j, hj⟩, rfl⟩

/-- Where a set steps to some state, the powerset automaton has a step. -/
theorem next?_ne_none (hS : S ∈ A.accessibleSets) (hi : A.determinize.automaton.states[i]? = some (A.merge S))
    (hj : j ∈ A.step S a) : A.determinize.next? i a ≠ none := by
  have hD := wellFormed_determinize hA
  obtain ⟨i', k, hi', -, hk⟩ := mem_content_arcs_iff.mp (arc_mem_determinize hA hS hj)
  rw [← id_unique hD.states_nodup hi hi'] at hk
  exact fun hnone => StateSet.min?_eq_none_iff.mp hnone k hk

/-- The simulation: from a state named after an accessible set the same words are accepted as from the set. -/
theorem after_mem_finals_iff (hn : A.NamesTellWords) (hS : S ∈ A.accessibleSets)
    (hi : A.determinize.automaton.states[i]? = some (A.merge S)) (w : List Symbol) :
    A.determinize.after i w ∈ A.determinize.finals ↔ A.acceptsFrom S w = true := by
  have hD := wellFormed_determinize hA
  induction w generalizing i S with
  | nil => exact mem_finals_determinize_iff hA hn hS hi
  | cons a w ih =>
    rw [Deterministic.after_cons, Deterministic.next_eq hD]
    cases hnext : A.determinize.next? i a with
    | some n =>
      obtain ⟨T, hT, he, hstep, hget⟩ := exists_step_of_next? hA hi hnext
      have hacc : A.acceptsFrom S (a :: w) = A.acceptsFrom (A.step T a) w := hn S hS T hT he (a :: w)
      rw [Option.getD_some, hacc]
      exact ih hstep hget
    | none =>
      refine iff_of_false (Deterministic.after_dead_not_mem_finals hD w) fun hacc => ?_
      obtain ⟨j, hj⟩ := exists_mem_of_acceptsFrom (S := A.step S a) hacc
      exact next?_ne_none hA hS hi hj hnext

theorem start?_determinize (hi : i ∈ A.initial) : ∃ s, A.determinize.start? = some s ∧
    A.determinize.automaton.states[s]? = some (A.merge A.initial) := by
  have hD := wellFormed_determinize hA
  have hstart : A.merge A.initial ∈ A.determinize.automaton.content.starts := by
    rw [content_determinize hA]
    exact ⟨⟨i, hi⟩, rfl⟩
  obtain ⟨s, hs, -⟩ := hstart
  cases h : A.determinize.start? with
  | none => exact absurd hs (StateSet.min?_eq_none_iff.mp h s)
  | some k =>
    -- whichever start state is taken, it has the name of the initial set
    have hk := StateSet.mem_of_min?_eq_some h
    have hget := getElem?_states (hD.starts_lt k hk)
    have hname : A.determinize.automaton.state k ∈ A.determinize.automaton.content.starts := ⟨k, hk, hget⟩
    rw [content_determinize hA] at hname
    exact ⟨k, rfl, hname.2 ▸ hget⟩

theorem start?_determinize_eq_none (h : ∀ i, i ∉ A.initial) : A.determinize.start? = none := by
  refine StateSet.min?_eq_none_iff.mpr fun k hk => ?_
  have hget := getElem?_states ((wellFormed_determinize hA).starts_lt k hk)
  have hname : A.determinize.automaton.state k ∈ A.determinize.automaton.content.starts := ⟨k, hk, hget⟩
  rw [content_determinize hA] at hname
  obtain ⟨⟨i, hi⟩, -⟩ := hname
  exact h i hi

/-- The powerset automaton accepts the words of the given one, if sets of one name accept the same words. -/
theorem determinize_accepts (hn : A.NamesTellWords) (ls : List Label) :
    A.determinize.accepts ls = A.accepts ls := by
  have hD := wellFormed_determinize hA
  rw [Bool.eq_iff_iff, Deterministic.accepts_iff hD, Deterministic.entry]
  change _ ↔ A.acceptsFrom A.initial (Label.spelled ls) = true
  by_cases hsome : ∃ i, i ∈ A.initial
  · obtain ⟨i, hi⟩ := hsome
    obtain ⟨s, hs, hget⟩ := start?_determinize hA hi
    rw [hs, Option.getD_some]
    exact after_mem_finals_iff hA hn (initial_mem_accessibleSets hA hi) hget _
  · rw [start?_determinize_eq_none hA fun i hi => hsome ⟨i, hi⟩, Option.getD_none]
    exact iff_of_false (Deterministic.after_dead_not_mem_finals hD _) fun h => hsome (exists_mem_of_acceptsFrom h)

/-- If it is deterministic, the powerset automaton is after a word in the state named after the run. -/
theorem getElem?_after_entry (hC : A.determinize.automaton.content.Functional) (hj : j ∈ A.run w) :
    A.determinize.automaton.states[A.determinize.after A.determinize.entry w]? = some (A.merge (A.run w)) := by
  have hD := wellFormed_determinize hA
  induction w using List.reverseRecOn generalizing j with
  | nil =>
    obtain ⟨s, hs, hget⟩ := start?_determinize hA hj
    rw [Deterministic.entry, hs, Option.getD_some]
    exact hget
  | append_singleton w a ih =>
    rw [run_append] at hj ⊢
    obtain ⟨i, hi⟩ := exists_mem_of_mem_step hj
    have hS := (mem_accessibleSets_iff hA).mpr ⟨⟨i, hi⟩, w, rfl⟩
    obtain ⟨k, hk, hget⟩ := Deterministic.next?_of_arc hD hC (ih hi) (arc_mem_determinize hA hS hj)
    have hlast : A.determinize.after A.determinize.entry (w ++ [a]) = k := by
      rw [Deterministic.after_append]
      exact Deterministic.next_of_next? hD hk
    rw [hlast, hget]

/-- A deterministic powerset automaton that accepts the words of the given one has no name for two sets that accept
different words. -/
theorem namesTellWords_of_determinize_accepts (hC : A.determinize.automaton.content.Functional)
    (h : ∀ ls, A.determinize.accepts ls = A.accepts ls) : A.NamesTellWords := by
  have hD := wellFormed_determinize hA
  intro S hS T hT he x
  obtain ⟨⟨i, hi⟩, u, rfl⟩ := (mem_accessibleSets_iff hA).mp hS
  obtain ⟨⟨j, hj⟩, v, rfl⟩ := (mem_accessibleSets_iff hA).mp hT
  have hget := getElem?_after_entry hA hC hi
  rw [he] at hget
  have hsame := id_unique hD.states_nodup hget (getElem?_after_entry hA hC hj)
  have hwords : ∀ w, A.acceptsFrom (A.run w) x = true ↔
      A.determinize.after (A.determinize.after A.determinize.entry w) x ∈ A.determinize.finals := by
    intro w
    have hw := h ((w ++ x).map .symbol)
    rw [Bool.eq_iff_iff, Deterministic.accepts_iff hD, accepts, Label.spelled_map_symbol] at hw
    rw [acceptsFrom_run, ← Deterministic.after_append, hw]
    rfl
  rw [Bool.eq_iff_iff, hwords, hwords, hsame]

end Language

/-! ### The result -/

/-- Determinizing ends by itself, in a deterministic automaton for the same words, if names tell sets of states
apart. -/
theorem determinize_deterministic_accepts (hA : A.WellFormed) (hn : A.NamesApart) :
    A.Explores A.accessibleSets ∧ A.determinize.automaton.isDeterministic = true ∧
      ∀ ls, A.determinize.accepts ls = A.accepts ls := by
  have hapart := hn.setsApart hA
  refine ⟨explores_accessibleSets hA, ?_, determinize_accepts hA hapart.namesTellWords⟩
  exact (isDeterministic_iff (wellFormed_determinize hA)).mpr (functional_determinize hA hapart)

/-- Two start states in a cycle of empty moves, and two states for one symbol. -/
def crossroads : Automaton := .ofEdits
  [.addStart ⟨"p"⟩, .addStart ⟨"q"⟩, .addEpsilon ⟨"p"⟩ ⟨"q"⟩, .addEpsilon ⟨"q"⟩ ⟨"p"⟩,
    .addTransition ⟨"p"⟩ (.symbol ⟨"a"⟩) ⟨"r"⟩, .addTransition ⟨"q"⟩ (.symbol ⟨"a"⟩) ⟨"t"⟩,
    .addTransition ⟨"t"⟩ (.symbol ⟨"b"⟩) ⟨"p"⟩, .addFinal ⟨"r"⟩]

theorem crossroads_determinize_accepts : (crossroads.WellFormed ∧ crossroads.NamesApart) ∧
    crossroads.Explores crossroads.accessibleSets ∧ crossroads.determinize.automaton.isDeterministic = true ∧
      ∀ ls, crossroads.determinize.accepts ls = crossroads.accepts ls := by
  have hA : crossroads.WellFormed := wellFormed_ofEdits _
  have hn : crossroads.NamesApart := namesApart_of_no_semicolon (by decide +kernel)
  exact ⟨⟨hA, hn⟩, determinize_deterministic_accepts hA hn⟩

end Automaton

end FiniteAutomata
