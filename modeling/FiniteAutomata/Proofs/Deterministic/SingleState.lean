import FiniteAutomata.Proofs.Automaton.Equivalence

/-!
A deterministic automaton is at any time in one state at most, the one in which its walk is
(`mem_run_iff_after_entry`), so it accepts the same words whether it is run or walked along
(`accepts_eq_accepts_automaton`). Determinized again, it has one state for each state that it can be in, and the
name of a set with one member can be read back whatever the names are (`setsApart_automaton`), so nothing is lost
by it, and comparing two deterministic automata is comparing their powerset automata
(`isEquivalentTo_eq_isEquivalentTo_automaton`).
-/

namespace FiniteAutomata.Deterministic

variable {D E : Deterministic} {S : StateSet} {i j : Nat} {a : Symbol} {w : List Symbol}

section Single
variable (hD : D.automaton.WellFormed) (hdet : D.automaton.isDeterministic = true)
include hD hdet

/-! ### The walk and the run -/

theorem mem_targets_iff_next? : j ∈ D.automaton.table.targets i (.symbol a) ↔ D.next? i a = some j := by
  obtain ⟨-, -, hone⟩ := (Automaton.isDeterministic_iff_targets hD).mp hdet
  refine ⟨fun hj => ?_, mem_targets_of_next?⟩
  cases hnext : D.next? i a with
  | none => exact absurd hj (StateSet.min?_eq_none_iff.mp hnext j)
  | some k => rw [hone i _ j k hj (mem_targets_of_next? hnext)]

theorem mem_starts_iff_start? : i ∈ D.automaton.starts ↔ D.start? = some i := by
  obtain ⟨hone, -⟩ := (Automaton.isDeterministic_iff_targets hD).mp hdet
  refine ⟨fun hi => ?_, StateSet.mem_of_min?_eq_some⟩
  cases hstart : D.start? with
  | none => exact absurd hi (StateSet.min?_eq_none_iff.mp hstart i)
  | some k => rw [hone i hi k (StateSet.mem_of_min?_eq_some hstart)]

theorem leads_iff_after? : D.automaton.Leads i w j ↔ D.after? i w = some j := by
  obtain ⟨-, hempty, -⟩ := (Automaton.isDeterministic_iff_targets hD).mp hdet
  induction w generalizing i with
  | nil =>
    rw [Automaton.leads_nil_iff hempty]
    exact Option.some_inj.symm
  | cons a w ih =>
    rw [Automaton.leads_cons_iff, after?_cons, Option.bind_eq_some_iff]
    constructor
    · rintro ⟨m, k, hm, hk, hkj⟩
      obtain rfl := (Automaton.leads_nil_iff hempty).mp hm
      exact ⟨k, (mem_targets_iff_next? hD hdet).mp hk, ih.mp hkj⟩
    · rintro ⟨k, hk, hkj⟩
      exact ⟨i, k, .refl _ i, (mem_targets_iff_next? hD hdet).mpr hk, ih.mpr hkj⟩

theorem mem_run_iff_after? : i ∈ D.automaton.run w ↔ ∃ s, D.start? = some s ∧ D.after? s w = some i := by
  rw [Automaton.mem_run_iff]
  exact exists_congr fun s => and_congr (mem_starts_iff_start? hD hdet) (leads_iff_after? hD hdet)

/-- The run is in the state in which the walk is, as long as the walk is not dead. -/
theorem mem_run_iff_after_entry : i ∈ D.automaton.run w ↔ i < D.dead ∧ D.after D.entry w = i := by
  constructor
  · intro hi
    obtain ⟨s, hs, hw⟩ := (mem_run_iff_after? hD hdet).mp hi
    refine ⟨Automaton.lt_of_mem_run hD hi, ?_⟩
    rw [entry, hs, Option.getD_some, after_eq hD, hw, Option.getD_some]
  · rintro ⟨hlt, hw⟩
    rw [mem_run_iff_after? hD hdet]
    cases hs : D.start? with
    | none =>
      rw [entry, hs, Option.getD_none, after_dead] at hw
      exact absurd hlt (hw ▸ Nat.lt_irrefl _)
    | some s =>
      rw [entry, hs, Option.getD_some, after_eq hD] at hw
      cases hw' : D.after? s w with
      | none =>
        rw [hw', Option.getD_none] at hw
        exact absurd hlt (hw ▸ Nat.lt_irrefl _)
      | some k =>
        rw [hw', Option.getD_some] at hw
        exact ⟨s, rfl, hw ▸ hw'⟩

/-- The automaton accepts the same words read with one current state and read with all of them. -/
theorem accepts_eq_accepts_automaton (ls : List Label) : D.accepts ls = D.automaton.accepts ls := by
  rw [Bool.eq_iff_iff, accepts_iff hD, Automaton.accepts, StateSet.intersects_iff]
  constructor
  · intro hf
    have hlt : D.after D.entry (Label.spelled ls) < D.dead := hD.finals_lt _ hf
    exact ⟨_, (mem_run_iff_after_entry hD hdet).mpr ⟨hlt, rfl⟩, hf⟩
  · rintro ⟨i, hi, hf⟩
    rwa [((mem_run_iff_after_entry hD hdet).mp hi).2]

/-! ### Determinized again -/

/-- A run is in a single state, if it is in any. -/
theorem exists_singleton_of_mem_accessibleSets (hS : S ∈ D.automaton.accessibleSets) :
    ∃ i < D.dead, S = .singleton i := by
  obtain ⟨⟨i, hi⟩, w, rfl⟩ := (Automaton.mem_accessibleSets_iff hD).mp hS
  obtain ⟨hlt, hw⟩ := (mem_run_iff_after_entry hD hdet).mp hi
  refine ⟨i, hlt, StateSet.ext fun j => ?_⟩
  rw [mem_run_iff_after_entry hD hdet, hw, StateSet.mem_singleton, eq_comm, and_iff_right_iff_imp]
  rintro rfl
  exact hlt

theorem setsApart_automaton : D.automaton.SetsApart := by
  intro S hS T hT he
  obtain ⟨i, hi, rfl⟩ := exists_singleton_of_mem_accessibleSets hD hdet hS
  obtain ⟨j, hj, rfl⟩ := exists_singleton_of_mem_accessibleSets hD hdet hT
  have hname : ∀ k, D.automaton.merge (.singleton k) = .merged [D.automaton.state k] := fun k =>
    State.merged_congr fun q => by simp [Automaton.members, eq_comm]
  rw [hname, hname] at he
  rw [Automaton.state_inj hD hi hj (State.merged_singleton_inj he)]

theorem determinize_automaton_accepts (ls : List Label) : D.automaton.determinize.accepts ls = D.accepts ls := by
  rw [Automaton.determinize_accepts hD (setsApart_automaton hD hdet).namesTellWords,
    accepts_eq_accepts_automaton hD hdet]

end Single

/-! ### The result -/

/-- Deterministic automata may be compared as they are, or determinized once more. -/
theorem isEquivalentTo_eq_isEquivalentTo_automaton (hD : D.automaton.WellFormed)
    (hdetD : D.automaton.isDeterministic = true) (hE : E.automaton.WellFormed)
    (hdetE : E.automaton.isDeterministic = true) :
    D.isEquivalentTo E = D.automaton.isEquivalentTo E.automaton := by
  rw [Bool.eq_iff_iff, isEquivalentTo_eq_true_iff hD hE, Automaton.isEquivalentTo_iff_determinize hD hE]
  exact forall_congr' fun ls => by
    rw [determinize_automaton_accepts hD hdetD, determinize_automaton_accepts hE hdetE]

/-- Words of even length over `a`, in states one of which is named as if it were both others; the third one is
not reached. -/
def evenNamedLikeSets : Deterministic := ⟨.ofEdits
  [.addStart ⟨"p;\x7bp\x7d"⟩, .addFinal ⟨"p;\x7bp\x7d"⟩,
    .addTransition ⟨"p;\x7bp\x7d"⟩ (.symbol ⟨"a"⟩) ⟨"\x7bp\x7d"⟩,
    .addTransition ⟨"\x7bp\x7d"⟩ (.symbol ⟨"a"⟩) ⟨"p;\x7bp\x7d"⟩,
    .addTransition ⟨"p"⟩ (.symbol ⟨"b"⟩) ⟨"p;\x7bp\x7d"⟩]⟩

/-- Words of even length over `a`, counted up to four. -/
def evenToFour : Deterministic := ⟨.ofEdits
  [.addStart ⟨""⟩, .addFinal ⟨""⟩, .addTransition ⟨""⟩ (.symbol ⟨"a"⟩) ⟨";"⟩,
    .addTransition ⟨";"⟩ (.symbol ⟨"a"⟩) ⟨";;"⟩, .addTransition ⟨";;"⟩ (.symbol ⟨"a"⟩) ⟨";;;"⟩,
    .addTransition ⟨";;;"⟩ (.symbol ⟨"a"⟩) ⟨""⟩, .addFinal ⟨";;"⟩]⟩

theorem evenNamedLikeSets_isEquivalentTo_evenToFour :
    (evenNamedLikeSets.automaton.WellFormed ∧ evenNamedLikeSets.automaton.isDeterministic = true) ∧
    (evenToFour.automaton.WellFormed ∧ evenToFour.automaton.isDeterministic = true) ∧
    evenNamedLikeSets.isEquivalentTo evenToFour =
      evenNamedLikeSets.automaton.isEquivalentTo evenToFour.automaton := by
  have hD : evenNamedLikeSets.automaton.WellFormed := Automaton.wellFormed_ofEdits _
  have hE : evenToFour.automaton.WellFormed := Automaton.wellFormed_ofEdits _
  have hdetD : evenNamedLikeSets.automaton.isDeterministic = true := by decide +kernel
  have hdetE : evenToFour.automaton.isDeterministic = true := by decide +kernel
  exact ⟨⟨hD, hdetD⟩, ⟨hE, hdetE⟩, isEquivalentTo_eq_isEquivalentTo_automaton hD hdetD hE hdetE⟩

end FiniteAutomata.Deterministic
