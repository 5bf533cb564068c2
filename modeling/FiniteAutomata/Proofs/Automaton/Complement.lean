import FiniteAutomata.Automaton.Complement
import FiniteAutomata.Proofs.Automaton.Accessible
import FiniteAutomata.Proofs.Deterministic.Functional

/-!
The complement of an automaton. From every state a word over the alphabet leads somewhere, or it leads to the trap
in the complement (`leads_or_leads_trap`), and a state is final on one side of the two; so with a start state no word
over the alphabet is rejected by both. A deterministic automaton has a deterministic and complete complement, in which
a word leads to one state only, so no word is accepted by both (`complement_accepts`).
-/

namespace FiniteAutomata.Automaton

variable {A : Automaton} {t : Transition} {i j : Nat} {a : Symbol} {w : List Symbol} {ls : List Label}

/-! ### The trap -/

/-- A state has a move on a symbol if the symbol leads somewhere from it. -/
theorem hasMove_iff (hA : A.WellFormed) : A.hasMove i a = true ↔ ∃ j, A.Leads i [a] j := by
  rw [hasMove, List.any_eq_true]
  constructor
  · rintro ⟨m, hm, hedge⟩
    obtain ⟨i', hi', him⟩ := mem_closure_iff.mp (StateSet.mem_toList.mp hm)
    obtain rfl := StateSet.mem_singleton.mp hi'
    obtain ⟨j, hj⟩ := hA.sound.hasEdge_iff.mp hedge
    exact ⟨j, leads_cons_iff.mpr ⟨m, j, him, hj, .refl A j⟩⟩
  · rintro ⟨j, hij⟩
    obtain ⟨m, k, him, hk, -⟩ := leads_cons_iff.mp hij
    have hm : m ∈ A.closure (.singleton i) := mem_closure_iff.mpr ⟨i, StateSet.mem_singleton.mpr rfl, him⟩
    exact ⟨m, StateSet.mem_toList.mpr hm, hA.sound.hasEdge_iff.mpr ⟨k, hk⟩⟩

theorem mem_trapEdges_iff {trap : Nat} : t ∈ A.trapEdges trap ↔ t.target = trap ∧ ∃ a ∈ A.symbols,
    t.label = .symbol a ∧ (t.source = trap ∨ t.source < A.numStates ∧ ¬A.hasMove t.source a = true) := by
  obtain ⟨i, l, j⟩ := t
  simp only [trapEdges, List.mem_append, List.mem_flatMap, List.mem_range, List.mem_map, List.mem_filter,
    Bool.not_eq_true', ← Bool.not_eq_true, Transition.mk.injEq]
  constructor
  · rintro (⟨i, hi, a, ⟨ha, hmove⟩, rfl, rfl, rfl⟩ | ⟨a, ha, rfl, rfl, rfl⟩)
    · exact ⟨rfl, a, ha, rfl, Or.inr ⟨hi, hmove⟩⟩
    · exact ⟨rfl, a, ha, rfl, Or.inl rfl⟩
  · rintro ⟨rfl, a, ha, rfl, rfl | ⟨hi, hmove⟩⟩
    · exact Or.inr ⟨a, ha, rfl, rfl, rfl⟩
    · exact Or.inl ⟨i, hi, a, ⟨ha, hmove⟩, rfl, rfl, rfl⟩

/-- The trap is a new state, and it comes last. -/
theorem complement_eq (A : Automaton) : A.complement = { A with
    states := A.states ++ [A.fresh ⟨"trap"⟩]
    table := A.table.insertMany (A.trapEdges A.numStates)
    finals := (.below A.numStates \ A.finals).insert A.numStates } := by
  rw [complement, addState_fresh]

theorem mem_table_complement_iff :
    t ∈ A.complement.table ↔ t ∈ A.table ∨ t ∈ A.trapEdges A.numStates := by
  rw [complement_eq, TransitionTable.mem_insertMany]

theorem mem_targets_complement_iff {l : Label} : j ∈ A.complement.table.targets i l ↔
    j ∈ A.table.targets i l ∨ (⟨i, l, j⟩ : Transition) ∈ A.trapEdges A.numStates :=
  mem_table_complement_iff (t := ⟨i, l, j⟩)

theorem mem_finals_complement_iff : j ∈ A.complement.finals ↔ j = A.numStates ∨ j < A.numStates ∧ j ∉ A.finals := by
  simp [complement_eq]

theorem numStates_complement : A.complement.numStates = A.numStates + 1 := by
  rw [complement_eq]
  exact List.length_append

theorem wellFormed_complement (hA : A.WellFormed) : A.complement.WellFormed := by
  have hcount : (A.states ++ [A.fresh ⟨"trap"⟩]).length = A.numStates + 1 := List.length_append
  rw [complement_eq]
  refine ((hA.withFresh ⟨"trap"⟩).withTransitions (fun t ht => ?_) fun t ht a he => ?_).withFinals fun j hj => ?_
  · rw [numStates, hcount]
    obtain ⟨htarget, a, -, -, hsource⟩ := mem_trapEdges_iff.mp ht
    omega
  · obtain ⟨-, b, hb, hlabel, -⟩ := mem_trapEdges_iff.mp ht
    obtain rfl := Label.symbol.inj (hlabel.symm.trans he)
    exact hb
  · rw [numStates, hcount]
    rw [StateSet.mem_insert, StateSet.mem_sdiff, StateSet.mem_below] at hj
    omega

/-! ### Where a word leads -/

theorem leads_complement (h : A.Leads i w j) : A.complement.Leads i w j :=
  h.mono fun _ ht => mem_table_complement_iff.mpr (Or.inl ht)

theorem leads_trap (hw : ∀ a ∈ w, a ∈ A.symbols) : A.complement.Leads A.numStates w A.numStates := by
  induction w with
  | nil => exact .refl _ _
  | cons a w ih =>
    obtain ⟨ha, hw⟩ := List.forall_mem_cons.mp hw
    have hloop : (⟨A.numStates, .symbol a, A.numStates⟩ : Transition) ∈ A.complement.table :=
      mem_table_complement_iff.mpr (Or.inr (mem_trapEdges_iff.mpr ⟨rfl, a, ha, rfl, Or.inl rfl⟩))
    exact leads_cons_iff.mpr ⟨_, _, .refl _ _, hloop, ih hw⟩

/-- A word over the alphabet leads somewhere, or it leads to the trap from where it has no move. -/
theorem leads_or_leads_trap (hA : A.WellFormed) (hi : i < A.numStates) (hw : ∀ a ∈ w, a ∈ A.symbols) :
    (∃ j, A.Leads i w j) ∨ A.complement.Leads i w A.numStates := by
  induction w generalizing i with
  | nil => exact Or.inl ⟨i, .refl A i⟩
  | cons a w ih =>
    obtain ⟨ha, hw⟩ := List.forall_mem_cons.mp hw
    by_cases hmove : A.hasMove i a = true
    · obtain ⟨k, hik⟩ := (hasMove_iff hA).mp hmove
      rcases ih (leads_lt hA hi hik) hw with ⟨j, hkj⟩ | htrap
      · exact Or.inl ⟨j, hik.trans hkj⟩
      · exact Or.inr ((leads_complement hik).trans htrap)
    · have hmissing : (⟨i, .symbol a, A.numStates⟩ : Transition) ∈ A.complement.table :=
        mem_table_complement_iff.mpr (Or.inr (mem_trapEdges_iff.mpr ⟨rfl, a, ha, rfl, Or.inr ⟨hi, hmove⟩⟩))
      exact Or.inr (leads_cons_iff.mpr ⟨i, _, .refl _ _, hmissing, leads_trap hw⟩)

/-- With a start state, every word over the alphabet is accepted before or after. -/
theorem accepts_or_complement_accepts (hA : A.WellFormed) (hstart : ∃ i, i ∈ A.starts)
    (hw : ∀ a ∈ Label.spelled ls, a ∈ A.symbols) : A.accepts ls = true ∨ A.complement.accepts ls = true := by
  rw [accepts_iff, accepts_iff]
  obtain ⟨i, hi⟩ := hstart
  have hlt := hA.starts_lt i hi
  rcases leads_or_leads_trap hA hlt hw with ⟨j, hij⟩ | htrap
  · by_cases hj : j ∈ A.finals
    · exact Or.inl ⟨i, hi, j, hj, hij⟩
    · have hflipped : j ∈ A.complement.finals := mem_finals_complement_iff.mpr (Or.inr ⟨leads_lt hA hlt hij, hj⟩)
      exact Or.inr ⟨i, hi, j, hflipped, leads_complement hij⟩
  · exact Or.inr ⟨i, hi, A.numStates, mem_finals_complement_iff.mpr (Or.inl rfl), htrap⟩

/-! ### Deterministic automata -/

section Deterministic
variable (hA : A.WellFormed) (hdet : A.isDeterministic = true)
include hA hdet

theorem isDeterministic_complement : A.complement.isDeterministic = true := by
  obtain ⟨hstarts, hempty, hone⟩ := (isDeterministic_iff_targets hA).mp hdet
  -- where there is a transition on a symbol there is a move, and the trap has none of the old transitions
  have hnone : ∀ {i l j k}, j ∈ A.table.targets i l → (⟨i, l, k⟩ : Transition) ∉ A.trapEdges A.numStates := by
    rintro i l j k hj hk
    obtain ⟨-, a, -, rfl, hi | ⟨-, hmove⟩⟩ := mem_trapEdges_iff.mp hk
    · exact Nat.ne_of_lt (hA.source_lt ⟨i, .symbol a, j⟩ hj) hi
    · exact hmove ((hasMove_iff hA).mpr ⟨j, leads_cons_iff.mpr ⟨i, j, .refl A i, hj, .refl A j⟩⟩)
  refine (isDeterministic_iff_targets (wellFormed_complement hA)).mpr
    ⟨hstarts, fun i j hj => ?_, fun i l j k hj hk => ?_⟩
  · rcases mem_targets_complement_iff.mp hj with hj | hj
    · exact hempty i j hj
    · obtain ⟨-, a, -, he, -⟩ := mem_trapEdges_iff.mp hj
      cases he
  · rcases mem_targets_complement_iff.mp hj with hj | hj <;> rcases mem_targets_complement_iff.mp hk with hk | hk
    · exact hone i l j k hj hk
    · exact absurd hk (hnone hj)
    · exact absurd hj (hnone hk)
    · exact (mem_trapEdges_iff.mp hj).1.trans (mem_trapEdges_iff.mp hk).1.symm

/-- No move is missing in the complement. -/
theorem exists_target_complement (hi : i < A.complement.numStates) (ha : a ∈ A.symbols) :
    ∃ j, j ∈ A.complement.table.targets i (.symbol a) := by
  obtain ⟨-, hempty, -⟩ :=
    (isDeterministic_iff_targets (wellFormed_complement hA)).mp (isDeterministic_complement hA hdet)
  rw [numStates_complement] at hi
  have hleads : ∃ j, A.complement.Leads i [a] j := by
    have hw : ∀ b ∈ [a], b ∈ A.symbols := by simpa using ha
    rcases Nat.lt_succ_iff_lt_or_eq.mp hi with hi | rfl
    · rcases leads_or_leads_trap hA hi hw with ⟨j, hij⟩ | htrap
      · exact ⟨j, leads_complement hij⟩
      · exact ⟨_, htrap⟩
    · exact ⟨_, leads_trap hw⟩
  obtain ⟨j, hij⟩ := hleads
  obtain ⟨m, k, him, hk, -⟩ := leads_cons_iff.mp hij
  obtain rfl := (leads_nil_iff hempty).mp him
  exact ⟨k, hk⟩

theorem not_accepts_both : ¬(A.accepts ls = true ∧ A.complement.accepts ls = true) := by
  rw [accepts_iff, accepts_iff]
  rintro ⟨⟨i, hi, j, hj, hij⟩, i', hi', k, hk, hik⟩
  obtain ⟨hstarts, hempty, hone⟩ :=
    (isDeterministic_iff_targets (wellFormed_complement hA)).mp (isDeterministic_complement hA hdet)
  obtain rfl := hstarts i hi i' hi'
  obtain rfl := leads_unique hempty hone (leads_complement hij) hik
  rcases mem_finals_complement_iff.mp hk with rfl | ⟨-, hk⟩
  · exact Nat.lt_irrefl _ (hA.finals_lt _ hj)
  · exact hk hj

theorem complement_accepts (hstart : ∃ i, i ∈ A.starts) (hw : ∀ a ∈ Label.spelled ls, a ∈ A.symbols) :
    A.complement.accepts ls = !A.accepts ls := by
  refine Bool.eq_not_iff.mpr fun hsame => ?_
  have hone := accepts_or_complement_accepts hA hstart hw
  rw [hsame, or_self] at hone
  exact not_accepts_both hA hdet ⟨hone, hsame.trans hone⟩

end Deterministic

/-! ### The result -/

/-- The complement covers what the automaton with a start state rejects of the words over its alphabet. If the
automaton is deterministic, it accepts nothing else, and it is deterministic and complete. -/
theorem complement_covers_exact (hA : A.WellFormed) (hstart : ∃ i, i ∈ A.starts) :
    (∀ ls, (∀ a ∈ Label.spelled ls, a ∈ A.symbols) → A.accepts ls = true ∨ A.complement.accepts ls = true) ∧
    (A.isDeterministic = true →
      (∀ ls, (∀ a ∈ Label.spelled ls, a ∈ A.symbols) → A.complement.accepts ls = !A.accepts ls) ∧
      A.complement.isDeterministic = true ∧
      ∀ q ∈ A.complement.states, ∀ a ∈ A.symbols, ∃ r, (q, .symbol a, r) ∈ A.complement.content.arcs) ∧
    ∀ ls, (∃ a ∈ Label.spelled ls, a ∉ A.symbols) → A.accepts ls = false ∧ A.complement.accepts ls = false := by
  have hC := wellFormed_complement hA
  refine ⟨fun ls => accepts_or_complement_accepts hA hstart, fun hdet => ?_, fun ls hout => ?_⟩
  · refine ⟨fun ls => complement_accepts hA hdet hstart, isDeterministic_complement hA hdet, fun q hq a ha => ?_⟩
    obtain ⟨i, hi⟩ := List.mem_iff_getElem?.mp hq
    obtain ⟨j, hj⟩ := exists_target_complement hA hdet (lt_of_getElem?_states hi) ha
    exact ⟨_, mem_content_arcs_iff.mpr ⟨i, j, hi, (getElem?_states_of_mem_targets hC hj).2, hj⟩⟩
  · obtain ⟨a, ha, hnot⟩ := hout
    rw [← Bool.not_eq_true, ← Bool.not_eq_true]
    exact ⟨fun h => hnot (mem_symbols_of_accepts hA h a ha), fun h => hnot (mem_symbols_of_accepts hC h a ha)⟩

/-- The word `a`, from a state that is named like a trap; nothing leads anywhere on `b`. -/
def startsAtTrap : Automaton := .ofEdits
  [.addStart ⟨"trap"⟩, .addFinal ⟨"x"⟩, .addTransition ⟨"trap"⟩ (.symbol ⟨"a"⟩) ⟨"x"⟩, .addSymbol ⟨"b"⟩]

theorem startsAtTrap_complement_exact : (startsAtTrap.WellFormed ∧ ∃ i, i ∈ startsAtTrap.starts) ∧
    (startsAtTrap.accepts [.symbol ⟨"a"⟩, .symbol ⟨"b"⟩] = true ∨
      startsAtTrap.complement.accepts [.symbol ⟨"a"⟩, .symbol ⟨"b"⟩] = true) ∧
    (startsAtTrap.isDeterministic = true ∧
      startsAtTrap.complement.accepts [.symbol ⟨"a"⟩] = !startsAtTrap.accepts [.symbol ⟨"a"⟩] ∧
      startsAtTrap.complement.isDeterministic = true ∧
      ∀ q ∈ startsAtTrap.complement.states, ∀ a ∈ startsAtTrap.symbols,
        ∃ r, (q, .symbol a, r) ∈ startsAtTrap.complement.content.arcs) ∧
    startsAtTrap.accepts [.symbol ⟨"c"⟩] = false ∧ startsAtTrap.complement.accepts [.symbol ⟨"c"⟩] = false := by
  have hA : startsAtTrap.WellFormed := wellFormed_ofEdits _
  have hstart : ∃ i, i ∈ startsAtTrap.starts := ⟨0, by decide +kernel⟩
  have hdet : startsAtTrap.isDeterministic = true := by decide +kernel
  obtain ⟨hcovers, hexact, houtside⟩ := complement_covers_exact hA hstart
  obtain ⟨hwords, hcomplete⟩ := hexact hdet
  refine ⟨⟨hA, hstart⟩, hcovers _ (by decide +kernel), ⟨hdet, hwords _ (by decide +kernel), hcomplete⟩, ?_⟩
  exact houtside _ (by decide +kernel)

/-- Two ways to read `a`, of which one ends in a final state. -/
example : let A := ofEdits [.addStart ⟨"s"⟩, .addFinal ⟨"x"⟩, .addTransition ⟨"s"⟩ (.symbol ⟨"a"⟩) ⟨"x"⟩,
      .addTransition ⟨"s"⟩ (.symbol ⟨"a"⟩) ⟨"y"⟩]
    A.accepts [.symbol ⟨"a"⟩] = true ∧ A.complement.accepts [.symbol ⟨"a"⟩] = true := by decide +kernel

end FiniteAutomata.Automaton
