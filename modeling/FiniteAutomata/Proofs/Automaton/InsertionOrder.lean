import FiniteAutomata.Proofs.Automaton.Product
import FiniteAutomata.Proofs.Deterministic.Nerode

/-!
Ids follow the order in which states and symbols are first mentioned, and with them go the order in which sets and
pairs of states are found, the order of blocks and the order of the states of every result. By name nothing of that
is left: the powerset automaton and the product are made of the runs of the content
(`content_determinize_eq_powerset`, `content_intersection_eq_product`) and the minimized automaton of its words
(`Deterministic.content_minimize`), so automata of one content have results of one content
(`results_eq_of_content_eq`).
-/

namespace FiniteAutomata

namespace Content

variable {C E : Content}

/-- The accessible powerset automaton: the states a run may be in, as one state. -/
def powerset (C : Content) : Content where
  states := {q | ∃ w, (C.run w).Nonempty ∧ q.Names (C.run w)}
  symbols := C.symbols
  starts := {q | (C.run []).Nonempty ∧ q.Names (C.run [])}
  finals := {q | ∃ w, C.Accepts w ∧ q.Names (C.run w)}
  arcs := {x | ∃ w a, (C.run (w ++ [a])).Nonempty ∧
    x.1.Names (C.run w) ∧ x.2.1 = .symbol a ∧ x.2.2.Names (C.run (w ++ [a]))}

/-- The accessible product: the states that two runs may be in along one word. -/
def product (C E : Content) : Content where
  states := {x | ∃ w, ∃ p ∈ C.run w, ∃ q ∈ E.run w, .pair p q = x}
  symbols := C.symbols ∩ E.symbols
  starts := {x | ∃ p ∈ C.run [], ∃ q ∈ E.run [], x = .pair p q}
  finals := {x | ∃ w, ∃ p ∈ C.run w, ∃ q ∈ E.run w, (p ∈ C.finals ∧ q ∈ E.finals) ∧ .pair p q = x}
  arcs := {t | ∃ w, ∃ p ∈ C.run w, ∃ q ∈ E.run w, ∃ a p' q', C.Steps p a p' ∧ E.Steps q a q' ∧
    t = (.pair p q, .symbol a, .pair p' q')}

end Content

namespace Automaton

variable {A A' B : Automaton} {S T : StateSet} {p q x : State} {a : Symbol} {i j : Nat} {w : List Symbol}

/-! ### The powerset automaton -/

section Powerset
variable (hA : A.WellFormed)
include hA

theorem names_run_iff (w : List Symbol) : q.Names (A.content.run w) ↔ q = A.merge (A.run w) := by
  rw [← named_run hA]
  exact State.names_iff fun p => mem_members_iff_mem_named fun i hi => lt_of_mem_run hA hi

theorem run_content_nonempty_iff (w : List Symbol) : (A.content.run w).Nonempty ↔ ∃ i, i ∈ A.run w := by
  rw [← named_run hA]
  constructor
  · rintro ⟨q, i, hi, -⟩
    exact ⟨i, hi⟩
  · rintro ⟨i, hi⟩
    exact ⟨A.state i, i, hi, getElem?_states (lt_of_mem_run hA hi)⟩

/-- The accessible sets are the runs, so what holds of some accessible set holds of some run. -/
theorem exists_mem_accessibleSets_iff {P : StateSet → Prop} :
    (∃ S ∈ A.accessibleSets, P S) ↔ ∃ w, (A.content.run w).Nonempty ∧ P (A.run w) := by
  simp only [mem_accessibleSets_iff hA, run_content_nonempty_iff hA]
  constructor
  · rintro ⟨S, ⟨hsome, w, rfl⟩, hP⟩
    exact ⟨w, hsome, hP⟩
  · rintro ⟨w, hsome, hP⟩
    exact ⟨_, ⟨hsome, w, rfl⟩, hP⟩

/-- The powerset automaton is made of the runs of the content. -/
theorem content_determinize_eq_powerset : A.determinize.automaton.content = A.content.powerset := by
  rw [content_determinize hA]
  refine Content.mk.injEq .. |>.mpr ⟨?_, rfl, ?_, ?_, ?_⟩
  · ext q
    simp only [Set.mem_ofPred_eq, exists_mem_accessibleSets_iff hA, names_run_iff hA]
  · ext q
    simp only [Set.mem_ofPred_eq, run_content_nonempty_iff hA, names_run_iff hA]
    rfl
  · ext q
    simp only [Set.mem_ofPred_eq, exists_mem_accessibleSets_iff hA, names_run_iff hA, ← accepts_content_iff hA]
    refine exists_congr fun w => and_iff_right_of_imp ?_
    rintro ⟨⟨p, hp, -⟩, -⟩
    exact ⟨p, hp⟩
  · ext ⟨p, l, q⟩
    simp only [Set.mem_ofPred_eq, exists_mem_accessibleSets_iff hA, names_run_iff hA, run_content_nonempty_iff hA,
      run_append, Prod.mk.injEq]
    constructor
    · rintro ⟨w, -, a, -, hstep, hx⟩
      exact ⟨w, a, hstep, hx⟩
    · rintro ⟨w, a, ⟨j, hj⟩, hx⟩
      exact ⟨w, exists_mem_of_mem_step hj, a, mem_symbols_of_mem_step hA hj, ⟨j, hj⟩, hx⟩

end Powerset

/-! ### The product -/

/-- A pair of ids in two sets stands for a pair of states that the sets stand for. -/
theorem exists_mem_pairsOf_iff {P : State → State → Prop} (hS : ∀ i ∈ S, i < A.numStates)
    (hT : ∀ j ∈ T, j < B.numStates) :
    (∃ pq ∈ pairsOf S T, P (A.state pq.1) (B.state pq.2)) ↔ ∃ p ∈ A.named S, ∃ q ∈ B.named T, P p q := by
  constructor
  · rintro ⟨⟨i, j⟩, hij, hP⟩
    obtain ⟨hi, hj⟩ := mem_pairsOf_iff.mp hij
    exact ⟨_, ⟨i, hi, getElem?_states (hS i hi)⟩, _, ⟨j, hj, getElem?_states (hT j hj)⟩, hP⟩
  · rintro ⟨p, ⟨i, hi, hp⟩, q, ⟨j, hj, hq⟩, hP⟩
    rw [← state_of_getElem? hp, ← state_of_getElem? hq] at hP
    exact ⟨(i, j), mem_pairsOf_iff.mpr ⟨hi, hj⟩, hP⟩

section Product
variable (hA : A.WellFormed) (hB : B.WellFormed)
include hA hB

theorem exists_bothIn_iff {P : State → State → Prop} (w : List Symbol) :
    (∃ pq, A.BothIn B w pq ∧ P (A.state pq.1) (B.state pq.2)) ↔
      ∃ p ∈ A.content.run w, ∃ q ∈ B.content.run w, P p q := by
  rw [← named_run hA, ← named_run hB]
  simp only [BothIn, ← mem_pairsOf_iff]
  exact exists_mem_pairsOf_iff (fun _ hi => lt_of_mem_run hA hi) fun _ hj => lt_of_mem_run hB hj

theorem exists_mem_accessiblePairs_iff {P : State → State → Prop} :
    (∃ pq ∈ A.accessiblePairs B, P (A.state pq.1) (B.state pq.2)) ↔
      ∃ w, ∃ p ∈ A.content.run w, ∃ q ∈ B.content.run w, P p q := by
  simp only [mem_accessiblePairs_iff hA hB, ← exists_bothIn_iff hA hB]
  constructor
  · rintro ⟨pq, ⟨w, hw⟩, hP⟩
    exact ⟨w, pq, hw, hP⟩
  · rintro ⟨w, pq, hw, hP⟩
    exact ⟨pq, ⟨w, hw⟩, hP⟩

/-- The pairs that a pair leads to on a shared symbol; on other symbols it leads nowhere. -/
theorem exists_mem_pairsOn_iff {P : Symbol → State → State → Prop} (hi : i < A.numStates) (hj : j < B.numStates) :
    (∃ a ∈ Symbol.shared A.symbols B.symbols, ∃ next ∈ A.pairsOn B (i, j) a,
        P a (A.state next.1) (B.state next.2)) ↔
      ∃ a p q, A.content.Steps (A.state i) a p ∧ B.content.Steps (B.state j) a q ∧ P a p q := by
  refine exists_congr fun a => ?_
  have hleft : ∀ k ∈ A.step (.singleton i) a, k < A.numStates := fun _ hk => lt_of_mem_step hA hk
  have hright : ∀ k ∈ B.step (.singleton j) a, k < B.numStates := fun _ hk => lt_of_mem_step hB hk
  have hpairs := exists_mem_pairsOf_iff (P := P a) hleft hright
  rw [named_step_singleton hA (getElem?_states hi), named_step_singleton hB (getElem?_states hj)] at hpairs
  constructor
  · rintro ⟨-, hnext⟩
    obtain ⟨p, hp, q, hq, hP⟩ := hpairs.mp hnext
    exact ⟨p, q, hp, hq, hP⟩
  · rintro ⟨p, q, hp, hq, hP⟩
    obtain ⟨next, hnext, hP⟩ := hpairs.mpr ⟨p, hp, q, hq, hP⟩
    have hnext : next ∈ A.pairsOn B (i, j) a := hnext
    exact ⟨mem_shared_of_mem_pairsOn hA hB hnext, next, hnext, hP⟩

/-- The product is made of the runs of both contents. -/
theorem content_intersection_eq_product (hn : A.PairsApart B) :
    (A.intersection B).content = A.content.product B.content := by
  have hfinal : ∀ {C : Automaton} {i : Nat}, C.WellFormed → i < C.numStates →
      (i ∈ C.finals ↔ C.state i ∈ C.content.finals) :=
    fun hC hi => (mem_named_iff hC.states_nodup (getElem?_states hi)).symm
  rw [content_intersection hA hB hn]
  refine Content.mk.injEq .. |>.mpr ⟨?_, rfl, ?_, ?_, ?_⟩
  · ext x
    exact exists_mem_accessiblePairs_iff hA hB (P := fun p q => .pair p q = x)
  · ext x
    simp only [Set.mem_ofPred_eq, mem_startPairs_iff]
    exact exists_bothIn_iff hA hB (P := fun p q => x = .pair p q) []
  · ext x
    refine Iff.trans (exists_congr fun pq => and_congr_right fun hpq => ?_) (exists_mem_accessiblePairs_iff hA hB
      (P := fun p q => (p ∈ A.content.finals ∧ q ∈ B.content.finals) ∧ .pair p q = x))
    obtain ⟨hi, hj⟩ := lt_of_mem_accessiblePairs hA hB hpq
    rw [hfinal hA hi, hfinal hB hj]
    rfl
  · ext t
    refine Iff.trans (exists_congr fun pq => and_congr_right fun hpq => ?_) (exists_mem_accessiblePairs_iff hA hB
      (P := fun p q => ∃ a p' q', A.content.Steps p a p' ∧ B.content.Steps q a q' ∧
        t = (.pair p q, .symbol a, .pair p' q')))
    obtain ⟨hi, hj⟩ := lt_of_mem_accessiblePairs hA hB hpq
    exact exists_mem_pairsOn_iff hA hB hi hj
      (P := fun a p q => t = (A.pairState B pq, .symbol a, .pair p q))

end Product

/-! ### The same names in another order -/

/-- The transitions in the order of the table, by name. -/
def namedEdges (A : Automaton) : List (State × Label × State) :=
  A.table.edges.map fun t => (A.state t.source, t.label, A.state t.target)

theorem mem_namedEdges_iff (hA : A.WellFormed) {x : State × Label × State} :
    x ∈ A.namedEdges ↔ x ∈ A.content.arcs := by
  rw [namedEdges, List.mem_map]
  refine exists_congr fun t => ?_
  rw [TransitionTable.mem_edges]
  refine and_congr_right fun ht => ?_
  rw [getElem?_states (hA.source_lt t ht), getElem?_states (hA.target_lt t ht), Option.some.injEq, Option.some.injEq,
    Prod.ext_iff, Prod.ext_iff]

theorem content_eq_of_perm (hA : A.WellFormed) (hA' : A'.WellFormed) (hstates : A.states.Perm A'.states)
    (hsymbols : A.symbols.Perm A'.symbols) (hstarts : (A.members A.starts).Perm (A'.members A'.starts))
    (hfinals : (A.members A.finals).Perm (A'.members A'.finals)) (hedges : A.namedEdges.Perm A'.namedEdges) :
    A.content = A'.content := by
  refine Content.ext ?_ ?_ ?_ ?_ ?_
  · exact Set.ext fun q => hstates.mem_iff
  · exact Set.ext fun a => hsymbols.mem_iff
  · ext q
    exact (mem_members_iff_mem_named hA.starts_lt).symm.trans
      (hstarts.mem_iff.trans (mem_members_iff_mem_named hA'.starts_lt))
  · ext q
    exact (mem_members_iff_mem_named hA.finals_lt).symm.trans
      (hfinals.mem_iff.trans (mem_members_iff_mem_named hA'.finals_lt))
  · ext x
    rw [← mem_namedEdges_iff hA, ← mem_namedEdges_iff hA', hedges.mem_iff]

theorem mem_states_iff_of_content_eq (h : A.content = A'.content) : q ∈ A.states ↔ q ∈ A'.states :=
  Set.ext_iff.mp (congrArg Content.states h) q

theorem NamesApart.congr (hn : A.NamesApart) (h : A.content = A'.content) : A'.NamesApart := by
  intro ps qs hp hq hps hqs
  simp only [← mem_states_iff_of_content_eq h] at hps hqs
  exact hn ps qs hp hq hps hqs

theorem PairsApart.congr (hn : A.PairsApart B) (h : A.content = A'.content) : A'.PairsApart B := by
  intro p hp q hq p' hp' q' hq'
  rw [← mem_states_iff_of_content_eq h] at hp hp'
  exact hn p hp q hq p' hp' q' hq'

/-! ### The result -/

theorem content_minimize_eq_minimized (hA : A.WellFormed) (hdet : A.isDeterministic = true) (hn : A.NamesApart) :
    ∃ D, Deterministic.ofAutomaton A = .ok D ∧ D.minimize.automaton.content = A.content.minimized := by
  refine ⟨⟨A⟩, if_pos hdet, ?_⟩
  exact Deterministic.content_minimize (D := ⟨A⟩) hA hdet hn

/-- Automata that say the same by name, in whatever order, have the same powerset automaton, the same minimized
automaton and the same products by name, the second if they are deterministic. -/
theorem results_eq_of_content_eq (hA : A.WellFormed) (hA' : A'.WellFormed) (h : A.content = A'.content) :
    A.determinize.automaton.content = A'.determinize.automaton.content ∧
    (A.isDeterministic = true → A'.isDeterministic = true → A.NamesApart →
      ∃ D D', Deterministic.ofAutomaton A = .ok D ∧ Deterministic.ofAutomaton A' = .ok D' ∧
        D.minimize.automaton.content = D'.minimize.automaton.content) ∧
    ∀ B : Automaton, B.WellFormed → A.PairsApart B → (A.intersection B).content = (A'.intersection B).content := by
  refine ⟨?_, fun hdet hdet' hn => ?_, fun B hB hn => ?_⟩
  · rw [content_determinize_eq_powerset hA, content_determinize_eq_powerset hA', h]
  · obtain ⟨D, hD, hcontent⟩ := content_minimize_eq_minimized hA hdet hn
    obtain ⟨D', hD', hcontent'⟩ := content_minimize_eq_minimized hA' hdet' (hn.congr h)
    exact ⟨D, D', hD, hD', by rw [hcontent, hcontent', h]⟩
  · rw [content_intersection_eq_product hA hB hn, content_intersection_eq_product hA' hB (hn.congr h), h]

/-- Words over `a` that end with the first `b`, after an odd number of `a`. -/
def oddThenB : Automaton := .ofEdits
  [.addStart ⟨"s"⟩, .addTransition ⟨"s"⟩ (.symbol ⟨"a"⟩) ⟨"t"⟩, .addTransition ⟨"t"⟩ (.symbol ⟨"a"⟩) ⟨"r"⟩,
    .addTransition ⟨"r"⟩ (.symbol ⟨"a"⟩) ⟨"t"⟩, .addTransition ⟨"t"⟩ (.symbol ⟨"b"⟩) ⟨"u"⟩, .addFinal ⟨"u"⟩,
    .addTransition ⟨"u"⟩ (.symbol ⟨"a"⟩) ⟨"x"⟩]

/-- The same from the end to the beginning. -/
def oddThenBBackwards : Automaton := .ofEdits
  [.addTransition ⟨"u"⟩ (.symbol ⟨"a"⟩) ⟨"x"⟩, .addFinal ⟨"u"⟩, .addTransition ⟨"t"⟩ (.symbol ⟨"b"⟩) ⟨"u"⟩,
    .addTransition ⟨"r"⟩ (.symbol ⟨"a"⟩) ⟨"t"⟩, .addTransition ⟨"t"⟩ (.symbol ⟨"a"⟩) ⟨"r"⟩,
    .addTransition ⟨"s"⟩ (.symbol ⟨"a"⟩) ⟨"t"⟩, .addStart ⟨"s"⟩]

theorem oddThenB_results_eq :
    (oddThenB.WellFormed ∧ oddThenBBackwards.WellFormed ∧ oddThenB.content = oddThenBBackwards.content) ∧
    oddThenB.determinize.automaton.content = oddThenBBackwards.determinize.automaton.content ∧
    (∃ D D', Deterministic.ofAutomaton oddThenB = .ok D ∧ Deterministic.ofAutomaton oddThenBBackwards = .ok D' ∧
      D.minimize.automaton.content = D'.minimize.automaton.content) ∧
    (oddThenB.intersection lastIsA).content = (oddThenBBackwards.intersection lastIsA).content := by
  have hA : oddThenB.WellFormed := wellFormed_ofEdits _
  have hA' : oddThenBBackwards.WellFormed := wellFormed_ofEdits _
  have hB : lastIsA.WellFormed := wellFormed_ofEdits _
  have hcontent : oddThenB.content = oddThenBBackwards.content := content_eq_of_perm hA hA' (by decide +kernel)
    (by decide +kernel) (by decide +kernel) (by decide +kernel) (by decide +kernel)
  have hn : oddThenB.NamesApart := namesApart_of_no_semicolon (by decide +kernel)
  have hpairs : oddThenB.PairsApart lastIsA := pairsApart_of_no_separator (by decide +kernel) _
  obtain ⟨hpowerset, hminimal, hproduct⟩ := results_eq_of_content_eq hA hA' hcontent
  exact ⟨⟨hA, hA', hcontent⟩, hpowerset, hminimal (by decide +kernel) (by decide +kernel) hn, hproduct _ hB hpairs⟩

end Automaton

end FiniteAutomata
