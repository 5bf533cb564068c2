import Mathlib.Data.List.ProdSigma
import FiniteAutomata.Automaton.Product
import FiniteAutomata.Proofs.Automaton.Accessible
import FiniteAutomata.Proofs.Automaton.Layout
import FiniteAutomata.Proofs.Automaton.Named
import FiniteAutomata.Proofs.State.Names

/-!
The product of two automata. Two runs along one word are in the pairs that the pairs before the last symbol lead to
(`bothIn_append_iff`), so the search for accessible pairs finds exactly the pairs that two runs are in; there are
only so many pairs, so it ends by itself (`explores_accessiblePairs`). The empty moves of the two automata are taken
together with the symbols, so the product has none, and by names it is after a word in the pairs that the two runs
are in (`named_run_intersection`), if different pairs have different names.
-/

namespace FiniteAutomata.Automaton

variable {A B P : Automaton} {S T : StateSet} {pq next : Nat × Nat} {a : Symbol} {i j : Nat} {w : List Symbol}
  {x : State}

/-! ### Two runs along one word -/

/-- The two runs along the word are in the two states of the pair. -/
def BothIn (A B : Automaton) (w : List Symbol) (pq : Nat × Nat) : Prop := pq.1 ∈ A.run w ∧ pq.2 ∈ B.run w

theorem mem_pairsOf_iff : pq ∈ pairsOf S T ↔ pq.1 ∈ S ∧ pq.2 ∈ T := by
  obtain ⟨p, q⟩ := pq
  simp [pairsOf]

theorem mem_startPairs_iff : pq ∈ A.startPairs B ↔ A.BothIn B [] pq := mem_pairsOf_iff

theorem mem_run_append_iff : j ∈ A.run (w ++ [a]) ↔ ∃ i ∈ A.run w, j ∈ A.step (.singleton i) a := by
  rw [run_append, mem_step_iff]
  refine exists_congr fun i => and_congr_right fun _ => ?_
  simp [mem_step_iff]

/-- The pairs that two runs are in step pair by pair. -/
theorem bothIn_append_iff : A.BothIn B (w ++ [a]) next ↔ ∃ pq, A.BothIn B w pq ∧ next ∈ A.pairsOn B pq a := by
  rw [BothIn, mem_run_append_iff, mem_run_append_iff]
  constructor
  · rintro ⟨⟨p, hp, hleft⟩, q, hq, hright⟩
    exact ⟨(p, q), ⟨hp, hq⟩, mem_pairsOf_iff.mpr ⟨hleft, hright⟩⟩
  · rintro ⟨⟨p, q⟩, ⟨hp, hq⟩, hnext⟩
    obtain ⟨hleft, hright⟩ := mem_pairsOf_iff.mp hnext
    exact ⟨⟨p, hp, hleft⟩, q, hq, hright⟩

theorem mem_shared_of_mem_pairsOn (hA : A.WellFormed) (hB : B.WellFormed) (h : next ∈ A.pairsOn B pq a) :
    a ∈ Symbol.shared A.symbols B.symbols := by
  obtain ⟨hleft, hright⟩ := mem_pairsOf_iff.mp h
  exact Symbol.mem_shared.mpr ⟨mem_symbols_of_mem_step hA hleft, mem_symbols_of_mem_step hB hright⟩

theorem BothIn.lt (hA : A.WellFormed) (hB : B.WellFormed) (h : A.BothIn B w pq) :
    pq.1 < A.numStates ∧ pq.2 < B.numStates := ⟨lt_of_mem_run hA h.1, lt_of_mem_run hB h.2⟩

/-! ### The search -/

/-- The pairs that a pair leads to on the shared symbols. -/
def pairNext (A B : Automaton) (pq : Nat × Nat) : List (Nat × Nat) :=
  (Symbol.shared A.symbols B.symbols).flatMap (A.pairsOn B pq)

/-- The search for accessible pairs without a bound: it ends in `pairs`, and each closure it takes goes on until empty
moves lead to nothing new. -/
structure ExploresPairs (A B : Automaton) (pairs : List (Nat × Nat)) : Prop where
  search : Search.BreadthFirst (A.pairNext B) (A.startPairs B) pairs
  left_closures : ∀ S, StateSet.Exhausts (fun i => A.table.targets i .epsilon) S S (A.closure S)
  right_closures : ∀ S, StateSet.Exhausts (fun i => B.table.targets i .epsilon) S S (B.closure S)

section Pairs
variable (hA : A.WellFormed) (hB : B.WellFormed)
include hA hB

theorem mem_pairNext_iff : next ∈ A.pairNext B pq ↔ ∃ a, next ∈ A.pairsOn B pq a := by
  rw [pairNext, List.mem_flatMap]
  exact exists_congr fun a => and_iff_right_of_imp (mem_shared_of_mem_pairsOn hA hB)

theorem reached_pair_iff : Search.Reached (A.pairNext B) (A.startPairs B) pq ↔ ∃ w, A.BothIn B w pq := by
  constructor
  · rintro ⟨start, hstart, hreached⟩
    induction hreached with
    | refl => exact ⟨[], mem_startPairs_iff.mp hstart⟩
    | tail _ hnext ih =>
      obtain ⟨w, hw⟩ := ih
      obtain ⟨a, ha⟩ := (mem_pairNext_iff hA hB).mp hnext
      exact ⟨w ++ [a], bothIn_append_iff.mpr ⟨_, hw, ha⟩⟩
  · rintro ⟨w, hw⟩
    induction w using List.reverseRecOn generalizing pq with
    | nil => exact ⟨pq, mem_startPairs_iff.mpr hw, .refl⟩
    | append_singleton w a ih =>
      obtain ⟨before, hbefore, hnext⟩ := bothIn_append_iff.mp hw
      obtain ⟨start, hstart, hreached⟩ := ih hbefore
      exact ⟨start, hstart, hreached.tail ((mem_pairNext_iff hA hB).mpr ⟨a, hnext⟩)⟩

theorem explores_accessiblePairs : A.ExploresPairs B (A.accessiblePairs B) where
  search := by
    have hbound : ∀ pq, Search.Reached (A.pairNext B) (A.startPairs B) pq →
        pq ∈ List.range A.numStates ×ˢ List.range B.numStates := by
      intro pq hpq
      obtain ⟨w, hw⟩ := (reached_pair_iff hA hB).mp hpq
      obtain ⟨hleft, hright⟩ := hw.lt hA hB
      exact List.pair_mem_product.mpr ⟨List.mem_range.mpr hleft, List.mem_range.mpr hright⟩
    refine Search.breadthFirst_ends hbound (Nat.le_of_eq ?_)
    rw [List.length_product, List.length_range, List.length_range]
  left_closures := exhausts_closure A
  right_closures := exhausts_closure B

theorem mem_accessiblePairs_iff : pq ∈ A.accessiblePairs B ↔ ∃ w, A.BothIn B w pq :=
  (explores_accessiblePairs hA hB).search.searching.mem_iff.trans (reached_pair_iff hA hB)

theorem lt_of_mem_accessiblePairs (h : pq ∈ A.accessiblePairs B) : pq.1 < A.numStates ∧ pq.2 < B.numStates := by
  obtain ⟨w, hw⟩ := (mem_accessiblePairs_iff hA hB).mp h
  exact hw.lt hA hB

theorem pairsOn_mem_accessiblePairs (h : pq ∈ A.accessiblePairs B) (hnext : next ∈ A.pairsOn B pq a) :
    next ∈ A.accessiblePairs B := by
  obtain ⟨w, hw⟩ := (mem_accessiblePairs_iff hA hB).mp h
  exact (mem_accessiblePairs_iff hA hB).mpr ⟨w ++ [a], bothIn_append_iff.mpr ⟨pq, hw, hnext⟩⟩

theorem pairState_inj (hn : A.PairsApart B) {pq pq' : Nat × Nat} (h : pq.1 < A.numStates ∧ pq.2 < B.numStates)
    (h' : pq'.1 < A.numStates ∧ pq'.2 < B.numStates) (he : A.pairState B pq = A.pairState B pq') : pq = pq' := by
  have hmem : ∀ {C : Automaton} {i : Nat}, i < C.numStates → C.state i ∈ C.states :=
    fun hi => List.mem_of_getElem? (getElem?_states hi)
  obtain ⟨hleft, hright⟩ := hn _ (hmem h.1) _ (hmem h.2) _ (hmem h'.1) _ (hmem h'.2) he
  exact Prod.ext (state_inj hA h.1 h'.1 hleft) (state_inj hB h.2 h'.2 hright)

end Pairs

/-! ### The content of the product -/

theorem mem_pairMoves_iff {m : Label × (Nat × Nat)} : m ∈ A.pairMoves B pq ↔
    ∃ a ∈ Symbol.shared A.symbols B.symbols, ∃ next ∈ A.pairsOn B pq a, m = (.symbol a, next) := by
  simp only [pairMoves, List.mem_flatMap, List.mem_map, eq_comm (a := m)]

theorem shared_nodup (hA : A.WellFormed) (B : Automaton) : (Symbol.shared A.symbols B.symbols).Nodup :=
  hA.symbols_nodup.filter _

theorem wellFormed_intersection (hA : A.WellFormed) (B : Automaton) : (A.intersection B).WellFormed :=
  Layout.wellFormed_build (L := A.productLayout B) (shared_nodup hA B)

theorem closed_productLayout (hA : A.WellFormed) (hB : B.WellFormed) : (A.productLayout B).Closed where
  symbols_nodup := shared_nodup hA B
  starts_mem pq hpq := (mem_accessiblePairs_iff hA hB).mpr ⟨[], mem_startPairs_iff.mp hpq⟩
  targets_mem pq hpq m hm := by
    obtain ⟨a, -, next, hnext, rfl⟩ := mem_pairMoves_iff.mp hm
    exact pairsOn_mem_accessiblePairs hA hB hpq hnext
  declared pq _ m hm b hb := by
    obtain ⟨a, ha, next, -, rfl⟩ := mem_pairMoves_iff.mp hm
    cases hb
    exact ha

section Content
variable (hA : A.WellFormed) (hB : B.WellFormed) (hn : A.PairsApart B)
include hA hB hn

theorem marksAgree_productLayout : (A.productLayout B).MarksAgree (A.accessiblePairs B) :=
  Layout.marksAgree_of_names fun _ hpq _ hpq' => pairState_inj hA hB hn (lt_of_mem_accessiblePairs hA hB hpq)
    (lt_of_mem_accessiblePairs hA hB hpq')

/-- The product by names. -/
theorem content_intersection : (A.intersection B).content = {
    states := {x | ∃ pq ∈ A.accessiblePairs B, A.pairState B pq = x}
    symbols := {a | a ∈ A.symbols ∧ a ∈ B.symbols}
    starts := {x | ∃ pq ∈ A.startPairs B, x = A.pairState B pq}
    finals := {x | ∃ pq ∈ A.accessiblePairs B, (pq.1 ∈ A.finals ∧ pq.2 ∈ B.finals) ∧ A.pairState B pq = x}
    arcs := {t | ∃ pq ∈ A.accessiblePairs B, ∃ a ∈ Symbol.shared A.symbols B.symbols, ∃ next ∈ A.pairsOn B pq a,
      t = (A.pairState B pq, .symbol a, A.pairState B next)} } := by
  refine (Layout.content_build (closed_productLayout hA hB) (marksAgree_productLayout hA hB hn)).trans ?_
  refine Content.mk.injEq .. |>.mpr ⟨?_, ?_, rfl, ?_, ?_⟩
  · exact Set.ext fun x => exists_congr fun pq => and_congr_right fun _ => eq_comm
  · exact Set.ext fun a => Symbol.mem_shared
  · ext x
    refine exists_congr fun pq => and_congr_right fun _ => and_congr ?_ eq_comm
    change some (A.finals.contains pq.1 && B.finals.contains pq.2) = some true ↔ _
    rw [Option.some.injEq, Bool.and_eq_true, StateSet.contains_iff, StateSet.contains_iff]
  · ext t
    refine exists_congr fun pq => and_congr_right fun _ => ?_
    constructor
    · rintro ⟨m, hm, rfl⟩
      obtain ⟨a, ha, next, hnext, rfl⟩ := mem_pairMoves_iff.mp hm
      exact ⟨a, ha, next, hnext, rfl⟩
    · rintro ⟨a, ha, next, hnext, rfl⟩
      exact ⟨_, mem_pairMoves_iff.mpr ⟨a, ha, next, hnext, rfl⟩, rfl⟩

theorem not_mem_targets_epsilon_intersection (i j : Nat) : j ∉ (A.intersection B).table.targets i .epsilon := by
  intro hj
  have hP := wellFormed_intersection hA B
  obtain ⟨hi, hj'⟩ := getElem?_states_of_mem_targets hP hj
  have harc := (mem_arcs_iff hP hi hj').mpr hj
  rw [content_intersection hA hB hn] at harc
  obtain ⟨pq, -, a, -, next, -, he⟩ := harc
  rw [Prod.mk.injEq, Prod.mk.injEq] at he
  exact absurd he.2.1 nofun

end Content

/-! ### Runs by names, without empty moves -/

section Named
variable (hP : P.WellFormed) (hempty : ∀ i j, j ∉ P.table.targets i .epsilon)
include hempty

theorem named_run_nil : P.named (P.run []) = P.content.starts := by
  have hrun : P.run [] = P.starts := StateSet.ext fun j => by
    rw [mem_run_iff]
    simp [leads_nil_iff hempty]
  rw [hrun]
  rfl

include hP

theorem mem_named_run_append_iff :
    x ∈ P.named (P.run (w ++ [a])) ↔ ∃ y ∈ P.named (P.run w), (y, .symbol a, x) ∈ P.content.arcs := by
  constructor
  · rintro ⟨j, hj, hx⟩
    obtain ⟨i, hi, hstep⟩ := mem_run_append_iff.mp hj
    obtain ⟨i', hi', k, hk, hkj⟩ := mem_step_iff.mp hstep
    obtain rfl := StateSet.mem_singleton.mp hi'
    obtain rfl := (leads_nil_iff hempty).mp hkj
    obtain ⟨hname, -⟩ := getElem?_states_of_mem_targets hP hk
    exact ⟨P.state i', ⟨i', hi, hname⟩, (mem_arcs_iff hP hname hx).mpr hk⟩
  · rintro ⟨y, ⟨i, hi, hy⟩, harc⟩
    obtain ⟨i', j, hi', hj, hstep⟩ := mem_content_arcs_iff.mp harc
    obtain rfl := id_unique hP.states_nodup hy hi'
    refine ⟨j, mem_run_append_iff.mpr ⟨i, hi, ?_⟩, hj⟩
    exact mem_step_iff.mpr ⟨i, StateSet.mem_singleton.mpr rfl, j, hstep, .refl P j⟩

end Named

/-! ### Runs of the product -/

section Language
variable (hA : A.WellFormed) (hB : B.WellFormed) (hn : A.PairsApart B)
include hA hB hn

/-- After a word the product is in the pairs that the runs of both automata are in. -/
theorem named_run_intersection (w : List Symbol) : (A.intersection B).named ((A.intersection B).run w) =
    {x | ∃ pq, A.BothIn B w pq ∧ A.pairState B pq = x} := by
  have hP := wellFormed_intersection hA B
  have hempty := not_mem_targets_epsilon_intersection hA hB hn
  induction w using List.reverseRecOn with
  | nil =>
    rw [named_run_nil hempty, content_intersection hA hB hn]
    simp only [mem_startPairs_iff, eq_comm]
  | append_singleton w a ih =>
    ext x
    rw [mem_named_run_append_iff hP hempty, ih, content_intersection hA hB hn]
    constructor
    · rintro ⟨y, ⟨pq, hpq, rfl⟩, pq', hpq', b, hb, next, hnext, he⟩
      rw [Prod.mk.injEq, Prod.mk.injEq, Label.symbol.injEq] at he
      obtain ⟨hname, rfl, rfl⟩ := he
      obtain rfl := pairState_inj hA hB hn (hpq.lt hA hB) (lt_of_mem_accessiblePairs hA hB hpq') hname
      exact ⟨next, bothIn_append_iff.mpr ⟨pq, hpq, hnext⟩, rfl⟩
    · rintro ⟨next, hboth, rfl⟩
      obtain ⟨pq, hpq, hnext⟩ := bothIn_append_iff.mp hboth
      have hpair := (mem_accessiblePairs_iff hA hB).mpr ⟨w, hpq⟩
      have hshared := mem_shared_of_mem_pairsOn hA hB hnext
      exact ⟨A.pairState B pq, ⟨pq, hpq, rfl⟩, pq, hpair, a, hshared, next, hnext, rfl⟩

theorem intersection_accepts (ls : List Label) :
    (A.intersection B).accepts ls = true ↔ A.accepts ls = true ∧ B.accepts ls = true := by
  rw [accepts_iff_exists_named (wellFormed_intersection hA B), named_run_intersection hA hB hn,
    content_intersection hA hB hn, accepts, accepts, StateSet.intersects_iff, StateSet.intersects_iff]
  constructor
  · rintro ⟨x, ⟨pq, hpq, rfl⟩, pq', hpq', hfinal, hname⟩
    obtain rfl := pairState_inj hA hB hn (lt_of_mem_accessiblePairs hA hB hpq') (hpq.lt hA hB) hname
    exact ⟨⟨pq'.1, hpq.1, hfinal.1⟩, pq'.2, hpq.2, hfinal.2⟩
  · rintro ⟨⟨p, hp, hpf⟩, q, hq, hqf⟩
    have hboth : A.BothIn B (Label.spelled ls) (p, q) := ⟨hp, hq⟩
    exact ⟨_, ⟨(p, q), hboth, rfl⟩, (p, q), (mem_accessiblePairs_iff hA hB).mpr ⟨_, hboth⟩, ⟨hpf, hqf⟩, rfl⟩

end Language

/-! ### The result -/

/-- The product is found by a search that ends by itself. If different pairs have different names, it accepts what
both automata accept, it has no empty moves, and its alphabet is what both alphabets share. -/
theorem intersection_accepts_iff_both (hA : A.WellFormed) (hB : B.WellFormed) (hn : A.PairsApart B) :
    A.ExploresPairs B (A.accessiblePairs B) ∧
    (∀ ls, (A.intersection B).accepts ls = true ↔ A.accepts ls = true ∧ B.accepts ls = true) ∧
    (∀ i j, j ∉ (A.intersection B).table.targets i .epsilon) ∧
    ∀ a, a ∈ (A.intersection B).symbols ↔ a ∈ A.symbols ∧ a ∈ B.symbols := by
  refine ⟨explores_accessiblePairs hA hB, intersection_accepts hA hB hn,
    not_mem_targets_epsilon_intersection hA hB hn, fun a => ?_⟩
  have hsymbols := congrArg Content.symbols (content_intersection hA hB hn)
  exact Set.ext_iff.mp hsymbols a

/-- Words that end in `a`, from two start states in a cycle of empty moves; `c` may be read as well. -/
def lastIsA : Automaton := .ofEdits
  [.addStart ⟨"p,"⟩, .addStart ⟨"q"⟩, .addEpsilon ⟨"p,"⟩ ⟨"q"⟩, .addEpsilon ⟨"q"⟩ ⟨"p,"⟩,
    .addTransition ⟨"p,"⟩ (.symbol ⟨"a"⟩) ⟨"q"⟩, .addTransition ⟨"q"⟩ (.symbol ⟨"b"⟩) ⟨"q"⟩,
    .addTransition ⟨"q"⟩ (.symbol ⟨"c"⟩) ⟨"p,"⟩, .addTransition ⟨"q"⟩ (.symbol ⟨"a"⟩) ⟨"r"⟩, .addFinal ⟨"r"⟩]

/-- Words in which `a` and `b` take turns, from `a` to `a`; `d` may be read before each `a`. -/
def takingTurns : Automaton := .ofEdits
  [.addStart ⟨"0"⟩, .addTransition ⟨"0"⟩ (.symbol ⟨"a"⟩) ⟨" 1"⟩, .addTransition ⟨" 1"⟩ (.symbol ⟨"b"⟩) ⟨"0"⟩,
    .addTransition ⟨"0"⟩ (.symbol ⟨"d"⟩) ⟨"0"⟩, .addFinal ⟨" 1"⟩]

theorem lastIsA_intersection_takingTurns :
    (lastIsA.WellFormed ∧ takingTurns.WellFormed ∧ lastIsA.PairsApart takingTurns) ∧
    lastIsA.ExploresPairs takingTurns (lastIsA.accessiblePairs takingTurns) ∧
    (∀ ls, (lastIsA.intersection takingTurns).accepts ls = true ↔
      lastIsA.accepts ls = true ∧ takingTurns.accepts ls = true) ∧
    (∀ i j, j ∉ (lastIsA.intersection takingTurns).table.targets i .epsilon) ∧
    ∀ a, a ∈ (lastIsA.intersection takingTurns).symbols ↔ a ∈ lastIsA.symbols ∧ a ∈ takingTurns.symbols := by
  have hA : lastIsA.WellFormed := wellFormed_ofEdits _
  have hB : takingTurns.WellFormed := wellFormed_ofEdits _
  have hn : lastIsA.PairsApart takingTurns := pairsApart_of_no_separator (by decide +kernel) _
  exact ⟨⟨hA, hB, hn⟩, intersection_accepts_iff_both hA hB hn⟩

end FiniteAutomata.Automaton
