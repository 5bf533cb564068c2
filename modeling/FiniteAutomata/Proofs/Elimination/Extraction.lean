import FiniteAutomata.Elimination.Extract
import FiniteAutomata.Proofs.Automaton.Edits
import FiniteAutomata.Proofs.Automaton.Runs
import FiniteAutomata.Proofs.Elimination.Paths

/-!
The expression of an automaton has the words of the automaton, in whatever order its transitions came. The graph of
an automaton spells its words, also after several start states are entered from a new one
(`Mirrors.spells_withOneStart_iff`), and the expression of a graph with at most one start state has the words that the
graph spells (`matches_toRegex_iff`).
-/

namespace FiniteAutomata

namespace Graph

variable {A : Automaton} {G H : Graph} {i j s n : Nat} {w : List Symbol}

theorem Path.mono (hGH : ∀ p q w, Matches (G.edge p q) w → Matches (H.edge p q) w) (h : G.Path i w j) :
    H.Path i w j := by
  induction h with
  | nil => exact .nil _
  | cons he _ ih => exact .cons (hGH _ _ _ he) ih

/-! ### The expression of a graph -/

theorem matches_foldl_mkUnion {g : Nat → Regex} {l : List Nat} : ∀ {r : Regex},
    Matches (l.foldl (fun r f => .mkUnion r (g f)) r) w ↔ Matches r w ∨ ∃ f ∈ l, Matches (g f) w := by
  induction l with
  | nil => simp
  | cons f l ih =>
    intro r
    rw [List.foldl_cons, ih, Matches.mkUnion_iff, or_assoc]
    simp

/-- With the other final states made basic and the basic states away, the closed form has the words from the
start state to one final state. -/
theorem matches_between_keepFinal (hG : G.WellFormed) (hs : ∀ i, i ∈ G.starts ↔ i = s) (f : Nat) :
    Matches ((G.keepFinal f).eliminateBasic.between s f) w ↔ G.Path s w f := by
  have hs' : s ∈ (G.keepFinal f).starts ∨ s ∈ (G.keepFinal f).finals := Or.inl ((hs s).mpr rfl)
  have hf' : f ∈ (G.keepFinal f).starts ∨ f ∈ (G.keepFinal f).finals :=
    Or.inr (StateSet.mem_singleton.mpr rfl)
  have hkeep : (G.keepFinal f).WellFormed := ⟨hG.edge_ne_empty, hG.source_mem, hG.target_mem⟩
  have hjoins : (G.keepFinal f).eliminateBasic.Joins s f := hkeep.eliminateBasic.joins fun i hi =>
    (mem_states_eliminateBasic.mp hi).2.imp (hs i).mp StateSet.mem_singleton.mp
  rw [← path_iff_between hjoins, path_eliminateBasic_iff hs' hf']
  exact ⟨Path.mono fun _ _ _ h => h, Path.mono fun _ _ _ h => h⟩

/-- The expression of a graph with at most one start state has the words that the graph spells. -/
theorem matches_toRegex_iff (hG : G.WellFormed) (hone : ∀ i ∈ G.starts, ∀ j ∈ G.starts, i = j) :
    Matches G.toRegex w ↔ G.Spells w := by
  unfold toRegex Spells
  cases hmin : G.starts.min? with
  | none =>
    refine iff_of_false Matches.not_empty ?_
    intro h
    obtain ⟨i, hi, -⟩ := h
    exact StateSet.min?_eq_none_iff.mp hmin i hi
  | some s =>
    have hmem := StateSet.mem_of_min?_eq_some hmin
    have hs : ∀ i, i ∈ G.starts ↔ i = s := fun i => ⟨fun hi => hone i hi s hmem, fun hi => hi ▸ hmem⟩
    simp only [matches_foldl_mkUnion, matches_between_keepFinal hG hs, StateSet.mem_toList, Matches.not_empty,
      false_or, hs, exists_eq_left]

/-! ### The graph of an automaton -/

theorem matches_ofLabel_iff {l : Label} : Matches (.ofLabel l) w ↔ Label.spelled [l] = w := by
  cases l with
  | symbol a => rw [Regex.ofLabel, Matches.symbol_iff, eq_comm]; rfl
  | epsilon => rw [Regex.ofLabel, Matches.epsilon_iff, eq_comm]; rfl

/-- `G` has for each transition of `A` an edge that carries its label, and no other words on its edges. -/
def Carries (G : Graph) (A : Automaton) : Prop :=
  ∀ p q w, Matches (G.edge p q) w ↔ ∃ l, (⟨p, l, q⟩ : Transition) ∈ A.table ∧ Label.spelled [l] = w

/-- The transitions of an automaton may be added in any order, and more than once. -/
theorem carries_addTransitions {ts : List Transition} (hts : ∀ t, t ∈ ts ↔ t ∈ A.table) :
    ((bare A).addTransitions ts).Carries A := by
  intro p q w
  have hgain : Gains (bare A) ((bare A).addTransitions ts) fun p q w => ∃ t ∈ ts,
      p = t.source ∧ q = t.target ∧ Matches (.ofLabel t.label) w :=
    Gains.foldl fun t _ H => Gains.addEdge H _ _ _
  have hbare : ¬Matches ((bare A).edge p q) w := Matches.not_empty
  rw [hgain.matches_iff, or_iff_right hbare]
  constructor
  · intro h
    obtain ⟨⟨p, l, q⟩, ht, rfl, rfl, hw⟩ := h
    exact ⟨l, (hts _).mp ht, matches_ofLabel_iff.mp hw⟩
  · intro h
    obtain ⟨l, ht, hw⟩ := h
    exact ⟨⟨p, l, q⟩, (hts _).mpr ht, rfl, rfl, matches_ofLabel_iff.mpr hw⟩

theorem wellFormed_addTransitions (hA : A.WellFormed) {ts : List Transition}
    (hts : ∀ t ∈ ts, t ∈ A.table) : ((bare A).addTransitions ts).WellFormed := by
  have hbare : (bare A).WellFormed := ⟨fun _ => nofun, fun _ _ => nofun, fun _ _ => nofun⟩
  refine (hbare.foldl fun t ht H hH hs => ⟨hH.addEdge ?_ ?_ _, hs⟩).1
  · rw [hs]
    exact StateSet.mem_below.mpr (hA.source_lt t (hts t ht))
  · rw [hs]
    exact StateSet.mem_below.mpr (hA.target_lt t (hts t ht))

theorem addTransitions_frame (G : Graph) (ts : List Transition) : (G.addTransitions ts).states = G.states ∧
    (G.addTransitions ts).starts = G.starts ∧ (G.addTransitions ts).finals = G.finals := by
  have hgain := Gains.foldl (l := ts) (G := G) fun t _ H =>
    Gains.addEdge H t.source t.target (.ofLabel t.label)
  exact ⟨hgain.states, hgain.starts, hgain.finals⟩

theorem Carries.path_iff (hG : G.Carries A) : G.Path i w j ↔ A.Leads i w j := by
  constructor
  · intro h
    induction h with
    | nil => exact .refl A _
    | cons he _ ih =>
      obtain ⟨l, ht, rfl⟩ := (hG _ _ _).mp he
      exact Automaton.Leads.trans ⟨[l], .cons ht (.nil _), rfl⟩ ih
  · intro h'
    obtain ⟨ls, hp, rfl⟩ := h'
    induction hp with
    | nil => exact .nil _
    | @cons i j k l ls ht _ ih =>
      have he : Matches (G.edge i j) (Label.spelled [l]) := (hG _ _ _).mpr ⟨l, ht, rfl⟩
      have hsplit : Label.spelled (l :: ls) = Label.spelled [l] ++ Label.spelled ls :=
        Label.spelled_append [l] ls
      rw [hsplit]
      exact .cons he ih

/-! ### A new start state -/

theorem gains_enterFrom (G : Graph) (n : Nat) :
    Gains G (G.starts.toList.foldl (fun (H : Graph) j => H.addEdge n j .epsilon) G) fun p q w =>
      p = n ∧ q ∈ G.starts ∧ w = [] := by
  refine (Gains.foldl fun j _ H => Gains.addEdge H n j .epsilon).congr fun p q w => ?_
  constructor
  · intro h
    obtain ⟨j, hj, rfl, rfl, hw⟩ := h
    exact ⟨rfl, StateSet.mem_toList.mp hj, Matches.epsilon_iff.mp hw⟩
  · intro h
    obtain ⟨rfl, hq, rfl⟩ := h
    exact ⟨q, StateSet.mem_toList.mpr hq, rfl, rfl, .epsilon⟩

theorem matches_edge_enterFrom {p q : Nat} : Matches ((G.enterFrom n).edge p q) w ↔
    Matches (G.edge p q) w ∨ p = n ∧ q ∈ G.starts ∧ w = [] := (gains_enterFrom G n).matches_iff p q w

theorem finals_enterFrom : (G.enterFrom n).finals = G.finals := (gains_enterFrom G n).finals

theorem WellFormed.enterFrom (hG : G.WellFormed) (hs : ∀ i ∈ G.starts, i ∈ G.states) (n : Nat) :
    (G.enterFrom n).WellFormed := by
  -- The new state has to be there before the first edge from it is.
  refine List.foldlRecOn G.starts.toList (fun (H : Graph) j => H.addEdge n j .epsilon)
    (motive := fun H => ({ H with states := G.states.insert n, starts := .singleton n } : Graph).WellFormed)
    ?_ fun H hH j hj => ?_
  · exact {
      edge_ne_empty := hG.edge_ne_empty
      source_mem := fun a r ha => StateSet.mem_insert.mpr (Or.inr (hG.source_mem a r ha))
      target_mem := fun a r ha => StateSet.mem_insert.mpr (Or.inr (hG.target_mem a r ha)) }
  · exact hH.addEdge (StateSet.mem_insert.mpr (Or.inl rfl))
      (StateSet.mem_insert.mpr (Or.inr (hs j (StateSet.mem_toList.mp hj)))) .epsilon

theorem path_enterFrom_iff_of_ne (hn : ∀ p w, ¬Matches (G.edge p n) w) (hi : i ≠ n) :
    (G.enterFrom n).Path i w j ↔ G.Path i w j := by
  constructor
  · intro h
    induction h with
    | nil => exact .nil _
    | cons he _ ih =>
      rcases matches_edge_enterFrom.mp he with hold | ⟨rfl, -, -⟩
      · refine .cons hold (ih fun hm => ?_)
        rw [hm] at hold
        exact hn _ _ hold
      · exact absurd rfl hi
  · exact Path.mono fun p q w he => matches_edge_enterFrom.mpr (Or.inl he)

/-- Paths from the new start state to an old state begin with the empty word to an old start state. -/
theorem path_enterFrom_iff (hin : ∀ p w, ¬Matches (G.edge p n) w) (hout : ∀ q w, ¬Matches (G.edge n q) w)
    (hs : n ∉ G.starts) (hj : j ≠ n) : (G.enterFrom n).Path n w j ↔ ∃ i ∈ G.starts, G.Path i w j := by
  have hne : ∀ i ∈ G.starts, i ≠ n := fun i hi he => hs (he ▸ hi)
  constructor
  · intro h
    cases h with
    | nil => exact absurd rfl hj
    | cons he hp =>
      rcases matches_edge_enterFrom.mp he with he | ⟨-, hm, rfl⟩
      · exact absurd he (hout _ _)
      · exact ⟨_, hm, (path_enterFrom_iff_of_ne hin (hne _ hm)).mp hp⟩
  · intro h'
    obtain ⟨i, hi, hp⟩ := h'
    have he : Matches ((G.enterFrom n).edge n i) [] := matches_edge_enterFrom.mpr (Or.inr ⟨rfl, hi, rfl⟩)
    exact .cons he ((path_enterFrom_iff_of_ne hin (hne i hi)).mpr hp)

/-! ### The graph with one start state -/

/-- `G` is the graph of `A` as it is, up to the order in which its transitions were added. -/
structure Mirrors (G : Graph) (A : Automaton) : Prop where
  states : G.states = .below A.numStates
  starts : G.starts = A.starts
  finals : G.finals = A.finals
  wellFormed : G.WellFormed
  carries : G.Carries A

theorem mirrors_addTransitions (hA : A.WellFormed) {ts : List Transition} (hts : ∀ t, t ∈ ts ↔ t ∈ A.table) :
    ((bare A).addTransitions ts).Mirrors A where
  states := (addTransitions_frame (bare A) ts).1
  starts := (addTransitions_frame (bare A) ts).2.1
  finals := (addTransitions_frame (bare A) ts).2.2
  wellFormed := wellFormed_addTransitions hA fun t ht => (hts t).mp ht
  carries := carries_addTransitions hts

namespace Mirrors

theorem starts_lt (h : G.Mirrors A) (hA : A.WellFormed) : ∀ i ∈ G.starts, i < A.numStates :=
  fun i hi => hA.starts_lt i (h.starts ▸ hi)

theorem not_matches_edge (h : G.Mirrors A) {p q : Nat} (hpq : p = A.numStates ∨ q = A.numStates) :
    ¬Matches (G.edge p q) w := by
  intro hw
  obtain ⟨r, hr, -⟩ := matches_edge_iff.mp hw
  have hp := h.wellFormed.source_mem _ r hr
  have hq := h.wellFormed.target_mem _ r hr
  rw [h.states, StateSet.mem_below] at hp hq
  dsimp only at hp hq
  omega

theorem wellFormed_withOneStart (h : G.Mirrors A) (hA : A.WellFormed) : (withOneStart A G).WellFormed := by
  unfold withOneStart
  split
  · refine h.wellFormed.enterFrom (fun i hi => ?_) _
    rw [h.states]
    exact StateSet.mem_below.mpr (h.starts_lt hA i hi)
  · exact h.wellFormed

theorem withOneStart_unique (A : Automaton) (G : Graph) :
    ∀ i ∈ (withOneStart A G).starts, ∀ j ∈ (withOneStart A G).starts, i = j := by
  unfold withOneStart
  split
  · intro i hi j hj
    rw [StateSet.mem_singleton.mp hi, StateSet.mem_singleton.mp hj]
  · rename_i hsize
    exact StateSet.size_le_one_iff.mp (Nat.le_of_not_lt hsize)

/-- The graph with one start state spells the words of the automaton. -/
theorem spells_withOneStart_iff (h : G.Mirrors A) (hA : A.WellFormed) :
    (withOneStart A G).Spells w ↔ A.Spells w := by
  have hfinal : ∀ f ∈ A.finals, f ≠ A.numStates := fun f hf => Nat.ne_of_lt (hA.finals_lt f hf)
  unfold withOneStart Spells Automaton.Spells
  split
  · have hstart : A.numStates ∉ G.starts := fun hn => Nat.lt_irrefl _ (h.starts_lt hA _ hn)
    have hpath : ∀ f ∈ A.finals, ((G.enterFrom A.numStates).Path A.numStates w f ↔
        ∃ i ∈ A.starts, A.Leads i w f) := fun f hf => by
      rw [path_enterFrom_iff (fun p w => h.not_matches_edge (Or.inr rfl))
        (fun q w => h.not_matches_edge (Or.inl rfl)) hstart (hfinal f hf), h.starts]
      exact exists_congr fun i => and_congr_right fun _ => h.carries.path_iff
    rw [finals_enterFrom, h.finals]
    constructor
    · intro h'
      obtain ⟨i, hi, f, hf, hp⟩ := h'
      rw [StateSet.mem_singleton.mp hi] at hp
      obtain ⟨i, hi, hp⟩ := (hpath f hf).mp hp
      exact ⟨i, hi, f, hf, hp⟩
    · intro h'
      obtain ⟨i, hi, f, hf, hp⟩ := h'
      exact ⟨_, StateSet.mem_singleton.mpr rfl, f, hf, (hpath f hf).mpr ⟨i, hi, hp⟩⟩
  · simp only [h.starts, h.finals, h.carries.path_iff]

end Mirrors

end Graph

namespace Automaton

variable {A : Automaton} {ts : List Transition} {w : List Symbol}

/-- However the transitions are enumerated, the expression has the words that the automaton spells. -/
theorem matches_toRegexFrom_iff (hA : A.WellFormed) (hts : A.table.EnumeratedBy ts) :
    Matches (A.toRegexFrom ts) w ↔ A.Spells w := by
  have h := Graph.mirrors_addTransitions hA hts.mem_iff
  rw [toRegexFrom, Graph.joinedFrom,
    Graph.matches_toRegex_iff (h.wellFormed_withOneStart hA) (Graph.Mirrors.withOneStart_unique A _),
    h.spells_withOneStart_iff hA]

/-- The expression of an automaton has exactly the words that the automaton accepts, and so has every expression that
is extracted with the transitions in another order. -/
theorem accepts_iff_matches_toRegex (hA : A.WellFormed) (ls : List Label) :
    (A.accepts ls = true ↔ Matches A.toRegex (Label.spelled ls)) ∧
    ∀ ts, A.table.EnumeratedBy ts → (A.accepts ls = true ↔ Matches (A.toRegexFrom ts) (Label.spelled ls)) := by
  have hevery : ∀ ts, A.table.EnumeratedBy ts →
      (A.accepts ls = true ↔ Matches (A.toRegexFrom ts) (Label.spelled ls)) := fun ts hts => by
    rw [accepts_iff, matches_toRegexFrom_iff hA hts]
  exact ⟨hevery _ A.table.enumeratedBy_edges, hevery⟩

/-- Two start states, one of them final, with parallel transitions, a loop and a cycle of empty moves; a third
state is not reached. -/
def tangle : Automaton := .ofEdits
  [.addStart ⟨"p"⟩, .addStart ⟨"q"⟩, .addFinal ⟨"q"⟩, .addTransition ⟨"p"⟩ (.symbol ⟨"a"⟩) ⟨"q"⟩,
    .addTransition ⟨"p"⟩ (.symbol ⟨"b"⟩) ⟨"q"⟩, .addTransition ⟨"q"⟩ (.symbol ⟨"b"⟩) ⟨"q"⟩,
    .addEpsilon ⟨"q"⟩ ⟨"p"⟩, .addEpsilon ⟨"p"⟩ ⟨"p"⟩, .addTransition ⟨"r"⟩ (.symbol ⟨"c"⟩) ⟨"q"⟩]

theorem tangle_matches_toRegex : tangle.WellFormed ∧ tangle.table.EnumeratedBy tangle.table.edges.reverse ∧
    Matches tangle.toRegex [⟨"b"⟩, ⟨"a"⟩] ∧
    Matches (tangle.toRegexFrom tangle.table.edges.reverse) [⟨"b"⟩, ⟨"a"⟩] ∧ ¬Matches tangle.toRegex [⟨"c"⟩] := by
  have hwf : tangle.WellFormed := wellFormed_ofEdits _
  have hreverse := tangle.table.enumeratedBy_edges.reverse
  have haccepts : tangle.accepts [.symbol ⟨"b"⟩, .epsilon, .symbol ⟨"a"⟩] = true := by decide +kernel
  obtain ⟨hregex, hevery⟩ := accepts_iff_matches_toRegex hwf [.symbol ⟨"b"⟩, .epsilon, .symbol ⟨"a"⟩]
  refine ⟨hwf, hreverse, hregex.mp haccepts, (hevery _ hreverse).mp haccepts, ?_⟩
  exact mt (accepts_iff_matches_toRegex hwf [.symbol ⟨"c"⟩]).1.mpr (by decide +kernel)

end Automaton

end FiniteAutomata
