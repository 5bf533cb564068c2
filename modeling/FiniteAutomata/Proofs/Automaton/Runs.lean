import FiniteAutomata.Automaton.Edit
import FiniteAutomata.Automaton.Path
import FiniteAutomata.Automaton.Run
import FiniteAutomata.Proofs.StateSet.Reachability

/-!
Runs and paths: after a word, a run holds exactly the states that paths spelling the word lead to from a
start state (`mem_run_iff`), so the words accepted are those spelled by the paths to a final state
(`accepts_iff_exists_path`). A run takes the empty moves in advance, so the induction over the word is about sets
that empty moves do not leave. What paths cannot spell is shown by labels of the states that no transition
contradicts (`Leads.respects`).
-/

namespace FiniteAutomata

/-! ### Sources of transitions -/

theorem TransitionTable.source_mem_of_mem_targets {T : TransitionTable} {i j : Nat} {l : Label}
    (h : j ∈ T.targets i l) : i ∈ T.buckets.entries.map (·.1.source) := by
  rw [targets, get?] at h
  cases hb : T.buckets.get? ⟨i, l⟩ with
  | none =>
    rw [hb] at h
    exact absurd h (StateSet.not_mem_empty j)
  | some S => exact List.mem_map.mpr ⟨_, OrderedMap.get?_eq_some_iff.mp hb, rfl⟩

theorem TransitionTable.length_sources_le (T : TransitionTable) :
    (T.buckets.entries.map (·.1.source)).length ≤ T.buckets.size := Nat.le_of_eq (List.length_map _)

namespace Automaton

variable {A : Automaton}

/-! ### Words along paths -/

theorem Leads.ofTransition {i j : Nat} {l : Label} (h : (⟨i, l, j⟩ : Transition) ∈ A.table) :
    A.Leads i (Label.spelled [l]) j := ⟨[l], .cons h (.nil j), rfl⟩

theorem Leads.cons {i j k : Nat} {l : Label} {ls : List Label} (ht : (⟨i, l, j⟩ : Transition) ∈ A.table)
    (h : A.Leads j (Label.spelled ls) k) : A.Leads i (Label.spelled (l :: ls)) k := by
  rw [← List.singleton_append, Label.spelled_append]
  exact (Leads.ofTransition ht).trans h

theorem Path.exists_of_spelled_cons {a : Symbol} {w : List Symbol} {i j : Nat} {ls : List Label}
    (hp : A.Path i ls j) (hw : Label.spelled ls = a :: w) :
    ∃ m k, A.Leads i [] m ∧ k ∈ A.table.targets m (.symbol a) ∧ A.Leads k w j := by
  induction hp with
  | nil => cases hw
  | @cons i k j l ls ht hp ih =>
    cases l with
    | symbol b =>
      rw [Label.spelled_cons_symbol, List.cons.injEq] at hw
      obtain ⟨rfl, hw⟩ := hw
      exact ⟨i, k, .refl A i, ht, ls, hp, hw⟩
    | epsilon =>
      obtain ⟨m, n, hm, hn, hrest⟩ := ih hw
      exact ⟨m, n, (Leads.ofTransition ht).trans hm, hn, hrest⟩

theorem leads_cons_iff {a : Symbol} {w : List Symbol} {i j : Nat} : A.Leads i (a :: w) j ↔
    ∃ m k, A.Leads i [] m ∧ k ∈ A.table.targets m (.symbol a) ∧ A.Leads k w j := by
  constructor
  · intro h
    obtain ⟨ls, hp, hw⟩ := h
    exact hp.exists_of_spelled_cons hw
  · intro h
    obtain ⟨m, k, hm, hk, hrest⟩ := h
    have hread : A.Leads m [a] k := ⟨[.symbol a], .cons hk (.nil k), rfl⟩
    exact hm.trans (hread.trans hrest)

/-- Where each transition has its image in another automaton, words lead there between the images of states. -/
theorem Leads.map {B : Automaton} {f : Nat → Nat} {i j : Nat} {w : List Symbol}
    (hAB : ∀ t ∈ A.table, t.map f ∈ B.table) (h : A.Leads i w j) : B.Leads (f i) w (f j) := by
  obtain ⟨ls, hp, rfl⟩ := h
  refine ⟨ls, ?_, rfl⟩
  induction hp with
  | nil => exact .nil _
  | cons ht _ ih => exact .cons (hAB _ ht) ih

/-- An automaton with more transitions leads wherever it led before. -/
theorem Leads.mono {B : Automaton} {i j : Nat} {w : List Symbol} (hAB : ∀ t ∈ A.table, t ∈ B.table)
    (h : A.Leads i w j) : B.Leads i w j := h.map (f := id) hAB

/-- Where words lead depends on the transitions only. -/
theorem leads_congr {B : Automaton} {i j : Nat} {w : List Symbol} (h : A.table = B.table) :
    A.Leads i w j ↔ B.Leads i w j :=
  ⟨.mono fun _ ht => h ▸ ht, .mono fun _ ht => h ▸ ht⟩

/-! ### Labels of states -/

/-- Labels that no transition contradicts: with what the transition reads in front, a word of the label of its
target is one of the label of its source. -/
def Respects (L : Nat → List Symbol → Prop) (ts : List Transition) : Prop :=
  ∀ t ∈ ts, ∀ w, L t.target w → L t.source (Label.spelled [t.label] ++ w)

theorem Leads.respects {L : Nat → List Symbol → Prop} {i j : Nat} {v w : List Symbol}
    (hL : Respects L A.table.edges) (h : A.Leads i v j) (hw : L j w) : L i (v ++ w) := by
  obtain ⟨ls, hp, rfl⟩ := h
  induction hp with
  | nil => exact hw
  | cons ht _ ih =>
    have hrest := hL _ (TransitionTable.mem_edges.mpr ht) _ (ih hw)
    rwa [← List.append_assoc, ← Label.spelled_append] at hrest

/-! ### Empty moves -/

theorem linked_iff_leads_nil {i j : Nat} :
    StateSet.Linked (fun i => A.table.targets i .epsilon) i j ↔ A.Leads i [] j := by
  constructor
  · intro h
    induction h with
    | refl => exact .refl A _
    | tail _ hk ih => exact ih.trans (.ofTransition hk)
  · intro h'
    obtain ⟨ls, hp, hw⟩ := h'
    induction hp with
    | nil => exact .refl _
    | @cons i k j l ls ht _ ih =>
      cases l with
      | symbol a => cases hw
      | epsilon => exact .trans (.tail (.refl i) ht) (ih hw)

theorem mem_closure_iff {S : StateSet} {j : Nat} : j ∈ A.closure S ↔ ∃ i ∈ S, A.Leads i [] j := by
  have hactive : ∀ i j, j ∈ A.table.targets i .epsilon → i ∈ A.table.buckets.entries.map (·.1.source) :=
    fun _ _ h => TransitionTable.source_mem_of_mem_targets h
  rw [closure, StateSet.mem_reach_iff hactive A.table.length_sources_le]
  exact exists_congr fun i => and_congr_right fun _ => linked_iff_leads_nil

/-- A closure goes on until empty moves lead to nothing new. -/
theorem exhausts_closure (A : Automaton) (S : StateSet) :
    StateSet.Exhausts (fun i => A.table.targets i .epsilon) S S (A.closure S) :=
  StateSet.exhausts_reach (fun _ _ h => TransitionTable.source_mem_of_mem_targets h)
    A.table.length_sources_le S

/-- A set that empty moves do not leave. -/
def EmptyClosed (A : Automaton) (S : StateSet) : Prop := ∀ i ∈ S, ∀ j, A.Leads i [] j → j ∈ S

theorem emptyClosed_closure (S : StateSet) : A.EmptyClosed (A.closure S) := by
  intro i hi j hij
  obtain ⟨k, hk, hki⟩ := mem_closure_iff.mp hi
  exact mem_closure_iff.mpr ⟨k, hk, hki.trans hij⟩

theorem emptyClosed_initial : A.EmptyClosed A.initial := emptyClosed_closure A.starts

theorem emptyClosed_step {S : StateSet} {a : Symbol} : A.EmptyClosed (A.step S a) := emptyClosed_closure _

/-! ### Without empty moves -/

theorem leads_nil_iff (h : ∀ i j, j ∉ A.table.targets i .epsilon) {i j : Nat} : A.Leads i [] j ↔ i = j := by
  constructor
  · rintro ⟨ls, hp, hw⟩
    cases hp with
    | nil => rfl
    | @cons _ k _ l _ ht _ =>
      cases l with
      | symbol a => cases hw
      | epsilon => exact absurd ht (h i k)
  · rintro rfl
    exact .refl A i

/-- Where nothing is read in silence and no symbol leads to two states, a word leads to one state only. -/
theorem leads_unique (h : ∀ i j, j ∉ A.table.targets i .epsilon)
    (hone : ∀ i l j k, j ∈ A.table.targets i l → k ∈ A.table.targets i l → j = k) {i j k : Nat} {w : List Symbol}
    (hj : A.Leads i w j) (hk : A.Leads i w k) : j = k := by
  induction w generalizing i with
  | nil => exact ((leads_nil_iff h).mp hj).symm.trans ((leads_nil_iff h).mp hk)
  | cons a w ih =>
    obtain ⟨m, n, hm, hn, hrest⟩ := leads_cons_iff.mp hj
    obtain ⟨m', n', hm', hn', hrest'⟩ := leads_cons_iff.mp hk
    rw [← (leads_nil_iff h).mp hm] at hn
    rw [← (leads_nil_iff h).mp hm'] at hn'
    rw [hone i _ n n' hn hn'] at hrest
    exact ih hrest hrest'

/-! ### Runs -/

theorem mem_step_iff {S : StateSet} {a : Symbol} {j : Nat} :
    j ∈ A.step S a ↔ ∃ i ∈ S, ∃ k ∈ A.table.targets i (.symbol a), A.Leads k [] j := by
  rw [step, mem_closure_iff]
  constructor
  · intro h
    obtain ⟨k, hk, hkj⟩ := h
    obtain ⟨i, hi, hik⟩ := StateSet.mem_biUnion.mp hk
    exact ⟨i, hi, k, hik, hkj⟩
  · intro h
    obtain ⟨i, hi, k, hik, hkj⟩ := h
    exact ⟨k, StateSet.mem_biUnion.mpr ⟨i, hi, hik⟩, hkj⟩

/-- What words lead to from a step on `a` is what words with `a` in front lead to. -/
theorem exists_mem_step_leads_iff {S : StateSet} (hS : A.EmptyClosed S) {a : Symbol} {w : List Symbol}
    {j : Nat} : (∃ k ∈ A.step S a, A.Leads k w j) ↔ ∃ i ∈ S, A.Leads i (a :: w) j := by
  constructor
  · intro h
    obtain ⟨k, hk, hkj⟩ := h
    obtain ⟨i, hi, m, him, hmk⟩ := mem_step_iff.mp hk
    exact ⟨i, hi, leads_cons_iff.mpr ⟨i, m, .refl A i, him, hmk.trans hkj⟩⟩
  · intro h
    obtain ⟨i, hi, hij⟩ := h
    obtain ⟨m, k, him, hmk, hkj⟩ := leads_cons_iff.mp hij
    exact ⟨k, mem_step_iff.mpr ⟨m, hS i hi m him, k, hmk, .refl A k⟩, hkj⟩

theorem mem_foldl_step_iff {w : List Symbol} {j : Nat} : ∀ {S : StateSet}, A.EmptyClosed S →
    (j ∈ w.foldl A.step S ↔ ∃ i ∈ S, A.Leads i w j) := by
  induction w with
  | nil =>
    intro S hS
    constructor
    · intro hj
      exact ⟨j, hj, .refl A j⟩
    · intro h
      obtain ⟨i, hi, hij⟩ := h
      exact hS i hi j hij
  | cons a w ih =>
    intro S hS
    rw [List.foldl_cons, ih emptyClosed_step, exists_mem_step_leads_iff hS]

/-- A run is in exactly the states that paths from the start states lead to. -/
theorem mem_run_iff {w : List Symbol} {j : Nat} : j ∈ A.run w ↔ ∃ i ∈ A.starts, A.Leads i w j := by
  rw [run, mem_foldl_step_iff emptyClosed_initial]
  constructor
  · intro h
    obtain ⟨i, hi, hij⟩ := h
    obtain ⟨k, hk, hki⟩ := mem_closure_iff.mp hi
    exact ⟨k, hk, hki.trans hij⟩
  · intro h
    obtain ⟨i, hi, hij⟩ := h
    exact ⟨i, mem_closure_iff.mpr ⟨i, hi, .refl A i⟩, hij⟩

/-- A word is accepted if a path from a start state to a final state spells it. -/
theorem accepts_iff {ls : List Label} : A.accepts ls = true ↔ A.Spells (Label.spelled ls) := by
  rw [accepts, StateSet.intersects_iff, Spells]
  constructor
  · intro h
    obtain ⟨j, hj, hf⟩ := h
    obtain ⟨i, hi, hij⟩ := mem_run_iff.mp hj
    exact ⟨i, hi, j, hf, hij⟩
  · intro h
    obtain ⟨i, hi, j, hf, hij⟩ := h
    exact ⟨j, mem_run_iff.mpr ⟨i, hi, hij⟩, hf⟩

/-- A word is accepted if some path from a start state to a final state spells it, empty labels apart; without a
start state nothing is. -/
theorem accepts_iff_exists_path (A : Automaton) :
    (∀ ls, A.accepts ls = true ↔
      ∃ i ∈ A.starts, ∃ j ∈ A.finals, ∃ ms, A.Path i ms j ∧ Label.spelled ms = Label.spelled ls) ∧
    ((∀ i, i ∉ A.starts) → ∀ ls, A.accepts ls = false) := by
  refine ⟨fun ls => accepts_iff, fun hnone ls => ?_⟩
  rw [← Bool.not_eq_true, accepts_iff]
  rintro ⟨i, hi, -⟩
  exact hnone i hi

/-- A cycle of empty moves, left and entered again by reading. -/
def whirl : Automaton := .ofEdits
  [.addStart ⟨"p"⟩, .addEpsilon ⟨"p"⟩ ⟨"q"⟩, .addEpsilon ⟨"q"⟩ ⟨"p"⟩, .addTransition ⟨"q"⟩ (.symbol ⟨"a"⟩) ⟨"r"⟩,
    .addEpsilon ⟨"r"⟩ ⟨"q"⟩, .addFinal ⟨"r"⟩]

theorem whirl_exists_path :
    (∃ i ∈ whirl.starts, ∃ j ∈ whirl.finals, ∃ ms, whirl.Path i ms j ∧
      Label.spelled ms = Label.spelled [.symbol ⟨"a"⟩, .epsilon, .symbol ⟨"a"⟩]) ∧
    (∀ i, i ∉ (whirl.removeStart ⟨"p"⟩).2.starts) ∧
      ∀ ls, (whirl.removeStart ⟨"p"⟩).2.accepts ls = false := by
  have hnone : ∀ i, i ∉ (whirl.removeStart ⟨"p"⟩).2.starts := StateSet.isEmpty_iff.mp (by decide +kernel)
  refine ⟨?_, hnone, (accepts_iff_exists_path _).2 hnone⟩
  exact ((accepts_iff_exists_path whirl).1 [.symbol ⟨"a"⟩, .epsilon, .symbol ⟨"a"⟩]).mp (by decide +kernel)

end Automaton

end FiniteAutomata
