import FiniteAutomata.Proofs.Automaton.Content
import FiniteAutomata.Proofs.Automaton.Runs

/-!
The words of a content. Paths, runs and acceptance are said of states by name as they are of ids, and an automaton
runs by id as its content runs by name (`named_run`), so that whatever can be said of a construction in these terms
is the same for all automata of one content.
-/

namespace FiniteAutomata

namespace Content

/-- `Path C p ls q`: transitions of `C` with the labels `ls` lead from `p` to `q`. -/
inductive Path (C : Content) : State → List Label → State → Prop
  | nil (p : State) : Path C p [] p
  | cons {p q r : State} {l : Label} {ls : List Label} :
      (p, l, q) ∈ C.arcs → Path C q ls r → Path C p (l :: ls) r

/-- Some path from `p` to `q` spells `w` once its empty labels are left out. -/
def Leads (C : Content) (p : State) (w : List Symbol) (q : State) : Prop :=
  ∃ ls, C.Path p ls q ∧ Label.spelled ls = w

/-- The states that the word leads to from a start state. -/
def run (C : Content) (w : List Symbol) : Set State := {q | ∃ p ∈ C.starts, C.Leads p w q}

/-- One symbol is read in `p`, and empty moves follow. -/
def Steps (C : Content) (p : State) (a : Symbol) (q : State) : Prop :=
  ∃ r, (p, .symbol a, r) ∈ C.arcs ∧ C.Leads r [] q

def Accepts (C : Content) (w : List Symbol) : Prop := ∃ q ∈ C.run w, q ∈ C.finals

theorem Accepts.nonempty_starts {C : Content} {w : List Symbol} (h : C.Accepts w) : C.starts.Nonempty := by
  obtain ⟨-, ⟨p, hp, -⟩, -⟩ := h
  exact ⟨p, hp⟩

end Content

/-! ### Names of sets -/

/-- The state is the one that stands for the set. -/
def State.Names (q : State) (R : Set State) : Prop := ∃ ps : List State, (∀ p, p ∈ ps ↔ p ∈ R) ∧ q = merged ps

theorem State.names_iff {q : State} {R : Set State} {ps : List State} (h : ∀ p, p ∈ ps ↔ p ∈ R) :
    q.Names R ↔ q = merged ps := by
  constructor
  · rintro ⟨qs, hqs, rfl⟩
    exact merged_congr fun p => (hqs p).trans (h p).symm
  · rintro rfl
    exact ⟨ps, h, rfl⟩

namespace Automaton

variable {A B : Automaton} {p q : State} {i : Nat} {S : StateSet} {a : Symbol} {w : List Symbol} {ls : List Label}

theorem mem_members_iff_mem_named (hS : ∀ i ∈ S, i < A.numStates) : q ∈ A.members S ↔ q ∈ A.named S := by
  rw [members, List.mem_map]
  refine exists_congr fun i => ?_
  rw [StateSet.mem_toList]
  refine and_congr_right fun hi => ?_
  rw [getElem?_states (hS i hi), Option.some.injEq]

/-! ### Runs by name -/

section Runs
variable (hA : A.WellFormed)
include hA

theorem path_content_iff (hi : A.states[i]? = some p) :
    A.content.Path p ls q ↔ ∃ j, A.states[j]? = some q ∧ A.Path i ls j := by
  constructor
  · intro h
    induction h generalizing i with
    | nil => exact ⟨i, hi, .nil i⟩
    | cons harc _ ih =>
      obtain ⟨i', k, hi', hk, ht⟩ := mem_content_arcs_iff.mp harc
      obtain ⟨j, hj, hp⟩ := ih hk
      rw [← id_unique hA.states_nodup hi hi'] at ht
      exact ⟨j, hj, .cons ht hp⟩
  · rintro ⟨j, hj, hp⟩
    induction hp generalizing p with
    | nil i =>
      rw [hi, Option.some.injEq] at hj
      exact hj ▸ .nil p
    | @cons i k j l ls ht _ ih =>
      have hk := getElem?_states (hA.target_lt _ ht)
      exact .cons (mem_content_arcs_iff.mpr ⟨i, _, hi, hk, ht⟩) (ih hk hj)

theorem leads_content_iff (hi : A.states[i]? = some p) :
    A.content.Leads p w q ↔ ∃ j, A.states[j]? = some q ∧ A.Leads i w j := by
  constructor
  · rintro ⟨ls, hp, hw⟩
    obtain ⟨j, hj, hp⟩ := (path_content_iff hA hi).mp hp
    exact ⟨j, hj, ls, hp, hw⟩
  · rintro ⟨j, hj, ls, hp, hw⟩
    exact ⟨ls, (path_content_iff hA hi).mpr ⟨j, hj, hp⟩, hw⟩

/-- The states that a run is in are those that the content is in. -/
theorem named_run (w : List Symbol) : A.named (A.run w) = A.content.run w := by
  ext q
  constructor
  · rintro ⟨j, hj, hq⟩
    obtain ⟨i, hi, hij⟩ := mem_run_iff.mp hj
    have hget := getElem?_states (hA.starts_lt i hi)
    exact ⟨A.state i, ⟨i, hi, hget⟩, (leads_content_iff hA hget).mpr ⟨j, hq, hij⟩⟩
  · rintro ⟨p, ⟨i, hi, hp⟩, hpq⟩
    obtain ⟨j, hj, hij⟩ := (leads_content_iff hA hp).mp hpq
    exact ⟨j, mem_run_iff.mpr ⟨i, hi, hij⟩, hj⟩

theorem named_step_singleton (hi : A.states[i]? = some p) :
    A.named (A.step (.singleton i) a) = {q | A.content.Steps p a q} := by
  ext q
  constructor
  · rintro ⟨j, hj, hq⟩
    obtain ⟨i', hi', k, hk, hkj⟩ := mem_step_iff.mp hj
    rw [StateSet.mem_singleton.mp hi'] at hk
    have hget := getElem?_states (hA.target_lt ⟨i, .symbol a, k⟩ hk)
    exact ⟨A.state k, mem_content_arcs_iff.mpr ⟨i, k, hi, hget, hk⟩, (leads_content_iff hA hget).mpr ⟨j, hq, hkj⟩⟩
  · rintro ⟨r, harc, hrq⟩
    obtain ⟨i', k, hi', hr, hk⟩ := mem_content_arcs_iff.mp harc
    rw [← id_unique hA.states_nodup hi hi'] at hk
    obtain ⟨j, hj, hkj⟩ := (leads_content_iff hA hr).mp hrq
    exact ⟨j, mem_step_iff.mpr ⟨i, StateSet.mem_singleton.mpr rfl, k, hk, hkj⟩, hj⟩

theorem accepts_content_iff : A.content.Accepts w ↔ ∃ i ∈ A.run w, i ∈ A.finals := by
  rw [Content.Accepts, ← named_run hA]
  constructor
  · rintro ⟨q, ⟨i, hi, hq⟩, hf⟩
    exact ⟨i, hi, (mem_named_iff hA.states_nodup hq).mp hf⟩
  · rintro ⟨i, hi, hf⟩
    have hget := getElem?_states (hA.finals_lt i hf)
    exact ⟨A.state i, ⟨i, hi, hget⟩, i, hf, hget⟩

theorem accepts_iff_accepts_content : A.accepts ls = true ↔ A.content.Accepts (Label.spelled ls) := by
  rw [accepts_content_iff hA, accepts, StateSet.intersects_iff]

theorem accepts_iff_exists_named :
    A.accepts ls = true ↔ ∃ q ∈ A.named (A.run (Label.spelled ls)), q ∈ A.content.finals := by
  rw [accepts_iff_accepts_content hA, Content.Accepts, named_run hA]

end Runs

end Automaton

end FiniteAutomata
