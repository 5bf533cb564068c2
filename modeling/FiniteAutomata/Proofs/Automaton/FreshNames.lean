import Mathlib.Order.Bounds.Defs
import FiniteAutomata.Proofs.Automaton.Complement
import FiniteAutomata.Proofs.Automaton.Rational

/-!
New names. Primes are put after a name for as long as it is taken, and nothing in this search says when it ends
(`PrimesUntilNew`). Every name that it tries is longer than the one before, so each name it finds taken leaves fewer
states with a name as long as the next one (`PrimesUntilNew.le_numAsLong`): there are no more primes than states. Names
are tried with no prime, one prime, two primes and so on, so the number of primes in the end is the least that makes
the name new (`PrimesUntilNew.isLeast`). A complement and a Kleene star therefore never take a state that is there for
their trap or their start (`fresh_least`).
-/

namespace FiniteAutomata.Automaton

variable {A B : Automaton} {q r r' : State} {n n' : Nat}

/-! ### The search for a new name -/

/-- `PrimesUntilNew A q n r`: from `q` on, a prime is put after each name that is taken, `n` primes in all, until `r`,
which is new. -/
inductive PrimesUntilNew (A : Automaton) : State → Nat → State → Prop
  | new {q : State} : q ∉ A.states → PrimesUntilNew A q 0 q
  | taken {q r : State} {n : Nat} : q ∈ A.states → PrimesUntilNew A q.prime n r → PrimesUntilNew A q (n + 1) r

/-- The search ends, with the fresh state. -/
theorem exists_primesUntilNew_fresh (A : Automaton) (q : State) : ∃ n, A.PrimesUntilNew q n (A.fresh q) := by
  fun_induction fresh with
  | case1 q hq ih =>
    obtain ⟨n, hn⟩ := ih
    exact ⟨n + 1, .taken hq hn⟩
  | case2 q hq => exact ⟨0, .new hq⟩

theorem PrimesUntilNew.unique (h : A.PrimesUntilNew q n r) (h' : A.PrimesUntilNew q n' r') : n' = n ∧ r' = r := by
  induction h generalizing n' with
  | new hnew =>
    cases h' with
    | new _ => exact ⟨rfl, rfl⟩
    | taken htaken _ => exact absurd htaken hnew
  | taken htaken _ ih =>
    cases h' with
    | new hnew => exact absurd htaken hnew
    | taken _ h' =>
      obtain ⟨rfl, rfl⟩ := ih h'
      exact ⟨rfl, rfl⟩

theorem PrimesUntilNew.eq_primed (h : A.PrimesUntilNew q n r) : r = q.primed n := by
  induction h with
  | new _ => rw [State.primed_zero]
  | taken _ _ ih => rw [ih, State.primed_prime]

theorem PrimesUntilNew.not_mem (h : A.PrimesUntilNew q n r) : r ∉ A.states := by
  induction h with
  | new hnew => exact hnew
  | taken _ _ ih => exact ih

/-- All names that come before are taken. -/
theorem PrimesUntilNew.primed_mem (h : A.PrimesUntilNew q n r) {j : Nat} (hj : j < n) : q.primed j ∈ A.states := by
  induction h generalizing j with
  | new _ => exact absurd hj (Nat.not_lt_zero j)
  | @taken q _ _ htaken _ ih =>
    cases j with
    | zero =>
      rw [State.primed_zero]
      exact htaken
    | succ j =>
      rw [← State.primed_prime]
      exact ih (Nat.lt_of_succ_lt_succ hj)

theorem PrimesUntilNew.isLeast (h : A.PrimesUntilNew q n r) : IsLeast {j | q.primed j ∉ A.states} n := by
  refine ⟨?_, fun j hj => Nat.le_of_not_lt fun hlt => hj (h.primed_mem hlt)⟩
  change q.primed n ∉ A.states
  rw [← h.eq_primed]
  exact h.not_mem

/-- Each prime is paid for by the state whose name was taken. -/
theorem PrimesUntilNew.le_numAsLong (h : A.PrimesUntilNew q n r) : n ≤ A.numAsLong q := by
  induction h with
  | new _ => exact Nat.zero_le _
  | taken htaken _ ih => exact Nat.lt_of_le_of_lt ih (numAsLong_prime_lt htaken)

theorem numAsLong_le (A : Automaton) (q : State) : A.numAsLong q ≤ A.numStates := List.countP_le_length

/-! ### The state that is added -/

/-- `B` has the states of `A` with the ids they have there, and one more: `q`, which is not a state of `A`. -/
structure AddsState (A B : Automaton) (q : State) : Prop where
  new : q ∉ A.states
  states_eq : B.states = A.states ++ [q]
  stateId?_new : B.stateId? q = some A.numStates
  stateId?_old : ∀ p ∈ A.states, B.stateId? p = A.stateId? p

theorem stateId?_append (h : B.states = A.states ++ [q]) (p : State) :
    B.stateId? p = (A.stateId? p).or (if q = p then some A.numStates else none) := by
  rw [stateId?, List.idxOf?, h, List.findIdx?_append]
  refine congrArg (Option.or _) ?_
  by_cases hq : q = p
  · simp [hq, numStates]
  · simp [hq]

theorem addsState_of_states_eq (hnew : q ∉ A.states) (h : B.states = A.states ++ [q]) : A.AddsState B q where
  new := hnew
  states_eq := h
  stateId?_new := by rw [stateId?_append h, stateId?_eq_none_iff.mpr hnew, Option.none_or, if_pos rfl]
  stateId?_old p hp := by
    have hsome : A.stateId? p ≠ none := fun hnone => stateId?_eq_none_iff.mp hnone hp
    rw [stateId?_append h, Option.or_of_isSome (Option.isSome_iff_ne_none.mpr hsome)]

/-- The search for a new name ends, after no more primes than there are states, with the least number of primes that
makes the name new. So what is added under that name is a new state and comes last, in particular the trap of a
complement and the start state of a Kleene star. -/
theorem fresh_least (A : Automaton) (q : State) :
    (∃ k ≤ A.numStates, (∀ n r, A.PrimesUntilNew q n r ↔ n = k ∧ r = A.fresh q) ∧
      A.fresh q = q.primed k ∧ IsLeast {j | q.primed j ∉ A.states} k) ∧
    ((A.addState (A.fresh q)).1 = A.numStates ∧ A.AddsState (A.addState (A.fresh q)).2 (A.fresh q)) ∧
    A.AddsState A.complement (A.fresh ⟨"trap"⟩) ∧
    A.AddsState A.kleeneStar (A.fresh ⟨"start"⟩) := by
  have hadded : ∀ {B : Automaton} {p : State}, B.states = A.states ++ [A.fresh p] → A.AddsState B (A.fresh p) :=
    fun h => addsState_of_states_eq (A.fresh_not_mem _) h
  refine ⟨?_, ?_, ?_, ?_⟩
  · obtain ⟨k, hk⟩ := A.exists_primesUntilNew_fresh q
    refine ⟨k, hk.le_numAsLong.trans (A.numAsLong_le q), fun n r => ⟨hk.unique, ?_⟩, hk.eq_primed, hk.isLeast⟩
    rintro ⟨rfl, rfl⟩
    exact hk
  · rw [addState_fresh]
    exact ⟨rfl, hadded rfl⟩
  · exact hadded (by rw [complement_eq])
  · exact hadded (by rw [kleeneStar_eq])

/-- The search ends at the first gap. It passes a run of names in whatever order they came, up to as many primes as
there are states. -/
example : fresh { states := [⟨"trap''"⟩, ⟨"trap"⟩] } ⟨"trap"⟩ = State.primed ⟨"trap"⟩ 1 ∧
    fresh { states := [⟨"trap''"⟩, ⟨"trap"⟩, ⟨"trap'"⟩] } ⟨"trap"⟩ = State.primed ⟨"trap"⟩ 3 := by decide +kernel

end FiniteAutomata.Automaton
