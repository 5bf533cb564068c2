import FiniteAutomata.Counting
import FiniteAutomata.StateSet.Reach

/-!
The search in rounds finds every state that is linked to a seed, if it may go on for as many rounds as there
are states that lead anywhere (`mem_reach_iff`), and then the bound on the rounds is never met
(`exhausts_reach`). What carries the induction over the rounds: of the states seen, only those of the frontier
may lead to a state not seen yet, and each round looks at its frontier for good.
-/

namespace FiniteAutomata.StateSet

variable {next : Nat → StateSet} {active : List Nat}

/-- The states seen lead to states seen, those of the frontier apart. -/
def ClosedBehind (next : Nat → StateSet) (seen frontier : StateSet) : Prop :=
  ∀ i ∈ seen, i ∉ frontier → ∀ j ∈ next i, j ∈ seen

/-- Whether a search has still to look at `i`: it is not seen yet, or on the frontier. -/
def unexplored (seen frontier : StateSet) (i : Nat) : Bool := !seen.contains i || frontier.contains i

theorem unexplored_iff {seen frontier : StateSet} {i : Nat} :
    unexplored seen frontier i = true ↔ (i ∈ seen → i ∈ frontier) := by
  rw [unexplored, Bool.or_eq_true, Bool.not_eq_true', ← Bool.not_eq_true, contains_iff, contains_iff]
  exact Decidable.imp_iff_not_or.symm

theorem ClosedBehind.round {seen frontier : StateSet} (h : ClosedBehind next seen frontier) :
    ClosedBehind next (seen ∪ (frontier.biUnion next \ seen)) (frontier.biUnion next \ seen) := by
  intro i hi hnew j hj
  have hseen : i ∈ seen := (mem_union.mp hi).resolve_right hnew
  rw [mem_union, mem_sdiff]
  by_cases hjs : j ∈ seen
  · exact Or.inl hjs
  · by_cases hif : i ∈ frontier
    · exact Or.inr ⟨mem_biUnion.mpr ⟨i, hif, hj⟩, hjs⟩
    · exact Or.inl (h i hseen hif j hj)

/-- A round that finds something new has looked at one more of the states that lead anywhere. -/
theorem countP_unexplored_lt {seen frontier : StateSet} (hactive : ∀ i j, j ∈ next i → i ∈ active)
    (hf : ∀ i ∈ frontier, i ∈ seen) {k : Nat} (hk : k ∈ frontier.biUnion next \ seen) :
    active.countP (unexplored (seen ∪ (frontier.biUnion next \ seen)) (frontier.biUnion next \ seen)) <
      active.countP (unexplored seen frontier) := by
  obtain ⟨i, hi, hik⟩ := mem_biUnion.mp (mem_sdiff.mp hk).1
  refine countP_lt_countP (a := i) (fun x _ hx => ?_) (hactive i k hik) ?_ ?_
  · rw [unexplored_iff] at hx ⊢
    intro hxs
    exact absurd hxs (mem_sdiff.mp (hx (mem_union.mpr (Or.inl hxs)))).2
  · rw [unexplored_iff]
    exact fun _ => hi
  · rw [← Bool.not_eq_true, unexplored_iff]
    intro h
    exact (mem_sdiff.mp (h (mem_union.mpr (Or.inl (hf i hi))))).2 (hf i hi)

theorem reachFrom_closed (hactive : ∀ i j, j ∈ next i → i ∈ active) {i j : Nat} (hij : j ∈ next i) :
    ∀ {rounds : Nat} {seen frontier : StateSet}, ClosedBehind next seen frontier →
      (∀ i ∈ frontier, i ∈ seen) → active.countP (unexplored seen frontier) ≤ rounds →
      i ∈ reachFrom next rounds seen frontier → j ∈ reachFrom next rounds seen frontier
  | 0, seen, frontier, hc, _, hr, hi => by
    have hzero := List.countP_eq_zero.mp (Nat.le_zero.mp hr) i (hactive i j hij)
    rw [unexplored_iff] at hzero
    exact hc i hi (fun hif => hzero fun _ => hif) j hij
  | rounds + 1, seen, frontier, hc, hf, hr, hi => by
    rw [reachFrom] at hi ⊢
    split at hi
    · rename_i hnone
      rw [if_pos hnone]
      rw [isEmpty_iff] at hnone
      by_cases hjs : j ∈ seen
      · exact hjs
      · by_cases hif : i ∈ frontier
        · exact absurd (mem_sdiff.mpr ⟨mem_biUnion.mpr ⟨i, hif, hij⟩, hjs⟩) (hnone j)
        · exact hc i hi hif j hij
    · rename_i hsome
      rw [if_neg hsome]
      obtain ⟨k, hk⟩ := not_isEmpty_iff.mp hsome
      have hlt := countP_unexplored_lt hactive hf hk
      exact reachFrom_closed hactive hij hc.round (fun x hx => mem_union.mpr (Or.inr hx)) (by omega) hi

/-- The search finds exactly the states linked to a seed, if it may take one round for each state that leads
anywhere. -/
theorem mem_reach_iff {rounds j : Nat} {seeds : StateSet} (hactive : ∀ i j, j ∈ next i → i ∈ active)
    (hrounds : active.length ≤ rounds) : j ∈ reach rounds next seeds ↔ ∃ i ∈ seeds, Linked next i j := by
  constructor
  · exact exists_linked_of_mem_reach
  · intro h
    obtain ⟨i, hi, hij⟩ := h
    induction hij with
    | refl => exact mem_reach_of_mem hi
    | tail _ hk ih =>
      have hstart : ClosedBehind next seeds seeds := fun k hk hk' => absurd hk hk'
      have hcount : active.countP (unexplored seeds seeds) ≤ rounds :=
        Nat.le_trans List.countP_le_length hrounds
      exact reachFrom_closed hactive hk hstart (fun k hk => hk) hcount ih

/-! ### Without a bound -/

/-- Going on until a round finds nothing new, however many rounds that takes, leads to `result`. -/
inductive Exhausts (next : Nat → StateSet) : StateSet → StateSet → StateSet → Prop
  | done {seen frontier : StateSet} : (∀ j, j ∉ frontier.biUnion next \ seen) → Exhausts next seen frontier seen
  | round {seen frontier result : StateSet} {j : Nat} : j ∈ frontier.biUnion next \ seen →
      Exhausts next (seen ∪ (frontier.biUnion next \ seen)) (frontier.biUnion next \ seen) result →
      Exhausts next seen frontier result

theorem exhausts_reachFrom (hactive : ∀ i j, j ∈ next i → i ∈ active) {rounds : Nat} {seen frontier : StateSet}
    (hf : ∀ i ∈ frontier, i ∈ seen) (hr : active.countP (unexplored seen frontier) ≤ rounds) :
    Exhausts next seen frontier (reachFrom next rounds seen frontier) := by
  induction rounds generalizing seen frontier with
  | zero =>
    refine .done fun j hj => ?_
    obtain ⟨i, hi, hij⟩ := mem_biUnion.mp (mem_sdiff.mp hj).1
    have hzero := List.countP_eq_zero.mp (Nat.le_zero.mp hr) i (hactive i j hij)
    exact hzero (unexplored_iff.mpr fun _ => hi)
  | succ rounds ih =>
    rw [reachFrom]
    split
    · rename_i hnone
      exact .done (isEmpty_iff.mp hnone)
    · rename_i hsome
      obtain ⟨j, hj⟩ := not_isEmpty_iff.mp hsome
      have hlt := countP_unexplored_lt hactive hf hj
      exact .round hj (ih (fun i hi => mem_union.mpr (Or.inr hi)) (by omega))

theorem exhausts_reach (hactive : ∀ i j, j ∈ next i → i ∈ active) {rounds : Nat} (hrounds : active.length ≤ rounds)
    (seeds : StateSet) : Exhausts next seeds seeds (reach rounds next seeds) :=
  exhausts_reachFrom hactive (fun _ hi => hi) (Nat.le_trans List.countP_le_length hrounds)

end FiniteAutomata.StateSet
