import FiniteAutomata.StateSet

/-!
The states reached from a set by going from state to state. The search goes in rounds, each of which looks
only at the states that the round before found, so no state is looked at twice, and it ends with the first
round that finds nothing new.
-/

namespace FiniteAutomata.StateSet

/-- `Linked next i j`: going from a state to one of its `next` states, zero or more times, leads from `i`
to `j`. -/
inductive Linked (next : Nat → StateSet) : Nat → Nat → Prop
  | refl (i : Nat) : Linked next i i
  | tail {i j k : Nat} : Linked next i j → k ∈ next j → Linked next i k

/-- Goes on from `frontier`, the part of `seen` not looked at yet, for at most the given number of rounds. -/
def reachFrom (next : Nat → StateSet) : Nat → StateSet → StateSet → StateSet
  | 0, seen, _ => seen
  | rounds + 1, seen, frontier =>
    let new := frontier.biUnion next \ seen
    if new.isEmpty then seen else reachFrom next rounds (seen ∪ new) new

/-- The states reached from `seeds` in at most the given number of rounds, `seeds` among them. -/
def reach (rounds : Nat) (next : Nat → StateSet) (seeds : StateSet) : StateSet :=
  reachFrom next rounds seeds seeds

theorem Linked.trans {next : Nat → StateSet} {i j k : Nat} (hij : Linked next i j) (hjk : Linked next j k) :
    Linked next i k := by
  induction hjk with
  | refl => exact hij
  | tail _ hk ih => exact .tail ih hk

theorem mem_reachFrom_of_mem {next : Nat → StateSet} {i : Nat} : ∀ {rounds : Nat} {seen frontier : StateSet},
    i ∈ seen → i ∈ reachFrom next rounds seen frontier
  | 0, _, _, h => h
  | rounds + 1, seen, frontier, h => by
    rw [reachFrom]
    split
    · exact h
    · exact mem_reachFrom_of_mem (mem_union.mpr (Or.inl h))

theorem mem_reach_of_mem {next : Nat → StateSet} {rounds i : Nat} {seeds : StateSet} (h : i ∈ seeds) :
    i ∈ reach rounds next seeds := mem_reachFrom_of_mem h

theorem exists_linked_of_mem_reachFrom {next : Nat → StateSet} {j : Nat} :
    ∀ {rounds : Nat} {seen frontier : StateSet}, (∀ i ∈ frontier, i ∈ seen) →
      j ∈ reachFrom next rounds seen frontier → ∃ i ∈ seen, Linked next i j
  | 0, _, _, _, h => ⟨j, h, .refl j⟩
  | rounds + 1, seen, frontier, hf, h => by
    rw [reachFrom] at h
    split at h
    · exact ⟨j, h, .refl j⟩
    · obtain ⟨i, hi, hij⟩ := exists_linked_of_mem_reachFrom (fun i hi => mem_union.mpr (Or.inr hi)) h
      rcases mem_union.mp hi with hi | hi
      · exact ⟨i, hi, hij⟩
      · obtain ⟨k, hk, hki⟩ := mem_biUnion.mp (mem_sdiff.mp hi).1
        exact ⟨k, hf k hk, .trans (.tail (.refl k) hki) hij⟩

theorem exists_linked_of_mem_reach {next : Nat → StateSet} {rounds j : Nat} {seeds : StateSet}
    (h : j ∈ reach rounds next seeds) : ∃ i ∈ seeds, Linked next i j :=
  exists_linked_of_mem_reachFrom (fun _ hi => hi) h

end FiniteAutomata.StateSet
