import Mathlib.Data.List.Induction
import FiniteAutomata.Automaton.Powerset
import FiniteAutomata.Automaton.WellFormed
import FiniteAutomata.Proofs.Automaton.Runs
import FiniteAutomata.Proofs.Search

/-!
The accessible sets of an automaton are the sets of states, other than the empty one, that a run is in after some
word (`mem_accessibleSets_iff`), each listed once. A word with a symbol outside the alphabet leads nowhere, so
stepping along the alphabet misses no set; and the states have only so many subsets, so the search that lists the
sets ends by itself (`explores_accessibleSets`).
-/

namespace FiniteAutomata.Automaton

variable {A : Automaton} {S T : StateSet} {a : Symbol} {i j : Nat} {w : List Symbol}

/-! ### Sets that runs are in -/

theorem leads_lt (hA : A.WellFormed) (hi : i < A.numStates) (h : A.Leads i w j) : j < A.numStates := by
  obtain ⟨ls, hp, -⟩ := h
  induction hp with
  | nil => exact hi
  | cons ht _ ih => exact ih (hA.target_lt _ ht)

theorem run_append (A : Automaton) (w : List Symbol) (a : Symbol) : A.run (w ++ [a]) = A.step (A.run w) a := by
  simp [run, List.foldl_append]

theorem lt_of_mem_run (hA : A.WellFormed) (hi : i ∈ A.run w) : i < A.numStates := by
  obtain ⟨s, hs, hsi⟩ := mem_run_iff.mp hi
  exact leads_lt hA (hA.starts_lt s hs) hsi

theorem lt_of_mem_step (hA : A.WellFormed) (hj : j ∈ A.step S a) : j < A.numStates := by
  obtain ⟨i, -, k, hk, hkj⟩ := mem_step_iff.mp hj
  exact leads_lt hA (hA.target_lt ⟨i, .symbol a, k⟩ hk) hkj

theorem mem_symbols_of_mem_step (hA : A.WellFormed) (hj : j ∈ A.step S a) : a ∈ A.symbols := by
  obtain ⟨i, -, k, hk, -⟩ := mem_step_iff.mp hj
  exact hA.declared i k a hk

theorem exists_mem_of_mem_step (hj : j ∈ A.step S a) : ∃ i, i ∈ S := by
  obtain ⟨i, hi, -⟩ := mem_step_iff.mp hj
  exact ⟨i, hi⟩

theorem mem_symbols_of_leads (hA : A.WellFormed) (h : A.Leads i w j) : ∀ a ∈ w, a ∈ A.symbols := by
  obtain ⟨ls, hp, rfl⟩ := h
  induction hp with
  | nil => exact fun a ha => absurd ha List.not_mem_nil
  | @cons i k j l ls ht _ ih =>
    cases l with
    | symbol b =>
      rw [Label.spelled_cons_symbol, List.forall_mem_cons]
      exact ⟨hA.declared i k b ht, ih⟩
    | epsilon => exact ih

/-- A word with a symbol outside the alphabet is not accepted. -/
theorem mem_symbols_of_accepts (hA : A.WellFormed) {ls : List Label} (h : A.accepts ls = true) :
    ∀ a ∈ Label.spelled ls, a ∈ A.symbols := by
  obtain ⟨i, -, j, -, hij⟩ := accepts_iff.mp h
  exact mem_symbols_of_leads hA hij

/-! ### The search -/

/-- Where the search for accessible sets begins; the empty set is none of them. -/
def powersetRoots (A : Automaton) : List StateSet := if A.initial.isEmpty then [] else [A.initial]

/-- The search for accessible sets without a bound: it ends in `sets`, and each closure it takes goes on until empty
moves lead to nothing new. -/
structure Explores (A : Automaton) (sets : List StateSet) : Prop where
  search : Search.DepthFirst A.powersetNext A.powersetRoots sets
  closures : ∀ S, StateSet.Exhausts (fun i => A.table.targets i .epsilon) S S (A.closure S)

theorem mem_powersetRoots_iff : S ∈ A.powersetRoots ↔ S = A.initial ∧ ∃ i, i ∈ A.initial := by
  unfold powersetRoots
  split
  · rename_i hnone
    rw [StateSet.isEmpty_iff] at hnone
    simp [hnone]
  · rename_i hsome
    rw [StateSet.not_isEmpty_iff] at hsome
    simp [hsome]

theorem mem_powersetNext_iff : T ∈ A.powersetNext S ↔ ∃ a ∈ A.symbols, T = A.step S a ∧ ∃ i, i ∈ T := by
  rw [powersetNext, List.mem_filter, Bool.not_eq_true', ← Bool.not_eq_true, StateSet.not_isEmpty_iff,
    List.mem_map]
  constructor
  · rintro ⟨⟨a, ha, rfl⟩, hsome⟩
    exact ⟨a, ha, rfl, hsome⟩
  · rintro ⟨a, ha, rfl, hsome⟩
    exact ⟨⟨a, ha, rfl⟩, hsome⟩

theorem reached_iff (hA : A.WellFormed) :
    Search.Reached A.powersetNext A.powersetRoots S ↔ (∃ i, i ∈ S) ∧ ∃ w, S = A.run w := by
  constructor
  · rintro ⟨R, hR, hRS⟩
    induction hRS with
    | refl =>
      obtain ⟨rfl, hsome⟩ := mem_powersetRoots_iff.mp hR
      exact ⟨hsome, [], rfl⟩
    | tail _ hT ih =>
      obtain ⟨-, w, rfl⟩ := ih
      obtain ⟨a, -, rfl, hsome⟩ := mem_powersetNext_iff.mp hT
      exact ⟨hsome, w ++ [a], (A.run_append w a).symm⟩
  · rintro ⟨hsome, w, rfl⟩
    induction w using List.reverseRecOn with
    | nil => exact ⟨A.initial, mem_powersetRoots_iff.mpr ⟨rfl, hsome⟩, .refl⟩
    | append_singleton w a ih =>
      rw [run_append] at hsome ⊢
      obtain ⟨j, hj⟩ := hsome
      obtain ⟨R, hR, hreached⟩ := ih (exists_mem_of_mem_step hj)
      exact ⟨R, hR, hreached.tail (mem_powersetNext_iff.mpr ⟨a, mem_symbols_of_mem_step hA hj, rfl, j, hj⟩)⟩

/-- The subsets of the states, as numbers below a power of two. -/
def subsets (A : Automaton) : List StateSet := (List.range (1 <<< A.numStates)).map StateSet.mk

theorem mem_subsets (hS : ∀ i ∈ S, i < A.numStates) : S ∈ A.subsets := by
  refine List.mem_map.mpr ⟨S.mask, List.mem_range.mpr ?_, rfl⟩
  rw [Nat.one_shiftLeft]
  refine Nat.lt_pow_two_of_testBit _ fun i hi => ?_
  rw [← Bool.not_eq_true]
  exact fun h => Nat.not_lt.mpr hi (hS i h)

theorem explores_accessibleSets (hA : A.WellFormed) : A.Explores A.accessibleSets where
  search := by
    have hbound : ∀ S, Search.Reached A.powersetNext A.powersetRoots S → S ∈ A.subsets := by
      intro S hS
      obtain ⟨-, w, rfl⟩ := (reached_iff hA).mp hS
      exact mem_subsets fun i hi => lt_of_mem_run hA hi
    have hends := Search.depthFirst_ends hbound (Nat.le_of_eq (by rw [subsets, List.length_map, List.length_range]))
    rw [accessibleSets]
    rw [powersetRoots] at hends ⊢
    split
    · exact .done
    · rwa [if_neg ‹_›] at hends
  closures := exhausts_closure A

theorem mem_accessibleSets_iff (hA : A.WellFormed) :
    S ∈ A.accessibleSets ↔ (∃ i, i ∈ S) ∧ ∃ w, S = A.run w :=
  (explores_accessibleSets hA).search.searching.mem_iff.trans (reached_iff hA)

theorem accessibleSets_nodup (hA : A.WellFormed) : A.accessibleSets.Nodup :=
  (explores_accessibleSets hA).search.searching.nodup

theorem initial_mem_accessibleSets (hA : A.WellFormed) (hi : i ∈ A.initial) : A.initial ∈ A.accessibleSets :=
  (mem_accessibleSets_iff hA).mpr ⟨⟨i, hi⟩, [], rfl⟩

theorem step_mem_accessibleSets (hA : A.WellFormed) (hS : S ∈ A.accessibleSets) (hj : j ∈ A.step S a) :
    A.step S a ∈ A.accessibleSets := by
  obtain ⟨-, w, rfl⟩ := (mem_accessibleSets_iff hA).mp hS
  exact (mem_accessibleSets_iff hA).mpr ⟨⟨j, hj⟩, w ++ [a], (A.run_append w a).symm⟩

theorem lt_of_mem_accessibleSets (hA : A.WellFormed) (hS : S ∈ A.accessibleSets) : ∀ i ∈ S, i < A.numStates := by
  obtain ⟨-, w, rfl⟩ := (mem_accessibleSets_iff hA).mp hS
  exact fun i hi => lt_of_mem_run hA hi

end FiniteAutomata.Automaton
