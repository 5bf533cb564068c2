import FiniteAutomata.Automaton.WellFormed
import FiniteAutomata.Deterministic.Basic

/-!
The completed walk: the dead state stands for a transition that is missing, so a walk never stops. A word is
accepted if the completed walk ends in a final state (`accepts_iff`), because the dead state is not final and
nothing leads out of it.
-/

namespace FiniteAutomata.Deterministic

variable {D M N L : Deterministic} {i j m n : Nat} {a : Symbol} {v w : List Symbol}

/-! ### One step -/

theorem mem_targets_of_next? (h : D.next? i a = some j) : j ∈ D.automaton.table.targets i (.symbol a) :=
  StateSet.mem_of_min?_eq_some h

theorem source_lt (hD : D.automaton.WellFormed) (h : D.next? i a = some j) : i < D.dead :=
  hD.source_lt ⟨i, .symbol a, j⟩ (mem_targets_of_next? h)

theorem target_lt (hD : D.automaton.WellFormed) (h : D.next? i a = some j) : j < D.dead :=
  hD.target_lt ⟨i, .symbol a, j⟩ (mem_targets_of_next? h)

theorem mem_symbols_of_next? (hD : D.automaton.WellFormed) (h : D.next? i a = some j) : a ∈ D.symbols :=
  hD.declared i j a (mem_targets_of_next? h)

theorem next?_dead (hD : D.automaton.WellFormed) (a : Symbol) : D.next? D.dead a = none := by
  cases h : D.next? D.dead a with
  | none => rfl
  | some j => exact absurd (source_lt hD h) (Nat.lt_irrefl _)

@[simp] theorem next_dead (a : Symbol) : D.next D.dead a = D.dead := if_pos rfl

theorem next_eq (hD : D.automaton.WellFormed) (i : Nat) (a : Symbol) :
    D.next i a = (D.next? i a).getD D.dead := by
  rw [next]
  split
  · rename_i hi
    rw [hi, next?_dead hD, Option.getD_none]
  · rfl

theorem next_of_next? (hD : D.automaton.WellFormed) (h : D.next? i a = some j) : D.next i a = j := by
  rw [next_eq hD, h, Option.getD_some]

theorem next?_of_next_ne (hD : D.automaton.WellFormed) (h : D.next i a ≠ D.dead) :
    D.next? i a = some (D.next i a) := by
  cases hn : D.next? i a with
  | none =>
    rw [next_eq hD, hn] at h
    exact absurd rfl h
  | some j => rw [next_of_next? hD hn]

theorem next_le (hD : D.automaton.WellFormed) (i : Nat) (a : Symbol) : D.next i a ≤ D.dead := by
  rw [next_eq hD]
  cases h : D.next? i a with
  | none => exact Nat.le_refl _
  | some j => exact Nat.le_of_lt (target_lt hD h)

theorem next_of_not_mem_symbols (hD : D.automaton.WellFormed) (ha : a ∉ D.symbols) : D.next i a = D.dead := by
  rw [next_eq hD]
  cases h : D.next? i a with
  | none => rfl
  | some j => exact absurd (mem_symbols_of_next? hD h) ha

/-! ### Words -/

theorem after_cons (i : Nat) (a : Symbol) (w : List Symbol) : D.after i (a :: w) = D.after (D.next i a) w := rfl

theorem after_append (i : Nat) (v w : List Symbol) : D.after i (v ++ w) = D.after (D.after i v) w :=
  List.foldl_append

theorem after_dead (w : List Symbol) : D.after D.dead w = D.dead := by
  induction w with
  | nil => rfl
  | cons a w ih => rw [after_cons, next_dead, ih]

theorem after_le (hD : D.automaton.WellFormed) (hi : i ≤ D.dead) (w : List Symbol) : D.after i w ≤ D.dead := by
  induction w generalizing i with
  | nil => exact hi
  | cons a w ih => exact ih (next_le hD i a)

theorem after?_cons (i : Nat) (a : Symbol) (w : List Symbol) :
    D.after? i (a :: w) = (D.next? i a).bind (D.after? · w) := List.foldlM_cons

/-- The completed walk goes on dead where the walk stops. -/
theorem after_eq (hD : D.automaton.WellFormed) (i : Nat) (w : List Symbol) :
    D.after i w = (D.after? i w).getD D.dead := by
  induction w generalizing i with
  | nil => rfl
  | cons a w ih =>
    rw [after_cons, after?_cons, next_eq hD]
    cases D.next? i a with
    | none => exact after_dead w
    | some j => exact ih j

/-! ### Acceptance -/

theorem dead_not_mem_finals (hD : D.automaton.WellFormed) : D.dead ∉ D.finals :=
  fun h => Nat.lt_irrefl _ (hD.finals_lt D.dead h)

theorem after_dead_not_mem_finals (hD : D.automaton.WellFormed) (w : List Symbol) :
    D.after D.dead w ∉ D.finals := by
  rw [after_dead]
  exact dead_not_mem_finals hD

/-- Where the completed walk begins: an automaton without a start state is dead from the start. -/
def entry (D : Deterministic) : Nat := D.start?.getD D.dead

theorem start_lt (hD : D.automaton.WellFormed) (h : D.start? = some i) : i < D.dead :=
  hD.starts_lt i (StateSet.mem_of_min?_eq_some h)

theorem entry_le (hD : D.automaton.WellFormed) : D.entry ≤ D.dead := by
  rw [entry]
  cases h : D.start? with
  | none => exact Nat.le_refl _
  | some i => exact Nat.le_of_lt (start_lt hD h)

/-- Whether the walk from `i` along a word ends in a final state. -/
def acceptsFrom (D : Deterministic) (i : Nat) (w : List Symbol) : Bool := (D.after? i w).any D.finals.contains

theorem acceptsFrom_iff (hD : D.automaton.WellFormed) (i : Nat) (w : List Symbol) :
    D.acceptsFrom i w = true ↔ D.after i w ∈ D.finals := by
  rw [acceptsFrom, after_eq hD]
  cases D.after? i w with
  | none => exact iff_of_false (by simp) (dead_not_mem_finals hD)
  | some j => exact Iff.rfl

theorem acceptsFrom_dead (hD : D.automaton.WellFormed) (w : List Symbol) : D.acceptsFrom D.dead w = false := by
  rw [← Bool.not_eq_true, acceptsFrom_iff hD]
  exact after_dead_not_mem_finals hD w

/-- A word is accepted if the completed walk along it ends in a final state. -/
theorem accepts_iff (hD : D.automaton.WellFormed) (ls : List Label) :
    D.accepts ls = true ↔ D.after D.entry (Label.spelled ls) ∈ D.finals := by
  rw [accepts, entry]
  cases D.start? with
  | none => exact iff_of_false (by simp) (after_dead_not_mem_finals hD _)
  | some i => exact acceptsFrom_iff hD i (Label.spelled ls)

/-! ### The words accepted from a state -/

/-- The same words are accepted from `m` in one automaton and from `n` in the other. -/
def SameWords (M N : Deterministic) (m n : Nat) : Prop := ∀ w, M.after m w ∈ M.finals ↔ N.after n w ∈ N.finals

theorem sameWords_iff_acceptsFrom_eq (hM : M.automaton.WellFormed) (hN : N.automaton.WellFormed) :
    SameWords M N m n ↔ ∀ w, M.acceptsFrom m w = N.acceptsFrom n w :=
  forall_congr' fun w => by rw [Bool.eq_iff_iff, acceptsFrom_iff hM, acceptsFrom_iff hN]

theorem SameWords.symm (h : SameWords M N m n) : SameWords N M n m := fun w => (h w).symm

theorem SameWords.trans {k : Nat} (h : SameWords M N m n) (h' : SameWords N L n k) : SameWords M L m k :=
  fun w => (h w).trans (h' w)

theorem SameWords.after (h : SameWords M N m n) (v : List Symbol) :
    SameWords M N (M.after m v) (N.after n v) := fun w => by
  rw [← after_append, ← after_append]
  exact h (v ++ w)

theorem SameWords.next (h : SameWords M N m n) (a : Symbol) : SameWords M N (M.next m a) (N.next n a) :=
  h.after [a]

theorem sameWords_entry (hM : M.automaton.WellFormed) (hN : N.automaton.WellFormed)
    (h : ∀ ls, M.accepts ls = N.accepts ls) : SameWords M N M.entry N.entry := fun w => by
  have hw := Bool.eq_iff_iff.mp (h (w.map .symbol))
  rwa [accepts_iff hM, accepts_iff hN, Label.spelled_map_symbol] at hw

theorem SameWords.accepts_eq (h : SameWords M N M.entry N.entry) (hM : M.automaton.WellFormed)
    (hN : N.automaton.WellFormed) (ls : List Label) : M.accepts ls = N.accepts ls := by
  rw [Bool.eq_iff_iff, accepts_iff hM, accepts_iff hN]
  exact h (Label.spelled ls)

end FiniteAutomata.Deterministic
