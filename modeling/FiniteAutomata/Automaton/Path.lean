import FiniteAutomata.Automaton.Basic

/-!
Paths of an automaton, and the words that an automaton spells along them: the meaning that running an
automaton is held to.
-/

namespace FiniteAutomata.Automaton

/-- `Path A i ls j`: transitions of `A` with the labels `ls` lead from `i` to `j`. -/
inductive Path (A : Automaton) : Nat → List Label → Nat → Prop
  | nil (i : Nat) : Path A i [] i
  | cons {i j k : Nat} {l : Label} {ls : List Label} :
      (⟨i, l, j⟩ : Transition) ∈ A.table → Path A j ls k → Path A i (l :: ls) k

/-- Some path from `i` to `j` spells `w` once its empty labels are left out. -/
def Leads (A : Automaton) (i : Nat) (w : List Symbol) (j : Nat) : Prop :=
  ∃ ls, A.Path i ls j ∧ Label.spelled ls = w

/-- A word belongs to the automaton if some path from a start state to a final state spells it. -/
def Spells (A : Automaton) (w : List Symbol) : Prop := ∃ i ∈ A.starts, ∃ j ∈ A.finals, A.Leads i w j

/-! ### Putting paths together -/

theorem Path.append {A : Automaton} {i j k : Nat} {ls ms : List Label} (h : A.Path i ls j)
    (h' : A.Path j ms k) : A.Path i (ls ++ ms) k := by
  induction h with
  | nil => exact h'
  | cons ht _ ih => exact .cons ht (ih h')

theorem Leads.refl (A : Automaton) (i : Nat) : A.Leads i [] i := ⟨[], .nil i, rfl⟩

theorem Leads.trans {A : Automaton} {i j k : Nat} {v w : List Symbol} (h : A.Leads i v j)
    (h' : A.Leads j w k) : A.Leads i (v ++ w) k := by
  obtain ⟨ls, hp, rfl⟩ := h
  obtain ⟨ms, hp', rfl⟩ := h'
  exact ⟨ls ++ ms, hp.append hp', Label.spelled_append ls ms⟩

end FiniteAutomata.Automaton
