import Mathlib.Data.Finset.Card
import FiniteAutomata.Proofs.TransitionTable

/-!
Histories of a table. Whatever is put in and taken out, in whatever order and however often, the table answers as the
finite set of transitions that the same insertions and removals build (`answers_ofChanges`). Each change keeps that the
table is sound and holds the transitions of the set (`Holds.apply`), and that is all the answers depend on
(`Holds.answers`).
-/

namespace FiniteAutomata.TransitionTable

/-- One change to a table. -/
inductive Change where
  | add (t : Transition)
  | remove (t : Transition)
deriving DecidableEq, Repr

namespace Change

def apply : Change → TransitionTable → Bool × TransitionTable
  | .add t, T => T.add t
  | .remove t, T => T.remove t

/-- The change to a set of transitions. -/
def onSet : Change → Finset Transition → Finset Transition
  | .add t, S => Insert.insert t S
  | .remove t, S => S.erase t

end Change

/-- The table after a history of changes. -/
def ofChanges (cs : List Change) : TransitionTable := cs.foldl (fun T c => (c.apply T).2) ∅

/-- The set of transitions after a history of changes. -/
def setOf (cs : List Change) : Finset Transition := cs.foldl (fun S c => c.onSet S) ∅

variable {T : TransitionTable} {S : Finset Transition}

/-! ### Changes -/

/-- A sound table that holds the transitions of `S`. -/
structure Holds (T : TransitionTable) (S : Finset Transition) : Prop where
  sound : T.Sound
  mem_iff (t : Transition) : t ∈ T ↔ t ∈ S

theorem Holds.empty : Holds ∅ ∅ where
  sound := Sound.empty
  mem_iff t := iff_of_false (not_mem_empty t) (Finset.notMem_empty t)

theorem Holds.apply (h : T.Holds S) (c : Change) : (c.apply T).2.Holds (c.onSet S) := by
  cases c with
  | add t =>
    refine ⟨h.sound.add t, fun u => ?_⟩
    have hu : u ∈ (T.add t).2 ↔ u = t ∨ u ∈ T := mem_insert
    rw [Change.apply, Change.onSet, hu, Finset.mem_insert, h.mem_iff]
  | remove t =>
    refine ⟨h.sound.remove t, fun u => ?_⟩
    rw [Change.apply, Change.onSet, mem_remove, Finset.mem_erase, h.mem_iff]

theorem Holds.foldl (h : T.Holds S) (cs : List Change) :
    (cs.foldl (fun T c => (c.apply T).2) T).Holds (cs.foldl (fun S c => c.onSet S) S) := by
  induction cs generalizing T S with
  | nil => exact h
  | cons c cs ih => exact ih (h.apply c)

/-- A change says whether it changes the set. -/
theorem Holds.apply_fst (h : T.Holds S) (c : Change) : (c.apply T).1 = true ↔ c.onSet S ≠ S := by
  cases c with
  | add t => rw [Change.apply, Change.onSet, add_fst, h.mem_iff, Ne, Finset.insert_eq_self]
  | remove t => rw [Change.apply, Change.onSet, remove_fst, h.mem_iff, Ne, Finset.erase_eq_self, not_not]

/-! ### Answers -/

/-- What is said of the table, and what each change to it would say, is what holds of the set `S`. -/
structure Answers (T : TransitionTable) (S : Finset Transition) : Prop where
  apply_fst (c : Change) : (c.apply T).1 = true ↔ c.onSet S ≠ S
  mem_targets (q : Nat) (l : Label) (p : Nat) : p ∈ T.targets q l ↔ ⟨q, l, p⟩ ∈ S
  get?_eq_some (q : Nat) (l : Label) (D : StateSet) : T.get? q l = some D → D = T.targets q l
  get?_eq_none (q : Nat) (l : Label) : T.get? q l = none ↔ ∀ p, ⟨q, l, p⟩ ∉ S
  hasEdge_eq_false (q : Nat) (l : Label) : T.hasEdge q l = false ↔ ∀ p, ⟨q, l, p⟩ ∉ S
  edges_nodup : T.edges.Nodup
  mem_edges (t : Transition) : t ∈ T.edges ↔ t ∈ S
  size : T.size = S.card
  isEmpty : T.isEmpty = true ↔ S = ∅
  isDeterministic : T.isDeterministic = true ↔ (∀ t ∈ S, t.label ≠ .epsilon) ∧
    ∀ t ∈ S, ∀ u ∈ S, t.source = u.source → t.label = u.label → t = u

theorem Holds.hasEdge_eq_false (h : T.Holds S) (q : Nat) (l : Label) :
    T.hasEdge q l = false ↔ ∀ p, ⟨q, l, p⟩ ∉ S := by
  rw [← Bool.not_eq_true, h.sound.hasEdge_iff, not_exists]
  exact forall_congr' fun p => not_congr (h.mem_iff ⟨q, l, p⟩)

theorem Holds.size (h : T.Holds S) : T.size = S.card := by
  have hS : T.edges.toFinset = S := Finset.ext fun t => by rw [List.mem_toFinset, TransitionTable.mem_edges, h.mem_iff]
  rw [h.sound.size_eq, ← hS, List.toFinset_card_of_nodup T.edges_nodup]

theorem Holds.isDeterministic (h : T.Holds S) : T.isDeterministic = true ↔ (∀ t ∈ S, t.label ≠ .epsilon) ∧
    ∀ t ∈ S, ∀ u ∈ S, t.source = u.source → t.label = u.label → t = u := by
  rw [h.sound.isDeterministic_iff]
  constructor
  · rintro ⟨hepsilon, hone⟩
    constructor
    · rintro ⟨q, l, p⟩ ht rfl
      exact hepsilon q p ((h.mem_iff _).mpr ht)
    · rintro ⟨q, l, p⟩ ht ⟨q', l', p'⟩ hu rfl rfl
      rw [hone q l p p' ((h.mem_iff _).mpr ht) ((h.mem_iff _).mpr hu)]
  · rintro ⟨hepsilon, hone⟩
    refine ⟨fun q p hp => hepsilon _ ((h.mem_iff ⟨q, .epsilon, p⟩).mp hp) rfl, fun q l p p' hp hp' => ?_⟩
    exact congrArg Transition.target
      (hone ⟨q, l, p⟩ ((h.mem_iff _).mp hp) ⟨q, l, p'⟩ ((h.mem_iff _).mp hp') rfl rfl)

theorem Holds.answers (h : T.Holds S) : T.Answers S where
  apply_fst := h.apply_fst
  mem_targets q l p := h.mem_iff ⟨q, l, p⟩
  get?_eq_some q l D hD := by rw [targets, hD, Option.getD_some]
  get?_eq_none q l := by
    rw [← h.hasEdge_eq_false, hasEdge, Option.isSome_eq_false_iff, Option.isNone_iff_eq_none]
  hasEdge_eq_false := h.hasEdge_eq_false
  edges_nodup := T.edges_nodup
  mem_edges t := TransitionTable.mem_edges.trans (h.mem_iff t)
  size := h.size
  isEmpty := by rw [TransitionTable.isEmpty, beq_iff_eq, h.size, Finset.card_eq_zero]
  isDeterministic := h.isDeterministic

/-- After any history of changes a table answers as the set of transitions that the same changes build. -/
theorem answers_ofChanges (cs : List Change) : (ofChanges cs).Answers (setOf cs) := (Holds.empty.foldl cs).answers

end FiniteAutomata.TransitionTable
