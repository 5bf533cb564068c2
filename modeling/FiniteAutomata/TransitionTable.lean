import FiniteAutomata.OrderedMap
import FiniteAutomata.StateSet
import FiniteAutomata.Symbol

/-!
Tables of transitions: a finite set of triples of a source, a label and a target, kept by source and label.
A table lists its transitions by source, then label, then target. Sources and targets are state ids; the
table knows no states or symbols of its own.
-/

namespace FiniteAutomata

/-- One transition: in `source`, reading `label` leads to `target`. -/
structure Transition where
  source : Nat
  label : Label
  target : Nat
deriving DecidableEq, Repr

def Transition.flip (t : Transition) : Transition := ⟨t.target, t.label, t.source⟩

/-- The transition between what `f` gives for its ends. -/
def Transition.map (f : Nat → Nat) (t : Transition) : Transition := ⟨f t.source, t.label, f t.target⟩

/-- The empty moves from each state of `S` to each state of `T`. -/
def Transition.emptyMoves (S T : StateSet) : List Transition :=
  S.toList.flatMap fun i => T.toList.map (⟨i, .epsilon, ·⟩)

/-- What a table looks up by: a source together with a label. -/
structure Slot where
  source : Nat
  label : Label
deriving DecidableEq, Repr

namespace Slot

/-- Slots are ordered by source, then by label. -/
instance : Ord Slot := ⟨compareLex (compareOn source) (compareOn label)⟩

instance : Std.TransOrd Slot := inferInstanceAs (Std.TransCmp (compareLex _ _))

instance : Std.LawfulEqOrd Slot where
  eq_of_compare {a b} h := by
    obtain ⟨hs, hl⟩ := compareLex_eq_eq.mp h
    have h₁ : a.source = b.source := Std.LawfulEqOrd.eq_of_compare hs
    have h₂ : a.label = b.label := Std.LawfulEqOrd.eq_of_compare hl
    cases a; cases b; cases h₁; cases h₂; rfl

end Slot

/-- A set of transitions: the nonempty sets of targets by slot, and a count of the transitions. -/
structure TransitionTable where
  buckets : OrderedMap Slot StateSet
  size : Nat
deriving DecidableEq

namespace TransitionTable

instance : EmptyCollection TransitionTable := ⟨⟨∅, 0⟩⟩

instance : Inhabited TransitionTable := ⟨∅⟩

/-- The targets of `q` on `l`, if there are any. -/
def get? (T : TransitionTable) (q : Nat) (l : Label) : Option StateSet := T.buckets.get? ⟨q, l⟩

def targets (T : TransitionTable) (q : Nat) (l : Label) : StateSet := (T.get? q l).getD ∅

def hasEdge (T : TransitionTable) (q : Nat) (l : Label) : Bool := (T.get? q l).isSome

/-- Puts a transition in, and says whether it was missing. -/
def add (T : TransitionTable) (t : Transition) : Bool × TransitionTable :=
  let (added, targets) := (T.targets t.source t.label).add t.target
  (added, ⟨T.buckets.insert ⟨t.source, t.label⟩ targets, if added then T.size + 1 else T.size⟩)

/-- Takes a transition out, and says whether it was there. A slot that loses its last target goes too. -/
def remove (T : TransitionTable) (t : Transition) : Bool × TransitionTable :=
  match T.get? t.source t.label with
  | none => (false, T)
  | some targets =>
    let (removed, rest) := targets.remove t.target
    let slot : Slot := ⟨t.source, t.label⟩
    (removed, ⟨if rest.isEmpty then T.buckets.erase slot else T.buckets.insert slot rest,
      if removed then T.size - 1 else T.size⟩)

def insert (T : TransitionTable) (t : Transition) : TransitionTable := (T.add t).2

def insertMany (T : TransitionTable) (ts : List Transition) : TransitionTable := ts.foldl insert T

def ofList (ts : List Transition) : TransitionTable := insertMany ∅ ts

/-- All transitions, ordered by source, then label, then target. -/
def edges (T : TransitionTable) : List Transition :=
  T.buckets.entries.flatMap fun (slot, targets) => targets.toList.map (⟨slot.source, slot.label, ·⟩)

instance : Membership Transition TransitionTable := ⟨fun T t => t.target ∈ T.targets t.source t.label⟩

instance (T : TransitionTable) (t : Transition) : Decidable (t ∈ T) :=
  inferInstanceAs (Decidable (t.target ∈ T.targets t.source t.label))

def isEmpty (T : TransitionTable) : Bool := T.size == 0

/-- Whether every transition reads a symbol and no slot has two targets. -/
def isDeterministic (T : TransitionTable) : Bool :=
  T.buckets.entries.all fun (slot, targets) => !slot.label.isEpsilon && targets.size == 1

/-- Whether two transitions with different labels join the same ordered pair of states. -/
def hasParallel (T : TransitionTable) : Bool :=
  T.edges.any fun t => T.edges.any fun u => t.source == u.source && t.target == u.target && t.label != u.label

/-! ### Members -/

theorem mem_iff {T : TransitionTable} {t : Transition} : t ∈ T ↔ t.target ∈ T.targets t.source t.label :=
  Iff.rfl

theorem targets_add (T : TransitionTable) (t : Transition) (q : Nat) (l : Label) : (T.add t).2.targets q l =
    if q = t.source ∧ l = t.label then (T.targets q l).insert t.target else T.targets q l := by
  change ((T.buckets.insert ⟨t.source, t.label⟩ _).get? ⟨q, l⟩).getD ∅ = _
  rw [OrderedMap.get?_insert]
  by_cases h : q = t.source ∧ l = t.label
  · rw [if_pos h, if_pos (by rw [h.1, h.2]), h.1, h.2]
    rfl
  · rw [if_neg h, if_neg fun he => h ⟨congrArg Slot.source he, congrArg Slot.label he⟩]
    rfl

/-- Putting `t` in adds `t` and nothing else. -/
@[simp] theorem mem_insert {T : TransitionTable} {t u : Transition} : u ∈ T.insert t ↔ u = t ∨ u ∈ T := by
  rw [mem_iff, insert, targets_add, mem_iff]
  obtain ⟨q, l, p⟩ := t
  obtain ⟨q', l', p'⟩ := u
  by_cases h : q' = q ∧ l' = l
  · rw [if_pos h, StateSet.mem_insert]
    simp [h.1, h.2]
  · rw [if_neg h]
    refine ⟨Or.inr, fun hu => hu.resolve_left fun he => h ?_⟩
    cases he
    exact ⟨rfl, rfl⟩

@[simp] theorem not_mem_empty (t : Transition) : t ∉ (∅ : TransitionTable) := StateSet.not_mem_empty _

theorem mem_insertMany {ts : List Transition} {t : Transition} :
    ∀ {T : TransitionTable}, t ∈ T.insertMany ts ↔ t ∈ T ∨ t ∈ ts := by
  induction ts with
  | nil => simp [insertMany]
  | cons u ts ih =>
    intro T
    have h := ih (T := T.insert u)
    rw [insertMany] at h ⊢
    rw [List.foldl_cons, h, mem_insert, List.mem_cons, or_assoc, or_left_comm]

@[simp] theorem mem_ofList {ts : List Transition} {t : Transition} : t ∈ ofList ts ↔ t ∈ ts := by
  rw [ofList, mem_insertMany]
  simp

/-- The list of transitions holds exactly the transitions of the table. -/
@[simp] theorem mem_edges {T : TransitionTable} {t : Transition} : t ∈ T.edges ↔ t ∈ T := by
  rw [mem_iff, targets, get?, edges, List.mem_flatMap]
  constructor
  · rintro ⟨⟨slot, targets⟩, he, ht⟩
    obtain ⟨p, hp, rfl⟩ := List.mem_map.mp ht
    rw [OrderedMap.get?_eq_some_iff.mpr he]
    exact StateSet.mem_toList.mp hp
  · intro h
    cases hb : T.buckets.get? ⟨t.source, t.label⟩ with
    | none =>
      rw [hb] at h
      exact absurd h (StateSet.not_mem_empty _)
    | some targets =>
      rw [hb] at h
      exact ⟨_, OrderedMap.get?_eq_some_iff.mp hb,
        List.mem_map.mpr ⟨t.target, StateSet.mem_toList.mpr h, rfl⟩⟩

end TransitionTable

end FiniteAutomata
