import FiniteAutomata.Ascending

/-!
Symbols of an input alphabet and labels of transitions. A symbol is known by its name alone, so a symbol
named `epsilon` is an ordinary one, apart from the empty label. Labels are ordered with all symbols, by
name, before the empty label.
-/

namespace FiniteAutomata

structure Symbol where
  name : String
deriving DecidableEq, Inhabited, Repr

namespace Symbol

/-- Symbols are ordered by their names, code point by code point. -/
instance : Ord Symbol := ⟨compareOn name⟩

instance : Std.TransOrd Symbol := inferInstanceAs (Std.TransCmp (compareOn _))

instance : Std.LawfulEqOrd Symbol where
  eq_of_compare {a b} h := by
    have hn : a.name = b.name := Std.LawfulEqOrd.eq_of_compare (α := String) h
    cases a; cases b; cases hn; rfl

/-- The symbol whose name is a single character. -/
def ofChar (c : Char) : Symbol := ⟨String.singleton c⟩

/-- The symbols of two alphabets: those of the first, then those that only the second has. -/
def join (as bs : List Symbol) : List Symbol := as ++ bs.filter fun b => decide (b ∉ as)

/-- The symbols that two alphabets share, in the order of the first. -/
def shared (as bs : List Symbol) : List Symbol := as.filter fun a => decide (a ∈ bs)

@[simp] theorem mem_join {as bs : List Symbol} {a : Symbol} : a ∈ join as bs ↔ a ∈ as ∨ a ∈ bs := by
  by_cases h : a ∈ as <;> simp [join, h]

@[simp] theorem mem_shared {as bs : List Symbol} {a : Symbol} : a ∈ shared as bs ↔ a ∈ as ∧ a ∈ bs := by
  simp [shared]

theorem join_cons_of_mem {as : List Symbol} {b : Symbol} (h : b ∈ as) (bs : List Symbol) :
    join as (b :: bs) = join as bs := by
  rw [join, join, List.filter_cons_of_neg (by simpa using h)]

theorem join_cons_of_not_mem {as bs : List Symbol} {b : Symbol} (h : b ∉ as) (hb : b ∉ bs) :
    join as (b :: bs) = join (as ++ [b]) bs := by
  have hfilter : bs.filter (fun c => decide (c ∉ as ++ [b])) = bs.filter fun c => decide (c ∉ as) := by
    refine List.filter_congr fun c hc => decide_eq_decide.mpr ?_
    rw [List.mem_append, List.mem_singleton, not_or]
    exact and_iff_left fun he => hb (he ▸ hc)
  rw [join, join, hfilter, List.filter_cons_of_pos (by simpa using h), List.append_assoc, List.singleton_append]

end Symbol

/-- What a transition reads: one symbol, or nothing. -/
inductive Label where
  | symbol (a : Symbol)
  | epsilon
deriving DecidableEq, Inhabited, Repr

namespace Label

/-- Every symbol comes before the empty label. -/
def compare : Label → Label → Ordering
  | .symbol a, .symbol b => Ord.compare a b
  | .symbol _, .epsilon => .lt
  | .epsilon, .symbol _ => .gt
  | .epsilon, .epsilon => .eq

instance : Ord Label := ⟨Label.compare⟩

instance : Std.TransOrd Label where
  eq_swap {a b} := by
    cases a with
    | symbol a =>
      cases b with
      | symbol b => exact Std.OrientedOrd.eq_swap (α := Symbol)
      | epsilon => rfl
    | epsilon => cases b <;> rfl
  isLE_trans {a b c} hab hbc := by
    cases a with
    | symbol a =>
      cases c with
      | epsilon => rfl
      | symbol c =>
        cases b with
        | symbol b => exact Std.TransOrd.isLE_trans (α := Symbol) hab hbc
        | epsilon => cases hbc
    | epsilon =>
      cases b with
      | symbol b => cases hab
      | epsilon => exact hbc

instance : Std.LawfulEqOrd Label where
  compare_self {a} := by
    cases a with
    | symbol a => exact Std.ReflOrd.compare_self (α := Symbol)
    | epsilon => rfl
  eq_of_compare {a b} h := by
    cases a with
    | symbol a =>
      cases b with
      | symbol b => exact congrArg _ (Std.LawfulEqOrd.eq_of_compare (α := Symbol) h)
      | epsilon => cases h
    | epsilon =>
      cases b with
      | symbol b => cases h
      | epsilon => rfl

def symbol? : Label → Option Symbol
  | .symbol a => some a
  | .epsilon => none

def isEpsilon (l : Label) : Bool := l.symbol?.isNone

/-- A symbol is shown by its name, the empty label by the word for it. -/
def text : Label → String
  | .symbol a => a.name
  | .epsilon => "epsilon"

/-- The labels in their order, repetitions kept. -/
def sort (ls : List Label) : List Label := ls.mergeSort fun a b => (Ord.compare a b).isLE

/-- The word that a sequence of labels spells: its symbols, the empty labels left out. -/
def spelled (ls : List Label) : List Symbol := ls.filterMap symbol?

@[simp] theorem spelled_nil : spelled [] = [] := rfl

@[simp] theorem spelled_cons_symbol (a : Symbol) (ls : List Label) :
    spelled (.symbol a :: ls) = a :: spelled ls := rfl

@[simp] theorem spelled_cons_epsilon (ls : List Label) : spelled (.epsilon :: ls) = spelled ls := rfl

theorem spelled_append (ls ms : List Label) : spelled (ls ++ ms) = spelled ls ++ spelled ms :=
  List.filterMap_append

/-- Every word is spelled by its own symbols. -/
theorem spelled_map_symbol (w : List Symbol) : spelled (w.map symbol) = w := by
  induction w with
  | nil => rfl
  | cons a w ih => rw [List.map_cons, spelled_cons_symbol, ih]

end Label

end FiniteAutomata
