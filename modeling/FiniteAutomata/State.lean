import FiniteAutomata.Ascending

/-!
Named states, and the names that constructions give to the states they make: a set of states is named by
its members in order, so the same set always has the same name, and a pair by its two components.
-/

namespace FiniteAutomata

/-- A state of an automaton, known by its name. -/
structure State where
  name : String
deriving DecidableEq, Inhabited, Repr

namespace State

/-- States are ordered by their names, code point by code point. -/
instance : Ord State := ⟨compareOn name⟩

instance : Std.TransOrd State := inferInstanceAs (Std.TransCmp (compareOn _))

instance : Std.LawfulEqOrd State where
  eq_of_compare {p q} h := by
    have hn : p.name = q.name := Std.LawfulEqOrd.eq_of_compare (α := String) h
    cases p; cases q; cases hn; rfl

/-- The states in the order of their names, repetitions kept. -/
def sort (qs : List State) : List State := qs.mergeSort fun p q => (compare p q).isLE

/-- The state that stands for a set of states: the names of its members in order, each once, between
braces and with a semicolon after each but the last. -/
def merged (qs : List State) : State :=
  ⟨"\x7b" ++ ";".intercalate ((Ascending.ofList qs).map name) ++ "\x7d"⟩

/-- The state that stands for two states side by side. -/
def pair (p q : State) : State := ⟨"(" ++ p.name ++ ", " ++ q.name ++ ")"⟩

/-- The state with a mark in front of its name, which keeps apart states that come from two automata. -/
def tagged (tag : String) (q : State) : State := ⟨tag ++ q.name⟩

/-- The state with one more prime after its name. -/
def prime (q : State) : State := ⟨q.name ++ "'"⟩

/-- The state with `k` primes after its name. -/
def primed (q : State) (k : Nat) : State := ⟨q.name ++ String.join (List.replicate k "'")⟩

theorem length_prime (q : State) : q.prime.name.length = q.name.length + 1 := String.length_append _ _

theorem ascending_iff {qs : List State} : Ascending qs ↔ (qs.map name).Pairwise (· < ·) := by
  have hlt : ∀ p q : State, compare p q = .lt ↔ p.name < q.name := fun _ _ => compareOfLessAndEq_eq_lt
  simp only [Ascending, List.pairwise_map, hlt]

@[simp] theorem mem_sort {q : State} {qs : List State} : q ∈ sort qs ↔ q ∈ qs := List.mem_mergeSort

theorem sort_perm (qs : List State) : (sort qs).Perm qs := List.mergeSort_perm qs _

/-- Without repetitions, the order is strict. -/
theorem sort_ascending {qs : List State} (h : qs.Nodup) : Ascending (sort qs) := by
  have htrans : ∀ p q r : State, (compare p q).isLE = true → (compare q r).isLE = true →
      (compare p r).isLE = true := fun _ _ _ => Std.TransOrd.isLE_trans
  have htotal : ∀ p q : State, ((compare p q).isLE || (compare q p).isLE) = true := by
    intro p q
    rw [Std.OrientedOrd.eq_swap (a := q) (b := p)]
    cases compare p q <;> rfl
  have hle : (sort qs).Pairwise fun p q => (compare p q).isLE = true := List.pairwise_mergeSort htrans htotal qs
  have hne : (sort qs).Pairwise (· ≠ ·) := (sort_perm qs).nodup_iff.mpr h
  refine (hle.and hne).imp fun {p q} hpq => ?_
  obtain ⟨hle, hne⟩ := hpq
  cases hc : compare p q with
  | lt => rfl
  | eq => exact absurd (Std.LawfulEqOrd.eq_of_compare hc) hne
  | gt =>
    rw [hc] at hle
    cases hle

/-- The name of a set of states depends on its members only. -/
theorem merged_congr {ps qs : List State} (h : ∀ q, q ∈ ps ↔ q ∈ qs) : merged ps = merged qs := by
  have he : Ascending.ofList ps = Ascending.ofList qs :=
    Ascending.ext (Ascending.ofList_ascending ps) (Ascending.ofList_ascending qs) fun q => by
      rw [Ascending.mem_ofList, Ascending.mem_ofList, h]
  rw [merged, merged, he]

end State

end FiniteAutomata
