/-!
Systematic search of a graph that is given by the neighbours of each node. The result lists the nodes found
in the order in which they were first met. A depth-first search goes on from the node met last, a
breadth-first search from the one met first.
-/

namespace FiniteAutomata.Search

variable {α : Type} [DecidableEq α]

/-- The members of a list that `found` lacks, each once, in the order of their first places. -/
def unseen (found : List α) : List α → List α
  | [] => []
  | a :: l => if a ∈ found then unseen found l else a :: unseen (found ++ [a]) l

/-- Takes the first node of `todo`, at most `fuel` times; the neighbours not met before are listed as found,
and `push` puts them among the nodes to do. -/
def run (push : List α → List α → List α) (neighbours : α → List α) :
    Nat → List α → List α → List α
  | 0, _, found => found
  | _ + 1, [], found => found
  | fuel + 1, a :: todo, found =>
    let new := unseen found (neighbours a)
    run push neighbours fuel (push new todo) (found ++ new)

/-- The nodes found from `roots`, where the node met last is searched next. -/
def depthFirst (fuel : Nat) (neighbours : α → List α) (roots : List α) : List α :=
  run (fun new todo => new.reverse ++ todo) neighbours fuel (unseen [] roots) (unseen [] roots)

/-- The nodes found from `roots`, where the node met first is searched next. -/
def breadthFirst (fuel : Nat) (neighbours : α → List α) (roots : List α) : List α :=
  run (fun new todo => todo ++ new) neighbours fuel (unseen [] roots) (unseen [] roots)

/-! ### New nodes -/

theorem mem_unseen {a : α} : ∀ {l found : List α}, a ∈ unseen found l ↔ a ∈ l ∧ a ∉ found
  | [], _ => by simp [unseen]
  | b :: l, found => by
    unfold unseen
    split
    · rename_i hb
      rw [mem_unseen, List.mem_cons]
      exact ⟨fun h => ⟨Or.inr h.1, h.2⟩, fun h => ⟨h.1.resolve_left fun hab => h.2 (hab ▸ hb), h.2⟩⟩
    · rename_i hb
      rw [List.mem_cons, mem_unseen, List.mem_cons, List.mem_append, List.mem_singleton]
      by_cases hab : a = b
      · simp [hab, hb]
      · simp [hab]

theorem unseen_nodup : ∀ {l found : List α}, (unseen found l).Nodup
  | [], _ => List.Pairwise.nil
  | b :: l, found => by
    unfold unseen
    split
    · exact unseen_nodup
    · refine List.nodup_cons.mpr ⟨fun h => ?_, unseen_nodup⟩
      exact (mem_unseen.mp h).2 (List.mem_append.mpr (Or.inr List.mem_cons_self))

end FiniteAutomata.Search
