import Mathlib.Data.List.Perm.Subperm
import Mathlib.Logic.Relation
import FiniteAutomata.Search

/-!
A search finds each node that neighbours lead to from a root, and finds it once (`Searching.mem_iff`). It ends by
itself if there are finitely many such nodes: each step takes a node away from those to do, and puts back only
nodes that were not found before. So a search that may take as many steps as there are nodes is not cut short
(`Searching.ends`), in whatever order nodes are put back.
-/

namespace FiniteAutomata.Search

variable {α : Type} {push : List α → List α → List α} {neighbours : α → List α}
  {roots todo found result nodes : List α} {a : α}

/-! ### What a search knows -/

/-- Going from neighbour to neighbour leads from a root to the node. -/
def Reached (neighbours : α → List α) (roots : List α) (a : α) : Prop :=
  ∃ r ∈ roots, Relation.ReflTransGen (fun a b => b ∈ neighbours a) r a

structure Searching (neighbours : α → List α) (roots todo found : List α) : Prop where
  nodup : found.Nodup
  roots_found : ∀ a ∈ roots, a ∈ found
  todo_found : ∀ a ∈ todo, a ∈ found
  reached : ∀ a ∈ found, Reached neighbours roots a
  closed : ∀ a ∈ found, a ∉ todo → ∀ b ∈ neighbours a, b ∈ found

/-- With nothing left to do, the nodes found are those that are reached. -/
theorem Searching.mem_iff (h : Searching neighbours roots [] found) : a ∈ found ↔ Reached neighbours roots a := by
  constructor
  · exact h.reached a
  · rintro ⟨r, hr, hra⟩
    induction hra with
    | refl => exact h.roots_found r hr
    | tail _ hc ih => exact h.closed _ ih List.not_mem_nil _ hc

theorem Searching.length_le (h : Searching neighbours roots todo found)
    (hnodes : ∀ a, Reached neighbours roots a → a ∈ nodes) : found.length ≤ nodes.length :=
  (List.subperm_of_subset h.nodup fun a ha => hnodes a (h.reached a ha)).length_le

/-! ### Steps -/

variable [DecidableEq α]

theorem searching_roots (neighbours : α → List α) (roots : List α) :
    Searching neighbours roots (unseen [] roots) (unseen [] roots) where
  nodup := unseen_nodup
  roots_found _ ha := mem_unseen.mpr ⟨ha, List.not_mem_nil⟩
  todo_found _ ha := ha
  reached a ha := ⟨a, (mem_unseen.mp ha).1, .refl⟩
  closed _ ha hdo := absurd ha hdo

theorem Searching.visit (hpush : ∀ new todo, (push new todo).Perm (new ++ todo))
    (h : Searching neighbours roots (a :: todo) found) :
    Searching neighbours roots (push (unseen found (neighbours a)) todo)
      (found ++ unseen found (neighbours a)) := by
  have hdo : ∀ b, b ∈ push (unseen found (neighbours a)) todo ↔ b ∈ unseen found (neighbours a) ∨ b ∈ todo :=
    fun b => (hpush _ _).mem_iff.trans List.mem_append
  have ha := h.todo_found a List.mem_cons_self
  refine {
    nodup := List.nodup_append.mpr ⟨h.nodup, unseen_nodup, ?_⟩
    roots_found := fun b hb => List.mem_append_left _ (h.roots_found b hb)
    todo_found := fun b hb => ?_
    reached := fun b hb => ?_
    closed := fun b hb hnot c hc => ?_ }
  · rintro b hb c hc rfl
    exact (mem_unseen.mp hc).2 hb
  · rcases (hdo b).mp hb with hb | hb
    · exact List.mem_append_right _ hb
    · exact List.mem_append_left _ (h.todo_found b (List.mem_cons_of_mem _ hb))
  · rcases List.mem_append.mp hb with hb | hb
    · exact h.reached b hb
    · obtain ⟨r, hr, hra⟩ := h.reached a ha
      exact ⟨r, hr, hra.tail (mem_unseen.mp hb).1⟩
  · rw [hdo, not_or] at hnot
    have hb := (List.mem_append.mp hb).resolve_right hnot.1
    by_cases hcf : c ∈ found
    · exact List.mem_append_left _ hcf
    by_cases hba : b = a
    · exact List.mem_append_right _ (mem_unseen.mpr ⟨hba ▸ hc, hcf⟩)
    · have hbdo : b ∉ a :: todo := by simp [hba, hnot.2]
      exact absurd (h.closed b hb hbdo c hc) hcf

/-! ### The search without a bound -/

/-- Taking the first node to do until none is left, however many steps that takes, leads to `result`. -/
inductive Ends (push : List α → List α → List α) (neighbours : α → List α) : List α → List α → List α → Prop
  | done {found : List α} : Ends push neighbours [] found found
  | visit {a : α} {todo found result : List α} :
      Ends push neighbours (push (unseen found (neighbours a)) todo) (found ++ unseen found (neighbours a)) result →
      Ends push neighbours (a :: todo) found result

theorem Ends.searching (hpush : ∀ new todo, (push new todo).Perm (new ++ todo))
    (he : Ends push neighbours todo found result) (h : Searching neighbours roots todo found) :
    Searching neighbours roots [] result := by
  induction he with
  | done => exact h
  | visit _ ih => exact ih (h.visit hpush)

/-- What is to do and what is not found yet get fewer together, so the bound on the steps is never met. -/
theorem Searching.ends (hpush : ∀ new todo, (push new todo).Perm (new ++ todo))
    (hnodes : ∀ a, Reached neighbours roots a → a ∈ nodes) {fuel : Nat}
    (h : Searching neighbours roots todo found)
    (hfuel : todo.length + nodes.length ≤ fuel + found.length) :
    Ends push neighbours todo found (run push neighbours fuel todo found) := by
  induction fuel generalizing todo found with
  | zero =>
    have hle := h.length_le hnodes
    rw [List.eq_nil_of_length_eq_zero (l := todo) (by omega)]
    exact .done
  | succ fuel ih =>
    match todo with
    | [] => exact .done
    | a :: todo =>
      have hlen := (hpush (unseen found (neighbours a)) todo).length_eq
      rw [List.length_append] at hlen
      rw [List.length_cons] at hfuel
      refine .visit (ih (h.visit hpush) ?_)
      rw [List.length_append, hlen]
      omega

/-! ### Depth first -/

/-- The search that goes on from the node met last, without a bound. -/
def DepthFirst (neighbours : α → List α) (roots result : List α) : Prop :=
  Ends (fun new todo => new.reverse ++ todo) neighbours (unseen [] roots) (unseen [] roots) result

theorem DepthFirst.searching (h : DepthFirst neighbours roots result) :
    Searching neighbours roots [] result :=
  Ends.searching (fun new todo => new.reverse_perm.append_right todo) h (searching_roots neighbours roots)

theorem depthFirst_ends {fuel : Nat} (hnodes : ∀ a, Reached neighbours roots a → a ∈ nodes)
    (hfuel : nodes.length ≤ fuel) : DepthFirst neighbours roots (depthFirst fuel neighbours roots) :=
  (searching_roots neighbours roots).ends (fun new todo => new.reverse_perm.append_right todo) hnodes (by omega)

/-! ### Breadth first -/

/-- The search that goes on from the node met first, without a bound. -/
def BreadthFirst (neighbours : α → List α) (roots result : List α) : Prop :=
  Ends (fun new todo => todo ++ new) neighbours (unseen [] roots) (unseen [] roots) result

theorem BreadthFirst.searching (h : BreadthFirst neighbours roots result) :
    Searching neighbours roots [] result :=
  Ends.searching (fun _ _ => List.perm_append_comm) h (searching_roots neighbours roots)

theorem breadthFirst_ends {fuel : Nat} (hnodes : ∀ a, Reached neighbours roots a → a ∈ nodes)
    (hfuel : nodes.length ≤ fuel) : BreadthFirst neighbours roots (breadthFirst fuel neighbours roots) :=
  (searching_roots neighbours roots).ends (fun _ _ => List.perm_append_comm) hnodes (by omega)

end FiniteAutomata.Search
