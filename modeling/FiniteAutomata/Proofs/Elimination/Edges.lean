import FiniteAutomata.Elimination.Path
import FiniteAutomata.Proofs.Regex.Constructors

/-!
What the edges of a graph carry after edges are added, and after a state is taken away. Adding edges is
described by the words gained between each two states (`Gains`), which adds up along a list of additions;
taking a state away leaves between two other states the words of their edge and the words of the ways
through the state (`matches_edge_eliminate`). Every operation keeps a graph well formed.
-/

namespace FiniteAutomata

theorem OrderedMap.get?_filterKeys {κ β : Type} [Ord κ] [Std.TransOrd κ] [Std.LawfulEqOrd κ]
    {m : OrderedMap κ β} {p : κ → Bool} {k : κ} {v : β} :
    (m.filterKeys p).get? k = some v ↔ m.get? k = some v ∧ p k = true := by
  rw [get?_eq_some_iff, get?_eq_some_iff]
  exact List.mem_filter

namespace Graph

variable {G H K : Graph} {i j k p q : Nat} {r : Regex} {w : List Symbol}

/-! ### Edges -/

theorem matches_edge_iff :
    Matches (G.edge i j) w ↔ ∃ r, G.edges.get? ⟨i, j⟩ = some r ∧ Matches r w := by
  rw [edge]
  cases h : G.edges.get? ⟨i, j⟩ with
  | none => simp
  | some r => simp

theorem get?_addEdge (a : Arrow) : (G.addEdge i j r).edges.get? a =
    if a = ⟨i, j⟩ then if Regex.mkUnion (G.edge i j) r = .empty then none
      else some (Regex.mkUnion (G.edge i j) r)
    else G.edges.get? a := by
  rw [addEdge, OrderedMap.get?_alter, edge]
  cases h : G.edges.get? ⟨i, j⟩ with
  | none => rfl
  | some s => rfl

theorem edge_addEdge : (G.addEdge i j r).edge p q =
    if p = i ∧ q = j then Regex.mkUnion (G.edge i j) r else G.edge p q := by
  rw [edge, get?_addEdge]
  by_cases h : p = i ∧ q = j
  · rw [if_pos h, if_pos (by rw [h.1, h.2])]
    split
    · rename_i he
      rw [he, Option.getD_none]
    · rw [Option.getD_some]
  · rw [if_neg h, if_neg fun he => h ⟨congrArg Arrow.source he, congrArg Arrow.target he⟩, edge]

/-! ### Words gained -/

/-- `H` is `G` with more edges: between `p` and `q` there are the words `w` with `new p q w` besides those
that `G` has. -/
structure Gains (G H : Graph) (new : Nat → Nat → List Symbol → Prop) : Prop where
  states : H.states = G.states
  starts : H.starts = G.starts
  finals : H.finals = G.finals
  matches_iff : ∀ p q w, Matches (H.edge p q) w ↔ Matches (G.edge p q) w ∨ new p q w

namespace Gains

variable {new new' : Nat → Nat → List Symbol → Prop}

theorem addEdge (G : Graph) (i j : Nat) (r : Regex) :
    Gains G (G.addEdge i j r) fun p q w => p = i ∧ q = j ∧ Matches r w where
  states := rfl
  starts := rfl
  finals := rfl
  matches_iff p q w := by
    rw [edge_addEdge]
    split
    · rename_i h
      rw [Matches.mkUnion_iff, h.1, h.2]
      simp
    · rename_i h
      exact (or_iff_left fun hn => h ⟨hn.1, hn.2.1⟩).symm

theorem refl (G : Graph) : Gains G G fun _ _ _ => False :=
  ⟨rfl, rfl, rfl, fun _ _ _ => (or_iff_left id).symm⟩

theorem trans (h : Gains G H new) (h' : Gains H K new') :
    Gains G K fun p q w => new p q w ∨ new' p q w where
  states := h'.states.trans h.states
  starts := h'.starts.trans h.starts
  finals := h'.finals.trans h.finals
  matches_iff p q w := by rw [h'.matches_iff, h.matches_iff, or_assoc]

theorem congr (h : Gains G H new) (hn : ∀ p q w, new p q w ↔ new' p q w) : Gains G H new' where
  states := h.states
  starts := h.starts
  finals := h.finals
  matches_iff p q w := by rw [h.matches_iff, hn]

/-- The words gained by a list of additions are those gained by one of them. -/
theorem foldl {β : Type} {f : Graph → β → Graph} {gain : β → Nat → Nat → List Symbol → Prop} :
    ∀ {l : List β} {G : Graph}, (∀ x ∈ l, ∀ H, Gains H (f H x) (gain x)) →
      Gains G (l.foldl f G) fun p q w => ∃ x ∈ l, gain x p q w
  | [], G, _ => (refl G).congr fun _ _ _ => by simp
  | x :: l, G, h => by
    have hhead := h x List.mem_cons_self G
    have htail := foldl (G := f G x) fun y hy => h y (List.mem_cons_of_mem _ hy)
    exact (hhead.trans htail).congr fun p q w => by simp

end Gains

/-! ### Graphs stay well formed -/

theorem WellFormed.addEdge (h : G.WellFormed) (hi : i ∈ G.states) (hj : j ∈ G.states) (r : Regex) :
    (G.addEdge i j r).WellFormed where
  edge_ne_empty a := by
    rw [get?_addEdge]
    split
    · split
      · exact nofun
      · rename_i hne
        exact fun he => hne (Option.some.inj he)
    · exact h.edge_ne_empty a
  source_mem a s := by
    rw [get?_addEdge]
    split
    · rename_i ha
      intro _
      rw [ha]
      exact hi
    · exact h.source_mem a s
  target_mem a s := by
    rw [get?_addEdge]
    split
    · rename_i ha
      intro _
      rw [ha]
      exact hj
    · exact h.target_mem a s

theorem WellFormed.foldl {β : Type} {f : Graph → β → Graph} {l : List β} (h : G.WellFormed)
    (hf : ∀ x ∈ l, ∀ H : Graph, H.WellFormed → H.states = G.states →
      (f H x).WellFormed ∧ (f H x).states = G.states) :
    (l.foldl f G).WellFormed ∧ (l.foldl f G).states = G.states := by
  refine List.foldlRecOn l f (motive := fun H => H.WellFormed ∧ H.states = G.states) ⟨h, rfl⟩ ?_
  rintro H ⟨hH, hs⟩ x hx
  exact hf x hx H hH hs

/-! ### Taking a state away -/

/-- The edges that enter a state from another one. -/
def waysIn (G : Graph) (k : Nat) : List (Arrow × Regex) :=
  G.edges.entries.filter fun (a, _) => a.target == k && a.source != k

/-- The edges that leave a state for another one. -/
def waysOut (G : Graph) (k : Nat) : List (Arrow × Regex) :=
  G.edges.entries.filter fun (a, _) => a.source == k && a.target != k

/-- The graph without a state and the edges that touch it. -/
def without (G : Graph) (k : Nat) : Graph :=
  { G with states := G.states.erase k, edges := G.edges.filterKeys fun a => !a.touches k }

/-- Adds an edge from a way in to a way out, with repetitions of `loop` between them. -/
def bridge (loop : Regex) (e : Arrow × Regex) (G : Graph) (f : Arrow × Regex) : Graph :=
  G.addEdge e.1.source f.1.target (.mkConcat (.mkConcat e.2 loop) f.2)

theorem eliminate_eq (G : Graph) (k : Nat) : G.eliminate k =
    (G.waysIn k).foldl (fun H e => (G.waysOut k).foldl (bridge (.mkStar (G.edge k k)) e) H)
      (G.without k) := rfl

theorem mem_waysIn {a : Arrow} : (a, r) ∈ G.waysIn k ↔
    G.edges.get? a = some r ∧ a.target = k ∧ a.source ≠ k := by
  rw [waysIn, List.mem_filter, OrderedMap.get?_eq_some_iff]
  simp

theorem mem_waysOut {a : Arrow} : (a, r) ∈ G.waysOut k ↔
    G.edges.get? a = some r ∧ a.source = k ∧ a.target ≠ k := by
  rw [waysOut, List.mem_filter, OrderedMap.get?_eq_some_iff]
  simp

theorem get?_without {a : Arrow} : (G.without k).edges.get? a = some r ↔
    G.edges.get? a = some r ∧ a.source ≠ k ∧ a.target ≠ k := by
  rw [without, OrderedMap.get?_filterKeys]
  simp [Arrow.touches]

theorem matches_edge_without :
    Matches ((G.without k).edge p q) w ↔ p ≠ k ∧ q ≠ k ∧ Matches (G.edge p q) w := by
  rw [matches_edge_iff, matches_edge_iff]
  constructor
  · intro h
    obtain ⟨r, hr, hw⟩ := h
    obtain ⟨hr, hp, hq⟩ := get?_without.mp hr
    exact ⟨hp, hq, r, hr, hw⟩
  · intro h
    obtain ⟨hp, hq, r, hr, hw⟩ := h
    exact ⟨r, get?_without.mpr ⟨hr, hp, hq⟩, hw⟩

/-- `w` is spelled on a way from `p` through `k` to `q`: into `k`, any number of times round its loop, and
out again. -/
def Through (G : Graph) (k p q : Nat) (w : List Symbol) : Prop :=
  ∃ u v x, Matches (G.edge p k) u ∧ Matches (.star (G.edge k k)) v ∧ Matches (G.edge k q) x ∧
    w = u ++ v ++ x

theorem matches_bridge {loop s t : Regex} : Matches (.mkConcat (.mkConcat s (.mkStar loop)) t) w ↔
    ∃ u v x, Matches s u ∧ Matches (.star loop) v ∧ Matches t x ∧ w = u ++ v ++ x := by
  rw [Matches.mkConcat_iff]
  constructor
  · intro h
    obtain ⟨y, x, hy, hx, rfl⟩ := h
    obtain ⟨u, v, hu, hv, rfl⟩ := Matches.mkConcat_iff.mp hy
    exact ⟨u, v, x, hu, Matches.mkStar_iff.mp hv, hx, rfl⟩
  · intro h
    obtain ⟨u, v, x, hu, hv, hx, rfl⟩ := h
    exact ⟨u ++ v, x, Matches.mkConcat_iff.mpr ⟨u, v, hu, Matches.mkStar_iff.mpr hv, rfl⟩, hx, rfl⟩

theorem exists_waysIn_waysOut_iff : (∃ e ∈ G.waysIn k, ∃ f ∈ G.waysOut k, p = e.1.source ∧ q = f.1.target ∧
    Matches (.mkConcat (.mkConcat e.2 (.mkStar (G.edge k k))) f.2) w) ↔
      p ≠ k ∧ q ≠ k ∧ G.Through k p q w := by
  constructor
  · intro h
    obtain ⟨⟨⟨i, k'⟩, s⟩, he, ⟨⟨k'', j⟩, t⟩, hf, rfl, rfl, hw⟩ := h
    obtain ⟨hs, rfl, hp⟩ := mem_waysIn.mp he
    obtain ⟨ht, rfl, hq⟩ := mem_waysOut.mp hf
    obtain ⟨u, v, x, hu, hv, hx, hw⟩ := matches_bridge.mp hw
    exact ⟨hp, hq, u, v, x, matches_edge_iff.mpr ⟨s, hs, hu⟩, hv, matches_edge_iff.mpr ⟨t, ht, hx⟩, hw⟩
  · intro h
    obtain ⟨hp, hq, u, v, x, hu, hv, hx, hw⟩ := h
    obtain ⟨s, hs, hu⟩ := matches_edge_iff.mp hu
    obtain ⟨t, ht, hx⟩ := matches_edge_iff.mp hx
    exact ⟨(⟨p, k⟩, s), mem_waysIn.mpr ⟨hs, rfl, hp⟩, (⟨k, q⟩, t), mem_waysOut.mpr ⟨ht, rfl, hq⟩, rfl, rfl,
      matches_bridge.mpr ⟨u, v, x, hu, hv, hx, hw⟩⟩

/-- What taking a state away adds to the graph without it are the ways through the state. -/
theorem gains_eliminate (G : Graph) (k : Nat) : Gains (G.without k) (G.eliminate k) fun p q w =>
    p ≠ k ∧ q ≠ k ∧ G.Through k p q w := by
  rw [eliminate_eq]
  refine Gains.congr (Gains.foldl fun e _ H => Gains.foldl fun f _ H => Gains.addEdge H _ _ _) ?_
  exact fun p q w => exists_waysIn_waysOut_iff

@[simp] theorem states_eliminate : (G.eliminate k).states = G.states.erase k := (gains_eliminate G k).states

/-- With a state away, two other states are joined by the words of their edge and of the ways through that
state, and no edge touches the state. -/
theorem matches_edge_eliminate : Matches ((G.eliminate k).edge p q) w ↔
    p ≠ k ∧ q ≠ k ∧ (Matches (G.edge p q) w ∨ G.Through k p q w) := by
  rw [(gains_eliminate G k).matches_iff, matches_edge_without, ← and_or_left, ← and_or_left]

theorem WellFormed.eliminate (h : G.WellFormed) (k : Nat) : (G.eliminate k).WellFormed := by
  have hrest : (G.without k).WellFormed := {
    edge_ne_empty := fun a ha => h.edge_ne_empty a (get?_without.mp ha).1
    source_mem := fun a r ha =>
      StateSet.mem_erase.mpr ⟨(get?_without.mp ha).2.1, h.source_mem a r (get?_without.mp ha).1⟩
    target_mem := fun a r ha =>
      StateSet.mem_erase.mpr ⟨(get?_without.mp ha).2.2, h.target_mem a r (get?_without.mp ha).1⟩ }
  rw [eliminate_eq]
  refine (hrest.foldl fun e he H hH hHs => ?_).1
  have hinner := hH.foldl (f := bridge (.mkStar (G.edge k k)) e) (l := G.waysOut k) fun f hf K hK hKs => ?_
  · exact ⟨hinner.1, hinner.2.trans hHs⟩
  · obtain ⟨hs, ht, hp⟩ := mem_waysIn.mp he
    obtain ⟨hs', ht', hq⟩ := mem_waysOut.mp hf
    refine ⟨hK.addEdge ?_ ?_ _, hKs⟩
    · rw [hKs, hHs]
      exact StateSet.mem_erase.mpr ⟨hp, h.source_mem _ _ hs⟩
    · rw [hKs, hHs]
      exact StateSet.mem_erase.mpr ⟨hq, h.target_mem _ _ hs'⟩

end Graph

end FiniteAutomata
