import FiniteAutomata.Proofs.Elimination.Edges

/-!
Taking states away keeps the words spelled between the states that stay (`path_eliminate_iff`,
`path_eliminateBasic_iff`). What is left between two states has a closed form (`path_iff_between`). Both
proofs follow a path edge by edge from its end: for a path that begins in the state in question the statement
says how it first leaves that state.
-/

namespace FiniteAutomata.Graph

variable {G : Graph} {i j k s f : Nat} {w : List Symbol}

/-! ### Paths through one state -/

theorem path_of_star (h : Matches (.star (G.edge k k)) w) : G.Path k w k :=
  Matches.star_induction (motive := fun w => G.Path k w k) h (.nil k) fun _ _ hu _ ih => .cons hu ih

theorem Through.path (h : G.Through k i j w) : G.Path i w j := by
  obtain ⟨u, v, x, hu, hv, hx, rfl⟩ := h
  exact ((Path.single hu).append (path_of_star hv)).append (.single hx)

/-- A word that leaves `k` for good: loops at `k`, an edge to another state, then what `rest` holds of. -/
def Leaves (G : Graph) (k : Nat) (rest : Nat → List Symbol → Prop) (w : List Symbol) : Prop :=
  ∃ v u q z, Matches (.star (G.edge k k)) v ∧ Matches (G.edge k q) u ∧ q ≠ k ∧ rest q z ∧
    w = v ++ (u ++ z)

theorem Leaves.ofEdge {rest : Nat → List Symbol → Prop} {u z : List Symbol} (hu : Matches (G.edge k j) u)
    (hj : j ≠ k) (hz : rest j z) : G.Leaves k rest (u ++ z) :=
  ⟨[], u, j, z, .starNil, hu, hj, hz, rfl⟩

theorem Leaves.cons {rest : Nat → List Symbol → Prop} {u : List Symbol} (hu : Matches (G.edge k k) u)
    (h : G.Leaves k rest w) : G.Leaves k rest (u ++ w) := by
  obtain ⟨v, x, q, z, hv, hx, hq, hz, rfl⟩ := h
  exact ⟨u ++ v, x, q, z, .starCons hu hv, hx, hq, hz, (List.append_assoc u v _).symm⟩

/-- After an edge into `k`, what leaves `k` goes on from a way through `k`. -/
theorem Leaves.through {rest : Nat → List Symbol → Prop} {u : List Symbol} (hu : Matches (G.edge i k) u)
    (h : G.Leaves k rest w) : ∃ q x z, q ≠ k ∧ G.Through k i q x ∧ rest q z ∧ u ++ w = x ++ z := by
  obtain ⟨v, x, q, z, hv, hx, hq, hz, rfl⟩ := h
  exact ⟨q, u ++ v ++ x, z, hq, ⟨u, v, x, hu, hv, hx, rfl⟩, hz, by simp⟩

/-! ### Taking a state away -/

theorem path_of_path_eliminate (h : (G.eliminate k).Path i w j) : G.Path i w j := by
  induction h with
  | nil => exact .nil _
  | cons he _ ih =>
    obtain ⟨-, -, he | he⟩ := matches_edge_eliminate.mp he
    · exact .cons he ih
    · exact he.path.append ih

theorem Path.eliminate (h : G.Path i w j) (hj : j ≠ k) :
    (i ≠ k → (G.eliminate k).Path i w j) ∧
      (i = k → G.Leaves k (fun q z => (G.eliminate k).Path q z j) w) := by
  induction h with
  | nil i => exact ⟨fun _ => .nil i, fun hi => absurd hi hj⟩
  | @cons i m j v w he _ ih =>
    obtain ⟨stays, leaves⟩ := ih hj
    by_cases hm : m = k
    · subst hm
      refine ⟨fun hi => ?_, ?_⟩
      · obtain ⟨q, x, z, hq, hx, hz, heq⟩ := (leaves rfl).through he
        rw [heq]
        exact .cons (matches_edge_eliminate.mpr ⟨hi, hq, Or.inr hx⟩) hz
      · rintro rfl
        exact (leaves rfl).cons he
    · refine ⟨fun hi => ?_, ?_⟩
      · exact .cons (matches_edge_eliminate.mpr ⟨hi, hm, Or.inl he⟩) (stays hm)
      · rintro rfl
        exact .ofEdge he hm (stays hm)

/-- Taking a state away keeps the words between any two other states. -/
theorem path_eliminate_iff (hi : i ≠ k) (hj : j ≠ k) : (G.eliminate k).Path i w j ↔ G.Path i w j :=
  ⟨path_of_path_eliminate, fun h => (h.eliminate hj).1 hi⟩

/-! ### Taking several states away -/

theorem path_foldl_eliminate_iff : ∀ {l : List Nat} {G : Graph}, i ∉ l → j ∉ l →
    ((l.foldl Graph.eliminate G).Path i w j ↔ G.Path i w j)
  | [], _, _, _ => Iff.rfl
  | k :: l, G, hi, hj => by
    rw [List.mem_cons, not_or] at hi hj
    rw [List.foldl_cons, path_foldl_eliminate_iff hi.2 hj.2, path_eliminate_iff hi.1 hj.1]

theorem mem_states_foldl_eliminate : ∀ {l : List Nat} {G : Graph},
    i ∈ (l.foldl Graph.eliminate G).states ↔ i ∈ G.states ∧ i ∉ l
  | [], G => by simp
  | k :: l, G => by
    rw [List.foldl_cons, mem_states_foldl_eliminate, states_eliminate, StateSet.mem_erase, List.mem_cons,
      not_or, and_right_comm, and_comm]

theorem WellFormed.foldl_eliminate : ∀ {l : List Nat} {G : Graph}, G.WellFormed →
    (l.foldl Graph.eliminate G).WellFormed
  | [], _, h => h
  | k :: _, _, h => (h.eliminate k).foldl_eliminate

theorem mem_basicStates : i ∈ G.basicStates ↔ i ∈ G.states ∧ i ∉ G.starts ∧ i ∉ G.finals := by
  rw [basicStates, StateSet.mem_sdiff, StateSet.mem_union, not_or]

/-- Taking the basic states away keeps the words between start and final states. -/
theorem path_eliminateBasic_iff (hi : i ∈ G.starts ∨ i ∈ G.finals) (hj : j ∈ G.starts ∨ j ∈ G.finals) :
    G.eliminateBasic.Path i w j ↔ G.Path i w j := by
  refine path_foldl_eliminate_iff (fun h => ?_) fun h => ?_
  · have hb := mem_basicStates.mp (StateSet.mem_toList.mp h)
    exact hi.elim hb.2.1 hb.2.2
  · have hb := mem_basicStates.mp (StateSet.mem_toList.mp h)
    exact hj.elim hb.2.1 hb.2.2

theorem mem_states_eliminateBasic :
    i ∈ G.eliminateBasic.states ↔ i ∈ G.states ∧ (i ∈ G.starts ∨ i ∈ G.finals) := by
  rw [eliminateBasic, mem_states_foldl_eliminate, StateSet.mem_toList, mem_basicStates]
  refine and_congr_right fun hi => ?_
  rw [not_and, not_and, Classical.not_not]
  exact ⟨fun h => Classical.or_iff_not_imp_left.mpr (h hi), fun h _ => Classical.or_iff_not_imp_left.mp h⟩

theorem WellFormed.eliminateBasic (h : G.WellFormed) : G.eliminateBasic.WellFormed := h.foldl_eliminate

/-! ### Closed forms -/

/-- Every edge joins two of the states `s` and `f`. -/
def Joins (G : Graph) (s f : Nat) : Prop :=
  ∀ p q w, Matches (G.edge p q) w → (p = s ∨ p = f) ∧ (q = s ∨ q = f)

theorem WellFormed.joins (h : G.WellFormed) (hs : ∀ i ∈ G.states, i = s ∨ i = f) : G.Joins s f := by
  intro p q w hw
  obtain ⟨r, hr, -⟩ := matches_edge_iff.mp hw
  exact ⟨hs p (h.source_mem _ r hr), hs q (h.target_mem _ r hr)⟩

theorem star_of_path (hG : G.Joins s s) (h : G.Path i w j) (hi : i = s) : Matches (.star (G.edge s s)) w := by
  induction h with
  | nil => exact .starNil
  | cons he _ ih =>
    obtain ⟨-, hm⟩ := hG _ _ _ he
    rw [or_self] at hm
    rw [hi, hm] at he
    exact .starCons he (ih hm)

/-- What a path from `s` may do before it takes the edge to `f` that it does not come back from. -/
def turn (G : Graph) (s f : Nat) : Regex :=
  .mkUnion (G.edge s s) (.mkConcat (.mkConcat (G.edge s f) (.mkStar (G.edge f f))) (G.edge f s))

theorem matches_turn_iff : Matches (G.turn s f) w ↔ Matches (G.edge s s) w ∨ G.Through f s s w := by
  rw [turn, Matches.mkUnion_iff, matches_bridge]
  exact Iff.rfl

theorem matches_between_iff (hsf : s ≠ f) : Matches (G.between s f) w ↔
    ∃ x y z, Matches (.star (G.turn s f)) x ∧ Matches (G.edge s f) y ∧ Matches (.star (G.edge f f)) z ∧
      w = x ++ (y ++ z) := by
  have hb : G.between s f =
      .mkConcat (.mkConcat (.mkStar (G.turn s f)) (G.edge s f)) (.mkStar (G.edge f f)) := by
    rw [between, if_neg hsf]
    rfl
  rw [hb, Matches.mkConcat_iff]
  constructor
  · intro h
    obtain ⟨u, z, hu, hz, rfl⟩ := h
    obtain ⟨x, y, hx, hy, rfl⟩ := Matches.mkConcat_iff.mp hu
    exact ⟨x, y, z, Matches.mkStar_iff.mp hx, hy, Matches.mkStar_iff.mp hz, List.append_assoc x y z⟩
  · intro h
    obtain ⟨x, y, z, hx, hy, hz, rfl⟩ := h
    exact ⟨x ++ y, z, Matches.mkConcat_iff.mpr ⟨x, y, Matches.mkStar_iff.mpr hx, hy, rfl⟩,
      Matches.mkStar_iff.mpr hz, (List.append_assoc x y z).symm⟩

theorem between_of_turn (hsf : s ≠ f) {u : List Symbol} (hu : Matches (G.turn s f) u)
    (h : Matches (G.between s f) w) : Matches (G.between s f) (u ++ w) := by
  obtain ⟨x, y, z, hx, hy, hz, rfl⟩ := (matches_between_iff hsf).mp h
  exact (matches_between_iff hsf).mpr ⟨u ++ x, y, z, .starCons hu hx, hy, hz, (List.append_assoc u x _).symm⟩

/-- A path to `f` that begins in `s` spells a word of the closed form; one that begins in `f` stays there, or
comes to `s` and goes on from there. -/
theorem between_of_path (hsf : s ≠ f) (hG : G.Joins s f) (h : G.Path i w j) (hj : j = f) :
    (i = s → Matches (G.between s f) w) ∧ (i = f → Matches (.star (G.edge f f)) w ∨
      G.Leaves f (fun q z => q = s ∧ Matches (G.between s f) z) w) := by
  induction h with
  | nil i =>
    subst hj
    exact ⟨fun hi => absurd hi.symm hsf, fun _ => Or.inl .starNil⟩
  | @cons i m j u w he _ ih =>
    obtain ⟨fromStart, fromEnd⟩ := ih hj
    rcases (hG _ _ _ he).2 with rfl | rfl
    · refine ⟨?_, ?_⟩
      · rintro rfl
        exact between_of_turn hsf (matches_turn_iff.mpr (Or.inl he)) (fromStart rfl)
      · rintro rfl
        exact Or.inr (.ofEdge he hsf ⟨rfl, fromStart rfl⟩)
    · refine ⟨?_, ?_⟩
      · rintro rfl
        rcases fromEnd rfl with hw | hw
        · exact (matches_between_iff hsf).mpr ⟨[], u, w, .starNil, he, hw, rfl⟩
        · obtain ⟨q, x, z, -, hx, ⟨rfl, hz⟩, heq⟩ := hw.through he
          rw [heq]
          exact between_of_turn hsf (matches_turn_iff.mpr (Or.inr hx)) hz
      · rintro rfl
        exact (fromEnd rfl).imp (.starCons he) (.cons he)

theorem path_of_between (hsf : s ≠ f) (h : Matches (G.between s f) w) : G.Path s w f := by
  obtain ⟨x, y, z, hx, hy, hz, rfl⟩ := (matches_between_iff hsf).mp h
  have hturn : ∀ {u : List Symbol}, Matches (G.turn s f) u → G.Path s u s := fun hu =>
    (matches_turn_iff.mp hu).elim .single Through.path
  have hloops : G.Path s x s :=
    Matches.star_induction (motive := fun x => G.Path s x s) hx (.nil s) fun _ _ hu _ ih => (hturn hu).append ih
  exact hloops.append ((Path.single hy).append (path_of_star hz))

/-- In a graph whose edges join `s` and `f` only, the closed form has exactly the words from `s` to `f`. -/
theorem path_iff_between (hG : G.Joins s f) : G.Path s w f ↔ Matches (G.between s f) w := by
  by_cases hsf : s = f
  · subst hsf
    have hb : G.between s s = .mkStar (G.edge s s) := if_pos rfl
    rw [hb, Matches.mkStar_iff]
    exact ⟨fun h => star_of_path hG h rfl, path_of_star⟩
  · exact ⟨fun h => (between_of_path hsf hG h rfl).1 rfl, path_of_between hsf⟩

end FiniteAutomata.Graph
