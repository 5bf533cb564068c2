import FiniteAutomata.Proofs.Regex.Thompson
import FiniteAutomata.Regex.Assembly

/-!
The shape and the size of the automaton of an expression (`Regex.toAutomaton_shaped`). A part makes new transitions only,
from its entry or between new states, and none from its exit (`Part.mem_edges_cases`, `Part.not_left`); so what it joins
later is new each time, and every transition is counted once. The automaton assembled in place is the same
(`Regex.assemble_eq_toAutomaton`), because no state is named by the next number before it is made.
-/

namespace FiniteAutomata

namespace Regex

/-- The number of states in the part for an expression, its entry left out. -/
def newStates : Regex → Nat
  | .empty | .epsilon | .symbol _ => 1
  | .concat r s => r.newStates + s.newStates
  | .union r s => r.newStates + s.newStates + 3
  | .star r => r.newStates + 2

/-- The number of transitions in the part for an expression. -/
def newTransitions : Regex → Nat
  | .empty => 0
  | .epsilon | .symbol _ => 1
  | .concat r s => r.newTransitions + s.newTransitions
  | .union r s => r.newTransitions + s.newTransitions + 4
  | .star r => r.newTransitions + 4

end Regex

namespace Wiring

variable {W W' V : Wiring} {r : Regex} {l : Label} {i j k : Nat} {t : Transition}

/-! ### Sizes -/

theorem Part.count_eq (h : Part r i W j W') : W'.count = W.count + r.newStates := by
  induction h with
  | empty | epsilon | symbol => rfl
  | concat _ _ ihr ihs => rw [ihs, ihr, Regex.newStates, Nat.add_assoc]
  | @union r s i j k W V V' _ _ ihr ihs =>
    have hin : (W.forked i).count = W.count + 2 := rfl
    have hout : (V'.merged j k).count = V'.count + 1 := rfl
    rw [hout, ihs, ihr, hin, Regex.newStates]
    omega
  | @star r i j W V _ ih =>
    have hin : W.fresh.2.count = W.count + 1 := rfl
    have hout : (V.looped i W.count j).count = V.count + 1 := rfl
    rw [hout, ih, hin, Regex.newStates]
    omega

theorem Part.length_edges (h : Part r i W j W') : W'.edges.length = W.edges.length + r.newTransitions := by
  induction h with
  | empty => rfl
  | epsilon | symbol => exact List.length_append
  | concat _ _ ihr ihs => rw [ihs, ihr, Regex.newTransitions, Nat.add_assoc]
  | union _ _ ihr ihs =>
    rw [edges_forked, List.length_append] at ihr
    rw [edges_merged, List.length_append, ihs, ihr, Regex.newTransitions]
    simp only [List.length_cons, List.length_nil]
    omega
  | @star r i j W V _ ih =>
    have hin : W.fresh.2.edges = W.edges := rfl
    rw [edges_looped, List.length_append, ih, hin, Regex.newTransitions]
    simp only [List.length_cons, List.length_nil]
    omega

/-! ### New ends -/

theorem Part.le_exit (h : Part r i W j W') : W.count ≤ j := by
  induction h with
  | empty | epsilon | symbol => exact Nat.le_refl _
  | concat hr _ _ ihs => exact Nat.le_trans hr.count_le ihs
  | @union r s i j k W V V' hr hs _ _ =>
    have hin : (W.forked i).count = W.count + 2 := rfl
    have hleft := hr.count_le
    have hright := hs.count_le
    omega
  | star hr _ => exact Nat.le_of_succ_le hr.count_le

/-- What a part adds leads to new states, and leaves new states or the entry. -/
theorem Part.mem_edges_cases (h : Part r i W j W') (ht : t ∈ W'.edges) :
    t ∈ W.edges ∨ (t.source = i ∨ W.count ≤ t.source) ∧ W.count ≤ t.target := by
  induction h with
  | empty => exact Or.inl ht
  | epsilon | symbol =>
    rcases mem_edges_join.mp ht with ht | rfl
    · exact Or.inl ht
    · exact Or.inr ⟨Or.inl rfl, Nat.le_refl _⟩
  | concat hr _ ihr ihs =>
    have hcount := hr.count_le
    have hexit := hr.le_exit
    rcases ihs ht with ht | ⟨hs, hd⟩
    · exact ihr ht
    · exact Or.inr ⟨Or.inr (by omega), by omega⟩
  | @union r s i j k W V V' hr hs ihr ihs =>
    have hin : (W.forked i).count = W.count + 2 := rfl
    have hleft := hr.count_le
    have hright := hs.count_le
    rcases mem_edges_merged.mp ht with ht | ⟨p, hp, rfl⟩
    · rcases ihs ht with ht | ⟨hs, hd⟩
      · rcases ihr ht with ht | ⟨hs, hd⟩
        · rcases mem_edges_forked.mp ht with ht | ⟨q, hq, rfl⟩
          · exact Or.inl ht
          · exact Or.inr ⟨Or.inl rfl, by dsimp only; omega⟩
        · exact Or.inr ⟨Or.inr (by omega), by omega⟩
      · exact Or.inr ⟨Or.inr (by omega), by omega⟩
    · have hj := hr.le_exit
      have hk := hs.le_exit
      exact Or.inr ⟨Or.inr (by dsimp only; omega), by dsimp only; omega⟩
  | @star r i j W V hr ih =>
    have hin : W.fresh.2.count = W.count + 1 := rfl
    have hcount := hr.count_le
    have hexit := hr.le_exit
    rcases mem_edges_looped.mp ht with ht | ⟨p, q, hp, hq, rfl⟩
    · rcases ih ht with ht | ⟨hs, hd⟩
      · exact Or.inl ht
      · exact Or.inr ⟨Or.inr (by omega), by omega⟩
    · exact Or.inr ⟨by dsimp only; omega, by dsimp only; omega⟩

/-- Nothing leaves the exit of a part. -/
theorem Part.not_left (h : Part r i W j W') (hW : W.Bounded) (hi : i < W.count) (ht : t ∈ W'.edges) : t.source ≠ j := by
  induction h with
  | empty => exact Nat.ne_of_lt (hW t ht).1
  | epsilon | symbol =>
    rcases mem_edges_join.mp ht with ht | rfl
    · exact Nat.ne_of_lt (hW t ht).1
    · exact Nat.ne_of_lt hi
  | concat hr _ _ ihs => exact ihs (hr.bounded hW hi) hr.exit_lt ht
  | @union r s i j k W V V' hr hs _ _ =>
    have hV := hr.bounded (hW.forked hi) (Nat.lt_add_of_pos_right Nat.two_pos)
    have hV' := hs.bounded hV hr.count_le
    rcases mem_edges_merged.mp ht with ht | ⟨p, rfl | rfl, rfl⟩
    · exact Nat.ne_of_lt (hV' t ht).1
    · exact Nat.ne_of_lt (Nat.lt_of_lt_of_le hr.exit_lt hs.count_le)
    · exact Nat.ne_of_lt hs.exit_lt
  | @star r i j W V hr _ =>
    have hV := hr.bounded hW.fresh (Nat.lt_succ_self _)
    rcases mem_edges_looped.mp ht with ht | ⟨p, q, rfl | rfl, -, rfl⟩
    · exact Nat.ne_of_lt (hV t ht).1
    · exact Nat.ne_of_lt hr.exit_lt
    · exact Nat.ne_of_lt (Nat.lt_trans hi hr.count_le)

/-! ### Every transition is new -/

theorem Bounded.not_mem (hW : W.Bounded) (ht : W.count ≤ t.target) : t ∉ W.edges :=
  fun hmem => Nat.not_lt.mpr ht (hW t hmem).2

theorem nodup_append {es : List Transition} (hnodup : W.edges.Nodup) (hes : es.Nodup) (hnew : ∀ t ∈ es, t ∉ W.edges) :
    (W.edges ++ es).Nodup :=
  List.nodup_append.mpr ⟨hnodup, hes, fun _ ht u hu he => hnew u hu (he ▸ ht)⟩

theorem nodup_forked (hW : W.Bounded) (hnodup : W.edges.Nodup) : (W.forked i).edges.Nodup := by
  rw [edges_forked]
  refine nodup_append hnodup (by simp) fun t ht => hW.not_mem ?_
  simp only [List.mem_cons, List.not_mem_nil, or_false] at ht
  rcases ht with rfl | rfl
  · exact Nat.le_refl _
  · exact Nat.le_succ _

theorem nodup_merged (hW : W.Bounded) (hnodup : W.edges.Nodup) (hjk : j ≠ k) : (W.merged j k).edges.Nodup := by
  rw [edges_merged]
  refine nodup_append hnodup (by simp [hjk]) fun t ht => hW.not_mem ?_
  simp only [List.mem_cons, List.not_mem_nil, or_false] at ht
  rcases ht with rfl | rfl <;> exact Nat.le_refl _

theorem nodup_looped (hW : W.Bounded) (hnodup : W.edges.Nodup) (hij : i ≠ j) (hk : k < W.count)
    (hback : ∀ p, p = j ∨ p = i → (⟨p, .epsilon, k⟩ : Transition) ∉ W.edges) : (W.looped i k j).edges.Nodup := by
  rw [edges_looped]
  refine nodup_append hnodup ?_ fun t ht => ?_
  · simp [hij.symm, Nat.ne_of_lt hk]
  · simp only [List.mem_cons, List.not_mem_nil, or_false] at ht
    rcases ht with rfl | rfl | rfl | rfl
    · exact hback j (Or.inl rfl)
    · exact hW.not_mem (Nat.le_refl _)
    · exact hback i (Or.inr rfl)
    · exact hW.not_mem (Nat.le_refl _)

theorem Part.edges_nodup (h : Part r i W j W') (hW : W.Bounded) (hi : i < W.count) (hnodup : W.edges.Nodup) :
    W'.edges.Nodup := by
  induction h with
  | empty => exact hnodup
  | epsilon | symbol =>
    refine nodup_append hnodup (List.pairwise_singleton _ _) fun t ht => hW.not_mem ?_
    cases List.mem_singleton.mp ht
    exact Nat.le_refl _
  | concat hr _ ihr ihs => exact ihs (hr.bounded hW hi) hr.exit_lt (ihr hW hi hnodup)
  | @union r s i j k W V V' hr hs ihr ihs =>
    have hn : W.count < (W.forked i).count := Nat.lt_add_of_pos_right Nat.two_pos
    have hV := hr.bounded (hW.forked hi) hn
    have hnodupV := ihr (hW.forked hi) hn (nodup_forked hW hnodup)
    have hj := hr.exit_lt
    have hk := hs.le_exit
    exact nodup_merged (hs.bounded hV hr.count_le) (ihs hV hr.count_le hnodupV) (by omega)
  | @star r i j W V hr ih =>
    have hn : W.count < W.fresh.2.count := Nat.lt_succ_self _
    have hj : W.count + 1 ≤ j := hr.le_exit
    refine nodup_looped (hr.bounded hW.fresh hn) (ih hW.fresh hn hnodup) (by omega) hr.count_le ?_
    rintro p (rfl | rfl) ht
    · exact hr.not_left hW.fresh hn ht rfl
    · -- from the entry of the star nothing was made, and nothing that was there leads to a new state
      rcases hr.mem_edges_cases ht with ht | ⟨hs, -⟩
      · exact hW.not_mem (Nat.le_refl _) ht
      · have hcount : W.fresh.2.count = W.count + 1 := rfl
        dsimp only at hs
        omega

/-! ### The automaton assembled in place -/

/-- The automaton under construction that holds the states and transitions made. -/
def assembly (W : Wiring) : Assembly where
  automaton := W.edges.foldl (fun A t => (A.connect t).2) { states := (List.range W.count).map numbered }
  next := W.count

theorem assembly_frame (W : Wiring) : W.assembly.automaton.states = (List.range W.count).map numbered ∧
    W.assembly.automaton.starts = ∅ ∧ W.assembly.automaton.finals = ∅ := by
  obtain ⟨hstates, -, hstarts, hfinals⟩ :=
    Automaton.foldl_connect_frame (A := { states := (List.range W.count).map numbered }) W.edges
  exact ⟨hstates, hstarts, hfinals⟩

/-- No state has the next number for its name. -/
theorem fresh_assembly (W : Wiring) : W.assembly.fresh = (W.count, W.fresh.2.assembly) := by
  obtain ⟨hstates, hstarts, hfinals⟩ := W.assembly_frame
  have hcount : W.assembly.automaton.numStates = W.count := by
    rw [Automaton.numStates, hstates, List.length_map, List.length_range]
  have hnew : numbered W.count ∉ W.assembly.automaton.states := by
    intro hmem
    rw [hstates, List.mem_map] at hmem
    obtain ⟨i, hi, he⟩ := hmem
    exact Nat.ne_of_lt (List.mem_range.mp hi) (numbered_injective he)
  have hadded : { W.assembly.automaton with states := W.assembly.automaton.states ++ [numbered W.count] } =
      W.fresh.2.assembly.automaton := by
    have hmore : W.fresh.2.assembly.automaton = { W.assembly.automaton with
        states := (List.range (W.count + 1)).map numbered, starts := ∅, finals := ∅ } :=
      Automaton.foldl_connect_congr (A := { states := (List.range W.count).map numbered })
        (B := { states := (List.range (W.count + 1)).map numbered }) rfl rfl W.edges
    rw [hmore, hstates, List.range_succ, List.map_append, List.map_singleton]
    dsimp only
    rw [hstarts, hfinals]
  have hfresh : W.assembly.automaton.addState (numbered W.count) = (W.count, W.fresh.2.assembly.automaton) := by
    rw [Automaton.addState_of_not_mem hnew, hcount, hadded]
  change ((W.assembly.automaton.addState (numbered W.count)).1,
    (⟨(W.assembly.automaton.addState (numbered W.count)).2, W.count + 1⟩ : Assembly)) = _
  rw [hfresh]
  rfl

theorem join_assembly (W : Wiring) (i : Nat) (l : Label) (j : Nat) : W.assembly.join i l j = (W.join i l j).assembly := by
  rw [assembly, assembly, Assembly.join, join, List.foldl_append]
  rfl

theorem build_assembly (r : Regex) (i : Nat) (W : Wiring) :
    W.assembly.build r i = ((build r i W).1, (build r i W).2.assembly) := by
  induction r generalizing i W with
  | empty => exact fresh_assembly W
  | epsilon | symbol =>
    simp only [Assembly.build, build, fresh_assembly, join_assembly]
    rfl
  | concat r s hr hs => simp only [Assembly.build, build, hr, hs]
  | union r s hr hs =>
    simp only [Assembly.build, build, fresh_assembly, join_assembly, hr, hs]
    rfl
  | star r hr =>
    simp only [Assembly.build, build, fresh_assembly, join_assembly, hr]
    rfl

/-- What is left to do is to mark the two ends. -/
theorem marked_assembly (W : Wiring) (start final : Nat) :
    { W.assembly.automaton with
      starts := W.assembly.automaton.starts.insert start
      finals := W.assembly.automaton.finals.insert final } = W.toAutomaton start final := by
  have hone (i : Nat) : (∅ : StateSet).insert i = .singleton i := StateSet.ext fun j => by simp
  have hmarked : W.toAutomaton start final =
      { W.assembly.automaton with
        states := (List.range W.count).map numbered, starts := .singleton start, finals := .singleton final } :=
    Automaton.foldl_connect_congr (A := { states := (List.range W.count).map numbered })
      (B := { states := (List.range W.count).map numbered, starts := .singleton start, finals := .singleton final })
      rfl rfl W.edges
  obtain ⟨hstates, hstarts, hfinals⟩ := W.assembly_frame
  dsimp only
  rw [hmarked, hstates, hstarts, hfinals, hone, hone]

end Wiring

namespace Automaton

/-- States named by their numbers in the order in which they were made. The first one is where words begin, and nothing
leads back to it; another one is where they end, and nothing leads on from it. -/
structure Shaped (A : Automaton) (states transitions : Nat) : Prop where
  states_eq : A.states = (List.range states).map fun i => ⟨toString i⟩
  mem_starts (i : Nat) : i ∈ A.starts ↔ i = 0
  not_entered : ∀ t ∈ A.table, t.target ≠ 0
  exists_final : ∃ j < states, j ≠ 0 ∧ (∀ i, i ∈ A.finals ↔ i = j) ∧ ∀ t ∈ A.table, t.source ≠ j
  numStates_eq : A.numStates = states
  numTransitions_eq : A.numTransitions = transitions

end Automaton

namespace Regex

open Wiring

/-- What is assembled in place is the automaton of the expression. -/
theorem assemble_eq_toAutomaton (r : Regex) : r.assemble = r.toAutomaton := by
  have hempty : ({} : Assembly) = (⟨0, []⟩ : Wiring).assembly := rfl
  rw [assemble, toAutomaton, hempty, fresh_assembly]
  dsimp only
  rw [build_assembly]
  exact marked_assembly _ 0 _

theorem shaped_toAutomaton (r : Regex) : r.toAutomaton.Shaped (1 + r.newStates) r.newTransitions := by
  obtain ⟨j, W, hpart, he⟩ := r.exists_part
  have hcount : W.count = 1 + r.newStates := hpart.count_eq
  have hentry : 0 < W.count := by omega
  have hsound := r.wellFormed_toAutomaton
  have hnodup := hpart.edges_nodup bounded_entry Nat.one_pos List.Pairwise.nil
  have henumerated : r.toAutomaton.table.EnumeratedBy W.edges :=
    ⟨hnodup, fun t => by rw [he, mem_table_toAutomaton]⟩
  have hstates : r.toAutomaton.states = (List.range (1 + r.newStates)).map numbered := by
    rw [he, states_toAutomaton, hcount]
  refine {
    states_eq := hstates
    mem_starts := fun i => by rw [he, starts_toAutomaton, StateSet.mem_singleton]
    not_entered := fun t ht => ?_
    exists_final := ⟨j, hcount ▸ hpart.exit_lt, Nat.ne_of_gt hpart.le_exit, fun i => ?_, fun t ht => ?_⟩
    numStates_eq := ?_
    numTransitions_eq := ?_ }
  · rcases hpart.mem_edges_cases ((henumerated.mem_iff t).mpr ht) with ht | ⟨-, hd⟩
    · exact absurd ht List.not_mem_nil
    · exact Nat.ne_of_gt hd
  · rw [he, finals_toAutomaton, StateSet.mem_singleton]
  · exact hpart.not_left bounded_entry Nat.one_pos ((henumerated.mem_iff t).mpr ht)
  · rw [Automaton.numStates, hstates, List.length_map, List.length_range]
  · calc r.toAutomaton.numTransitions
      _ = r.toAutomaton.table.edges.length := hsound.numTransitions_eq
      _ = W.edges.length := (r.toAutomaton.table.enumeratedBy_edges.perm henumerated).length_eq
      _ = r.newTransitions := by rw [hpart.length_edges, List.length_nil, Nat.zero_add]

/-- The automaton of an expression has the shape and the size that the expression gives, also where it is assembled in
place. -/
theorem toAutomaton_shaped (r : Regex) :
    r.toAutomaton.Shaped (1 + r.newStates) r.newTransitions ∧ r.assemble = r.toAutomaton :=
  ⟨r.shaped_toAutomaton, r.assemble_eq_toAutomaton⟩

end Regex

end FiniteAutomata
