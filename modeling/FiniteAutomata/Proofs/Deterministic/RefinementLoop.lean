import FiniteAutomata.Proofs.Automaton.Edits
import FiniteAutomata.Proofs.Deterministic.Refinement

/-!
The loop of minimization, taken pass by pass. Every pass keeps the invariant of the queue and uses up one of the
splitters that may still come, so the passes end by themselves (`Refined.acc`). What the invariant says on the way,
and of the blocks at the end, is put together in `refinesByLanguage`.
-/

namespace FiniteAutomata.Deterministic

open Refinement (Partition Together)

variable {D : Deterministic} {r : Refinement} {s : Nat}

/-! ### Termination -/

/-- No sequence of passes goes on forever. -/
theorem Refined.acc (hD : D.automaton.WellFormed) (h : D.Refined r) : Acc (fun r' r => D.Pass r r') r := by
  induction hn : D.potential r generalizing r with
  | zero => exact ⟨_, fun r' hpass => absurd (queue_eq_nil_of_potential_eq_zero hn) hpass.1⟩
  | succ n ih =>
    refine ⟨_, ?_⟩
    rintro r' ⟨hne, rfl⟩
    have hless := h.potential_refine hD hne
    exact ih (h.refine hD) (by omega)

/-! ### The result -/

/-- Refinement of an automaton that starts in `s` ends, is at any time in a partition of the reachable states and
the dead one, and parts them in the end by the words accepted from them. -/
structure RefinesByLanguage (D : Deterministic) (s : Nat) : Prop where
  terminates : Acc (fun r' r => D.Pass r r') D.unrefined
  ends : Relation.ReflTransGen D.Pass D.unrefined ⟨D.blocks, []⟩
  partition : ∀ r, Relation.ReflTransGen D.Pass D.unrefined r → Partition D.participants r.blocks
  participants : ∀ i, i ∈ D.participants ↔ i = D.dead ∨ ∃ w, D.after? s w = some i
  together : ∀ i ∈ D.participants, ∀ j ∈ D.participants,
    Together D.blocks i j ↔ ∀ w, D.acceptsFrom i w = D.acceptsFrom j w
  dead : ∀ w, D.acceptsFrom D.dead w = false

/-- Names of states play no part in it. -/
theorem refinesByLanguage (hD : D.automaton.WellFormed) (hs : D.start? = some s) : D.RefinesByLanguage s where
  terminates := (refined_unrefined hD).acc hD
  ends := reflTransGen_blocks hD
  partition _ hpasses := ((refined_unrefined hD).reflTransGen hD hpasses).partition
  participants _ := mem_participants_iff_after? hD hs
  together _ hi _ hj := (together_blocks_iff hD hi hj).trans (sameWords_iff_acceptsFrom_eq hD hD)
  dead := acceptsFrom_dead hD

/-- Words over `a` of a length that three divides, counted up to six, with names that cannot be told from names
of sets; the state without a way to it is not among the participants. -/
def threeToSix : Deterministic := ⟨.ofEdits
  [.addStart ⟨"p"⟩, .addFinal ⟨"p"⟩, .addTransition ⟨"p"⟩ (.symbol ⟨"a"⟩) ⟨"q"⟩,
    .addTransition ⟨"q"⟩ (.symbol ⟨"a"⟩) ⟨"p;q"⟩, .addTransition ⟨"p;q"⟩ (.symbol ⟨"a"⟩) ⟨"\x7bp\x7d"⟩,
    .addFinal ⟨"\x7bp\x7d"⟩, .addTransition ⟨"\x7bp\x7d"⟩ (.symbol ⟨"a"⟩) ⟨""⟩,
    .addTransition ⟨""⟩ (.symbol ⟨"a"⟩) ⟨";"⟩, .addTransition ⟨";"⟩ (.symbol ⟨"a"⟩) ⟨"p"⟩,
    .addTransition ⟨"r"⟩ (.symbol ⟨"b"⟩) ⟨"p"⟩]⟩

theorem threeToSix_refinesByLanguage :
    threeToSix.automaton.WellFormed ∧ threeToSix.start? = some 0 ∧ threeToSix.RefinesByLanguage 0 := by
  have hD : threeToSix.automaton.WellFormed := Automaton.wellFormed_ofEdits _
  have hs : threeToSix.start? = some 0 := by decide +kernel
  exact ⟨hD, hs, refinesByLanguage hD hs⟩

example : threeToSix.blocks.map StateSet.toList = [[0, 3], [1, 4], [2, 5], [7]] := by decide +kernel

end FiniteAutomata.Deterministic
