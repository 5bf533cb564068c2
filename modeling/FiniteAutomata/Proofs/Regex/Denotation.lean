import Mathlib.Computability.Language
import FiniteAutomata.Proofs.Regex.Constructors

/-!
The language that a regular expression denotes, put together as the expression is: sums, products and stars of
languages for alternatives, sequences and repetitions. It has the words that match the expression (`mem_language`), and
the simplifying constructors denote what the plain ones do (`language_simplified`).
-/

namespace FiniteAutomata.Regex

open Computability

variable {r s : Regex} {w : List Symbol}

def language : Regex → Language Symbol
  | .empty => 0
  | .epsilon => 1
  | .symbol a => {[a]}
  | .union r s => r.language + s.language
  | .concat r s => r.language * s.language
  | .star r => r.language∗

/-- A repetition is a list of words, one for each round. -/
theorem matches_star_iff : Matches (.star r) w ↔ ∃ vs : List (List Symbol), w = vs.flatten ∧ ∀ v ∈ vs, Matches r v := by
  constructor
  · intro h
    refine Matches.star_induction (motive := fun w => ∃ vs : List (List Symbol), w = vs.flatten ∧ ∀ v ∈ vs, Matches r v)
      h ⟨[], rfl, by simp⟩ fun u v hu _ hv => ?_
    obtain ⟨vs, rfl, hvs⟩ := hv
    exact ⟨u :: vs, rfl, List.forall_mem_cons.mpr ⟨hu, hvs⟩⟩
  · rintro ⟨vs, rfl, hvs⟩
    induction vs with
    | nil => exact .starNil
    | cons u vs ih =>
      obtain ⟨hu, hvs⟩ := List.forall_mem_cons.mp hvs
      exact .starCons hu (ih hvs)

theorem mem_language : w ∈ r.language ↔ Matches r w := by
  induction r generalizing w with
  | empty => exact iff_of_false (Language.notMem_zero w) Matches.not_empty
  | epsilon => rw [language, Language.mem_one, Matches.epsilon_iff]
  | symbol a => exact Matches.symbol_iff.symm
  | union r s ihr ihs => rw [language, Language.mem_add, ihr, ihs, Matches.union_iff]
  | concat r s ihr ihs =>
    rw [language, Language.mem_mul, Matches.concat_iff]
    constructor
    · rintro ⟨u, hu, v, hv, rfl⟩
      exact ⟨u, v, ihr.mp hu, ihs.mp hv, rfl⟩
    · rintro ⟨u, v, hu, hv, rfl⟩
      exact ⟨u, ihr.mpr hu, v, ihs.mpr hv, rfl⟩
  | star r ih =>
    rw [language, Language.mem_kstar, matches_star_iff]
    simp only [ih]

theorem language_eq_iff : r.language = s.language ↔ ∀ w, Matches r w ↔ Matches s w := by
  simp only [← mem_language]
  exact Set.ext_iff

/-- Whatever is left out on the way, a simplified union, concatenation or star denotes the sum, the product or the star
of the languages of its operands. -/
theorem language_simplified (r s : Regex) :
    (mkUnion r s).language = r.language + s.language ∧ (mkConcat r s).language = r.language * s.language ∧
      (mkStar r).language = r.language∗ := by
  have hunion : (mkUnion r s).language = (Regex.union r s).language := language_eq_iff.mpr fun w => by
    rw [Matches.mkUnion_iff, Matches.union_iff]
  have hconcat : (mkConcat r s).language = (Regex.concat r s).language := language_eq_iff.mpr fun w => by
    rw [Matches.mkConcat_iff, Matches.concat_iff]
  have hstar : (mkStar r).language = (Regex.star r).language := language_eq_iff.mpr fun w => Matches.mkStar_iff
  exact ⟨hunion, hconcat, hstar⟩

example : mkStar (mkUnion (mkConcat .epsilon (.symbol ⟨"a"⟩)) (mkUnion .empty (mkStar .epsilon))) =
    .star (.symbol ⟨"a"⟩) := by decide

end FiniteAutomata.Regex
