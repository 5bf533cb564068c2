import FiniteAutomata.Regex.Language

/-!
The simplifying constructors give the languages that their names promise. For unions and concatenations each
simplification is a case of its own; a star is simplified again under the alternatives it drops, which is an
induction over the expression.
-/

namespace FiniteAutomata

namespace Matches

variable {r s : Regex} {w : List Symbol}

/-! ### Repetitions -/

/-- What holds of the empty word, and of a repetition with one more word in front, holds of all
repetitions. -/
theorem star_induction {motive : List Symbol → Prop} (h : Matches (.star r) w) (nil : motive [])
    (cons : ∀ u v, Matches r u → Matches (.star r) v → motive v → motive (u ++ v)) : motive w := by
  generalize hs : Regex.star r = s at h
  induction h with
  | starNil => exact nil
  | starCons hu hv _ ih =>
    cases hs
    exact cons _ _ hu hv (ih rfl)
  | _ => cases hs

theorem star_append {v : List Symbol} (hw : Matches (.star r) w) (hv : Matches (.star r) v) :
    Matches (.star r) (w ++ v) := by
  refine star_induction (motive := fun w => Matches (.star r) (w ++ v)) hw hv fun u x hu _ ih => ?_
  rw [List.append_assoc]
  exact .starCons hu ih

theorem star_single (h : Matches r w) : Matches (.star r) w := by
  have hw : Matches (.star r) (w ++ []) := .starCons h .starNil
  rwa [List.append_nil] at hw

theorem star_of_star (hrs : ∀ w, Matches r w → Matches (.star s) w) (h : Matches (.star r) w) :
    Matches (.star s) w :=
  star_induction h .starNil fun u _ hu _ ih => star_append (hrs u hu) ih

theorem star_congr (hrs : ∀ w, Matches r w ↔ Matches s w) : Matches (.star r) w ↔ Matches (.star s) w :=
  ⟨star_of_star fun w h => star_single ((hrs w).mp h), star_of_star fun w h => star_single ((hrs w).mpr h)⟩

theorem star_union_left_iff (hr : ∀ w, Matches r w → Matches (.star s) w) :
    Matches (.star (.union r s)) w ↔ Matches (.star s) w := by
  constructor
  · refine star_of_star fun w h => ?_
    rcases union_iff.mp h with h | h
    · exact hr w h
    · exact star_single h
  · exact star_of_star fun w h => star_single (.unionRight h)

theorem star_union_right_iff (hs : ∀ w, Matches s w → Matches (.star r) w) :
    Matches (.star (.union r s)) w ↔ Matches (.star r) w := by
  rw [← star_union_left_iff hs]
  exact star_congr fun w => by rw [union_iff, union_iff, or_comm]

theorem star_of_epsilon (w : List Symbol) (h : Matches .epsilon w) : Matches (.star r) w := by
  rw [epsilon_iff.mp h]
  exact .starNil

/-! ### The simplifying constructors -/

theorem star_of_isStar {w : List Symbol} (hr : r.isStar = true) (h : Matches .epsilon w) : Matches r w := by
  cases r with
  | star r => exact star_of_epsilon w h
  | _ => cases hr

/-- The simplified union has the words of both expressions. -/
theorem mkUnion_iff : Matches (Regex.mkUnion r s) w ↔ Matches r w ∨ Matches s w := by
  unfold Regex.mkUnion
  split
  · rename_i hr
    rw [hr]
    exact (or_iff_right not_empty).symm
  split
  · rename_i hs
    rw [hs]
    exact (or_iff_left not_empty).symm
  split
  · rename_i hrs
    rw [hrs, or_self]
  split
  · rename_i hr
    rw [hr.1]
    exact (or_iff_right_of_imp (star_of_isStar hr.2)).symm
  split
  · rename_i hs
    rw [hs.2]
    exact (or_iff_left_of_imp (star_of_isStar hs.1)).symm
  exact union_iff

/-- The simplified concatenation has the words that a word of each expression makes. -/
theorem mkConcat_iff :
    Matches (Regex.mkConcat r s) w ↔ ∃ u v, Matches r u ∧ Matches s v ∧ w = u ++ v := by
  rw [← concat_iff]
  unfold Regex.mkConcat
  split
  · rename_i h
    refine iff_of_false not_empty fun hw => ?_
    obtain ⟨u, v, hu, hv, -⟩ := concat_iff.mp hw
    rcases h with rfl | rfl
    · exact not_empty hu
    · exact not_empty hv
  split
  · rename_i hr
    rw [hr, concat_iff]
    simp
  split
  · rename_i hs
    rw [hs, concat_iff]
    simp
  rfl

/-- The simplified star has the repetitions of the words of its expression. -/
theorem mkStar_iff : ∀ {r : Regex} {w : List Symbol}, Matches (Regex.mkStar r) w ↔ Matches (.star r) w
  | .empty, w => by
    rw [Regex.mkStar]
    constructor
    · exact star_of_epsilon w
    · intro h
      exact star_induction h .epsilon fun u v hu _ _ => absurd hu not_empty
  | .epsilon, w => by
    rw [Regex.mkStar]
    constructor
    · exact star_of_epsilon w
    · intro h
      refine star_induction h .epsilon fun u v hu _ hv => ?_
      rw [epsilon_iff.mp hu]
      exact hv
  | .star r, w => by
    rw [Regex.mkStar]
    exact ⟨star_single, star_of_star fun _ h => h⟩
  | .union r s, w => by
    rw [Regex.mkStar]
    split
    · rename_i hr
      rw [hr, mkStar_iff, star_union_left_iff star_of_epsilon]
    split
    · rename_i hs
      rw [hs, mkStar_iff, star_union_right_iff star_of_epsilon]
    rfl
  | .symbol _, _ => Iff.rfl
  | .concat _ _, _ => Iff.rfl

end Matches

end FiniteAutomata
