import FiniteAutomata.Regex.Language
import FiniteAutomata.Regex.Reduced

/-!
Expressions made by the simplifying constructors are normal (`Simplified.normal`). Each constructor keeps all clauses
at once, since a star simplifies again below the alternatives that it drops and relies on what is said of them. In a
normal expression the empty language stands nowhere inside, so the empty expression is the only one without words
(`Normal.eq_empty_iff`).
-/

namespace FiniteAutomata.Regex

variable {r s : Regex}

/-- An expression made of single symbols, the empty word and the empty language by the simplifying constructors. -/
inductive Simplified : Regex → Prop
  | empty : Simplified .empty
  | epsilon : Simplified .epsilon
  | symbol (a : Symbol) : Simplified (.symbol a)
  | mkUnion {r s : Regex} : Simplified r → Simplified s → Simplified (mkUnion r s)
  | mkConcat {r s : Regex} : Simplified r → Simplified s → Simplified (mkConcat r s)
  | mkStar {r : Regex} : Simplified r → Simplified (mkStar r)

theorem simplified_ofLabel : ∀ l : Label, (ofLabel l).Simplified
  | .symbol a => .symbol a
  | .epsilon => .epsilon

/-! ### What the constructors keep -/

theorem Normal.mkUnion (hr : r.Normal) (hs : s.Normal) : (mkUnion r s).Normal := by
  unfold Regex.mkUnion
  split
  · exact hs
  split
  · exact hr
  rename_i hr' hs'
  have hr := hr.resolve_left hr'
  have hs := hs.resolve_left hs'
  refine Or.inr ?_
  split
  · exact hr
  split
  · exact hs
  split
  · exact hr
  rename_i hne hleft hright
  exact .union hr hs hne hleft hright

theorem Normal.mkConcat (hr : r.Normal) (hs : s.Normal) : (mkConcat r s).Normal := by
  unfold Regex.mkConcat
  split
  · exact Or.inl rfl
  rename_i hempty
  obtain ⟨hr', hs'⟩ := not_or.mp hempty
  split
  · exact hs
  split
  · exact hr
  rename_i hleft hright
  exact Or.inr (.concat (hr.resolve_left hr') (hs.resolve_left hs') hleft hright)

/-- A star is never the empty expression. -/
theorem Normal.reduced_mkStar : ∀ {r : Regex}, r.Normal → (Regex.mkStar r).Reduced
  | .empty, _ => .epsilon
  | .epsilon, _ => .epsilon
  | .symbol a, _ => .star (.symbol a) nofun rfl rfl
  | .concat _ _, h => .star (h.resolve_left nofun) nofun rfl rfl
  | .star _, h => h.resolve_left nofun
  | .union r s, h => by
    have hreduced := h.resolve_left nofun
    cases hreduced with
    | union hr hs =>
      rw [Regex.mkStar]
      split
      · exact Normal.reduced_mkStar (Or.inr hs)
      split
      · exact Normal.reduced_mkStar (Or.inr hr)
      rename_i hleft hright
      exact .star (h.resolve_left nofun) nofun rfl (by simp [offersEpsilon, hleft, hright])

theorem Simplified.normal (h : r.Simplified) : r.Normal := by
  induction h with
  | empty => exact Or.inl rfl
  | epsilon => exact Or.inr .epsilon
  | symbol a => exact Or.inr (.symbol a)
  | mkUnion _ _ ihr ihs => exact ihr.mkUnion ihs
  | mkConcat _ _ ihr ihs => exact ihr.mkConcat ihs
  | mkStar _ ih => exact Or.inr ih.reduced_mkStar

/-! ### Expressions without words -/

theorem Reduced.exists_matches (h : r.Reduced) : ∃ w, Matches r w := by
  induction h with
  | epsilon => exact ⟨[], .epsilon⟩
  | symbol a => exact ⟨[a], .symbol a⟩
  | union _ _ _ _ _ ihr _ =>
    obtain ⟨w, hw⟩ := ihr
    exact ⟨w, .unionLeft hw⟩
  | concat _ _ _ _ ihr ihs =>
    obtain ⟨v, hv⟩ := ihr
    obtain ⟨w, hw⟩ := ihs
    exact ⟨v ++ w, .concat hv hw⟩
  | star => exact ⟨[], .starNil⟩

theorem Normal.eq_empty_iff (h : r.Normal) : r = .empty ↔ ∀ w, ¬Matches r w := by
  constructor
  · rintro rfl w
    exact Matches.not_empty
  · intro hnone
    refine h.resolve_right fun hr => ?_
    obtain ⟨w, hw⟩ := hr.exists_matches
    exact hnone w hw

/-! ### Stars of stars -/

theorem mkStar_mkStar : ∀ r : Regex, mkStar (mkStar r) = mkStar r
  | .empty => rfl
  | .epsilon => rfl
  | .symbol _ => rfl
  | .concat _ _ => rfl
  | .star _ => rfl
  | .union r s => by
    rw [mkStar]
    split
    · exact mkStar_mkStar s
    split
    · exact mkStar_mkStar r
    rfl

theorem mkStar_mkUnion_epsilon_left (r : Regex) : mkStar (mkUnion .epsilon r) = mkStar r := by
  cases r <;> rfl

theorem mkStar_mkUnion_epsilon_right (r : Regex) : mkStar (mkUnion r .epsilon) = mkStar r := by
  cases r <;> rfl

end FiniteAutomata.Regex
