import FiniteAutomata.Regex.Basic

/-!
The words of a regular expression.
-/

namespace FiniteAutomata

/-- `Matches r w`: the word `w` belongs to the language of `r`. -/
inductive Matches : Regex → List Symbol → Prop
  | epsilon : Matches .epsilon []
  | symbol (a : Symbol) : Matches (.symbol a) [a]
  | unionLeft {r s : Regex} {w : List Symbol} : Matches r w → Matches (.union r s) w
  | unionRight {r s : Regex} {w : List Symbol} : Matches s w → Matches (.union r s) w
  | concat {r s : Regex} {v w : List Symbol} : Matches r v → Matches s w → Matches (.concat r s) (v ++ w)
  | starNil {r : Regex} : Matches (.star r) []
  | starCons {r : Regex} {v w : List Symbol} : Matches r v → Matches (.star r) w → Matches (.star r) (v ++ w)

namespace Matches

variable {r s : Regex} {w : List Symbol}

@[simp] theorem not_empty : ¬Matches .empty w := nofun

@[simp] theorem epsilon_iff : Matches .epsilon w ↔ w = [] :=
  ⟨fun | .epsilon => rfl, fun h => h ▸ .epsilon⟩

@[simp] theorem symbol_iff {a : Symbol} : Matches (.symbol a) w ↔ w = [a] :=
  ⟨fun | .symbol _ => rfl, fun h => h ▸ .symbol a⟩

theorem union_iff : Matches (.union r s) w ↔ Matches r w ∨ Matches s w :=
  ⟨fun | .unionLeft h => Or.inl h | .unionRight h => Or.inr h, fun h => h.elim .unionLeft .unionRight⟩

theorem concat_iff : Matches (.concat r s) w ↔ ∃ u v, Matches r u ∧ Matches s v ∧ w = u ++ v :=
  ⟨fun | .concat hu hv => ⟨_, _, hu, hv, rfl⟩, fun ⟨_, _, hu, hv, he⟩ => he ▸ .concat hu hv⟩

end Matches

end FiniteAutomata
