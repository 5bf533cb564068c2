import FiniteAutomata.Automaton.Complement
import FiniteAutomata.Automaton.Edit
import FiniteAutomata.Automaton.Rational
import FiniteAutomata.Automaton.Reverse
import FiniteAutomata.Deterministic.Minimize
import FiniteAutomata.Regex.Thompson

/-!
The automata that the operations of this library make: from the empty automaton and from regular
expressions, by single changes and by constructions. A copy is the automaton itself, and a deterministic
automaton is an automaton that is read deterministically, so copying and going back to the plain reading
lead nowhere new.
-/

namespace FiniteAutomata

/-- `Built A`: finitely many operations lead to `A`. Minimizing takes whatever is read deterministically,
whether or not it is deterministic. -/
inductive Built : Automaton → Prop
  | empty : Built ∅
  | ofRegex (r : Regex) : Built r.toAutomaton
  | edit {A : Automaton} (e : Edit) : Built A → Built (e.apply A).2
  | complement {A : Automaton} : Built A → Built A.complement
  | reverse {A : Automaton} : Built A → Built A.reverse
  | kleeneStar {A : Automaton} : Built A → Built A.kleeneStar
  | intersection {A B : Automaton} : Built A → Built B → Built (A.intersection B)
  | difference {A B : Automaton} : Built A → Built B → Built (A.difference B)
  | union {A B : Automaton} : Built A → Built B → Built (A.union B)
  | concatenate {A B : Automaton} : Built A → Built B → Built (A.concatenate B)
  | determinize {A : Automaton} : Built A → Built A.determinize.automaton
  | minimize {A : Automaton} : Built A → Built (Deterministic.minimize ⟨A⟩).automaton

theorem Built.edited {A : Automaton} (h : Built A) : ∀ es : List Edit, Built (A.edited es)
  | [] => h
  | e :: es => Built.edited (.edit e h) es

theorem built_ofEdits (es : List Edit) : Built (Automaton.ofEdits es) := Built.empty.edited es

end FiniteAutomata
