import FiniteAutomata.Automaton.Basic

/-!
The changes that can be made to an automaton, one at a time, as data, so that a history of changes is a list.
-/

namespace FiniteAutomata

inductive Edit where
  | addState (q : State)
  | addSymbol (a : Symbol)
  | addStart (q : State)
  | removeStart (q : State)
  | addFinal (q : State)
  | removeFinal (q : State)
  | addTransition (p : State) (l : Label) (q : State)
  | removeTransition (p : State) (l : Label) (q : State)
deriving DecidableEq, Repr

namespace Edit

/-- What a change answers: the id of the state asked for, or whether the set it is about changed. -/
inductive Answer where
  | id (i : Nat)
  | changed (b : Bool)
deriving DecidableEq, Repr

/-- An empty move is a transition with the empty label. -/
def addEpsilon (p q : State) : Edit := .addTransition p .epsilon q

def apply : Edit → Automaton → Answer × Automaton
  | .addState q, A => (A.addState q).map .id id
  | .addSymbol a, A => (A.addSymbol a).map .changed id
  | .addStart q, A => (A.addStart q).map .changed id
  | .removeStart q, A => (A.removeStart q).map .changed id
  | .addFinal q, A => (A.addFinal q).map .changed id
  | .removeFinal q, A => (A.removeFinal q).map .changed id
  | .addTransition p l q, A => (A.addTransition p l q).map .changed id
  | .removeTransition p l q, A => (A.removeTransition p l q).map .changed id

end Edit

/-- The automaton after a history of changes. -/
def Automaton.edited (A : Automaton) (es : List Edit) : Automaton := es.foldl (fun B e => (e.apply B).2) A

/-- The automaton that a history of changes makes out of the empty one. -/
def Automaton.ofEdits (es : List Edit) : Automaton := edited ∅ es

end FiniteAutomata
