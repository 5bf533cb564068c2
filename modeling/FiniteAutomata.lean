import FiniteAutomata.Automaton.Built
import FiniteAutomata.Automaton.TransitionMap
import FiniteAutomata.Inspect
import FiniteAutomata.Proofs.Automaton.Equivalence
import FiniteAutomata.Proofs.Deterministic.Minimization
import FiniteAutomata.Regex.Reduced
import FiniteAutomata.Regex.Text
import FiniteAutomata.Proofs.Automaton.Product
import FiniteAutomata.Proofs.Automaton.Complement
import FiniteAutomata.Proofs.Automaton.Difference
import FiniteAutomata.Proofs.Automaton.Rational
import FiniteAutomata.Proofs.Automaton.Reversal
import FiniteAutomata.Proofs.Automaton.Built
import FiniteAutomata.Proofs.Automaton.Emptiness
import FiniteAutomata.Proofs.Automaton.InsertionOrder
import FiniteAutomata.Proofs.Elimination.Stages
import FiniteAutomata.Proofs.Deterministic.RefinementLoop
import FiniteAutomata.Proofs.Deterministic.Subsets
import FiniteAutomata.Proofs.Elimination.Enumeration
import FiniteAutomata.Proofs.Elimination.Removal
import FiniteAutomata.Proofs.Elimination.Labels
import FiniteAutomata.Proofs.Regex.Denotation
import FiniteAutomata.Proofs.Deterministic.Admission
import FiniteAutomata.Proofs.Regex.Reading
import FiniteAutomata.Proofs.StateSet.Histories
import FiniteAutomata.Proofs.TransitionTable.Histories
import FiniteAutomata.Proofs.Automaton.Histories
import FiniteAutomata.Proofs.Automaton.Closure
import FiniteAutomata.Proofs.DisjointSets.Histories
import FiniteAutomata.Proofs.Automaton.TransitionMap
import FiniteAutomata.Proofs.Regex.Shape
import FiniteAutomata.Proofs.Automaton.FreshNames
