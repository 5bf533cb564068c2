import Mathlib.Data.Fintype.Card
import Mathlib.Data.Set.Function
import FiniteAutomata.Proofs.Automaton.Edits
import FiniteAutomata.Proofs.Deterministic.Walk

/-!
Minimal automata, after Myhill and Nerode: every state is reached, different states accept different words, and
every transition leads to a state that accepts something. Such an automaton has no more states than any other
for the same words (`Minimal.numStates_le`), and any two of them for the same words are isomorphic
(`Minimal.isomorphic`). Both follow from one relation: states of two automata correspond if the same words are
accepted from them.
-/

namespace FiniteAutomata.Deterministic

variable {D M N L : Deterministic} {i j m n : Nat} {a : Symbol} {w : List Symbol} {p q r : State}

/-! ### Live states -/

theorem entry_lt (hD : D.automaton.WellFormed) (hs : D.start? ≠ none) : D.entry < D.dead := by
  rw [entry]
  cases h : D.start? with
  | none => exact absurd h hs
  | some i => exact start_lt hD h

theorem lt_of_after_mem_finals (hD : D.automaton.WellFormed) (hi : i ≤ D.dead) (h : D.after i w ∈ D.finals) :
    i < D.dead := by
  refine Nat.lt_of_le_of_ne hi ?_
  rintro rfl
  exact after_dead_not_mem_finals hD w h

/-! ### Minimal automata -/

/-- An automaton with a start state, without a state that could be left out or joined with another. -/
structure Minimal (M : Deterministic) : Prop where
  wellFormed : M.automaton.WellFormed
  started : M.start? ≠ none
  reached : ∀ m < M.dead, ∃ w, M.after M.entry w = m
  apart : ∀ m < M.dead, ∀ n < M.dead, SameWords M M m n → m = n
  live : ∀ m a n, M.next? m a = some n → ∃ w, M.after n w ∈ M.finals

/-- A step of a minimal automaton is one of any automaton that accepts the same words from there. -/
theorem Minimal.next_lt (hM : M.Minimal) (hN : N.automaton.WellFormed) (h : SameWords M N m n) {m' : Nat}
    (hm : M.next? m a = some m') : N.next n a < N.dead := by
  obtain ⟨w, hw⟩ := hM.live m a m' hm
  have hnext := h.next a
  rw [next_of_next? hM.wellFormed hm] at hnext
  exact lt_of_after_mem_finals hN (next_le hN n a) ((hnext w).mp hw)

/-- Every state of a minimal automaton accepts what some state of any other automaton for the same words
accepts. -/
theorem Minimal.exists_sameWords (hM : M.Minimal) (hN : N.automaton.WellFormed) (hs : N.start? ≠ none)
    (h : ∀ ls, M.accepts ls = N.accepts ls) (hm : m < M.dead) : ∃ n < N.dead, SameWords M N m n := by
  have hentry := sameWords_entry hM.wellFormed hN h
  obtain ⟨w, rfl⟩ := hM.reached m hm
  refine ⟨N.after N.entry w, ?_, hentry.after w⟩
  rcases List.eq_nil_or_concat w with rfl | ⟨v, a, rfl⟩
  · exact entry_lt hN hs
  · rw [List.concat_eq_append, after_append] at hm ⊢
    exact hM.next_lt hN (hentry.after v) (next?_of_next_ne hM.wellFormed (Nat.ne_of_lt hm))

/-- A minimal automaton has no more states than any other for the same words. -/
theorem Minimal.numStates_le (hM : M.Minimal) (hN : N.automaton.WellFormed) (hs : N.start? ≠ none)
    (h : ∀ ls, M.accepts ls = N.accepts ls) : M.numStates ≤ N.numStates := by
  have hex : ∀ m : Fin M.numStates, ∃ n : Fin N.numStates, SameWords M N m n := by
    intro m
    obtain ⟨n, hn, hmn⟩ := hM.exists_sameWords hN hs h m.isLt
    exact ⟨⟨n, hn⟩, hmn⟩
  choose f hf using hex
  have hinj : Function.Injective f := by
    intro m n he
    have hmn : SameWords M M m n := (hf m).trans (he ▸ (hf n).symm)
    exact Fin.ext (hM.apart m m.isLt n n.isLt hmn)
  have hcard := Fintype.card_le_of_injective f hinj
  rwa [Fintype.card_fin, Fintype.card_fin] at hcard

/-! ### Isomorphism -/

/-- A renaming of the states of `M` to those of `N` that keeps the start state, the final states and the
transitions, and adds none. -/
structure Renaming (M N : Deterministic) (f : State → State) : Prop where
  bijOn : Set.BijOn f {q | q ∈ M.automaton.states} {q | q ∈ N.automaton.states}
  start : N.startState? = M.startState?.map f
  final : ∀ q ∈ M.automaton.states, N.automaton.isFinal (f q) = M.automaton.isFinal q
  transition : ∀ q ∈ M.automaton.states, ∀ a, N.transition? (f q) a = (M.transition? q a).map f

/-- The automata are the same up to the names of their states. -/
def Isomorphic (M N : Deterministic) : Prop := ∃ f, Renaming M N f

/-- The states `q` of `M` and `r` of `N` accept the same words. -/
def Corresponds (M N : Deterministic) (q r : State) : Prop := ∃ m n,
  M.automaton.states[m]? = some q ∧ N.automaton.states[n]? = some r ∧ SameWords M N m n

theorem Corresponds.symm (h : Corresponds M N q r) : Corresponds N M r q := by
  obtain ⟨m, n, hm, hn, hmn⟩ := h
  exact ⟨n, m, hn, hm, hmn.symm⟩

theorem Corresponds.mem_left (h : Corresponds M N q r) : q ∈ M.automaton.states := by
  obtain ⟨m, -, hm, -, -⟩ := h
  exact List.mem_of_getElem? hm

theorem exists_corresponds (hM : M.Minimal) (hN : N.Minimal) (h : ∀ ls, M.accepts ls = N.accepts ls)
    (hq : q ∈ M.automaton.states) : ∃ r, Corresponds M N q r := by
  obtain ⟨m, hm⟩ := List.mem_iff_getElem?.mp hq
  obtain ⟨n, hn, hmn⟩ := hM.exists_sameWords hN.wellFormed hN.started h (Automaton.lt_of_getElem?_states hm)
  exact ⟨_, m, n, hm, Automaton.getElem?_states hn, hmn⟩

theorem Corresponds.unique (hN : N.Minimal) (hM : M.automaton.states.Nodup) (h : Corresponds M N q p)
    (h' : Corresponds M N q r) : p = r := by
  obtain ⟨m, n, hm, hn, hmn⟩ := h
  obtain ⟨m', n', hm', hn', hmn'⟩ := h'
  rw [← Automaton.id_unique hM hm hm'] at hmn'
  have he : n = n' := hN.apart n (Automaton.lt_of_getElem?_states hn) n' (Automaton.lt_of_getElem?_states hn')
    (hmn.symm.trans hmn')
  rw [he, hn', Option.some.injEq] at hn
  exact hn.symm

theorem startState?_eq (h : D.start? ≠ none) : D.startState? = some (D.automaton.state D.entry) := by
  rw [startState?, entry]
  cases hs : D.start? with
  | none => exact absurd hs h
  | some i => rfl

theorem corresponds_start (hM : M.Minimal) (hN : N.Minimal) (h : ∀ ls, M.accepts ls = N.accepts ls) :
    Corresponds M N (M.automaton.state M.entry) (N.automaton.state N.entry) :=
  ⟨M.entry, N.entry, Automaton.getElem?_states (entry_lt hM.wellFormed hM.started),
    Automaton.getElem?_states (entry_lt hN.wellFormed hN.started),
    sameWords_entry hM.wellFormed hN.wellFormed h⟩

theorem isFinal_eq (hD : D.automaton.WellFormed) (hi : D.automaton.states[i]? = some q) :
    D.automaton.isFinal q = D.finals.contains i := by
  rw [← Automaton.stateId?_eq_some_iff hD.states_nodup] at hi
  rw [Automaton.isFinal, hi]
  rfl

theorem transition?_eq (hD : D.automaton.WellFormed) (hi : D.automaton.states[i]? = some q) (a : Symbol) :
    D.transition? q a = (D.next? i a).map D.automaton.state := by
  rw [← Automaton.stateId?_eq_some_iff hD.states_nodup] at hi
  rw [transition?, hi, Option.bind_some]

theorem Corresponds.isFinal_eq (hM : M.automaton.WellFormed) (hN : N.automaton.WellFormed)
    (h : Corresponds M N q r) : N.automaton.isFinal r = M.automaton.isFinal q := by
  obtain ⟨m, n, hm, hn, hmn⟩ := h
  rw [Deterministic.isFinal_eq hM hm, Deterministic.isFinal_eq hN hn]
  exact Bool.eq_iff_iff.mpr (hmn []).symm

theorem Corresponds.transition? (hM : M.Minimal) (hN : N.automaton.WellFormed) (h : Corresponds M N q r)
    (hq : M.transition? q a = some p) : ∃ p', N.transition? r a = some p' ∧ Corresponds M N p p' := by
  obtain ⟨m, n, hm, hn, hmn⟩ := h
  rw [transition?_eq hM.wellFormed hm] at hq
  obtain ⟨m', hnext, rfl⟩ := Option.map_eq_some_iff.mp hq
  have hlt := hM.next_lt hN hmn hnext
  have hstep := hmn.next a
  rw [next_of_next? hM.wellFormed hnext] at hstep
  refine ⟨N.automaton.state (N.next n a), ?_, m', N.next n a, ?_, Automaton.getElem?_states hlt, hstep⟩
  · rw [transition?_eq hN hn, next?_of_next_ne hN (Nat.ne_of_lt hlt), Option.map_some]
  · exact Automaton.getElem?_states (target_lt hM.wellFormed hnext)

/-- Two minimal automata for the same words are isomorphic. -/
theorem Minimal.isomorphic (hM : M.Minimal) (hN : N.Minimal) (h : ∀ ls, M.accepts ls = N.accepts ls) :
    Isomorphic M N := by
  have hback : ∀ ls, N.accepts ls = M.accepts ls := fun ls => (h ls).symm
  have hM' := hM.wellFormed
  have hN' := hN.wellFormed
  have hex : ∀ q, ∃ r, q ∈ M.automaton.states → Corresponds M N q r := by
    intro q
    by_cases hq : q ∈ M.automaton.states
    · obtain ⟨r, hr⟩ := exists_corresponds hM hN h hq
      exact ⟨r, fun _ => hr⟩
    · exact ⟨q, fun hq' => absurd hq' hq⟩
  choose f hf using hex
  have hunique : ∀ {q r}, Corresponds M N q r → f q = r := fun hqr =>
    Corresponds.unique hN hM'.states_nodup (hf _ hqr.mem_left) hqr
  refine ⟨f, ⟨⟨?_, ?_, ?_⟩, ?_, ?_, ?_⟩⟩
  · intro q hq
    exact (hf q hq).symm.mem_left
  · intro q hq q' hq' he
    exact Corresponds.unique hM hN'.states_nodup (hf q hq).symm (he ▸ (hf q' hq').symm)
  · intro r hr
    obtain ⟨q, hq⟩ := exists_corresponds hN hM hback hr
    exact ⟨q, hq.symm.mem_left, hunique hq.symm⟩
  · rw [startState?_eq hM.started, startState?_eq hN.started, Option.map_some,
      hunique (corresponds_start hM hN h)]
  · intro q hq
    exact (hf q hq).isFinal_eq hM' hN'
  · intro q hq a
    cases hp : M.transition? q a with
    | some p =>
      obtain ⟨p', hp', hpp'⟩ := (hf q hq).transition? hM hN' hp
      rw [hp', Option.map_some, hunique hpp']
    | none =>
      cases hp' : N.transition? (f q) a with
      | none => rfl
      | some p' =>
        obtain ⟨p, hp₂, -⟩ := (hf q hq).symm.transition? hN hM' hp'
        rw [hp] at hp₂
        cases hp₂

end FiniteAutomata.Deterministic
