import FiniteAutomata.Automaton.WellFormed

/-!
The names that constructions give. If no state has a semicolon in its name, the name of a set can be cut at its
semicolons into the names of its members, so different sets have different names (`merged_eq_merged_iff`). If no
first component has a comma before a space in its name, the first such place of the name of a pair is where the
second component begins, so different pairs have different names (`pair_eq_pair_iff`). Primes are put after a name
until it is new (`fresh_not_mem`).
-/

namespace FiniteAutomata

namespace State

variable {ps qs : List State}

theorem name_toList_injective {p q : State} (h : p.name.toList = q.name.toList) : p = q := by
  cases p
  cases q
  exact congrArg mk (String.toList_injective h)

/-! ### Sets -/

theorem toList_merged_name (qs : List State) : (merged qs).name.toList =
    '\x7b' :: ([';'].intercalate ((Ascending.ofList qs).map fun q => q.name.toList) ++ ['\x7d']) := by
  rw [merged, String.toList_append, String.toList_append, String.toList_intercalate, List.map_map]
  rfl

/-- Cutting a name at its semicolons gives back the names it was made from. -/
theorem splitOn_intercalate_names (hne : qs ≠ []) (h : ∀ q ∈ qs, ';' ∉ q.name.toList) :
    ([';'].intercalate ((Ascending.ofList qs).map fun q => q.name.toList)).splitOn ';' =
      (Ascending.ofList qs).map fun q => q.name.toList := by
  refine List.splitOn_intercalate ';' (fun l hl => ?_) ?_
  · obtain ⟨q, hq, rfl⟩ := List.mem_map.mp hl
    exact h q (Ascending.mem_ofList.mp hq)
  · obtain ⟨q, hq⟩ := List.exists_mem_of_ne_nil qs hne
    exact List.ne_nil_of_mem (List.mem_map.mpr ⟨q, Ascending.mem_ofList.mpr hq, rfl⟩)

theorem merged_eq_merged_iff (hp : ps ≠ []) (hq : qs ≠ []) (hps : ∀ p ∈ ps, ';' ∉ p.name.toList)
    (hqs : ∀ q ∈ qs, ';' ∉ q.name.toList) : merged ps = merged qs ↔ ∀ q, q ∈ ps ↔ q ∈ qs := by
  refine ⟨fun h q => ?_, merged_congr⟩
  have hchars := congrArg (fun q : State => q.name.toList) h
  rw [toList_merged_name, toList_merged_name, List.cons.injEq, List.append_left_inj] at hchars
  have hsplit := congrArg (List.splitOn ';') hchars.2
  rw [splitOn_intercalate_names hp hps, splitOn_intercalate_names hq hqs] at hsplit
  have hsame : Ascending.ofList ps = Ascending.ofList qs :=
    (List.map_inj_right fun _ _ => name_toList_injective).mp hsplit
  rw [← Ascending.mem_ofList (l := ps), hsame, Ascending.mem_ofList]

/-- The name of a set with one member can be read back, whatever the member is called. -/
theorem merged_singleton_inj {p q : State} (h : merged [p] = merged [q]) : p = q := by
  have hchars := congrArg (fun q : State => q.name.toList) h
  rw [toList_merged_name, toList_merged_name, List.cons.injEq, List.append_left_inj] at hchars
  have hone : ∀ r : State, [';'].intercalate ((Ascending.ofList [r]).map fun q => q.name.toList) = r.name.toList :=
    fun r => by simp [Ascending.ofList, Ascending.insert]
  rw [hone, hone] at hchars
  exact name_toList_injective hchars.2

/-! ### Pairs -/

/-- What stands between two components in the name of a pair. -/
def pairSeparator : List Char := [',', ' ']

theorem toList_pair_name (p q : State) :
    (pair p q).name.toList = '(' :: (p.name.toList ++ (pairSeparator ++ (q.name.toList ++ [')']))) := by
  rw [pair, String.toList_append, String.toList_append, String.toList_append, String.toList_append]
  simp [pairSeparator]

/-- A separator that begins later than another one stands after the whole of it. -/
theorem eq_nil_or_begins_with_separator {r v v' : List Char} (h : pairSeparator ++ v = r ++ (pairSeparator ++ v')) :
    r = [] ∨ pairSeparator <+: r := by
  match r with
  | [] => exact Or.inl rfl
  | [c] =>
    -- its second character is a space, and the other separator begins with a comma
    simp [pairSeparator] at h
  | c :: d :: r =>
    simp only [pairSeparator, List.cons_append, List.cons.injEq] at h
    obtain ⟨rfl, rfl, -⟩ := h
    exact Or.inr ⟨r, rfl⟩

theorem append_separator_inj {u u' v v' : List Char} (hu : ¬pairSeparator <:+: u) (hu' : ¬pairSeparator <:+: u')
    (h : u ++ (pairSeparator ++ v) = u' ++ (pairSeparator ++ v')) : u = u' ∧ v = v' := by
  have hnil : ∀ {x r y y' : List Char}, ¬pairSeparator <:+: x ++ r →
      pairSeparator ++ y = r ++ (pairSeparator ++ y') → r = [] := by
    intro x r y y' hx hy
    refine (eq_nil_or_begins_with_separator hy).resolve_right fun hr => hx ?_
    exact hr.isInfix.trans (List.suffix_append x r).isInfix
  rcases List.append_eq_append_iff.mp h with ⟨r, rfl, hr⟩ | ⟨r, rfl, hr⟩
  · obtain rfl := hnil hu' hr
    rw [List.nil_append, List.append_cancel_left_eq] at hr
    exact ⟨(List.append_nil u).symm, hr⟩
  · obtain rfl := hnil hu hr
    rw [List.nil_append, List.append_cancel_left_eq] at hr
    exact ⟨List.append_nil u', hr.symm⟩

theorem pair_eq_pair_iff {p q p' q' : State} (hp : ¬pairSeparator <:+: p.name.toList)
    (hp' : ¬pairSeparator <:+: p'.name.toList) : pair p q = pair p' q' ↔ p = p' ∧ q = q' := by
  constructor
  · intro h
    have hchars := congrArg (fun q : State => q.name.toList) h
    rw [toList_pair_name, toList_pair_name, List.cons.injEq] at hchars
    obtain ⟨hfirst, hsecond⟩ := append_separator_inj hp hp' hchars.2
    rw [List.append_cancel_right_eq] at hsecond
    exact ⟨name_toList_injective hfirst, name_toList_injective hsecond⟩
  · rintro ⟨rfl, rfl⟩
    rfl

/-! ### What names tell -/

theorem mem_map_name_iff {n : String} : n ∈ qs.map name ↔ (⟨n⟩ : State) ∈ qs := by
  rw [List.mem_map]
  refine ⟨fun ⟨q, hq, hn⟩ => ?_, fun h => ⟨_, h, rfl⟩⟩
  rwa [← hn]

/-- The name of a set tells no more than which names are in it, and it tells that much of nonempty sets of names without a
semicolon. The name of a pair tells both components if no comma before a space is in the first. -/
theorem names_faithful (ps qs : List State) (p q p' q' : State) :
    ((∀ n, n ∈ ps.map name ↔ n ∈ qs.map name) → merged ps = merged qs) ∧
    (ps ≠ [] → qs ≠ [] → (∀ p ∈ ps, ';' ∉ p.name.toList) → (∀ q ∈ qs, ';' ∉ q.name.toList) →
      (merged ps = merged qs ↔ ∀ n, n ∈ ps.map name ↔ n ∈ qs.map name)) ∧
    (¬pairSeparator <:+: p.name.toList → ¬pairSeparator <:+: p'.name.toList →
      (pair p q = pair p' q' ↔ p = p' ∧ q = q')) := by
  have hnames : (∀ n, n ∈ ps.map name ↔ n ∈ qs.map name) ↔ ∀ q, q ∈ ps ↔ q ∈ qs := by
    simp only [mem_map_name_iff]
    exact ⟨fun h q => h q.name, fun h n => h ⟨n⟩⟩
  rw [hnames]
  exact ⟨merged_congr, fun hp hq hps hqs => merged_eq_merged_iff hp hq hps hqs, pair_eq_pair_iff⟩

/-- A state without a name, and braces, commas and spaces at the ends of names. -/
def awkward : List State := [⟨"\x7d"⟩, ⟨""⟩, ⟨"a,"⟩, ⟨" b"⟩]

theorem names_faithful_awkward :
    ((∀ p ∈ awkward, ';' ∉ p.name.toList) ∧ (∀ p ∈ awkward.tail, ';' ∉ p.name.toList) ∧
      ¬pairSeparator <:+: "a,".toList ∧ ¬pairSeparator <:+: "a".toList) ∧
    merged awkward = merged (awkward.reverse ++ awkward) ∧ merged awkward ≠ merged awkward.tail ∧
    pair ⟨"a,"⟩ ⟨" b"⟩ ≠ pair ⟨"a"⟩ ⟨", b"⟩ := by
  have hall : ∀ p ∈ awkward, ';' ∉ p.name.toList := by decide
  have htail : ∀ p ∈ awkward.tail, ';' ∉ p.name.toList := by decide
  have hcomma : ¬pairSeparator <:+: "a,".toList := by decide
  have hplain : ¬pairSeparator <:+: "a".toList := by decide
  obtain ⟨hsame, -, -⟩ := names_faithful awkward (awkward.reverse ++ awkward) ⟨""⟩ ⟨""⟩ ⟨""⟩ ⟨""⟩
  obtain ⟨-, hsets, hpairs⟩ := names_faithful awkward awkward.tail ⟨"a,"⟩ ⟨" b"⟩ ⟨"a"⟩ ⟨", b"⟩
  refine ⟨⟨hall, htail, hcomma, hplain⟩, hsame fun n => ?_, fun he => ?_, fun he => ?_⟩
  · simp
  · have hbrace := (hsets (by decide) (by decide) hall htail).mp he "\x7d"
    revert hbrace
    decide
  · exact absurd ((hpairs hcomma hplain).mp he).1 (by decide)

/-- The conditions are needed: the empty set shares its name with the set of the state without a name, and a separator
in a name is not told from one between names. -/
example : merged [] = merged [⟨""⟩] ∧ merged [⟨"a"⟩, ⟨"b"⟩] = merged [⟨"a;b"⟩] ∧
    pair ⟨"a"⟩ ⟨"b, c"⟩ = pair ⟨"a, b"⟩ ⟨"c"⟩ := by decide

/-! ### Tags -/

theorem toList_tagged_name (tag : String) (q : State) :
    (tagged tag q).name.toList = tag.toList ++ q.name.toList := String.toList_append

theorem tagged_inj {tag : String} {p q : State} (h : tagged tag p = tagged tag q) : p = q := by
  have hchars := congrArg (fun q : State => q.name.toList) h
  rw [toList_tagged_name, toList_tagged_name, List.append_cancel_left_eq] at hchars
  exact name_toList_injective hchars

/-- A tagged name begins with the first character of its tag. -/
theorem head?_tagged_name {tag : String} {c : Char} (hc : tag.toList.head? = some c) (q : State) :
    (tagged tag q).name.toList.head? = some c := by
  rw [toList_tagged_name, List.head?_append, hc, Option.some_or]

theorem tagged_ne {tag : String} {p : State} {c d : Char} (hc : tag.toList.head? = some c)
    (hd : p.name.toList.head? = some d) (hne : c ≠ d) (q : State) : tagged tag q ≠ p := by
  rintro rfl
  rw [head?_tagged_name hc] at hd
  exact hne (Option.some.inj hd)

/-! ### Primes -/

@[simp] theorem primed_zero (q : State) : q.primed 0 = q := by
  rw [primed, List.replicate_zero, String.join_nil, String.append_empty]

theorem primed_prime (q : State) (k : Nat) : q.prime.primed k = q.primed (k + 1) := by
  rw [primed, primed, prime, List.replicate_succ, String.join_cons, String.append_assoc]

end State

/-- Different nonempty sets of states of the automaton have different names. -/
def Automaton.NamesApart (A : Automaton) : Prop := ∀ ps qs : List State, ps ≠ [] → qs ≠ [] →
  (∀ p ∈ ps, p ∈ A.states) → (∀ q ∈ qs, q ∈ A.states) → State.merged ps = State.merged qs → ∀ q, q ∈ ps ↔ q ∈ qs

theorem Automaton.namesApart_of_no_semicolon {A : Automaton} (h : ∀ q ∈ A.states, ';' ∉ q.name.toList) :
    A.NamesApart := fun _ _ hp hq hps hqs =>
  (State.merged_eq_merged_iff hp hq (fun p hp => h p (hps p hp)) fun q hq => h q (hqs q hq)).mp

/-- Different pairs of a state of one automaton and a state of the other have different names. -/
def Automaton.PairsApart (A B : Automaton) : Prop :=
  ∀ p ∈ A.states, ∀ q ∈ B.states, ∀ p' ∈ A.states, ∀ q' ∈ B.states,
    State.pair p q = State.pair p' q' → p = p' ∧ q = q'

theorem Automaton.pairsApart_of_no_separator {A : Automaton}
    (h : ∀ q ∈ A.states, ¬State.pairSeparator <:+: q.name.toList) (B : Automaton) : A.PairsApart B :=
  fun p hp _ _ p' hp' _ _ => (State.pair_eq_pair_iff (h p hp) (h p' hp')).mp

theorem Automaton.fresh_not_mem (A : Automaton) (q : State) : A.fresh q ∉ A.states := by
  fun_induction fresh with
  | case1 q _ ih => exact ih
  | case2 q h => exact h

end FiniteAutomata
