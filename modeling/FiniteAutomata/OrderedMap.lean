import FiniteAutomata.Ascending

/-!
Finite maps with keys in ascending order. The entries are a canonical form: the map is determined by
what it gives for each key (`OrderedMap.ext_get?`), and `alter` changes what is given for one key only
(`OrderedMap.get?_alter`).
-/

namespace FiniteAutomata

/-- A finite map, held as its entries in ascending order of the keys. -/
structure OrderedMap (κ β : Type) [Ord κ] where
  entries : List (κ × β)
  ascending : entries.Pairwise fun a b => compare a.1 b.1 = .lt

namespace OrderedMap

variable {κ β : Type} [Ord κ]

instance [DecidableEq κ] [DecidableEq β] : DecidableEq (OrderedMap κ β) := fun m n =>
  match decEq m.entries n.entries with
  | isTrue h => isTrue (by cases m; cases n; cases h; rfl)
  | isFalse h => isFalse fun he => h (congrArg entries he)

instance : EmptyCollection (OrderedMap κ β) := ⟨⟨[], List.Pairwise.nil⟩⟩

instance : Inhabited (OrderedMap κ β) := ⟨∅⟩

/-! ### Entries in ascending order -/

/-- The value at `k`: the search stops at the first larger key. -/
def find? (k : κ) : List (κ × β) → Option β
  | [] => none
  | (k', v) :: l =>
    match compare k k' with
    | .lt => none
    | .eq => some v
    | .gt => find? k l

/-- The entry for `k`, if there is a value for it. -/
def entry (k : κ) : Option β → List (κ × β)
  | none => []
  | some v => [(k, v)]

/-- Replaces what the entries give for `k` by its image under `f`. -/
def alterEntries (k : κ) (f : Option β → Option β) : List (κ × β) → List (κ × β)
  | [] => entry k (f none)
  | (k', v) :: l =>
    match compare k k' with
    | .lt => entry k (f none) ++ (k', v) :: l
    | .eq => entry k (f (some v)) ++ l
    | .gt => (k', v) :: alterEntries k f l

omit [Ord κ] in
theorem fst_of_mem_entry {k : κ} {o : Option β} {e : κ × β} (h : e ∈ entry k o) : e.1 = k := by
  cases o with
  | none => exact absurd h List.not_mem_nil
  | some v => rw [List.mem_singleton.mp h]

theorem fst_of_mem_alterEntries {k : κ} {f : Option β → Option β} {e : κ × β} :
    ∀ {l : List (κ × β)}, e ∈ alterEntries k f l → e.1 = k ∨ e ∈ l
  | [], h => Or.inl (fst_of_mem_entry h)
  | (k', v) :: l, h => by
    unfold alterEntries at h
    split at h
    · exact (List.mem_append.mp h).imp_left fst_of_mem_entry
    · exact (List.mem_append.mp h).imp fst_of_mem_entry (List.mem_cons_of_mem _)
    · rcases List.mem_cons.mp h with rfl | h
      · exact Or.inr List.mem_cons_self
      · exact (fst_of_mem_alterEntries h).imp_right (List.mem_cons_of_mem _)

theorem entry_pairwise {k : κ} (o : Option β) :
    (entry k o).Pairwise fun a b => compare a.1 b.1 = .lt := by
  cases o with
  | none => exact List.Pairwise.nil
  | some v => exact List.pairwise_singleton _ _

theorem find?_eq_none_of_lt {k : κ} {l : List (κ × β)} (h : ∀ e ∈ l, compare k e.1 = .lt) :
    find? k l = none := by
  cases l with
  | nil => rfl
  | cons e l => simp [find?, h e List.mem_cons_self]

theorem find?_append_of_lt [Std.ReflOrd κ] {k : κ} {o : Option β} {l : List (κ × β)}
    (h : ∀ e ∈ l, compare k e.1 = .lt) : find? k (entry k o ++ l) = o := by
  cases o with
  | none => exact find?_eq_none_of_lt h
  | some v => simp [entry, find?]

variable [Std.TransOrd κ]

theorem alterEntries_ascending [Std.LawfulEqOrd κ] {k : κ} {f : Option β → Option β} :
    ∀ {l : List (κ × β)}, (l.Pairwise fun a b => compare a.1 b.1 = .lt) →
      (alterEntries k f l).Pairwise fun a b => compare a.1 b.1 = .lt
  | [], _ => entry_pairwise _
  | (k', v) :: l, h => by
    obtain ⟨hk, hl⟩ := List.pairwise_cons.mp h
    unfold alterEntries
    split
    · rename_i hlt
      refine List.pairwise_append.mpr ⟨entry_pairwise _, h, fun a ha b hb => ?_⟩
      rw [fst_of_mem_entry ha]
      rcases List.mem_cons.mp hb with rfl | hb
      · exact hlt
      · exact Std.TransCmp.lt_trans hlt (hk b hb)
    · rename_i heq
      refine List.pairwise_append.mpr ⟨entry_pairwise _, hl, fun a ha b hb => ?_⟩
      rw [fst_of_mem_entry ha, Std.LawfulEqOrd.eq_of_compare heq]
      exact hk b hb
    · rename_i hgt
      refine List.pairwise_cons.mpr ⟨fun b hb => ?_, alterEntries_ascending hl⟩
      rcases fst_of_mem_alterEntries hb with hb | hb
      · rw [hb]; exact Std.OrientedCmp.lt_of_gt hgt
      · exact hk b hb

theorem find?_append_of_ne [Std.LawfulEqOrd κ] {k k' : κ} {o : Option β} {l : List (κ × β)}
    (h : k' ≠ k) (hl : ∀ e ∈ l, compare k e.1 = .lt) : find? k' (entry k o ++ l) = find? k' l := by
  cases o with
  | none => rfl
  | some v =>
    change find? k' ((k, v) :: l) = find? k' l
    rw [find?]
    split
    · rename_i hlt
      exact (find?_eq_none_of_lt fun e he => Std.TransCmp.lt_trans hlt (hl e he)).symm
    · exact absurd (Std.LawfulEqOrd.eq_of_compare ‹_›) h
    · rfl

theorem find?_alterEntries_self [Std.LawfulEqOrd κ] {k : κ} {f : Option β → Option β} :
    ∀ {l : List (κ × β)}, (l.Pairwise fun a b => compare a.1 b.1 = .lt) →
      find? k (alterEntries k f l) = f (find? k l)
  | [], _ => by
    have h := find?_append_of_lt (k := k) (o := f none) (l := []) (by simp)
    rwa [List.append_nil] at h
  | (k', v) :: l, h => by
    obtain ⟨hk, hl⟩ := List.pairwise_cons.mp h
    rw [alterEntries, find?]
    split
    · rename_i hlt
      refine find?_append_of_lt fun e he => ?_
      rcases List.mem_cons.mp he with rfl | he
      · exact hlt
      · exact Std.TransCmp.lt_trans hlt (hk e he)
    · rename_i heq
      refine find?_append_of_lt fun e he => ?_
      rw [Std.LawfulEqOrd.eq_of_compare heq]
      exact hk e he
    · rename_i hgt
      simp only [find?, hgt]
      exact find?_alterEntries_self hl

theorem find?_alterEntries_of_ne [Std.LawfulEqOrd κ] {k k' : κ} {f : Option β → Option β} (hne : k' ≠ k) :
    ∀ {l : List (κ × β)}, (l.Pairwise fun a b => compare a.1 b.1 = .lt) →
      find? k' (alterEntries k f l) = find? k' l
  | [], _ => by
    have h := find?_append_of_ne (o := f none) (l := []) hne (by simp)
    rwa [List.append_nil] at h
  | (k₁, v) :: l, h => by
    obtain ⟨hk, hl⟩ := List.pairwise_cons.mp h
    rw [alterEntries]
    split
    · rename_i hlt
      refine find?_append_of_ne hne fun e he => ?_
      rcases List.mem_cons.mp he with rfl | he
      · exact hlt
      · exact Std.TransCmp.lt_trans hlt (hk e he)
    · rename_i heq
      have hk₁ : k = k₁ := Std.LawfulEqOrd.eq_of_compare heq
      subst hk₁
      rw [find?_append_of_ne hne hk]
      rw [find?]
      split
      · exact find?_eq_none_of_lt fun e he => Std.TransCmp.lt_trans ‹_› (hk e he)
      · exact absurd (Std.LawfulEqOrd.eq_of_compare ‹_›) hne
      · rfl
    · rw [find?, find?]
      split
      · rfl
      · rfl
      · exact find?_alterEntries_of_ne hne hl

/-! ### Operations -/

omit [Std.TransOrd κ] in
def get? (m : OrderedMap κ β) (k : κ) : Option β := find? k m.entries

def size (m : OrderedMap κ β) : Nat := m.entries.length

variable [Std.LawfulEqOrd κ]

/-- The map that gives `f o` for `k` where `m` gives `o`, and agrees with `m` elsewhere. -/
def alter (m : OrderedMap κ β) (k : κ) (f : Option β → Option β) : OrderedMap κ β :=
  ⟨alterEntries k f m.entries, alterEntries_ascending m.ascending⟩

def insert (m : OrderedMap κ β) (k : κ) (v : β) : OrderedMap κ β := m.alter k fun _ => some v

def erase (m : OrderedMap κ β) (k : κ) : OrderedMap κ β := m.alter k fun _ => none

def filterKeys (m : OrderedMap κ β) (p : κ → Bool) : OrderedMap κ β :=
  ⟨m.entries.filter fun e => p e.1, m.ascending.filter _⟩

omit [Std.TransOrd κ] [Std.LawfulEqOrd κ] in
def mapValues {γ : Type} (m : OrderedMap κ β) (f : β → γ) : OrderedMap κ γ :=
  ⟨m.entries.map fun e => (e.1, f e.2), List.pairwise_map.mpr m.ascending⟩

/-! ### What each operation gives -/

omit [Std.TransOrd κ] [Std.LawfulEqOrd κ] in
@[simp] theorem get?_empty (k : κ) : (∅ : OrderedMap κ β).get? k = none := rfl

theorem get?_alter_self (m : OrderedMap κ β) (k : κ) (f : Option β → Option β) :
    (m.alter k f).get? k = f (m.get? k) := find?_alterEntries_self m.ascending

theorem get?_alter_of_ne (m : OrderedMap κ β) {k k' : κ} (f : Option β → Option β) (h : k' ≠ k) :
    (m.alter k f).get? k' = m.get? k' := find?_alterEntries_of_ne h m.ascending

theorem get?_alter [DecidableEq κ] (m : OrderedMap κ β) (k k' : κ) (f : Option β → Option β) :
    (m.alter k f).get? k' = if k' = k then f (m.get? k) else m.get? k' := by
  split
  · rename_i h; rw [h, get?_alter_self]
  · rename_i h; exact get?_alter_of_ne m f h

theorem get?_insert [DecidableEq κ] (m : OrderedMap κ β) (k k' : κ) (v : β) :
    (m.insert k v).get? k' = if k' = k then some v else m.get? k' := get?_alter m k k' _

theorem get?_erase [DecidableEq κ] (m : OrderedMap κ β) (k k' : κ) :
    (m.erase k).get? k' = if k' = k then none else m.get? k' := get?_alter m k k' _

omit [Std.TransOrd κ] [Std.LawfulEqOrd κ] in
theorem get?_mapValues {γ : Type} (m : OrderedMap κ β) (f : β → γ) (k : κ) :
    (m.mapValues f).get? k = (m.get? k).map f := by
  change find? k (m.entries.map fun e => (e.1, f e.2)) = (find? k m.entries).map f
  induction m.entries with
  | nil => rfl
  | cons e l ih =>
    rw [List.map_cons, find?, find?]
    cases compare k e.1 with
    | lt => rfl
    | eq => rfl
    | gt => exact ih

/-! ### Entries and values -/

theorem find?_eq_some_iff {k : κ} {v : β} : ∀ {l : List (κ × β)},
    (l.Pairwise fun a b => compare a.1 b.1 = .lt) → (find? k l = some v ↔ (k, v) ∈ l)
  | [], _ => by simp [find?]
  | (k', v') :: l, h => by
    obtain ⟨hk, hl⟩ := List.pairwise_cons.mp h
    rw [find?, List.mem_cons]
    split
    · rename_i hlt
      refine ⟨nofun, fun h => ?_⟩
      rcases h with h | h
      · exact absurd (Prod.mk.inj h).1 (ne_of_compare_lt hlt)
      · exact absurd rfl (ne_of_compare_lt (Std.TransCmp.lt_trans hlt (hk _ h)))
    · rename_i heq
      have hkk : k = k' := Std.LawfulEqOrd.eq_of_compare heq
      subst hkk
      refine ⟨fun h => Or.inl (by rw [Option.some.inj h]), fun h => ?_⟩
      rcases h with h' | h'
      · rw [(Prod.mk.inj h').2]
      · exact absurd (hk _ h') fun hlt => ne_of_compare_lt hlt rfl
    · rename_i hgt
      rw [find?_eq_some_iff hl]
      refine ⟨Or.inr, fun h => h.resolve_left fun h => ?_⟩
      exact absurd (Prod.mk.inj h).1.symm (ne_of_compare_lt (Std.OrientedCmp.lt_of_gt hgt))

theorem get?_eq_some_iff {m : OrderedMap κ β} {k : κ} {v : β} : m.get? k = some v ↔ (k, v) ∈ m.entries :=
  find?_eq_some_iff m.ascending

/-- A map is determined by what it gives for each key. -/
theorem ext_get? {m n : OrderedMap κ β} (h : ∀ k, m.get? k = n.get? k) : m = n := by
  have he : m.entries = n.entries :=
    eq_of_pairwise_of_mem_iff (fun _ ha => ne_of_compare_lt ha rfl) (fun _ _ _ => Std.TransCmp.lt_trans)
      m.ascending n.ascending fun e => by rw [← get?_eq_some_iff, ← get?_eq_some_iff, h]
  cases m; cases n; cases he; rfl

omit [Std.TransOrd κ] in
theorem keys_nodup (m : OrderedMap κ β) : (m.entries.map (·.1)).Nodup :=
  List.pairwise_map.mpr (m.ascending.imp ne_of_compare_lt)

end OrderedMap

end FiniteAutomata
