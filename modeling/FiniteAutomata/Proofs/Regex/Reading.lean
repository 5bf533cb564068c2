import FiniteAutomata.Proofs.Regex.Denotation
import FiniteAutomata.Regex.Text

/-!
Reading the text of an expression back. The reader takes one character after the other and keeps a frame for every
parenthesis that is open: the alternatives and the parts in sequence that are finished, and what there is of the next
part. A text is read as the expression it was written from, but for operators in a row, which are grouped from the
left (`read_text`). So expressions have the same text exactly if they differ in nothing but grouping (`text_eq_iff`).
-/

namespace FiniteAutomata

/-- The characters that operators and parentheses are written with. -/
def textMarks : List Char := ['+', '.', '(', ')', '*']

/-- A symbol whose name can stand in the text of an expression and be told from everything else in it. -/
structure Symbol.Legible (a : Symbol) : Prop where
  name_ne_empty : a.name ≠ ""
  unmarked : ∀ c ∈ a.name.toList, c ∉ textMarks
  name_ne_dollar : a.name ≠ "$"
  name_ne_epsilon : a.name ≠ "epsilon"

instance : DecidablePred Symbol.Legible := fun a =>
  decidable_of_iff
    (a.name ≠ "" ∧ (a.name.toList.all fun c => c ∉ textMarks) = true ∧ a.name ≠ "$" ∧ a.name ≠ "epsilon")
    ⟨fun ⟨hne, hall, hdollar, hepsilon⟩ => ⟨hne, by simpa using hall, hdollar, hepsilon⟩,
      fun h => ⟨h.name_ne_empty, by simpa using h.unmarked, h.name_ne_dollar, h.name_ne_epsilon⟩⟩

namespace Regex

variable {r r' s s' t : Regex}

def symbols : Regex → List Symbol
  | .empty => []
  | .epsilon => []
  | .symbol a => [a]
  | .union r s => r.symbols ++ s.symbols
  | .concat r s => r.symbols ++ s.symbols
  | .star r => r.symbols

/-! ### Grouping -/

/-- The expressions differ in nothing but the grouping of alternatives next to each other, and of parts in sequence. -/
inductive Reassociated : Regex → Regex → Prop
  | refl (r : Regex) : Reassociated r r
  | symm {r s : Regex} : Reassociated r s → Reassociated s r
  | trans {r s t : Regex} : Reassociated r s → Reassociated s t → Reassociated r t
  | unionAssoc (r s t : Regex) : Reassociated (.union (.union r s) t) (.union r (.union s t))
  | concatAssoc (r s t : Regex) : Reassociated (.concat (.concat r s) t) (.concat r (.concat s t))
  | union {r r' s s' : Regex} : Reassociated r r' → Reassociated s s' → Reassociated (.union r s) (.union r' s')
  | concat {r r' s s' : Regex} : Reassociated r r' → Reassociated s s' → Reassociated (.concat r s) (.concat r' s')
  | star {r r' : Regex} : Reassociated r r' → Reassociated (.star r) (.star r')

theorem Reassociated.language (h : Reassociated r s) : r.language = s.language := by
  induction h with
  | refl => rfl
  | symm _ ih => exact ih.symm
  | trans _ _ ih₁ ih₂ => exact ih₁.trans ih₂
  | unionAssoc => exact add_assoc ..
  | concatAssoc => exact mul_assoc ..
  | union _ _ ih₁ ih₂ => exact congrArg₂ (· + ·) ih₁ ih₂
  | concat _ _ ih₁ ih₂ => exact congrArg₂ (· * ·) ih₁ ih₂
  | star _ ih => exact congrArg KStar.kstar ih

theorem Reassociated.precedence (h : Reassociated r s) : r.precedence = s.precedence := by
  induction h with
  | symm _ ih => exact ih.symm
  | trans _ _ ih₁ ih₂ => exact ih₁.trans ih₂
  | refl => rfl
  | unionAssoc => rfl
  | concatAssoc => rfl
  | union => rfl
  | concat => rfl
  | star => rfl

theorem Reassociated.text (h : Reassociated r s) : r.text = s.text := by
  induction h with
  | refl => rfl
  | symm _ ih => exact ih.symm
  | trans _ _ ih₁ ih₂ => exact ih₁.trans ih₂
  | unionAssoc => simp only [Regex.text, String.append_assoc]
  | concatAssoc =>
    simp only [Regex.text, Regex.precedence, parenthesized, String.append_assoc, lt_irrefl, decide_false,
      Bool.false_eq_true, if_false]
  | union _ _ ih₁ ih₂ => rw [Regex.text, Regex.text, ih₁, ih₂]
  | concat h₁ h₂ ih₁ ih₂ => rw [Regex.text, Regex.text, ih₁, ih₂, h₁.precedence, h₂.precedence]
  | star _ ih => rw [Regex.text, Regex.text, ih]

/-! ### The reader -/

/-- The expression with a name: the two constants have names of their own, every other name is that of a symbol. -/
def ofName (cs : List Char) : Regex :=
  if cs = "$".toList then .empty else if cs = "epsilon".toList then .epsilon else .symbol ⟨String.ofList cs⟩

/-- What there is of a part: nothing, the letters of a name, or an expression in parentheses. -/
inductive ReadPart where
  | missing
  | letters (cs : List Char)
  | enclosed (r : Regex)
deriving DecidableEq

namespace ReadPart

def regex? : ReadPart → Option Regex
  | .missing => none
  | .letters cs => some (ofName cs)
  | .enclosed r => some r

def letter? (c : Char) : ReadPart → Option ReadPart
  | .missing => some (.letters [c])
  | .letters cs => some (.letters (cs ++ [c]))
  | .enclosed _ => none

def star? : ReadPart → Option ReadPart
  | .enclosed r => some (.enclosed (.star r))
  | _ => none

end ReadPart

/-- An expression together with what stands before it, if anything does. -/
def following (op : Regex → Regex → Regex) (before : Option Regex) (r : Regex) : Regex :=
  before.elim r fun q => op q r

/-- What has been read since a parenthesis was opened: the alternatives before the last plus, after them the parts
before the last point, after them the part at hand. -/
structure Frame where
  alternatives : Option Regex
  sequence : Option Regex
  part : ReadPart

namespace Frame

def start : Frame := ⟨none, none, .missing⟩

def inSequence (f : Frame) (r : Regex) : Regex := following .concat f.sequence r

def amongAlternatives (f : Frame) (r : Regex) : Regex := following .union f.alternatives r

/-- The parts since the last plus. -/
def sequence? (f : Frame) : Option Regex := f.part.regex?.map f.inSequence

/-- All that was read. -/
def regex? (f : Frame) : Option Regex := f.sequence?.map f.amongAlternatives

end Frame

/-- One character is read in the innermost frame. -/
def readChar : List Frame → Char → Option (List Frame)
  | f :: fs, '+' => f.regex?.map fun r => ⟨some r, none, .missing⟩ :: fs
  | f :: fs, '.' => f.sequence?.map fun r => ⟨f.alternatives, some r, .missing⟩ :: fs
  | f :: fs, '(' => if f.part = .missing then some (.start :: f :: fs) else none
  | f :: g :: fs, ')' => f.regex?.map fun r => { g with part := .enclosed r } :: fs
  | f :: fs, '*' => f.part.star?.map fun p => { f with part := p } :: fs
  | f :: fs, c => if c ∈ textMarks then none else (f.part.letter? c).map fun p => { f with part := p } :: fs
  | [], _ => none

def readChars (fs : List Frame) (cs : List Char) : Option (List Frame) := cs.foldlM readChar fs

/-- The expression with a text, if all parentheses match and no part is missing. -/
def read (text : String) : Option Regex :=
  match readChars [.start] text.toList with
  | some [f] => f.regex?
  | _ => none

variable {c : Char} {cs ds : List Char} {f g : Frame} {fs : List Frame}

@[simp] theorem readChars_nil : readChars fs [] = some fs := rfl

theorem readChars_cons : readChars fs (c :: cs) = (readChar fs c).bind fun gs => readChars gs cs :=
  List.foldlM_cons

theorem readChars_append : readChars fs (cs ++ ds) = (readChars fs cs).bind fun gs => readChars gs ds :=
  List.foldlM_append

theorem readChar_letter (hc : c ∉ textMarks) :
    readChar (f :: fs) c = (f.part.letter? c).map fun p => { f with part := p } :: fs := by
  simp only [textMarks, List.mem_cons, List.not_mem_nil, or_false, not_or] at hc
  obtain ⟨hplus, hpoint, hopen, hclose, hstar⟩ := hc
  unfold readChar
  split <;> simp_all [textMarks]

/-! ### What the texts are read as -/

/-- Where a part may begin, the characters are read as parts in sequence, which make up the expression. -/
def ReadsSequence (cs : List Char) (r : Regex) : Prop :=
  ∀ (f : Frame) (fs : List Frame), f.part = .missing → ∃ g q, readChars (f :: fs) cs = some (g :: fs) ∧
    g.alternatives = f.alternatives ∧ g.sequence? = some q ∧ Reassociated q (f.inSequence r)

/-- Where an alternative may begin, the characters are read as alternatives, which make up the expression. -/
def ReadsWhole (cs : List Char) (r : Regex) : Prop :=
  ∀ (f : Frame) (fs : List Frame), f.part = .missing → f.sequence = none → ∃ g q,
    readChars (f :: fs) cs = some (g :: fs) ∧ g.regex? = some q ∧ Reassociated q (f.amongAlternatives r)

section Following
variable {op : Regex → Regex → Regex} {before : Option Regex}
  (congr : ∀ {r r' s s'}, Reassociated r r' → Reassociated s s' → Reassociated (op r s) (op r' s'))
include congr

theorem Reassociated.following (h : Reassociated r s) : Reassociated (following op before r) (following op before s) := by
  cases before with
  | none => exact h
  | some q => exact congr (.refl q) h

/-- What stands before an operator's operands may be grouped with the first of them. -/
theorem Reassociated.op_following (assoc : ∀ r s t, Reassociated (op (op r s) t) (op r (op s t)))
    (h : Reassociated t (Regex.following op before r)) (s : Regex) :
    Reassociated (op t s) (Regex.following op before (op r s)) := by
  cases before with
  | none => exact congr h (.refl s)
  | some q => exact (congr h (.refl s)).trans (assoc q r s)

end Following

theorem readChars_letters (hds : ∀ c ∈ ds, c ∉ textMarks) (hf : f.part = .letters cs) :
    readChars (f :: fs) ds = some ({ f with part := .letters (cs ++ ds) } :: fs) := by
  induction ds generalizing f cs with
  | nil => rw [List.append_nil, ← hf, readChars_nil]
  | cons d ds ih =>
    obtain ⟨hd, hds⟩ := List.forall_mem_cons.mp hds
    rw [readChars_cons, readChar_letter hd, hf]
    simp only [ReadPart.letter?, Option.map_some, Option.bind_some]
    rw [ih hds rfl, List.append_assoc, List.singleton_append]

theorem readsSequence_name (hne : cs ≠ []) (hcs : ∀ c ∈ cs, c ∉ textMarks) : ReadsSequence cs (ofName cs) := by
  intro f fs hf
  obtain ⟨d, ds, rfl⟩ := List.exists_cons_of_ne_nil hne
  obtain ⟨hd, hds⟩ := List.forall_mem_cons.mp hcs
  refine ⟨{ f with part := .letters (d :: ds) }, f.inSequence (ofName (d :: ds)), ?_, rfl, rfl, .refl _⟩
  rw [readChars_cons, readChar_letter hd, hf]
  exact readChars_letters (f := { f with part := .letters [d] }) hds rfl

/-- Parts in sequence are a whole of one alternative. -/
theorem ReadsSequence.whole (h : ReadsSequence cs r) : ReadsWhole cs r := by
  intro f fs hf hseq
  obtain ⟨g, q, hrun, halt, hg, hq⟩ := h f fs hf
  refine ⟨g, f.amongAlternatives q, hrun, ?_, ?_⟩
  · rw [Frame.regex?, hg, Option.map_some, Frame.amongAlternatives, Frame.amongAlternatives, halt]
  · rw [Frame.inSequence, hseq] at hq
    exact hq.following .union

/-- Parentheses make one part of a whole. -/
theorem ReadsWhole.enclosed (h : ReadsWhole cs r) (hf : f.part = .missing) (fs : List Frame) : ∃ q,
    readChars (f :: fs) ('(' :: (cs ++ [')'])) = some ({ f with part := .enclosed q } :: fs) ∧ Reassociated q r := by
  obtain ⟨g, q, hrun, hg, hq⟩ := h .start (f :: fs) rfl rfl
  refine ⟨q, ?_, hq⟩
  rw [readChars_cons, readChar, if_pos hf, Option.bind_some, readChars_append, hrun, Option.bind_some, readChars_cons,
    readChar, hg]
  rfl

theorem ReadsWhole.sequence (h : ReadsWhole cs r) : ReadsSequence ('(' :: (cs ++ [')'])) r := by
  intro f fs hf
  obtain ⟨q, hrun, hq⟩ := h.enclosed hf fs
  exact ⟨_, _, hrun, rfl, rfl, hq.following .concat⟩

theorem ReadsWhole.star (h : ReadsWhole cs r) : ReadsSequence ('(' :: (cs ++ [')', '*'])) (.star r) := by
  intro f fs hf
  obtain ⟨q, hrun, hq⟩ := h.enclosed hf fs
  refine ⟨{ f with part := .enclosed (.star q) }, _, ?_, rfl, rfl, (Reassociated.star hq).following .concat⟩
  have hsplit : '(' :: (cs ++ [')', '*']) = '(' :: (cs ++ [')']) ++ ['*'] := by simp
  rw [hsplit, readChars_append, hrun]
  rfl

theorem ReadsSequence.concat (h₁ : ReadsSequence cs r) (h₂ : ReadsSequence ds s) :
    ReadsSequence (cs ++ '.' :: ds) (.concat r s) := by
  intro f fs hf
  obtain ⟨g, q, hrun, halt, hg, hq⟩ := h₁ f fs hf
  obtain ⟨g', q', hrun', halt', hg', hq'⟩ := h₂ ⟨g.alternatives, some q, .missing⟩ fs rfl
  refine ⟨g', q', ?_, halt'.trans halt, hg', hq'.trans (hq.op_following .concat .concatAssoc s)⟩
  rw [readChars_append, hrun, Option.bind_some, readChars_cons, readChar, hg]
  exact hrun'

theorem ReadsWhole.union (h₁ : ReadsWhole cs r) (h₂ : ReadsWhole ds s) : ReadsWhole (cs ++ '+' :: ds) (.union r s) := by
  intro f fs hf hseq
  obtain ⟨g, q, hrun, hg, hq⟩ := h₁ f fs hf hseq
  obtain ⟨g', q', hrun', hg', hq'⟩ := h₂ ⟨some q, none, .missing⟩ fs rfl rfl
  refine ⟨g', q', ?_, hg', hq'.trans (hq.op_following .union .unionAssoc s)⟩
  rw [readChars_append, hrun, Option.bind_some, readChars_cons, readChar, hg]
  exact hrun'

theorem readsSequence_symbol {a : Symbol} (ha : a.Legible) : ReadsSequence a.name.toList (.symbol a) := by
  have hofName : ofName a.name.toList = .symbol a := by
    rw [ofName, if_neg fun h => ha.name_ne_dollar (String.toList_injective h),
      if_neg fun h => ha.name_ne_epsilon (String.toList_injective h), String.ofList_toList]
  have hne : a.name.toList ≠ [] := fun h => ha.name_ne_empty (String.toList_eq_nil_iff.mp h)
  exact hofName ▸ readsSequence_name hne ha.unmarked

theorem toList_text_union (r s : Regex) : (union r s).text.toList = r.text.toList ++ '+' :: s.text.toList := by
  simp [text]

/-- The text of an operand in a sequence. -/
def operandText (r : Regex) : String := parenthesized (r.precedence < 1) r.text

theorem toList_text_concat (r s : Regex) :
    (concat r s).text.toList = r.operandText.toList ++ '.' :: s.operandText.toList := by
  simp [text, operandText]

theorem toList_text_star (r : Regex) : (star r).text.toList = '(' :: (r.text.toList ++ [')', '*']) := by
  simp [text]

theorem toList_operandText_union (r s : Regex) :
    (union r s).operandText.toList = '(' :: ((union r s).text.toList ++ [')']) := by
  simp [operandText, parenthesized, precedence]

/-- The text of an expression is read as that expression, and as an operand it is read as one part or more. -/
theorem reads_text (hr : ∀ a ∈ r.symbols, a.Legible) :
    ReadsWhole r.text.toList r ∧ ReadsSequence r.operandText.toList r := by
  induction r with
  | empty =>
    have h : ReadsSequence "$".toList .empty := readsSequence_name (by decide) (by simp [textMarks])
    exact ⟨h.whole, h⟩
  | epsilon =>
    have h : ReadsSequence "epsilon".toList .epsilon := readsSequence_name (by decide) (by simp [textMarks])
    exact ⟨h.whole, h⟩
  | symbol a =>
    have h := readsSequence_symbol (hr a (List.mem_singleton_self a))
    exact ⟨h.whole, h⟩
  | union r s ihr ihs =>
    obtain ⟨hr, hs⟩ := List.forall_mem_append.mp hr
    have h : ReadsWhole (union r s).text.toList (.union r s) := toList_text_union r s ▸ (ihr hr).1.union (ihs hs).1
    exact ⟨h, toList_operandText_union r s ▸ h.sequence⟩
  | concat r s ihr ihs =>
    obtain ⟨hr, hs⟩ := List.forall_mem_append.mp hr
    have h : ReadsSequence (concat r s).text.toList (.concat r s) :=
      toList_text_concat r s ▸ (ihr hr).2.concat (ihs hs).2
    exact ⟨h.whole, h⟩
  | star r ih =>
    have h : ReadsSequence (star r).text.toList (.star r) := toList_text_star r ▸ (ih hr).1.star
    exact ⟨h.whole, h⟩

/-- The reader finds the expression again, grouped from the left. -/
theorem read_text (hr : ∀ a ∈ r.symbols, a.Legible) : ∃ q, read r.text = some q ∧ Reassociated q r := by
  obtain ⟨g, q, hrun, hg, hq⟩ := (reads_text hr).1 .start [] rfl rfl
  refine ⟨q, ?_, hq⟩
  rw [read, hrun]
  exact hg

/-- Expressions have the same text exactly if they differ only in the grouping of alternatives and of parts in sequence,
and then they denote the same language. -/
theorem text_eq_iff (hr : ∀ a ∈ r.symbols, a.Legible) (hs : ∀ a ∈ s.symbols, a.Legible) :
    (r.text = s.text ↔ Reassociated r s) ∧ (r.text = s.text → r.language = s.language) := by
  have hread : r.text = s.text → Reassociated r s := fun h => by
    obtain ⟨q, hq, hqr⟩ := read_text hr
    obtain ⟨q', hq', hqs⟩ := read_text hs
    rw [h, hq'] at hq
    cases hq
    exact hqr.symm.trans hqs
  exact ⟨⟨hread, Reassociated.text⟩, fun h => (hread h).language⟩

def groupedLeft : Regex :=
  .union (.union .empty (.symbol ⟨"a"⟩))
    (.concat (.concat (.star (.union (.symbol ⟨"a"⟩) .epsilon)) (.union (.symbol ⟨"b"⟩) .epsilon)) (.symbol ⟨"a"⟩))

def groupedRight : Regex :=
  .union .empty (.union (.symbol ⟨"a"⟩)
    (.concat (.star (.union (.symbol ⟨"a"⟩) .epsilon)) (.concat (.union (.symbol ⟨"b"⟩) .epsilon) (.symbol ⟨"a"⟩))))

theorem grouped_same_text : groupedLeft.text = "$+a+(a+epsilon)*.(b+epsilon).a" ∧
    groupedLeft.text = groupedRight.text ∧ groupedLeft ≠ groupedRight ∧ Reassociated groupedLeft groupedRight ∧
    groupedLeft.language = groupedRight.language := by
  have hsame : groupedLeft.text = groupedRight.text := by decide
  have h := text_eq_iff (r := groupedLeft) (s := groupedRight) (by decide) (by decide)
  exact ⟨by decide, hsame, by decide, h.1.mp hsame, h.2 hsame⟩

-- a name that holds an operator hides it
example : (symbol ⟨"a+b"⟩).text = (union (symbol ⟨"a"⟩) (symbol ⟨"b"⟩)).text := by decide

end Regex

end FiniteAutomata
