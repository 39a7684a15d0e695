import BlockLang.Proofs.Numeral
import BlockLang.Proofs.Relabeling.Basic
import BlockLang.Proofs.Resolution.Walk

/-!
# Printed expressions can be read back

A printed form stands in a longer text, so to read it back is to find two things: what was printed,
and where it ends (`Decodable`). Here this is settled for lists with separators and for expressions;
what is found of an expression is all but its positions.

Names are words, and so are literals: a word is made of characters that no mark, blank or bracket is
(`isWordChar`), so it ends where such a character comes. The sign of a negative literal counts as
part of the word. The operator of the same shape is no problem, since an operator stands between
blanks. What is left is that the outermost form of an expression shows at the start of its text
(`Expr.Shape.ofText_text`): a word can be told from another by its spelling, and the other
expressions start with a mark of their own. With that, reading back is an induction on the
expression (`Expr.decodable`).
-/

namespace BlockLang

/-! ### Names -/

/-- Whether a name may start with the character: with a letter, with an underscore, or with anything
outside ASCII. -/
def isNameStart (c : Char) : Bool := c.isAlpha || c = '_' || decide (128 ≤ c.toNat)

/-- Whether a name may go on with the character: digits may follow. -/
def isNameChar (c : Char) : Bool := isNameStart c || c.isDigit

/-- The words that are not names. -/
def keywords : List String :=
  ["int", "bool", "void", "error", "true", "false", "if", "else", "while", "return"]

/-- The spellings of the truth values. -/
def truths : List String := ["true", "false"]

theorem truths_subset_keywords : truths ⊆ keywords := by decide

/-- Whether the text is a name. -/
def isName (x : String) : Bool :=
  (match x.toList with
    | [] => false
    | c :: cs => isNameStart c && cs.all isNameChar) && !keywords.contains x

/-- Whether the character may occur in a name or in a literal. -/
def isWordChar (c : Char) : Bool := isNameChar c || c = '-'

theorem exists_toList_of_isName {x : String} (h : isName x = true) :
    ∃ c cs, x.toList = c :: cs ∧ isNameStart c = true ∧ ∀ d ∈ c :: cs, isWordChar d = true := by
  obtain ⟨hchars, -⟩ := Bool.and_eq_true_iff.1 h
  rcases hx : x.toList with - | ⟨c, cs⟩
  · rw [hx] at hchars
    cases hchars
  · rw [hx, Bool.and_eq_true_iff, List.all_eq_true] at hchars
    refine ⟨c, cs, rfl, hchars.1, List.forall_mem_cons.2 ⟨?_, fun d hd ↦ ?_⟩⟩
    · simp [isWordChar, isNameChar, hchars.1]
    · simp [isWordChar, hchars.2 d hd]

theorem notMem_keywords_of_isName {x : String} (h : isName x = true) : x ∉ keywords := by
  obtain ⟨-, hfree⟩ := Bool.and_eq_true_iff.1 h
  simpa using hfree

theorem word_of_isName {x : String} (h : isName x = true) :
    ∀ c ∈ x.toList, isWordChar c = true := by
  obtain ⟨c, cs, hx, -, hword⟩ := exists_toList_of_isName h
  rwa [hx]

theorem le_toNat_of_isNameStart {c : Char} (h : isNameStart c = true) : 65 ≤ c.toNat := by
  rw [isNameStart, Bool.or_eq_true, Bool.or_eq_true, decide_eq_true_eq, decide_eq_true_eq] at h
  rcases h with (h | rfl) | h
  · rcases Bool.or_eq_true_iff.1 h with h | h
    · exact UInt32.le_iff_toNat_le.1 (of_decide_eq_true h).1
    · have hlower : 97 ≤ c.toNat :=
        UInt32.le_iff_toNat_le.1 (of_decide_eq_true (Bool.and_eq_true_iff.1 h).1)
      omega
  · decide
  · omega

theorem isNameStart_of_isDigit {c : Char} (h : c.isDigit = true) : isNameStart c = false := by
  refine Bool.eq_false_iff.2 fun hstart ↦ absurd (le_toNat_of_isNameStart hstart) ?_
  simp only [Char.isDigit, Bool.and_eq_true, decide_eq_true_eq, UInt32.le_iff_toNat_le] at h
  exact Nat.not_le.2 (Nat.lt_of_le_of_lt h.2 (by decide))

/-! ### Where a word ends -/

/-- The text does not start with a character of a word. -/
def Stops (r : List Char) : Prop := ∀ c ∈ r.head?, isWordChar c = false

theorem stops_cons {c : Char} (h : isWordChar c = false) (r : List Char) : Stops (c :: r) :=
  fun _ hd ↦ Option.some.inj hd ▸ h

theorem takeWhile_append_of_stop {p : Char → Bool} {w r : List Char} (hw : ∀ c ∈ w, p c = true)
    (hr : ∀ c ∈ r.head?, p c = false) : (w ++ r).takeWhile p = w := by
  rw [List.takeWhile_append_of_pos hw]
  rcases r with - | ⟨c, r⟩
  · simp
  · rw [List.takeWhile_cons_of_neg (by simpa using hr c rfl), List.append_nil]

/-- Two texts that start alike start with the same word. -/
theorem append_inj_of_stop {p : Char → Bool} {w w' r r' : List Char} (hw : ∀ c ∈ w, p c = true)
    (hw' : ∀ c ∈ w', p c = true) (hr : ∀ c ∈ r.head?, p c = false)
    (hr' : ∀ c ∈ r'.head?, p c = false) (h : w ++ r = w' ++ r') : w = w' ∧ r = r' := by
  have hword : w = w' := by
    rw [← takeWhile_append_of_stop hw hr, h, takeWhile_append_of_stop hw' hr']
  exact ⟨hword, List.append_cancel_left (hword ▸ h)⟩

/-- The word with which the text starts; it may be empty. -/
def firstWord (t : List Char) : String := .ofList (t.takeWhile isWordChar)

/-- The character after the word with which the text starts. -/
def afterWord (t : List Char) : Option Char := (t.dropWhile isWordChar).head?

theorem firstWord_append {w : String} {r : List Char} (hw : ∀ c ∈ w.toList, isWordChar c = true)
    (hr : Stops r) : firstWord (w.toList ++ r) = w := by
  rw [firstWord, takeWhile_append_of_stop hw hr, String.ofList_toList]

theorem afterWord_append {w : String} {r : List Char} (hw : ∀ c ∈ w.toList, isWordChar c = true)
    (hr : Stops r) : afterWord (w.toList ++ r) = r.head? := by
  have hsplit := List.takeWhile_append_dropWhile (p := isWordChar) (l := w.toList ++ r)
  rw [takeWhile_append_of_stop hw hr] at hsplit
  rw [afterWord, List.append_cancel_left hsplit]

/-! ### Printed forms inside longer texts -/

/-- A reader who is given a text that starts with one of the printed forms, and goes on with a text
that may follow, can tell what was printed, as far as the key says, and where it ends. -/
def Decodable {α β : Type} (good : α → Prop) (text : α → List Char) (key : α → β)
    (follow : List Char → Prop) : Prop :=
  ∀ ⦃a b r r'⦄, good a → good b → follow r → follow r' → text a ++ r = text b ++ r' →
    key a = key b ∧ r = r'

/-- Printed forms with a comma before each. -/
def commasBefore {α : Type} (text : α → List Char) : List α → List Char
  | [] => []
  | a :: as => ',' :: ' ' :: (text a ++ commasBefore text as)

/-- Printed forms with commas between them. -/
def commas {α : Type} (text : α → List Char) : List α → List Char
  | [] => []
  | a :: as => text a ++ commasBefore text as

/-- The text goes on with a comma or with the closing character. -/
def Delimited (close : Char) (r : List Char) : Prop :=
  r.head? = some ',' ∨ r.head? = some close

theorem Delimited.stops {close : Char} (hclose : isWordChar close = false)
    (h : Delimited close r) : Stops r := by
  intro c hc
  rcases h with h | h <;> cases h.symm.trans hc
  · rfl
  · exact hclose

theorem delimited_commasBefore {α : Type} {text : α → List Char} {close : Char} (as : List α)
    (hr : r.head? = some close) : Delimited close (commasBefore text as ++ r) := by
  rcases as with - | ⟨a, as⟩
  · exact .inr hr
  · exact .inl rfl

theorem toList_intercalate_commas {α : Type} (text : α → String) (as : List α) :
    (", ".intercalate (as.map text)).toList = commas (fun a ↦ (text a).toList) as := by
  rw [String.toList_intercalate, List.map_map]
  rcases as with - | ⟨a, as⟩
  · rfl
  · rw [commas]
    induction as generalizing a with
    | nil => simp [commasBefore]
    | cons b as ih =>
      rw [List.map_cons, List.map_cons, List.intercalate_cons_cons, ← List.map_cons, ih,
        List.append_assoc]
      rfl

namespace Decodable

variable {α β : Type} {good : α → Prop} {text : α → List Char} {key : α → β}
  {follow : List Char → Prop} {close : Char}

/-- What can be read inside longer texts can be read alone. -/
theorem eq_of_text (h : Decodable good text key follow) (hnil : follow []) {a b : α}
    (ha : good a) (hb : good b) (heq : text a = text b) : key a = key b :=
  (h ha hb hnil hnil (congrArg (· ++ []) heq)).1

private theorem commasBefore (hclose : close ≠ ',')
    (h : Decodable good text key (Delimited close)) :
    Decodable (fun as : List α ↦ ∀ a ∈ as, good a) (commasBefore text) (List.map key)
      fun r ↦ r.head? = some close := by
  intro as bs r r' has hbs hr hr' heq
  induction as generalizing bs with
  | nil =>
    rcases bs with - | ⟨b, bs⟩
    · exact ⟨rfl, heq⟩
    · exact absurd (Option.some.inj (hr.symm.trans (congrArg List.head? heq))) hclose
  | cons a as ih =>
    rcases bs with - | ⟨b, bs⟩
    · exact absurd (Option.some.inj ((congrArg List.head? heq).trans hr')).symm hclose
    · obtain ⟨ha, has⟩ := List.forall_mem_cons.1 has
      obtain ⟨hb, hbs⟩ := List.forall_mem_cons.1 hbs
      simp only [BlockLang.commasBefore, List.cons_append, List.append_assoc, List.cons.injEq,
        true_and] at heq
      obtain ⟨hkey, hrest⟩ :=
        h ha hb (delimited_commasBefore as hr) (delimited_commasBefore bs hr') heq
      obtain ⟨hkeys, hr⟩ := ih has hbs hrest
      exact ⟨by rw [List.map_cons, List.map_cons, hkey, hkeys], hr⟩

/-- A list with commas between its elements can be read if its elements can, and if the character
that closes the list is not one with which an element starts. -/
theorem commas (hclose : close ≠ ',')
    (h : Decodable good text key (Delimited close))
    (hstart : ∀ a, good a → ∀ r, (text a ++ r).head? ≠ some close) :
    Decodable (fun as : List α ↦ ∀ a ∈ as, good a) (commas text) (List.map key)
      fun r ↦ r.head? = some close := by
  intro as bs r r' has hbs hr hr' heq
  rcases as with - | ⟨a, as⟩ <;> rcases bs with - | ⟨b, bs⟩
  · exact ⟨rfl, heq⟩
  · simp only [BlockLang.commas, List.nil_append, List.append_assoc] at heq
    exact absurd (heq ▸ hr) (hstart b (hbs b List.mem_cons_self) _)
  · simp only [BlockLang.commas, List.nil_append, List.append_assoc] at heq
    exact absurd (heq ▸ hr') (hstart a (has a List.mem_cons_self) _)
  · obtain ⟨ha, has⟩ := List.forall_mem_cons.1 has
    obtain ⟨hb, hbs⟩ := List.forall_mem_cons.1 hbs
    simp only [BlockLang.commas, List.append_assoc] at heq
    obtain ⟨hkey, hrest⟩ :=
      h ha hb (delimited_commasBefore as hr) (delimited_commasBefore bs hr') heq
    obtain ⟨hkeys, hr⟩ := Decodable.commasBefore hclose h has hbs hr hr' hrest
    exact ⟨by rw [List.map_cons, List.map_cons, hkey, hkeys], hr⟩

end Decodable

/-! ### Literals and operators -/

theorem toList_toString_natCast (n : Nat) :
    (toString (n : Int)).toList = Nat.toDigits 10 n := toList_toString_nat n

theorem toList_toString_negSucc (n : Nat) :
    (toString (Int.negSucc n)).toList = '-' :: Nat.toDigits 10 (n + 1) := by
  show ("-" ++ toString (n + 1)).toList = _
  rw [String.toList_append, toList_toString_nat]
  rfl

/-- A number is written in digits, after a sign if it is negative. -/
theorem exists_toList_toString (n : Int) :
    ∃ c cs, (toString n).toList = c :: cs ∧ isNameStart c = false ∧
      ∀ d ∈ c :: cs, isWordChar d = true := by
  have hword : ∀ d : Char, d.isDigit = true → isWordChar d = true :=
    fun d hd ↦ by simp [isWordChar, isNameChar, hd]
  cases n with
  | ofNat k =>
    obtain ⟨c, cs, hk⟩ := List.exists_cons_of_ne_nil (Nat.toDigits_ne_nil (n := k) (b := 10))
    have hdigits := isDigit_of_mem_toDigits_ten (n := k)
    rw [hk] at hdigits
    exact ⟨c, cs, (toList_toString_natCast k).trans hk,
      isNameStart_of_isDigit (hdigits c List.mem_cons_self), fun d hd ↦ hword d (hdigits d hd)⟩
  | negSucc k =>
    refine ⟨'-', _, toList_toString_negSucc k, by decide,
      List.forall_mem_cons.2 ⟨by decide, fun d hd ↦ hword d (isDigit_of_mem_toDigits_ten d hd)⟩⟩

theorem word_of_toString (n : Int) : ∀ c ∈ (toString n).toList, isWordChar c = true := by
  obtain ⟨c, cs, hn, -, hword⟩ := exists_toList_toString n
  rwa [hn]

theorem word_of_toString_bool (b : Bool) : ∀ c ∈ (toString b).toList, isWordChar c = true :=
  List.all_eq_true.1 (by cases b <;> decide)

theorem toString_notMem_keywords (n : Int) : toString n ∉ keywords := by
  have hkeywords : ∀ w ∈ keywords, w.toList.head?.any isNameStart = true := by decide
  obtain ⟨c, cs, hn, hstart, -⟩ := exists_toList_toString n
  intro hmem
  have hhead := hkeywords _ hmem
  rw [hn, List.head?_cons, Option.any_some, hstart] at hhead
  cases hhead

theorem toString_int_inj {m n : Int} (h : toString m = toString n) : m = n := by
  have hsign : ∀ j k : Nat, Nat.toDigits 10 j ≠ '-' :: Nat.toDigits 10 k := fun j k heq ↦
    absurd (isDigit_of_mem_toDigits_ten '-' (heq ▸ List.mem_cons_self)) (by decide)
  have hlist := congrArg String.toList h
  rcases m with j | j <;> rcases n with k | k
  · rw [Int.ofNat_eq_natCast, Int.ofNat_eq_natCast, toList_toString_natCast,
      toList_toString_natCast] at hlist
    rw [toDigits_ten_inj hlist]
  · rw [Int.ofNat_eq_natCast, toList_toString_natCast, toList_toString_negSucc] at hlist
    exact absurd hlist (hsign _ _)
  · rw [Int.ofNat_eq_natCast, toList_toString_natCast, toList_toString_negSucc] at hlist
    exact absurd hlist.symm (hsign _ _)
  · rw [toList_toString_negSucc, toList_toString_negSucc] at hlist
    rw [Nat.succ.inj (toDigits_ten_inj (List.cons.inj hlist).2)]

namespace BinaryOp

theorem symbol_inj {op op' : BinaryOp} (h : op.symbol = op'.symbol) : op = op' := by
  have hread : ∀ op : BinaryOp, ofSymbol? op.symbol = some op := fun op ↦ by cases op <;> rfl
  exact Option.some.inj ((hread op).symm.trans (h ▸ hread op'))

/-- An operator ends at the blank after it. -/
theorem symbol_append_inj {op op' : BinaryOp} {r r' : List Char}
    (h : op.symbol.toList ++ ' ' :: r = op'.symbol.toList ++ ' ' :: r') : op = op' ∧ r = r' := by
  have hblank : ∀ op : BinaryOp, ∀ c ∈ op.symbol.toList, (c != ' ') = true :=
    fun op ↦ List.all_eq_true.1 (by cases op <;> decide)
  have hstop : ∀ r : List Char, ∀ c ∈ (' ' :: r).head?, (c != ' ') = false :=
    fun r c hc ↦ by simp [← Option.some.inj hc]
  obtain ⟨hsymbol, hrest⟩ :=
    append_inj_of_stop (hblank op) (hblank op') (hstop r) (hstop r') h
  exact ⟨symbol_inj (String.toList_inj.1 hsymbol), (List.cons.inj hrest).2⟩

end BinaryOp

/-! ### Expressions -/

/-- All positions become the unknown one. -/
def Relabeling.anywhere : Relabeling := .ofPositions fun _ ↦ {}

namespace Expr

/-- The outermost form of an expression. -/
inductive Shape where
  /-- A number. -/
  | number
  /-- A truth value. -/
  | truth
  /-- The name of a variable. -/
  | name
  /-- A negation. -/
  | negation
  /-- An application in parentheses. -/
  | application

/-- The outermost form of the expression. -/
def shape : Expr → Shape
  | num _ _ => .number
  | bool _ _ => .truth
  | var _ _ => .name
  | not _ _ => .negation
  | binary _ _ _ _ => .application

theorem toList_text_not (p : Pos) (e : Expr) : (not p e).text.toList = '!' :: e.text.toList :=
  String.toList_append

theorem toList_text_binary (p : Pos) (op : BinaryOp) (l r : Expr) :
    (binary p op l r).text.toList =
      '(' :: (l.text.toList ++ ' ' :: (op.symbol.toList ++ ' ' :: (r.text.toList ++ [')']))) := by
  simp [text, String.toList_append]

namespace Shape

/-- What the word is, from its spelling alone. -/
def ofWord (w : String) : Shape :=
  if w ∈ truths then .truth
  else if w.toList.head?.any isNameStart then .name
  else .number

/-- The outermost form of the expression with which the text starts. -/
def ofText (t : List Char) : Shape :=
  if t.head? = some '!' then .negation
  else if t.head? = some '(' then .application
  else .ofWord (firstWord t)

theorem ofText_append {w : String} {r : List Char} (hne : w.toList ≠ [])
    (hw : ∀ c ∈ w.toList, isWordChar c = true) (hr : Stops r) :
    ofText (w.toList ++ r) = .ofWord w := by
  obtain ⟨c, cs, hcs⟩ := List.exists_cons_of_ne_nil hne
  have hc : isWordChar c = true := hw c (hcs ▸ List.mem_cons_self)
  have hhead : (w.toList ++ r).head? = some c := by rw [hcs]; rfl
  have hmark : ∀ d, isWordChar d = false → some c ≠ some d := by
    rintro d hd ⟨⟩
    rw [hc] at hd
    cases hd
  rw [ofText, hhead, if_neg (hmark _ (by decide)), if_neg (hmark _ (by decide)),
    firstWord_append hw hr]

theorem ofText_text {e : Expr} (he : ∀ x ∈ e.occurrences.map Prod.snd, isName x = true)
    {r : List Char} (hr : Stops r) : ofText (e.text.toList ++ r) = e.shape := by
  cases e with
  | num p v =>
    obtain ⟨c, cs, htext, hstart, hword⟩ := exists_toList_toString v.toInt
    have htruth : toString v.toInt ∉ truths :=
      fun hmem ↦ toString_notMem_keywords _ (truths_subset_keywords hmem)
    rw [text, ofText_append (htext ▸ List.cons_ne_nil c cs) (htext ▸ hword) hr, ofWord,
      if_neg htruth, htext, List.head?_cons, Option.any_some, hstart]
    rfl
  | bool p b =>
    rw [text, ofText_append (by cases b <;> decide) (word_of_toString_bool b) hr]
    cases b <;> rfl
  | var p x =>
    have hx : isName x = true := he x List.mem_cons_self
    obtain ⟨c, cs, htext, hstart, hword⟩ := exists_toList_of_isName hx
    have htruth : x ∉ truths :=
      fun hmem ↦ notMem_keywords_of_isName hx (truths_subset_keywords hmem)
    rw [text, ofText_append (htext ▸ List.cons_ne_nil c cs) (htext ▸ hword) hr, ofWord,
      if_neg htruth, htext, List.head?_cons, Option.any_some, hstart]
    rfl
  | not p e =>
    rw [toList_text_not]
    rfl
  | binary p op l r =>
    rw [toList_text_binary]
    rfl

/-- Expressions whose texts start alike have the same outermost form. -/
theorem eq_of_append {e e' : Expr} (he : ∀ x ∈ e.occurrences.map Prod.snd, isName x = true)
    (he' : ∀ x ∈ e'.occurrences.map Prod.snd, isName x = true) {r r' : List Char} (hr : Stops r)
    (hr' : Stops r') (h : e.text.toList ++ r = e'.text.toList ++ r') : e.shape = e'.shape := by
  rw [← ofText_text he hr, h, ofText_text he' hr']

end Shape

/-- An expression can be read if it ends where a word would. -/
theorem decodable :
    Decodable (fun e : Expr ↦ ∀ x ∈ e.occurrences.map Prod.snd, isName x = true)
      (fun e ↦ e.text.toList) (relabel .anywhere) Stops := by
  intro e e' t t' he he' ht ht' heq
  induction e generalizing e' t t' with
  | num p v =>
    have hshape := Shape.eq_of_append he he' ht ht' heq
    cases e' with
    | num p' v' =>
      obtain ⟨hword, hafter⟩ :=
        append_inj_of_stop (word_of_toString _) (word_of_toString _) ht ht' heq
      have hv : v = v' := Int32.toInt_inj.1 (toString_int_inj (String.toList_inj.1 hword))
      exact ⟨by rw [relabel, relabel, hv]; rfl, hafter⟩
    | _ => cases hshape
  | bool p b =>
    have hshape := Shape.eq_of_append he he' ht ht' heq
    cases e' with
    | bool p' b' =>
      obtain ⟨hword, hafter⟩ :=
        append_inj_of_stop (word_of_toString_bool b) (word_of_toString_bool b') ht ht' heq
      have hb : b = b' := by
        revert hword
        cases b <;> cases b' <;> decide
      exact ⟨by rw [relabel, relabel, hb]; rfl, hafter⟩
    | _ => cases hshape
  | var p x =>
    have hshape := Shape.eq_of_append he he' ht ht' heq
    cases e' with
    | var p' x' =>
      obtain ⟨hword, hafter⟩ := append_inj_of_stop (word_of_isName (he x List.mem_cons_self))
        (word_of_isName (he' x' List.mem_cons_self)) ht ht' heq
      exact ⟨by rw [relabel, relabel, String.toList_inj.1 hword]; rfl, hafter⟩
    | _ => cases hshape
  | not p e ih =>
    have hshape := Shape.eq_of_append he he' ht ht' heq
    cases e' with
    | not p' e' =>
      rw [occurrences] at he he'
      simp only [toList_text_not, List.cons_append, List.cons.injEq, true_and] at heq
      obtain ⟨hoperand, hafter⟩ := ih he he' ht ht' heq
      exact ⟨by rw [relabel, relabel, hoperand]; rfl, hafter⟩
    | _ => cases hshape
  | binary p op l r ihl ihr =>
    have hshape := Shape.eq_of_append he he' ht ht' heq
    cases e' with
    | binary p' op' l' r' =>
      rw [occurrences, List.map_append, List.forall_mem_append] at he he'
      simp only [toList_text_binary, List.cons_append, List.append_assoc, List.nil_append,
        List.cons.injEq, true_and] at heq
      have hblank : ∀ t, Stops (' ' :: t) := stops_cons (by decide)
      have hclose : ∀ t, Stops (')' :: t) := stops_cons (by decide)
      obtain ⟨hl, hafter⟩ := ihl he.1 he'.1 (hblank _) (hblank _) heq
      obtain ⟨hop, hafter⟩ := BinaryOp.symbol_append_inj (List.cons.inj hafter).2
      obtain ⟨hr, hafter⟩ := ihr he.2 he'.2 (hclose _) (hclose _) hafter
      exact ⟨by rw [relabel, relabel, hl, hr, hop]; rfl, (List.cons.inj hafter).2⟩
    | _ => cases hshape

end Expr

end BlockLang
