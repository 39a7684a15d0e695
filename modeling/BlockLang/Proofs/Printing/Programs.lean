import BlockLang.Proofs.Lowering.Presentation
import BlockLang.Proofs.Printing.Expressions

/-!
# Printed programs can be read back

A program, a statement and an expression are determined by their printed form, up to positions
(`Program.relabel_anywhere_eq_of_text`), as long as names are names.

Everything printed here ends with a character of its own, or is followed by one that cannot belong
to it, so each layer can be read inside a longer text once the layers below it can. Two more
questions come up on the way. Which statement comes next shows in the word at the start of the text
and the character after that word (`Block.Shape.ofText`); the same holds for whether a conditional
goes on with an `else`, since no statement starts with that word. And a declaration among the
globals can be told from the function by what stands after the first name
(`Function.text_append_ne`).
-/

namespace BlockLang

/-! ### Types and declared names -/

/-- The words that name a type. -/
def typeWords : List String := ["int", "bool", "void", "error"]

namespace Ty

theorem name_mem_typeWords (t : Ty) : t.name ∈ typeWords := by cases t <;> decide

theorem name_inj {t t' : Ty} (h : t.name = t'.name) : t = t' := by
  revert h
  cases t <;> cases t' <;> decide

theorem word_of_name (t : Ty) : ∀ c ∈ t.name.toList, isWordChar c = true :=
  List.all_eq_true.1 (by cases t <;> decide)

/-- A type ends at the blank after it. -/
theorem name_append_inj {t t' : Ty} {r r' : List Char}
    (h : t.name.toList ++ ' ' :: r = t'.name.toList ++ ' ' :: r') : t = t' ∧ r = r' := by
  have hblank : ∀ r, Stops (' ' :: r) := stops_cons (by decide)
  obtain ⟨hname, hrest⟩ :=
    append_inj_of_stop t.word_of_name t'.word_of_name (hblank r) (hblank r') h
  exact ⟨name_inj (String.toList_inj.1 hname), (List.cons.inj hrest).2⟩

end Ty

/-- A name ends where a word does. -/
theorem name_append_inj {x x' : String} (hx : isName x = true) (hx' : isName x' = true)
    {r r' : List Char} (hr : Stops r) (hr' : Stops r')
    (h : x.toList ++ r = x'.toList ++ r') : x = x' ∧ r = r' := by
  obtain ⟨hname, hrest⟩ := append_inj_of_stop (word_of_isName hx) (word_of_isName hx') hr hr' h
  exact ⟨String.toList_inj.1 hname, hrest⟩

theorem head?_of_isName {x : String} (hx : isName x = true) {c : Char} (hc : isWordChar c = false)
    (r : List Char) : (x.toList ++ r).head? ≠ some c := by
  obtain ⟨d, ds, hd, -, hword⟩ := exists_toList_of_isName hx
  rw [hd, List.cons_append, List.head?_cons]
  rintro ⟨⟩
  exact absurd (hword c List.mem_cons_self) (by simp [hc])

/-! ### Optional expressions -/

/-- The text of an expression after a blank and a mark, or nothing. -/
def optionalText (mark : String) : Option Expr → List Char
  | none => []
  | some e => ' ' :: (mark.toList ++ e.text.toList)

theorem stops_optionalText (mark : String) (i : Option Expr) {r : List Char}
    (hr : Delimited ';' r) : Stops (optionalText mark i ++ r) := by
  cases i with
  | none => exact hr.stops (by decide)
  | some e => exact stops_cons (by decide) _

theorem decodable_optionalText (mark : String) :
    Decodable (fun i : Option Expr ↦ ∀ x ∈ i.toList.flatMap fun e ↦ e.occurrences.map Prod.snd,
      isName x = true) (optionalText mark) (Option.map (Expr.relabel .anywhere))
      (Delimited ';') := by
  -- the blank before an expression shows that there is one
  have hblank : ∀ e r, ¬ Delimited ';' (optionalText mark (some e) ++ r) := by
    rintro e r (h | h) <;> cases h
  intro i i' r r' hi hi' hr hr' heq
  rcases i with - | e <;> rcases i' with - | e'
  · exact ⟨rfl, heq⟩
  · exact absurd (heq ▸ hr) (hblank e' r')
  · exact absurd (heq ▸ hr') (hblank e r)
  · rw [Option.toList_some, List.flatMap_singleton] at hi hi'
    simp only [optionalText, List.cons_append, List.append_assoc, List.cons.injEq, true_and,
      List.append_cancel_left_eq] at heq
    obtain ⟨he, hrest⟩ :=
      Expr.decodable hi hi' (hr.stops (by decide)) (hr'.stops (by decide)) heq
    exact ⟨congrArg some he, hrest⟩

/-! ### Declarations -/

namespace Declarator

/-- The names in a declaration of a variable. -/
def spellings (v : Declarator) : List String :=
  v.name :: v.init.toList.flatMap fun e ↦ e.occurrences.map Prod.snd

theorem toList_text (v : Declarator) :
    v.text.toList = v.name.toList ++ optionalText "= " v.init := by
  rw [text]
  cases v.init <;> simp [optionalText]

theorem decodable :
    Decodable (fun v : Declarator ↦ ∀ x ∈ v.spellings, isName x = true) (fun v ↦ v.text.toList)
      (relabel .anywhere) (Delimited ';') := by
  intro v v' r r' hv hv' hr hr' heq
  obtain ⟨hname, hinit⟩ := List.forall_mem_cons.1 hv
  obtain ⟨hname', hinit'⟩ := List.forall_mem_cons.1 hv'
  simp only [toList_text, List.append_assoc] at heq
  obtain ⟨hx, hrest⟩ :=
    name_append_inj hname hname' (stops_optionalText _ _ hr) (stops_optionalText _ _ hr') heq
  obtain ⟨hi, hrest⟩ := decodable_optionalText "= " hinit hinit' hr hr' hrest
  exact ⟨by rw [relabel, relabel, hx, hi]; rfl, hrest⟩

end Declarator

namespace Declaration

/-- The names in a declaration. -/
def spellings (d : Declaration) : List String := d.vars.flatMap Declarator.spellings

theorem text_append (d : Declaration) (r : List Char) :
    d.text.toList ++ r =
      d.ty.name.toList ++ ' ' :: (commas (fun v ↦ v.text.toList) d.vars ++ ';' :: r) := by
  simp only [text, String.toList_append, toList_intercalate_commas, List.append_assoc]
  rfl

theorem decodable_vars :
    Decodable (fun vs : List Declarator ↦ ∀ v ∈ vs, ∀ x ∈ v.spellings, isName x = true)
      (commas fun v ↦ v.text.toList) (List.map (Declarator.relabel .anywhere))
      fun r ↦ r.head? = some ';' := by
  refine Declarator.decodable.commas (by decide) fun v hv r ↦ ?_
  rw [Declarator.toList_text, List.append_assoc]
  exact head?_of_isName (hv _ List.mem_cons_self) (by decide) _

/-- After the first name of a declaration comes no parenthesis. -/
theorem afterWord_vars_ne {vs : List Declarator}
    (hvs : ∀ v ∈ vs, ∀ x ∈ v.spellings, isName x = true) (r : List Char) :
    some '(' ≠ afterWord (commas (fun v ↦ v.text.toList) vs ++ ';' :: r) := by
  rcases vs with - | ⟨v, vs⟩
  · exact (by decide : some '(' ≠ some ';')
  · have hname : isName v.name = true := hvs v List.mem_cons_self _ List.mem_cons_self
    have hrest : Delimited ';' (commasBefore (fun v ↦ v.text.toList) vs ++ ';' :: r) :=
      delimited_commasBefore vs rfl
    rw [commas, List.append_assoc, Declarator.toList_text, List.append_assoc,
      afterWord_append (word_of_isName hname) (stops_optionalText _ _ hrest)]
    cases v.init with
    | none =>
      rw [optionalText, List.nil_append]
      rcases hrest with hrest | hrest <;> rw [hrest] <;> decide
    | some e => exact (by decide : some '(' ≠ some ' ')

/-- A declaration ends at its semicolon. -/
theorem decodable :
    Decodable (fun d : Declaration ↦ ∀ x ∈ d.spellings, isName x = true) (fun d ↦ d.text.toList)
      (relabel .anywhere) fun _ ↦ True := by
  intro d d' r r' hd hd' _ _ heq
  rw [spellings, List.forall_mem_flatMap] at hd hd'
  simp only [text_append] at heq
  obtain ⟨hty, hrest⟩ := Ty.name_append_inj heq
  obtain ⟨hvars, hrest⟩ := decodable_vars hd hd' rfl rfl hrest
  exact ⟨by rw [relabel, relabel, hty, hvars]; rfl, (List.cons.inj hrest).2⟩

end Declaration

/-! ### Statements -/

/-- The words that name a type or open a part of a statement. -/
def openers : List String := typeWords ++ ["return", "if", "while", "else"]

theorem openers_subset_keywords : openers ⊆ keywords := by decide

/-- The word with which an expression starts opens no other statement, and what comes after it is a
mark of the expression or what follows the expression. -/
theorem Expr.start_text {e : Expr} (he : ∀ x ∈ e.occurrences.map Prod.snd, isName x = true)
    {r : List Char} (hr : Stops r) :
    firstWord (e.text.toList ++ r) ∉ openers ∧
      afterWord (e.text.toList ++ r) ∈ [r.head?, some '!', some '('] := by
  have hword : ∀ w : String, (∀ c ∈ w.toList, isWordChar c = true) → w ∉ openers →
      firstWord (w.toList ++ r) ∉ openers ∧
        afterWord (w.toList ++ r) ∈ [r.head?, some '!', some '('] := by
    intro w hw hopeners
    rw [firstWord_append hw hr, afterWord_append hw hr]
    exact ⟨hopeners, List.mem_cons_self⟩
  have hmark : ∀ c : Char, c = '!' ∨ c = '(' → ∀ t,
      firstWord (c :: t) ∉ openers ∧ afterWord (c :: t) ∈ [r.head?, some '!', some '('] := by
    rintro c (rfl | rfl) t
    · exact ⟨(by decide : "" ∉ openers), .tail _ List.mem_cons_self⟩
    · exact ⟨(by decide : "" ∉ openers), .tail _ (.tail _ List.mem_cons_self)⟩
  cases e with
  | num p v =>
    exact hword _ (word_of_toString _)
      fun h ↦ toString_notMem_keywords _ (openers_subset_keywords h)
  | bool p b => exact hword (toString b) (word_of_toString_bool b) (by cases b <;> decide)
  | var p x =>
    have hx := he x List.mem_cons_self
    exact hword x (word_of_isName hx)
      fun h ↦ notMem_keywords_of_isName hx (openers_subset_keywords h)
  | not p e => exact toList_text_not p e ▸ hmark _ (.inl rfl) _
  | binary p op l r => exact toList_text_binary p op l r ▸ hmark _ (.inr rfl) _

namespace Simple

/-- The kind of a statement without inner blocks. -/
inductive Shape where
  /-- A declaration. -/
  | declaration
  /-- An assignment. -/
  | assignment
  /-- A return. -/
  | result
  /-- An expression. -/
  | expression

/-- The kind of the statement. -/
def shape : Simple → Shape
  | declare _ => .declaration
  | assign _ _ _ => .assignment
  | ret _ _ => .result
  | eval _ _ => .expression

end Simple

/-- What can come next in the text of a block. -/
inductive Block.Shape where
  /-- A statement without inner blocks. -/
  | simple (s : Simple.Shape)
  /-- A conditional. -/
  | conditional
  /-- A loop. -/
  | loop
  /-- The part of a conditional for a false condition. -/
  | alternative
  /-- The end of the block. -/
  | closing

namespace Block.Shape

/-- What comes next when a text starts with the word and then has the character. -/
def ofWord (w : String) (next : Option Char) : Shape :=
  if w ∈ typeWords then .simple .declaration
  else if w = "return" then .simple .result
  else if w = "if" then .conditional
  else if w = "while" then .loop
  else if w = "else" then .alternative
  else if next = some '}' then .closing
  else if next = some ' ' then .simple .assignment
  else .simple .expression

/-- What comes next in the text. -/
def ofText (t : List Char) : Shape := ofWord (firstWord t) (afterWord t)

theorem ofText_append {w : String} {r : List Char} (hw : ∀ c ∈ w.toList, isWordChar c = true)
    (hr : Stops r) : ofText (w.toList ++ r) = ofWord w r.head? := by
  rw [ofText, firstWord_append hw hr, afterWord_append hw hr]

/-- Any other word is the start of an expression, or the target of an assignment. -/
theorem ofWord_of_notMem {w : String} (h : w ∉ openers) {next : Option Char}
    (hnext : next ≠ some '}') :
    ofWord w next = .simple (if next = some ' ' then .assignment else .expression) := by
  simp only [openers, List.mem_append, List.mem_cons, List.not_mem_nil, or_false, not_or] at h
  obtain ⟨htype, hreturn, hif, hwhile, helse⟩ := h
  rw [ofWord, if_neg htype, if_neg hreturn, if_neg hif, if_neg hwhile, if_neg helse, if_neg hnext]
  split <;> rfl

end Block.Shape

namespace Simple

theorem text_assign_append (p : Pos) (x : String) (e : Expr) (r : List Char) :
    (assign p x e).text.toList ++ r =
      x.toList ++ ' ' :: '=' :: ' ' :: (e.text.toList ++ ';' :: r) := by
  simp [text]

theorem text_return_append (p : Pos) (value : Option Expr) (r : List Char) :
    (ret p value).text.toList ++ r = "return".toList ++ (optionalText "" value ++ ';' :: r) := by
  cases value <;> simp [text, optionalText]

theorem text_eval_append (p : Pos) (e : Expr) (r : List Char) :
    (eval p e).text.toList ++ r = e.text.toList ++ ';' :: r := by
  simp [text]

theorem spellings_assign (p : Pos) (x : String) (e : Expr) :
    (assign p x e).spellings = e.occurrences.map Prod.snd ++ [x] := by
  simp [spellings, names, occurrences]

theorem spellings_return (p : Pos) (value : Option Expr) :
    (ret p value).spellings = value.toList.flatMap fun e ↦ e.occurrences.map Prod.snd :=
  List.map_flatMap

theorem spellings_subset_declare (d : Declaration) : d.spellings ⊆ (declare d).spellings := by
  intro x hx
  obtain ⟨v, hv, hx⟩ := List.mem_flatMap.1 hx
  rcases List.mem_cons.1 hx with rfl | hx
  · exact List.mem_append_left _ (List.mem_map_of_mem hv)
  · obtain ⟨e, he, hx⟩ := List.mem_flatMap.1 hx
    obtain ⟨u, hu, rfl⟩ := List.mem_map.1 hx
    have hexpr : e ∈ d.exprs := List.mem_filterMap.2 ⟨v, hv, Option.mem_toList.1 he⟩
    exact List.mem_append_right _ (List.mem_map_of_mem (List.mem_flatMap.2 ⟨e, hexpr, hu⟩))

/-- The kind of a statement shows at the start of its text. -/
theorem ofText_text {a : Simple} (ha : ∀ x ∈ a.spellings, isName x = true) (r : List Char) :
    Block.Shape.ofText (a.text.toList ++ r) = .simple a.shape := by
  have hblank : ∀ r, Stops (' ' :: r) := stops_cons (by decide)
  have hsemicolon : ∀ r, Stops (';' :: r) := stops_cons (by decide)
  cases a with
  | declare d =>
    rw [text, Declaration.text_append, Block.Shape.ofText_append d.ty.word_of_name (hblank _),
      Block.Shape.ofWord, if_pos d.ty.name_mem_typeWords]
    rfl
  | assign p x e =>
    have hx : isName x = true := ha x (by simp [spellings_assign])
    have hopeners : x ∉ openers :=
      fun h ↦ notMem_keywords_of_isName hx (openers_subset_keywords h)
    rw [text_assign_append, Block.Shape.ofText_append (word_of_isName hx) (hblank _),
      Block.Shape.ofWord_of_notMem hopeners (by simp)]
    rfl
  | ret p value =>
    have hword : ∀ c ∈ "return".toList, isWordChar c = true := List.all_eq_true.1 (by decide)
    rw [text_return_append, Block.Shape.ofText_append hword (stops_optionalText _ _ (.inr rfl))]
    rfl
  | eval p e =>
    obtain ⟨hopeners, hafter⟩ := Expr.start_text ha (hsemicolon r)
    have hnext : ∀ next ∈ [some ';', some '!', some '('], next ≠ some '}' ∧ next ≠ some ' ' := by
      decide
    obtain ⟨hbrace, hno⟩ := hnext _ hafter
    rw [text_eval_append, Block.Shape.ofText, Block.Shape.ofWord_of_notMem hopeners hbrace,
      if_neg hno]
    rfl

/-- A statement without inner blocks ends at its semicolon. -/
theorem decodable :
    Decodable (fun a : Simple ↦ ∀ x ∈ a.spellings, isName x = true) (fun a ↦ a.text.toList)
      (relabel .anywhere) fun _ ↦ True := by
  intro a a' r r' ha ha' _ _ heq
  have hshape : Block.Shape.simple a.shape = .simple a'.shape := by
    rw [← ofText_text ha r, heq, ofText_text ha' r']
  have hsemicolon : ∀ r, Stops (';' :: r) := stops_cons (by decide)
  cases a with
  | declare d =>
    cases a' with
    | declare d' =>
      obtain ⟨hd, hrest⟩ := Declaration.decodable (fun x hx ↦ ha x (spellings_subset_declare d hx))
        (fun x hx ↦ ha' x (spellings_subset_declare d' hx)) trivial trivial heq
      exact ⟨congrArg declare hd, hrest⟩
    | _ => cases hshape
  | assign p x e =>
    cases a' with
    | assign p' x' e' =>
      rw [spellings_assign, List.forall_mem_append, List.forall_mem_singleton] at ha ha'
      simp only [text_assign_append] at heq
      have hblank : ∀ r, Stops (' ' :: r) := stops_cons (by decide)
      obtain ⟨hx, hrest⟩ := name_append_inj ha.2 ha'.2 (hblank _) (hblank _) heq
      simp only [List.cons.injEq, true_and] at hrest
      obtain ⟨he, hrest⟩ := Expr.decodable ha.1 ha'.1 (hsemicolon _) (hsemicolon _) hrest
      exact ⟨by rw [relabel, relabel, hx, he]; rfl, (List.cons.inj hrest).2⟩
    | _ => cases hshape
  | ret p value =>
    cases a' with
    | ret p' value' =>
      rw [spellings_return] at ha ha'
      simp only [text_return_append] at heq
      obtain ⟨hvalue, hrest⟩ := decodable_optionalText "" ha ha' (.inr rfl) (.inr rfl)
        (List.append_cancel_left heq)
      exact ⟨by rw [relabel, relabel, hvalue]; rfl, (List.cons.inj hrest).2⟩
    | _ => cases hshape
  | eval p e =>
    cases a' with
    | eval p' e' =>
      simp only [text_eval_append] at heq
      obtain ⟨he, hrest⟩ := Expr.decodable ha ha' (hsemicolon _) (hsemicolon _) heq
      exact ⟨by rw [relabel, relabel, he]; rfl, (List.cons.inj hrest).2⟩
    | _ => cases hshape

end Simple

/-! ### Blocks -/

/-- A construct with its condition and the text after the brace that opens its body. -/
def guarded (k : Construct) (c : Expr) (body : List Char) : List Char :=
  k.keyword.toList ++ ' ' :: '(' :: (c.text.toList ++ ')' :: ' ' :: '{' :: body)

theorem toList_guardText (k : Construct) (c : Expr) (ss : List String) :
    (guardText k c ++ " " ++ braces ss).toList = guarded k c (braces ss).toList.tail := by
  simp [guardText, guarded, braces]

theorem toList_braces_cons (s : String) (ss : List String) :
    (braces (s :: ss)).toList = '{' :: ' ' :: (s.toList ++ (braces ss).toList.tail) := by
  simp [braces]

theorem guarded_append (k : Construct) (c : Expr) (body r : List Char) :
    guarded k c body ++ r = guarded k c (body ++ r) := by
  simp [guarded]

theorem ofText_guarded (k : Construct) (c : Expr) (body : List Char) :
    Block.Shape.ofText (guarded k c body) = match k with
      | .cond => .conditional
      | .loop => .loop := by
  have hword : ∀ d ∈ k.keyword.toList, isWordChar d = true :=
    List.all_eq_true.1 (by cases k <;> decide)
  rw [guarded, Block.Shape.ofText_append hword (stops_cons (by decide) _)]
  cases k <;> rfl

theorem guarded_inj {k : Construct} {c c' : Expr}
    (hc : ∀ x ∈ c.occurrences.map Prod.snd, isName x = true)
    (hc' : ∀ x ∈ c'.occurrences.map Prod.snd, isName x = true) {r r' : List Char}
    (h : guarded k c r = guarded k c' r') :
    c.relabel .anywhere = c'.relabel .anywhere ∧ r = r' := by
  have hclose : ∀ r, Stops (')' :: r) := stops_cons (by decide)
  have hcond := List.append_cancel_left h
  simp only [List.cons.injEq, true_and] at hcond
  obtain ⟨hcond, hrest⟩ := Expr.decodable hc hc' (hclose _) (hclose _) hcond
  simp only [List.cons.injEq, true_and] at hrest
  exact ⟨hcond, hrest⟩

namespace Block

/-- The statements of a block, a blank before each, and the brace that closes the block. -/
def closed : Block → List Char
  | done => [' ', '}']
  | simple a rest => ' ' :: (a.text.toList ++ rest.closed)
  | ifThen _ c t rest => ' ' :: guarded .cond c (t.closed ++ rest.closed)
  | ifElse _ c t e rest =>
    ' ' :: guarded .cond c (t.closed ++ (" else \x7b".toList ++ (e.closed ++ rest.closed)))
  | loop _ c b rest => ' ' :: guarded .loop c (b.closed ++ rest.closed)

theorem toList_braces_texts (b : Block) : (braces b.texts).toList = '{' :: b.closed := by
  induction b with
  | done => rfl
  | simple a rest ih => rw [texts, toList_braces_cons, ih, closed, List.tail_cons]
  | ifThen p c t rest iht ih =>
    rw [texts, toList_braces_cons, toList_guardText, ih, iht, List.tail_cons, List.tail_cons,
      guarded_append, closed]
  | ifElse p c t e rest iht ihe ih =>
    rw [texts, toList_braces_cons, String.toList_append, String.toList_append, toList_guardText,
      ih, iht, ihe, List.tail_cons, List.tail_cons, List.append_assoc, List.append_assoc,
      guarded_append, closed]
    simp
  | loop p c b rest ihb ih =>
    rw [texts, toList_braces_cons, toList_guardText, ih, ihb, List.tail_cons, List.tail_cons,
      guarded_append, closed]

/-- What comes first in the text of the block. -/
def shape : Block → Shape
  | done => .closing
  | simple a _ => .simple a.shape
  | ifThen _ _ _ _ => .conditional
  | ifElse _ _ _ _ _ => .conditional
  | loop _ _ _ _ => .loop

theorem ofText_closed {b : Block} (hb : ∀ x ∈ b.spellings, isName x = true) (r : List Char) :
    Shape.ofText (b.closed ++ r).tail = b.shape := by
  cases b with
  | done => rfl
  | simple a rest =>
    rw [closed, List.cons_append, List.tail_cons, List.append_assoc]
    exact Simple.ofText_text (List.forall_mem_append.1 hb).1 _
  | ifThen p c t rest =>
    rw [closed, List.cons_append, List.tail_cons, guarded_append, ofText_guarded]
    rfl
  | ifElse p c t e rest =>
    rw [closed, List.cons_append, List.tail_cons, guarded_append, ofText_guarded]
    rfl
  | loop p c b rest =>
    rw [closed, List.cons_append, List.tail_cons, guarded_append, ofText_guarded]
    rfl

/-- Blocks whose texts start alike start with the same kind of statement. -/
theorem shape_eq_of_append {b b' : Block} (hb : ∀ x ∈ b.spellings, isName x = true)
    (hb' : ∀ x ∈ b'.spellings, isName x = true) {r r' : List Char}
    (h : b.closed ++ r = b'.closed ++ r') : b.shape = b'.shape := by
  rw [← ofText_closed hb r, h, ofText_closed hb' r']

/-- What is left of a block does not read as the other part of a conditional. -/
theorem closed_append_ne_else {b : Block} (hb : ∀ x ∈ b.spellings, isName x = true)
    (r r' : List Char) : b.closed ++ r ≠ " else \x7b".toList ++ r' := by
  intro h
  have helse : Shape.ofText (" else \x7b".toList ++ r').tail = .alternative := rfl
  rw [← h, ofText_closed hb] at helse
  cases b <;> cases helse

/-- A block ends at the brace that closes it. -/
theorem decodable :
    Decodable (fun b : Block ↦ ∀ x ∈ b.spellings, isName x = true) closed
      (relabel .anywhere) fun _ ↦ True := by
  intro b b' r r' hb hb' _ _ heq
  induction b generalizing b' r r' with
  | done =>
    have hshape := shape_eq_of_append hb hb' heq
    cases b' with
    | done => exact ⟨rfl, List.append_cancel_left heq⟩
    | _ => cases hshape
  | simple a rest ih =>
    have hshape := shape_eq_of_append hb hb' heq
    cases b' with
    | simple a' rest' =>
      rw [spellings, List.forall_mem_append] at hb hb'
      simp only [closed, List.cons_append, List.append_assoc, List.cons.injEq, true_and] at heq
      obtain ⟨ha, hrest⟩ := Simple.decodable hb.1 hb'.1 trivial trivial heq
      obtain ⟨hrest, hafter⟩ := ih hb.2 hb'.2 hrest
      exact ⟨by rw [relabel, relabel, ha, hrest], hafter⟩
    | _ => cases hshape
  | ifThen p c t rest iht ih =>
    have hshape := shape_eq_of_append hb hb' heq
    cases b' with
    | ifThen p' c' t' rest' =>
      simp only [spellings, List.forall_mem_append] at hb hb'
      simp only [closed, List.cons_append, guarded_append, List.append_assoc, List.cons.injEq,
        true_and] at heq
      obtain ⟨hc, hbody⟩ := guarded_inj hb.1.1 hb'.1.1 heq
      obtain ⟨ht, hrest⟩ := iht hb.1.2 hb'.1.2 hbody
      obtain ⟨hrest, hafter⟩ := ih hb.2 hb'.2 hrest
      exact ⟨by rw [relabel, relabel, hc, ht, hrest]; rfl, hafter⟩
    | ifElse p' c' t' e' rest' =>
      simp only [spellings, List.forall_mem_append] at hb hb'
      simp only [closed, List.cons_append, guarded_append, List.append_assoc, List.cons.injEq,
        true_and] at heq
      obtain ⟨-, hbody⟩ := guarded_inj hb.1.1 hb'.1.1.1 heq
      obtain ⟨-, hrest⟩ := iht hb.1.2 hb'.1.1.2 hbody
      exact absurd hrest (closed_append_ne_else hb.2 _ _)
    | _ => cases hshape
  | ifElse p c t e rest iht ihe ih =>
    have hshape := shape_eq_of_append hb hb' heq
    cases b' with
    | ifThen p' c' t' rest' =>
      simp only [spellings, List.forall_mem_append] at hb hb'
      simp only [closed, List.cons_append, guarded_append, List.append_assoc, List.cons.injEq,
        true_and] at heq
      obtain ⟨-, hbody⟩ := guarded_inj hb.1.1.1 hb'.1.1 heq
      obtain ⟨-, hrest⟩ := iht hb.1.1.2 hb'.1.2 hbody
      exact absurd hrest.symm (closed_append_ne_else hb'.2 _ _)
    | ifElse p' c' t' e' rest' =>
      simp only [spellings, List.forall_mem_append] at hb hb'
      simp only [closed, List.cons_append, guarded_append, List.append_assoc, List.cons.injEq,
        true_and] at heq
      obtain ⟨hc, hbody⟩ := guarded_inj hb.1.1.1 hb'.1.1.1 heq
      obtain ⟨ht, helse⟩ := iht hb.1.1.2 hb'.1.1.2 hbody
      obtain ⟨he, hrest⟩ := ihe hb.1.2 hb'.1.2 (List.append_cancel_left helse)
      obtain ⟨hrest, hafter⟩ := ih hb.2 hb'.2 hrest
      exact ⟨by rw [relabel, relabel, hc, ht, he, hrest]; rfl, hafter⟩
    | _ => cases hshape
  | loop p c b rest ihb ih =>
    have hshape := shape_eq_of_append hb hb' heq
    cases b' with
    | loop p' c' b' rest' =>
      simp only [spellings, List.forall_mem_append] at hb hb'
      simp only [closed, List.cons_append, guarded_append, List.append_assoc, List.cons.injEq,
        true_and] at heq
      obtain ⟨hc, hbody⟩ := guarded_inj hb.1.1 hb'.1.1 heq
      obtain ⟨ht, hrest⟩ := ihb hb.1.2 hb'.1.2 hbody
      obtain ⟨hrest, hafter⟩ := ih hb.2 hb'.2 hrest
      exact ⟨by rw [relabel, relabel, hc, ht, hrest]; rfl, hafter⟩
    | _ => cases hshape

/-- Blocks that print alike differ in positions only. -/
theorem relabel_anywhere_eq_of_braces {b c : Block} (hb : ∀ x ∈ b.spellings, isName x = true)
    (hc : ∀ x ∈ c.spellings, isName x = true) (h : braces b.texts = braces c.texts) :
    b.relabel .anywhere = c.relabel .anywhere := by
  have hclosed := congrArg String.toList h
  rw [toList_braces_texts, toList_braces_texts] at hclosed
  exact decodable.eq_of_text trivial hb hc (List.cons.inj hclosed).2

end Block

/-! ### Functions and programs -/

namespace Param

theorem text_append (q : Param) (r : List Char) :
    q.text.toList ++ r = q.ty.name.toList ++ ' ' :: (q.name.toList ++ r) := by
  simp [text]

theorem decodable :
    Decodable (fun q : Param ↦ isName q.name = true) (fun q ↦ q.text.toList) (relabel .anywhere)
      (Delimited ')') := by
  intro q q' r r' hq hq' hr hr' heq
  simp only [text_append] at heq
  obtain ⟨hty, hrest⟩ := Ty.name_append_inj heq
  obtain ⟨hx, hrest⟩ := name_append_inj hq hq' (hr.stops (by decide)) (hr'.stops (by decide)) hrest
  exact ⟨by rw [relabel, relabel, hty, hx]; rfl, hrest⟩

end Param

namespace Function

/-- The names in a function. -/
def spellings (f : Function) : List String :=
  f.name :: (f.params.map Param.name ++ f.body.spellings)

theorem text_append (f : Function) (r : List Char) :
    f.text.toList ++ r =
      f.returnTy.name.toList ++ ' ' ::
        (f.name.toList ++ '(' ::
          (commas (fun q ↦ q.text.toList) f.params ++
            ')' :: ' ' :: '{' :: (f.body.closed ++ r))) := by
  simp only [text, String.toList_append, toList_intercalate_commas, Block.toList_braces_texts,
    List.append_assoc]
  rfl

theorem decodable_params :
    Decodable (fun qs : List Param ↦ ∀ q ∈ qs, isName q.name = true)
      (commas fun q ↦ q.text.toList) (List.map (Param.relabel .anywhere))
      fun r ↦ r.head? = some ')' := by
  refine Param.decodable.commas (by decide) fun q _ r ↦ ?_
  rw [Param.text_append]
  cases q.ty <;> rintro ⟨⟩

/-- A function ends at the brace that closes its body. -/
theorem decodable :
    Decodable (fun f : Function ↦ ∀ x ∈ f.spellings, isName x = true) (fun f ↦ f.text.toList)
      (relabel .anywhere) fun _ ↦ True := by
  intro f f' r r' hf hf' _ _ heq
  rw [spellings, List.forall_mem_cons, List.forall_mem_append, List.forall_mem_map] at hf hf'
  obtain ⟨hname, hparams, hbody⟩ := hf
  obtain ⟨hname', hparams', hbody'⟩ := hf'
  have hopen : ∀ r, Stops ('(' :: r) := stops_cons (by decide)
  simp only [text_append] at heq
  obtain ⟨hty, hrest⟩ := Ty.name_append_inj heq
  obtain ⟨hx, hrest⟩ := name_append_inj hname hname' (hopen _) (hopen _) hrest
  obtain ⟨hqs, hrest⟩ :=
    decodable_params hparams hparams' rfl rfl (List.cons.inj hrest).2
  simp only [List.cons.injEq, true_and] at hrest
  obtain ⟨hb, hrest⟩ := Block.decodable hbody hbody' trivial trivial hrest
  exact ⟨by rw [relabel, relabel, hty, hx, hqs, hb]; rfl, hrest⟩

/-- A function does not read as a declaration: after its name comes a parenthesis. -/
theorem text_append_ne {f : Function} (hf : ∀ x ∈ f.spellings, isName x = true) {d : Declaration}
    (hd : ∀ x ∈ d.spellings, isName x = true) (r r' : List Char) :
    f.text.toList ++ r ≠ d.text.toList ++ r' := by
  intro heq
  have hname : isName f.name = true := hf _ List.mem_cons_self
  have hopen : ∀ r, Stops ('(' :: r) := stops_cons (by decide)
  rw [text_append, Declaration.text_append] at heq
  obtain ⟨-, hrest⟩ := Ty.name_append_inj heq
  refine Declaration.afterWord_vars_ne (List.forall_mem_flatMap.1 hd) r' ?_
  rw [← hrest, afterWord_append (word_of_isName hname) (hopen _), List.head?_cons]

end Function

namespace Program

/-- The names in a program. -/
def identifiers (p : Program) : List String :=
  p.globals.flatMap Declaration.spellings ++ p.function.spellings

theorem toList_text_nil (f : Function) (r : List Char) :
    (mk [] f).text.toList ++ r = f.text.toList ++ r := by
  simp [text]

theorem toList_text_cons (d : Declaration) (ds : List Declaration) (f : Function)
    (r : List Char) :
    (mk (d :: ds) f).text.toList ++ r =
      d.text.toList ++ '\n' :: ((mk ds f).text.toList ++ r) := by
  simp [text]

theorem forall_identifiers_cons {d : Declaration} {ds : List Declaration} {f : Function} :
    (∀ x ∈ (mk (d :: ds) f).identifiers, isName x = true) ↔
      (∀ x ∈ d.spellings, isName x = true) ∧ ∀ x ∈ (mk ds f).identifiers, isName x = true := by
  rw [identifiers, List.flatMap_cons, List.append_assoc, List.forall_mem_append]
  rfl

/-- A program ends where its function does. -/
theorem decodable :
    Decodable (fun p : Program ↦ ∀ x ∈ p.identifiers, isName x = true) (fun p ↦ p.text.toList)
      (relabel .anywhere) fun _ ↦ True := by
  rintro ⟨ds, f⟩ ⟨ds', f'⟩ r r' hp hp' _ _ heq
  induction ds generalizing ds' with
  | nil =>
    rcases ds' with - | ⟨d', ds'⟩
    · simp only [toList_text_nil] at heq
      obtain ⟨hf, hrest⟩ := Function.decodable hp hp' trivial trivial heq
      exact ⟨by rw [relabel, relabel, hf], hrest⟩
    · simp only [toList_text_nil, toList_text_cons] at heq
      exact absurd heq (Function.text_append_ne hp (forall_identifiers_cons.1 hp').1 _ _)
  | cons d ds ih =>
    obtain ⟨hd, hp⟩ := forall_identifiers_cons.1 hp
    rcases ds' with - | ⟨d', ds'⟩
    · simp only [toList_text_nil, toList_text_cons] at heq
      exact absurd heq.symm (Function.text_append_ne hp' hd _ _)
    · obtain ⟨hd', hp'⟩ := forall_identifiers_cons.1 hp'
      simp only [toList_text_cons] at heq
      obtain ⟨hdecl, hrest⟩ := Declaration.decodable hd hd' trivial trivial heq
      obtain ⟨hrest, hafter⟩ := ih ds' hp hp' (List.cons.inj hrest).2
      obtain ⟨hglobals, hf⟩ := Program.mk.inj hrest
      exact ⟨congrArg₂ mk (congrArg₂ List.cons hdecl hglobals) hf, hafter⟩

/-- The printed form is unambiguous. Programs, statements and expressions in which all names are
names print alike only if they differ in nothing but positions. -/
theorem relabel_anywhere_eq_of_text :
    (∀ p q : Program, (∀ x ∈ p.identifiers, isName x = true) →
      (∀ x ∈ q.identifiers, isName x = true) → p.text = q.text →
        p.relabel .anywhere = q.relabel .anywhere) ∧
    (∀ b c : Block, (∀ x ∈ b.spellings, isName x = true) →
      (∀ x ∈ c.spellings, isName x = true) → b.texts = c.texts →
        b.relabel .anywhere = c.relabel .anywhere) ∧
    (∀ e f : Expr, (∀ x ∈ e.occurrences.map Prod.snd, isName x = true) →
      (∀ x ∈ f.occurrences.map Prod.snd, isName x = true) → e.text = f.text →
        e.relabel .anywhere = f.relabel .anywhere) := by
  have hend : Stops [] := fun _ hc ↦ nomatch hc
  refine ⟨fun p q hp hq h ↦ ?_, fun b c hb hc h ↦ ?_, fun e f he hf h ↦ ?_⟩
  · exact decodable.eq_of_text trivial hp hq (congrArg String.toList h)
  · exact Block.relabel_anywhere_eq_of_braces hb hc (congrArg braces h)
  · exact Expr.decodable.eq_of_text hend he hf (congrArg String.toList h)

/-- A program with a literal below zero under a minus, a negation of a negation, and an empty
alternative; every node is at the position. -/
def dense (pos : Pos) : Program where
  globals := [⟨.int, [⟨"g", some (.num pos (-1)), pos⟩, ⟨"h", none, pos⟩], pos⟩]
  function := {
    returnTy := .void
    name := "f"
    params := [⟨.bool, "b", pos⟩]
    body :=
      .ifElse pos (.not pos (.not pos (.var pos "b"))) .done .done <|
      .ifThen pos (.var pos "b")
        (.simple (.assign pos "g" (.binary pos .sub (.num pos (-1)) (.num pos (-2)))) .done) <|
      .simple (.ret pos none) .done
    pos := pos }

theorem relabel_anywhere_eq_of_text_dense :
    (∀ x ∈ (dense ⟨1, 1⟩).identifiers, isName x = true) ∧
      (∀ x ∈ (dense ⟨2, 5⟩).identifiers, isName x = true) ∧
      (dense ⟨1, 1⟩).text =
        "int g = -1, h;\nvoid f(bool b) \x7b if (!!b) \x7b \x7d else \x7b \x7d" ++
          " if (b) \x7b g = (-1 - -2); \x7d return; \x7d" ∧
      (dense ⟨1, 1⟩).text = (dense ⟨2, 5⟩).text ∧
      (dense ⟨1, 1⟩).relabel .anywhere = (dense ⟨2, 5⟩).relabel .anywhere ∧
      (dense ⟨1, 1⟩).function.body.relabel .anywhere =
        (dense ⟨2, 5⟩).function.body.relabel .anywhere ∧
      (Expr.not ⟨1, 1⟩ (.var ⟨1, 2⟩ "b")).relabel .anywhere =
        (Expr.not ⟨2, 5⟩ (.var ⟨2, 6⟩ "b")).relabel .anywhere := by
  have hnames : ∀ x ∈ (dense ⟨1, 1⟩).identifiers, isName x = true := by decide +kernel
  have hnames' : ∀ x ∈ (dense ⟨2, 5⟩).identifiers, isName x = true := by decide +kernel
  have htext : (dense ⟨1, 1⟩).text = (dense ⟨2, 5⟩).text := by decide +kernel
  obtain ⟨hprograms, hblocks, hexprs⟩ := relabel_anywhere_eq_of_text
  exact ⟨hnames, hnames', by decide +kernel, htext, hprograms _ _ hnames hnames' htext,
    hblocks _ _ (by decide +kernel) (by decide +kernel) (by decide +kernel),
    hexprs _ _ (by decide +kernel) (by decide +kernel) (by decide +kernel)⟩

/-- What is no name can be taken for something else. -/
example : (Expr.var {} "1").text = (Expr.num {} 1).text := by decide +kernel

end Program

end BlockLang
