import BlockLang.Proofs.Lowering.Numbering
import Mathlib.Data.List.Basic

/-!
# The text of assembly programs, line by line

An assembly program is rendered line by line, and its text can be read back line by line if the
names in it are words and no remark goes on on a second line (`Assembly.Legible.textLines_text`). A
legible line shows what it is at its start: a remark and the instruction that reserves a frame start
like no other line (`Line.Legible.row_cases`). A name with a blank in it could make a line look like
any other.

What is left of a text without its remarks and without the size of the frame are its *bare* lines.
They are read off the lines of the assembly program (`Assembly.Legible.bareLines_text`).
-/

namespace BlockLang

/-! ### Lines of a text -/

/-- The text has no line break. -/
def OneLine (s : String) : Prop := '\n' ∉ s.toList

/-- The text is spelt without blanks, line breaks and semicolons. -/
def IsWord (s : String) : Prop := ∀ c ∈ s.toList, c ≠ ' ' ∧ c ≠ '\n' ∧ c ≠ ';'

instance (s : String) : Decidable (OneLine s) := inferInstanceAs (Decidable (¬_))

instance (s : String) : Decidable (IsWord s) :=
  List.decidableBAll (fun c ↦ c ≠ ' ' ∧ c ≠ '\n' ∧ c ≠ ';') s.toList

/-- The lines of a text. -/
def textLines (s : String) : List String := (s.toList.splitOn '\n').map String.ofList

section Characters

variable {s t : String}

@[simp] theorem oneLine_append : OneLine (s ++ t) ↔ OneLine s ∧ OneLine t := by
  simp [OneLine]

theorem oneLine_intercalate (hs : OneLine s) {ts : List String} (h : ∀ t ∈ ts, OneLine t) :
    OneLine (s.intercalate ts) := by
  induction ts with
  | nil => exact (by decide : OneLine "")
  | cons t ts ih =>
    obtain ⟨ht, hts⟩ := List.forall_mem_cons.1 h
    rcases ts with - | ⟨u, us⟩
    · rwa [String.intercalate_singleton]
    · rw [String.intercalate_cons_cons, oneLine_append, oneLine_append]
      exact ⟨⟨ht, hs⟩, ih hts⟩

theorem IsWord.oneLine (h : IsWord s) : OneLine s := fun hs ↦ (h _ hs).2.1 rfl

theorem isWord_append : IsWord (s ++ t) ↔ IsWord s ∧ IsWord t := by
  simp only [IsWord, String.toList_append, List.forall_mem_append]

/-- An identifier is a word. -/
theorem isWord_of_identifier (h : ∀ c ∈ s.toList, c.isAlphanum ∨ c = '_') : IsWord s := by
  intro c hc
  refine ⟨?_, ?_, ?_⟩ <;>
  · rintro rfl
    rcases h _ hc with h | h <;> revert h <;> decide

theorem isWord_toString (n : Nat) : IsWord (toString n) := by
  refine isWord_of_identifier fun c hc ↦ .inl ?_
  rw [toList_toString_nat] at hc
  rw [Char.isAlphanum, isDigit_of_mem_toDigits_ten c hc, Bool.or_true]

theorem oneLine_toString (n : Int) : OneLine (toString n) := by
  cases n with
  | ofNat n => exact (isWord_toString n).oneLine
  | negSucc n => exact oneLine_append.2 ⟨by decide, (isWord_toString (n + 1)).oneLine⟩

end Characters

/-- Lines with their ends, one after the other, are the lines of the text that they make. -/
theorem textLines_join {rows : List String} (h : ∀ r ∈ rows, OneLine r) :
    textLines (String.join (rows.map (· ++ "\n"))) = rows ++ [""] := by
  induction rows with
  | nil => rfl
  | cons r rows ih =>
    obtain ⟨hr, hrows⟩ := List.forall_mem_cons.1 h
    have hfirst : (String.join ((r :: rows).map (· ++ "\n"))).toList =
        r.toList ++ '\n' :: (String.join (rows.map (· ++ "\n"))).toList := by
      simp
    rw [textLines, hfirst, List.splitOn_append_cons_self_of_not_mem hr, List.map_cons,
      String.ofList_toList]
    exact congrArg (r :: ·) (ih hrows)

/-! ### Kinds of lines -/

/-- How a remark starts. -/
def remarkStem : String := "    ; "

/-- How the instruction that reserves a frame starts. -/
def reserveStem : String := "    sub rsp, "

/-- Whether the line is a remark. -/
def isRemarkLine (s : String) : Bool := remarkStem.toList.isPrefixOf s.toList

/-- Whether the line reserves a frame. -/
def isReserveLine (s : String) : Bool := reserveStem.toList.isPrefixOf s.toList

@[simp] theorem isRemarkLine_remarkStem (s : String) : isRemarkLine (remarkStem ++ s) = true := by
  simp [isRemarkLine]

@[simp] theorem isReserveLine_remarkStem (s : String) :
    isReserveLine (remarkStem ++ s) = false := by
  simp [isReserveLine, remarkStem, reserveStem, List.isPrefixOf]

@[simp] theorem isRemarkLine_reserveStem (s : String) :
    isRemarkLine (reserveStem ++ s) = false := by
  simp [isRemarkLine, remarkStem, reserveStem, List.isPrefixOf]

@[simp] theorem isReserveLine_reserveStem (s : String) :
    isReserveLine (reserveStem ++ s) = true := by
  simp [isReserveLine]

/-- What is left of a line that may be a remark or have the size of the frame in it: nothing of a
remark, and no size. -/
def bareLine? (s : String) : Option String :=
  if isRemarkLine s then none else some (if isReserveLine s then reserveStem else s)

/-- The lines of a text without remarks and without the size of the frame. -/
def bareLines (text : String) : List String := (textLines text).filterMap bareLine?

/-- One line that is not a remark and reserves nothing. -/
structure IsPlainRow (s : String) : Prop where
  /-- It is one line. -/
  oneLine : OneLine s
  /-- It is no remark. -/
  remark : isRemarkLine s = false
  /-- It reserves nothing. -/
  reserve : isReserveLine s = false

theorem IsPlainRow.bareLine?_eq {s : String} (h : IsPlainRow s) : bareLine? s = some s := by
  simp [bareLine?, h.remark, h.reserve]

private theorem isPrefixOf_cons_eq_false {c : Char} {cs ds : List Char}
    (h : ds.head? ≠ some c) : (c :: cs).isPrefixOf ds = false := by
  rcases ds with - | ⟨d, ds⟩
  · rfl
  · have hne : c ≠ d := fun heq ↦ h (congrArg some heq.symm)
    simp [List.isPrefixOf, hne]

/-- A line is plain if it does not start with a blank. -/
theorem isPlainRow_of_head? {s : String} (h : OneLine s) (hs : s.toList.head? ≠ some ' ') :
    IsPlainRow s :=
  ⟨h, isPrefixOf_cons_eq_false hs, isPrefixOf_cons_eq_false hs⟩

/-! ### Cells -/

/-- The cell as a line, without its end. -/
def Cell.row (c : Cell) : String :=
  "    " ++ c.name ++ " " ++ c.width.directive ++ " " ++ toString c.value.toInt

theorem Cell.text_eq_row (c : Cell) : c.text = c.row ++ "\n" := by
  rw [text, row]

theorem Cell.isPlainRow_row {c : Cell} (h : IsWord c.name) : IsPlainRow c.row := by
  have hdirective : OneLine c.width.directive := by cases c.width <;> decide
  obtain ⟨cs, hcs⟩ : ∃ cs, c.row.toList = "    ".toList ++ (c.name.toList ++ ' ' :: 'd' :: cs) := by
    rw [row]
    cases c.width <;> simp [Width.directive]
  refine ⟨?_, ?_, ?_⟩
  · simp only [row, oneLine_append]
    exact ⟨⟨⟨⟨⟨by decide, h.oneLine⟩, by decide⟩, hdirective⟩, by decide⟩, oneLine_toString _⟩
  · have hname : (c.name.toList ++ ' ' :: 'd' :: cs).head? ≠ some ';' := by
      rcases hx : c.name.toList with - | ⟨d, ds⟩
      · simp
      · simpa using (h d (by simp [hx])).2.2
    rw [isRemarkLine, hcs]
    show [';', ' '].isPrefixOf _ = false
    exact isPrefixOf_cons_eq_false hname
  · -- the first blank after the name is not that of the instruction
    rw [isReserveLine, hcs, Bool.eq_false_iff, Ne, List.isPrefixOf_iff_prefix]
    rintro ⟨ds, hds⟩
    have hrest : "sub rsp, ".toList ++ ds = c.name.toList ++ ' ' :: 'd' :: cs :=
      congrArg (List.drop 4) hds
    have hname : (c.name.toList ++ ' ' :: 'd' :: cs).dropWhile (· ≠ ' ') = ' ' :: 'd' :: cs := by
      rw [List.dropWhile_append_of_pos fun d hd ↦ by simpa using (h d hd).1]
      rfl
    rw [← hrest, show ("sub rsp, ".toList ++ ds).dropWhile (· ≠ ' ') = ' ' :: ("rsp, ".toList ++ ds)
      from rfl] at hname
    simp at hname

/-! ### Instructions -/

/-- The name in the operand, if there is one, is a word. -/
def Mem.Legible (m : Mem) : Prop :=
  match m.address with
  | .cell x => IsWord x
  | .slot _ => True
  | .argument _ => True

/-- The name in the instruction, if there is one, is a word. -/
def Instr.Legible : Instr → Prop
  | load _ m => m.Legible
  | loadZx _ m => m.Legible
  | store m _ _ => m.Legible
  | storeImm m _ => m.Legible
  | jump l => IsWord l.text
  | jumpEqual l => IsWord l.text
  | call l => IsWord l.text
  | _ => True

theorem Reg.oneLine_name (r : Reg) (w : Width) : OneLine (r.name w) := by
  cases r <;> cases w <;> decide

theorem Mem.oneLine_text {m : Mem} (h : m.Legible) : OneLine m.text := by
  obtain ⟨w, a⟩ := m
  have hkeyword : OneLine w.keyword := by cases w <;> decide
  have hinside : ∀ {s t u : String}, OneLine s → OneLine t → OneLine u → OneLine (s ++ t ++ u) :=
    fun hs ht hu ↦ oneLine_append.2 ⟨oneLine_append.2 ⟨hs, ht⟩, hu⟩
  have haddress : OneLine a.text := by
    cases a with
    | cell x => exact hinside (by decide) (IsWord.oneLine h) (by decide)
    | slot n => exact hinside (by decide) (isWord_toString n).oneLine (by decide)
    | argument n => exact hinside (by decide) (isWord_toString n).oneLine (by decide)
  rw [text, oneLine_append, oneLine_append]
  exact ⟨⟨hkeyword, by decide⟩, haddress⟩

theorem Instr.oneLine_text {i : Instr} (h : i.Legible) : OneLine i.text := by
  have hop : ∀ op : AluOp, OneLine op.mnemonic := fun op ↦ by cases op <;> decide
  have hcond : ∀ c : Cond, OneLine c.mnemonic := fun c ↦ by cases c <;> decide
  have hsize : ∀ n : Nat, OneLine n.repr := fun n ↦ (isWord_toString n).oneLine
  have hvalue : ∀ v : Int32, OneLine v.toInt.repr := fun v ↦ oneLine_toString v.toInt
  cases i with
  | load d m => simp +decide [text, Reg.oneLine_name, Mem.oneLine_text h]
  | loadZx d m => simp +decide [text, Reg.oneLine_name, Mem.oneLine_text h]
  | store m w d => simp +decide [text, Reg.oneLine_name, Mem.oneLine_text h]
  | storeImm m v => simp +decide [text, Mem.oneLine_text h, hvalue]
  | jump l => simp +decide [text, IsWord.oneLine h]
  | jumpEqual l => simp +decide [text, IsWord.oneLine h]
  | call l => simp +decide [text, IsWord.oneLine h]
  | _ => simp +decide [text, Reg.oneLine_name, hop, hcond, hsize, hvalue]

/-- An instruction that makes no frame is a plain line. -/
theorem Instr.isPlainRow_text {i : Instr} (h : i.Legible) (hi : i.reserved? = none) :
    IsPlainRow ("    " ++ i.text) := by
  refine ⟨oneLine_append.2 ⟨by decide, oneLine_text h⟩, ?_, ?_⟩
  · rw [isRemarkLine, remarkStem]
    cases i with
    | alu op => cases op <;> simp [text, AluOp.mnemonic, List.isPrefixOf]
    | set c => cases c <;> simp [text, Cond.mnemonic, List.isPrefixOf]
    | _ => simp [text, List.isPrefixOf]
  · rw [isReserveLine, reserveStem]
    cases i with
    | alu op d =>
      -- a difference is taken from a register of 32 bits, and the top of the stack has 64
      have hd : ∀ cs,
          ['r', 's', 'p', ',', ' '].isPrefixOf ((d.name .dword).toList ++ cs) = false := by
        cases d <;> simp [Reg.name, List.isPrefixOf]
      cases op <;> simp [text, AluOp.mnemonic, List.isPrefixOf, hd]
    | set c => cases c <;> simp [text, Cond.mnemonic, List.isPrefixOf]
    | reserve n => cases hi
    | _ => simp [text, List.isPrefixOf]

/-! ### Lines of code -/

/-- The line as text, without its end. -/
def Line.row : Line → String
  | instr i => "    " ++ i.text
  | label l => l.text ++ ":"
  | comment t => remarkStem ++ t
  | blank => ""

theorem Line.text_eq_row (line : Line) : line.text = line.row ++ "\n" := by
  cases line with
  | instr i => rw [text, row]
  | label l => rw [text, row, String.append_assoc]; rfl
  | comment t => rw [text, row]; rfl
  | blank => rfl

@[simp] theorem Line.row_comment (t : String) : (comment t).row = remarkStem ++ t := rfl

@[simp] theorem Line.row_reserve (n : Nat) :
    (instr (.reserve n)).row = reserveStem ++ toString n := by
  rw [row, Instr.text, ← String.append_assoc]
  rfl

/-- The names in the line are words, and it is one line. It is no remark unless there may be
some. -/
def Line.Legible (remarks : Bool) : Line → Prop
  | instr i => i.Legible
  | label l => IsWord l.text
  | comment t => remarks = true ∧ OneLine t
  | blank => True

/-- What is left of the line without remarks and without the size of the frame. -/
def Line.bare? : Line → Option String
  | instr (.reserve _) => some reserveStem
  | instr i => some (instr i).row
  | label l => some (label l).row
  | comment _ => none
  | blank => some blank.row

namespace Line

variable {remarks : Bool} {line : Line} {lines : List Line}

/-- A legible line is a remark, or it reserves a frame, or it looks like neither. -/
theorem Legible.row_cases (h : line.Legible remarks) :
    (∃ t, line = comment t ∧ remarks = true ∧ OneLine t) ∨ (∃ n, line = instr (.reserve n)) ∨
      line.reserved? = none ∧ line.bare? = some line.row ∧ IsPlainRow line.row := by
  cases line with
  | instr i =>
    rcases hi : i.reserved? with - | n
    · refine .inr (.inr ⟨hi, ?_, Instr.isPlainRow_text h hi⟩)
      cases i <;> first | rfl | cases hi
    · cases i <;> cases hi
      exact .inr (.inl ⟨n, rfl⟩)
  | label l =>
    refine .inr (.inr ⟨rfl, rfl, isPlainRow_of_head? ?_ ?_⟩)
    · exact oneLine_append.2 ⟨IsWord.oneLine h, by decide⟩
    · rw [row, String.toList_append]
      rcases hcs : l.text.toList with - | ⟨c, cs⟩
      · decide
      · simpa using (h c (by simp [hcs])).1
  | comment t => exact .inl ⟨t, rfl, h⟩
  | blank => exact .inr (.inr ⟨rfl, rfl, isPlainRow_of_head? (by decide) (by decide)⟩)

theorem Legible.oneLine_row (h : line.Legible remarks) : OneLine line.row := by
  obtain ⟨t, rfl, -, ht⟩ | ⟨n, rfl⟩ | ⟨-, -, hplain⟩ := h.row_cases
  · exact oneLine_append.2 ⟨by decide, ht⟩
  · exact oneLine_append.2 ⟨by decide, Instr.oneLine_text h⟩
  · exact hplain.oneLine

theorem Legible.bareLine?_row (h : line.Legible remarks) : bareLine? line.row = line.bare? := by
  obtain ⟨t, rfl, -⟩ | ⟨n, rfl⟩ | ⟨-, hbare, hplain⟩ := h.row_cases
  · simp [bareLine?, bare?]
  · rw [row_reserve, bareLine?, isRemarkLine_reserveStem, isReserveLine_reserveStem]
    rfl
  · rw [hplain.bareLine?_eq, hbare]

/-- If there are no remarks, no line looks like one. -/
theorem Legible.isRemarkLine_row (h : line.Legible false) : isRemarkLine line.row = false := by
  obtain ⟨t, -, hremarks, -⟩ | ⟨n, rfl⟩ | ⟨-, -, hplain⟩ := h.row_cases
  · cases hremarks
  · rw [row_reserve, isRemarkLine_reserveStem]
  · exact hplain.remark

/-- The lines that look like reserving a frame are those that do. -/
theorem filter_isReserveLine_rows (h : ∀ line ∈ lines, line.Legible remarks) :
    (lines.map row).filter isReserveLine =
      (lines.filterMap reserved?).map fun n ↦ reserveStem ++ toString n := by
  induction lines with
  | nil => rfl
  | cons line lines ih =>
    obtain ⟨hline, hlines⟩ := List.forall_mem_cons.1 h
    obtain ⟨t, rfl, -⟩ | ⟨n, rfl⟩ | ⟨hnone, -, hplain⟩ := hline.row_cases
    · rw [List.map_cons, row_comment, List.filter_cons_of_neg (by simp), ih hlines]
      rfl
    · rw [List.map_cons, row_reserve, List.filter_cons_of_pos (isReserveLine_reserveStem _),
        ih hlines]
      rfl
    · simpa [hnone, hplain.reserve] using ih hlines

end Line

/-! ### Assembly programs -/

namespace Assembly

/-- The lines before the text section. -/
def head (a : Assembly) : List String :=
  "section .data" :: a.cells.map Cell.row ++ ["", "section .text", "global " ++ a.entry, ""]

/-- The lines of the text of the program. -/
def rows (a : Assembly) : List String := a.head ++ a.lines.map Line.row

theorem text_eq_join (a : Assembly) : a.text = String.join (a.rows.map (· ++ "\n")) := by
  have hcells : a.cells.map Cell.text = (a.cells.map Cell.row).map (· ++ "\n") := by
    rw [List.map_map]
    exact List.map_congr_left fun c _ ↦ c.text_eq_row
  have hlines : a.lines.map Line.text = (a.lines.map Line.row).map (· ++ "\n") := by
    rw [List.map_map]
    exact List.map_congr_left fun line _ ↦ line.text_eq_row
  unfold text
  refine String.toList_inj.1 ?_
  rw [hcells, hlines]
  simp [rows, head]

/-- The names in the program are words, and a remark is one line. There are no remarks unless there
may be some. -/
structure Legible (remarks : Bool) (a : Assembly) : Prop where
  /-- The label of the entry is a word. -/
  entry : IsWord a.entry
  /-- The cells are named by words. -/
  cells : ∀ c ∈ a.cells, IsWord c.name
  /-- The lines of the text section are legible. -/
  lines : ∀ line ∈ a.lines, line.Legible remarks

namespace Legible

variable {remarks : Bool} {a : Assembly}

theorem isPlainRow_head (h : a.Legible remarks) : ∀ r ∈ a.head, IsPlainRow r := by
  have hglobal : IsPlainRow ("global " ++ a.entry) :=
    isPlainRow_of_head? (oneLine_append.2 ⟨by decide, h.entry.oneLine⟩) (by simp)
  have hempty : IsPlainRow "" := isPlainRow_of_head? (by decide) (by decide)
  have hsection : IsPlainRow "section .text" := isPlainRow_of_head? (by decide) (by decide)
  rw [head, List.cons_append, List.forall_mem_cons, List.forall_mem_append, List.forall_mem_map]
  exact ⟨isPlainRow_of_head? (by decide) (by decide), fun c hc ↦ Cell.isPlainRow_row (h.cells c hc),
    by simp [hempty, hsection, hglobal]⟩

/-- A legible text can be read back line by line. -/
theorem textLines_text (h : a.Legible remarks) : textLines a.text = a.rows ++ [""] := by
  rw [a.text_eq_join, textLines_join]
  rw [rows, List.forall_mem_append, List.forall_mem_map]
  exact ⟨fun r hr ↦ (h.isPlainRow_head r hr).oneLine, fun line hline ↦
    (h.lines line hline).oneLine_row⟩

/-- The bare lines are those of the lines of the text section, after the same head. -/
theorem bareLines_text (h : a.Legible remarks) :
    bareLines a.text = a.head ++ a.lines.filterMap Line.bare? ++ [""] := by
  have hhead : a.head.filterMap bareLine? = a.head := by
    rw [List.filterMap_congr fun r hr ↦ (h.isPlainRow_head r hr).bareLine?_eq]
    exact List.filterMap_some
  have hlines : (a.lines.map Line.row).filterMap bareLine? = a.lines.filterMap Line.bare? := by
    rw [List.filterMap_map]
    exact List.filterMap_congr fun line hline ↦ (h.lines line hline).bareLine?_row
  rw [bareLines, h.textLines_text, rows, List.filterMap_append, List.filterMap_append, hhead,
    hlines]
  rfl

theorem filter_isReserveLine_text (h : a.Legible remarks) :
    (textLines a.text).filter isReserveLine =
      (a.lines.filterMap Line.reserved?).map fun n ↦ reserveStem ++ toString n := by
  have hhead : a.head.filter isReserveLine = [] :=
    List.filter_eq_nil_iff.2 fun r hr ↦ by simp [(h.isPlainRow_head r hr).reserve]
  rw [h.textLines_text, rows, List.filter_append, List.filter_append, hhead,
    Line.filter_isReserveLine_rows h.lines, List.nil_append]
  exact List.append_nil _

theorem isRemarkLine_text (h : a.Legible false) :
    ∀ r ∈ textLines a.text, isRemarkLine r = false := by
  rw [h.textLines_text, rows, List.forall_mem_append, List.forall_mem_append, List.forall_mem_map,
    List.forall_mem_singleton]
  exact ⟨⟨fun r hr ↦ (h.isPlainRow_head r hr).remark, fun line hline ↦
    (h.lines line hline).isRemarkLine_row⟩, by decide⟩

end Legible

end Assembly

end BlockLang
