import BlockLang.Assembly.Reserved
import BlockLang.Proofs.Numeral
import Mathlib.Data.List.Forall2
import Mathlib.Data.List.TakeWhile

/-!
# Which names are reserved

A name is taken apart to find out whether it is reserved: starts and ends are cut off, digits are
split from what follows them and read as a number. Here the reserved names are spelt out instead.
They are the labels that the text section may have (`IsTextLabel`) and the words that the assembler
gives a meaning (`IsAssemblerWord`), and these are all (`isReserved_exact`).

Taking apart could accept too much only at the numbered registers, where a number is read that may
have any length. A numeral without leading zeros is the only one for its number
(`toDigits_ofDigitChars_cons`), so for each number from 8 to 15 there is one spelling.
-/

namespace BlockLang

/-- The labels that the text section of a program with the given function and entry label may
have. -/
inductive IsTextLabel (function entry : String) : String → Prop
  /-- The label of the function. -/
  | function : IsTextLabel function entry function
  /-- The label at which the program starts. -/
  | entry : IsTextLabel function entry entry
  /-- The label of the end of the function. -/
  | exit : IsTextLabel function entry (function ++ "_exit")
  /-- A label of a construct. -/
  | construct {stem digits : String}
      (hstem : stem ∈ ["else_", "endif_", "while_start_", "while_end_"]) (hne : digits ≠ "")
      (hdigits : ∀ c ∈ digits.toList, c.isDigit = true) :
      IsTextLabel function entry (stem ++ digits)

/-- The names of registers, in small letters. -/
inductive IsRegisterName : String → Prop
  /-- A register of two letters. -/
  | word {x : String} (hx : x ∈ ["ax", "bx", "cx", "dx", "si", "di", "bp", "sp"]) :
      IsRegisterName x
  /-- A wider form of a register of two letters. -/
  | wide {p x : String} (hp : p ∈ ["r", "e"])
      (hx : x ∈ ["ax", "bx", "cx", "dx", "si", "di", "bp", "sp"]) : IsRegisterName (p ++ x)
  /-- A register of one byte, or the instruction pointer. -/
  | byte {x : String}
      (hx : x ∈ ["al", "bl", "cl", "dl", "ah", "bh", "ch", "dh", "sil", "dil", "bpl", "spl",
        "rip"]) : IsRegisterName x
  /-- A numbered register, as a whole or a part of it. -/
  | numbered {n : Nat} {size : String} (hlow : 8 ≤ n) (hhigh : n ≤ 15)
      (hsize : size ∈ ["", "d", "w", "b"]) : IsRegisterName ("r" ++ toString n ++ size)

/-- The words, in small letters, that mean something to the assembler. -/
inductive IsAssemblerWord : String → Prop
  /-- A keyword of operands or of sections. -/
  | keyword {x : String}
      (hx : x ∈ ["byte", "word", "dword", "qword", "rel", "abs", "section", "global"]) :
      IsAssemblerWord x
  /-- A register. -/
  | register {x : String} (hx : IsRegisterName x) : IsAssemblerWord x

/-- The letters of ASCII, capital and small. -/
def letters : List (Char × Char) :=
  "ABCDEFGHIJKLMNOPQRSTUVWXYZ".toList.zip "abcdefghijklmnopqrstuvwxyz".toList

/-- The characters are the same, or the capital and the small form of one letter. -/
inductive EqUpToCase : Char → Char → Prop
  /-- The same character. -/
  | same (c : Char) : EqUpToCase c c
  /-- A capital and its small form. -/
  | lower {c d : Char} (h : (c, d) ∈ letters) : EqUpToCase c d
  /-- A small letter and its capital. -/
  | upper {c d : Char} (h : (d, c) ∈ letters) : EqUpToCase c d

namespace Reserved

/-! ### Labels -/

theorem isNumber_iff {cs : List Char} :
    isNumber cs = true ↔ cs ≠ [] ∧ ∀ c ∈ cs, c.isDigit = true := by
  simp [isNumber]

/-- The labels of constructs are the stems followed by digits. -/
theorem isConstructLabel_iff {x : String} :
    isConstructLabel x = true ↔
      ∃ stem ∈ ["else_", "endif_", "while_start_", "while_end_"], ∃ digits : String,
        digits ≠ "" ∧ (∀ c ∈ digits.toList, c.isDigit = true) ∧ x = stem ++ digits := by
  have hmark : ∀ stem : String, ((stem.toList.isPrefixOf? x.toList).any isNumber) = true ↔
      ∃ digits : String,
        digits ≠ "" ∧ (∀ c ∈ digits.toList, c.isDigit = true) ∧ x = stem ++ digits := by
    intro stem
    simp only [Option.any_eq_true, List.isPrefixOf?_eq_some_iff_append_eq, isNumber_iff]
    constructor
    · rintro ⟨cs, hcs, hne, hdigits⟩
      refine ⟨String.ofList cs, by simpa using hne, by simpa using hdigits, ?_⟩
      rw [← String.toList_inj, String.toList_append, String.toList_ofList, hcs]
    · rintro ⟨digits, hne, hdigits, rfl⟩
      exact ⟨digits.toList, String.toList_append.symm, by simpa using hne, hdigits⟩
  rw [isConstructLabel]
  show (([Mark.otherwise, .endIf, .loopStart, .loopEnd].any _) = true ↔ _)
  simp only [List.any_eq_true, hmark]
  simp [Mark.stem]

/-! ### Registers -/

/-- What follows the letter of a numbered register. -/
theorem isRegisterNumber_iff {cs : List Char} :
    isRegisterNumber cs = true ↔
      ∃ n size, 8 ≤ n ∧ n ≤ 15 ∧ size ∈ ["", "d", "w", "b"] ∧
        cs = (toString n ++ size).toList := by
  constructor
  · intro h
    simp only [isRegisterNumber, Bool.and_eq_true, bne_iff_ne, decide_eq_true_eq,
      List.contains_iff_mem] at h
    obtain ⟨⟨⟨hzero, hlow⟩, hhigh⟩, hsize⟩ := h
    have hdigits : ∀ c ∈ cs.takeWhile Char.isDigit, c.isDigit = true :=
      fun c hc ↦ List.mem_takeWhile_imp hc
    have hnumeral : Nat.toDigits 10 (numeral (cs.takeWhile Char.isDigit)) =
        cs.takeWhile Char.isDigit := by
      generalize cs.takeWhile Char.isDigit = digits at hdigits hzero hlow
      rcases digits with - | ⟨c, digits⟩
      · exact absurd hlow (by decide)
      · obtain ⟨hc, hdigits⟩ := List.forall_mem_cons.1 hdigits
        exact toDigits_ofDigitChars_cons hc hdigits fun h ↦ hzero (congrArg some h)
    refine ⟨_, String.ofList (cs.dropWhile Char.isDigit), hlow, hhigh, ?_, ?_⟩
    · generalize cs.dropWhile Char.isDigit = size at hsize
      revert size
      decide
    · rw [String.toList_append, String.toList_ofList, toList_toString_nat, hnumeral,
        List.takeWhile_append_dropWhile]
  · rintro ⟨n, size, hlow, hhigh, hsize, rfl⟩
    -- these are only eight numbers of four sizes each
    have hall : ∀ n ∈ List.range' 8 8, ∀ size ∈ ["", "d", "w", "b"],
        isRegisterNumber (toString n ++ size).toList = true := by decide +kernel
    exact hall n (by simp [List.mem_range'_1]; omega) size hsize

theorem isRegister_iff {x : String} : isRegister x = true ↔ IsRegisterName x := by
  constructor
  · intro h
    rw [isRegister, Bool.or_eq_true, Bool.or_eq_true, List.contains_iff_mem,
      List.contains_iff_mem] at h
    rcases h with (hword | hbyte) | hlong
    · exact .word hword
    · exact .byte hbyte
    · rcases hx : x.toList with - | ⟨c, cs⟩
      · rw [hx] at hlong
        cases hlong
      · rw [hx] at hlong
        simp only [Bool.or_eq_true, Bool.and_eq_true, decide_eq_true_eq, List.contains_iff_mem,
          isRegisterNumber_iff] at hlong
        have hsplit : x = String.ofList [c] ++ String.ofList cs := by
          rw [← String.toList_inj, hx, String.toList_append, String.toList_ofList,
            String.toList_ofList]
          rfl
        rcases hlong with ⟨hc, hbase⟩ | ⟨rfl, n, size, hlow, hhigh, hsize, hcs⟩
        · rw [hsplit]
          refine .wide ?_ hbase
          rcases hc with rfl | rfl <;> decide
        · rw [hsplit, hcs, String.ofList_toList, ← String.append_assoc]
          exact .numbered hlow hhigh hsize
  · have hwide : ∀ p ∈ ["r", "e"], ∀ x ∈ wordRegisters, isRegister (p ++ x) = true := by
      decide +kernel
    intro h
    cases h with
    | word hx => simp [isRegister, wordRegisters, hx]
    | wide hp hx => exact hwide _ hp _ hx
    | byte hx => simp [isRegister, byteRegisters, hx]
    | @numbered n size hlow hhigh hsize =>
      have hnumber := isRegisterNumber_iff.2 ⟨n, size, hlow, hhigh, hsize, rfl⟩
      have hx : ("r" ++ toString n ++ size).toList = 'r' :: (toString n ++ size).toList := by
        rw [String.append_assoc, String.toList_append]
        rfl
      rw [isRegister, hx]
      simp only [hnumber, decide_true, Bool.and_true, Bool.or_true]

end Reserved

/-! ### Names -/

theorem isTextLabel_iff {function entry x : String} :
    IsTextLabel function entry x ↔
      x = function ∨ x = entry ∨ x = function ++ exitSuffix ∨
        Reserved.isConstructLabel x = true := by
  rw [Reserved.isConstructLabel_iff]
  constructor
  · rintro (- | - | - | ⟨hstem, hne, hdigits⟩)
    · exact .inl rfl
    · exact .inr (.inl rfl)
    · exact .inr (.inr (.inl rfl))
    · exact .inr (.inr (.inr ⟨_, hstem, _, hne, hdigits, rfl⟩))
  · rintro (rfl | rfl | rfl | ⟨stem, hstem, digits, hne, hdigits, rfl⟩)
    · exact .function
    · exact .entry
    · exact .exit
    · exact .construct hstem hne hdigits

instance (function entry x : String) : Decidable (IsTextLabel function entry x) :=
  decidable_of_iff _ isTextLabel_iff.symm

theorem isAssemblerWord_iff {x : String} :
    IsAssemblerWord x ↔ Reserved.isRegister x = true ∨ x ∈ Reserved.keywords := by
  rw [Reserved.isRegister_iff]
  constructor
  · rintro (hx | hx)
    · exact .inr hx
    · exact .inl hx
  · rintro (hx | hx)
    · exact .register hx
    · exact .keyword hx

theorem isReserved_iff {name function entry : String} :
    isReserved name function entry = true ↔
      IsTextLabel function entry name ∨ IsAssemblerWord (asciiLower name) := by
  rw [isTextLabel_iff, isAssemblerWord_iff, isReserved]
  simp only [Bool.or_eq_true, decide_eq_true_eq, List.contains_iff_mem, or_assoc]

theorem toLower_of_mem_letters : ∀ p ∈ letters, p.1.toLower = p.2.toLower := by decide +kernel

theorem EqUpToCase.toLower_eq {c d : Char} (h : EqUpToCase c d) : c.toLower = d.toLower := by
  cases h with
  | same => rfl
  | lower h => exact toLower_of_mem_letters _ h
  | upper h => exact (toLower_of_mem_letters _ h).symm

/-- Names that differ in capitals only are the same in small letters. -/
theorem asciiLower_congr {x y : String} (h : List.Forall₂ EqUpToCase x.toList y.toList) :
    asciiLower x = asciiLower y := by
  have hlower : List.Forall₂ (· = ·) (x.toList.map Char.toLower) (y.toList.map Char.toLower) :=
    List.forall₂_map_left_iff.2 (List.forall₂_map_right_iff.2
      (h.imp fun _ _ hc ↦ hc.toLower_eq))
  rw [List.forall₂_eq_eq_eq] at hlower
  rw [asciiLower, hlower, asciiLower]

/-- A label of a construct is recognized as such. -/
theorem Label.isConstructLabel_text (m : Mark) (n : Nat) :
    Reserved.isConstructLabel (construct m n).text = true := by
  refine Reserved.isConstructLabel_iff.2 ⟨m.stem, ?_, toString n, Nat.repr_ne_empty, ?_, rfl⟩
  · cases m <;> decide
  · rw [toList_toString_nat]
    exact isDigit_of_mem_toDigits_ten

/-- A name is reserved if and only if it is one of the labels that the text section may have, or in
small letters a word that means something to the assembler. So, but for names that are labels,
capitals make no difference; and every label made for a construct is reserved. -/
theorem isReserved_exact (name function entry : String) :
    (isReserved name function entry = true ↔
      IsTextLabel function entry name ∨ IsAssemblerWord (asciiLower name)) ∧
    (∀ other, List.Forall₂ EqUpToCase name.toList other.toList →
      ¬ IsTextLabel function entry name → ¬ IsTextLabel function entry other →
      isReserved other function entry = isReserved name function entry) ∧
    ∀ m n, isReserved (Label.construct m n).text function entry = true := by
  refine ⟨isReserved_iff, fun other hcase hname hother ↦ ?_, fun m n ↦ ?_⟩
  · rw [Bool.eq_iff_iff, isReserved_iff, isReserved_iff, asciiLower_congr hcase]
    simp only [hname, hother, false_or]
  · have hlabel := Label.isConstructLabel_text m n
    exact isReserved_iff.2 (.inl (isTextLabel_iff.2 (.inr (.inr (.inr hlabel)))))

theorem isReserved_exact_register :
    List.Forall₂ EqUpToCase "R15d".toList "r15D".toList ∧ ¬ IsTextLabel "main" "_start" "R15d" ∧
      ¬ IsTextLabel "main" "_start" "r15D" ∧ isReserved "R15d" "main" "_start" = true ∧
      isReserved "r15D" "main" "_start" = true := by
  have hcase : List.Forall₂ EqUpToCase "R15d".toList "r15D".toList :=
    .cons (.lower (by decide +kernel)) (.cons (.same _) (.cons (.same _)
      (.cons (.upper (by decide +kernel)) .nil)))
  have hname : ¬ IsTextLabel "main" "_start" "R15d" := by decide +kernel
  have hother : ¬ IsTextLabel "main" "_start" "r15D" := by decide +kernel
  have hreserved : isReserved "R15d" "main" "_start" = true := by decide +kernel
  obtain ⟨-, hsame, -⟩ := isReserved_exact "R15d" "main" "_start"
  exact ⟨hcase, hname, hother, hreserved, (hsame _ hcase hname hother).trans hreserved⟩

end BlockLang
