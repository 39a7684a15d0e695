import BlockLang.Assembly.Label

/-!
# Names that a data cell cannot have

A global variable becomes a label of the data section, so it must not be spelt like a label of the
text section, a register or a keyword of the assembler. The assembler reads registers and keywords
without regard to case.
-/

namespace BlockLang

namespace Reserved

/-- The registers of two letters that also exist in wider forms. -/
def wordRegisters : List String := ["ax", "bx", "cx", "dx", "si", "di", "bp", "sp"]

/-- The registers of one byte, and the instruction pointer. -/
def byteRegisters : List String :=
  ["al", "bl", "cl", "dl", "ah", "bh", "ch", "dh", "sil", "dil", "bpl", "spl", "rip"]

/-- The keywords of the assembler. -/
def keywords : List String :=
  ["byte", "word", "dword", "qword", "rel", "abs", "section", "global"]

/-- Whether the characters are digits, at least one. -/
def isNumber (cs : List Char) : Bool := !cs.isEmpty && cs.all Char.isDigit

/-- Whether the name is a label that a construct may get. -/
def isConstructLabel (name : String) : Bool :=
  Mark.all.any fun m => (m.stem.toList.isPrefixOf? name.toList).any isNumber

/-- The number that a list of digits denotes. -/
def numeral (digits : List Char) : Nat :=
  digits.foldl (fun n c => 10 * n + (c.toNat - '0'.toNat)) 0

/-- Whether the characters, after the letter of a numbered register, name one: a number from 8 to 15
without a leading zero, and perhaps a letter for the size. -/
def isRegisterNumber (cs : List Char) : Bool :=
  let digits := cs.takeWhile Char.isDigit
  let size := cs.dropWhile Char.isDigit
  digits.head? != some '0' && 8 ≤ numeral digits && numeral digits ≤ 15 &&
    [[], ['d'], ['w'], ['b']].contains size

/-- Whether the name, in lower case, is a register. -/
def isRegister (name : String) : Bool :=
  wordRegisters.contains name || byteRegisters.contains name ||
    match name.toList with
    | [] => false
    | c :: cs =>
      (c = 'r' || c = 'e') && wordRegisters.contains (String.ofList cs) ||
        c = 'r' && isRegisterNumber cs

end Reserved

/-- The name with its ASCII capitals made small. -/
def asciiLower (name : String) : String := String.ofList (name.toList.map Char.toLower)

/-- Whether a global variable cannot have the name, because it means something else in the assembly
text of a program with the given function and entry label. -/
def isReserved (name function entry : String) : Bool :=
  name = function || name = entry || name = function ++ exitSuffix ||
    Reserved.isConstructLabel name || Reserved.isRegister (asciiLower name) ||
    Reserved.keywords.contains (asciiLower name)

end BlockLang
