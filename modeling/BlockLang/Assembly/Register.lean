import BlockLang.Ty

/-!
# Registers and memory operands

The part of the x86-64 register file that the generated code uses, and the three ways in which it
addresses memory.
-/

namespace BlockLang

/-- The size of an operand. -/
inductive Width where
  /-- One byte. -/
  | byte
  /-- Four bytes. -/
  | dword
  /-- Eight bytes. -/
  | qword
deriving DecidableEq, Repr

namespace Width

/-- The keyword before a memory operand of the size. -/
def keyword : Width → String
  | byte => "byte"
  | dword => "dword"
  | qword => "qword"

/-- The directive for a data cell of the size. -/
def directive : Width → String
  | byte => "db"
  | dword => "dd"
  | qword => "dq"

end Width

/-- The size of the operand that holds a variable of the type. -/
def Ty.width : Ty → Width
  | bool => .byte
  | int => .dword
  | void => .dword
  | error => .dword

/-- A register, whatever part of it an instruction uses. -/
inductive Reg where
  /-- The accumulator. -/
  | ax
  /-- The counter. -/
  | cx
  /-- The data register. -/
  | dx
  /-- The source index. -/
  | si
  /-- The destination index. -/
  | di
  /-- The base of the frame. -/
  | bp
  /-- The top of the stack. -/
  | sp
  /-- The first of the numbered registers. -/
  | r8
  /-- The second of the numbered registers. -/
  | r9
deriving DecidableEq, Repr

/-- The name of the part of a register that has the given size. -/
def Reg.name : Reg → Width → String
  | ax, .byte => "al"
  | ax, .dword => "eax"
  | ax, .qword => "rax"
  | cx, .byte => "cl"
  | cx, .dword => "ecx"
  | cx, .qword => "rcx"
  | dx, .byte => "dl"
  | dx, .dword => "edx"
  | dx, .qword => "rdx"
  | si, .byte => "sil"
  | si, .dword => "esi"
  | si, .qword => "rsi"
  | di, .byte => "dil"
  | di, .dword => "edi"
  | di, .qword => "rdi"
  | bp, .byte => "bpl"
  | bp, .dword => "ebp"
  | bp, .qword => "rbp"
  | sp, .byte => "spl"
  | sp, .dword => "esp"
  | sp, .qword => "rsp"
  | r8, .byte => "r8b"
  | r8, .dword => "r8d"
  | r8, .qword => "r8"
  | r9, .byte => "r9b"
  | r9, .dword => "r9d"
  | r9, .qword => "r9"

/-- A place in memory. -/
inductive Address where
  /-- The data cell with the given label. -/
  | cell (name : String)
  /-- The slot that many bytes below the base of the frame. -/
  | slot (offset : Nat)
  /-- The argument that many bytes above the base of the frame. -/
  | argument (offset : Nat)
deriving DecidableEq, Repr

/-- The address in brackets. -/
def Address.text : Address → String
  | cell x => s!"[{x}]"
  | slot n => s!"[rbp-{n}]"
  | argument n => s!"[rbp+{n}]"

/-- A memory operand. -/
structure Mem where
  /-- Its size. -/
  width : Width
  /-- Its place. -/
  address : Address
deriving DecidableEq, Repr

/-- The size and the place. -/
def Mem.text (m : Mem) : String := m.width.keyword ++ " " ++ m.address.text

end BlockLang
