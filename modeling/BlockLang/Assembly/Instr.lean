import BlockLang.Assembly.Label
import BlockLang.Assembly.Register

/-!
# Instructions

The instructions that occur in generated code. Arithmetic works on 32-bit registers; the stack holds
64-bit ones.
-/

namespace BlockLang

/-- An operation on two 32-bit registers, with its result in the first. -/
inductive AluOp where
  /-- Sum. -/
  | add
  /-- Difference. -/
  | sub
  /-- Low half of the product. -/
  | imul
  /-- Bitwise conjunction. -/
  | and
  /-- Bitwise disjunction. -/
  | or
deriving DecidableEq, Repr

/-- The mnemonic. -/
def AluOp.mnemonic : AluOp → String
  | add => "add"
  | sub => "sub"
  | imul => "imul"
  | and => "and"
  | or => "or"

/-- A condition on the last comparison. -/
inductive Cond where
  /-- Signed less. -/
  | less
  /-- Signed greater. -/
  | greater
  /-- Equal. -/
  | equal
deriving DecidableEq, Repr

/-- The mnemonic of the instruction that stores the condition in a byte. -/
def Cond.mnemonic : Cond → String
  | less => "setl"
  | greater => "setg"
  | equal => "sete"

/-- An instruction. -/
inductive Instr where
  /-- Puts a 64-bit register on the stack. -/
  | push (r : Reg)
  /-- Takes a 64-bit register from the stack. -/
  | pop (r : Reg)
  /-- Copies one register to another. -/
  | move (width : Width) (dst src : Reg)
  /-- Sets a 32-bit register. -/
  | moveImm (dst : Reg) (value : Int32)
  /-- Reads a 32-bit register from memory. -/
  | load (dst : Reg) (src : Mem)
  /-- Reads a 32-bit register from a smaller operand in memory, with zeros above it. -/
  | loadZx (dst : Reg) (src : Mem)
  /-- Writes a register, or its low byte, to memory. -/
  | store (dst : Mem) (width : Width) (src : Reg)
  /-- Writes a number to memory. -/
  | storeImm (dst : Mem) (value : Int32)
  /-- Lowers the top of the stack by a number of bytes. -/
  | reserve (bytes : Nat)
  /-- Combines two 32-bit registers. -/
  | alu (op : AluOp) (dst src : Reg)
  /-- Flips bits of a 32-bit register. -/
  | xorImm (dst : Reg) (value : Int32)
  /-- Swaps two 32-bit registers. -/
  | exchange (a b : Reg)
  /-- Extends the sign of the accumulator into the data register. -/
  | cdq
  /-- Divides the data register and the accumulator by a 32-bit register. -/
  | idiv (divisor : Reg)
  /-- Compares two 32-bit registers. -/
  | cmp (a b : Reg)
  /-- Compares a 32-bit register with a number. -/
  | cmpImm (a : Reg) (value : Int32)
  /-- Sets the low byte of a register to 1 if the condition holds, and to 0 otherwise. -/
  | set (c : Cond) (dst : Reg)
  /-- Copies the low byte of a register to a 32-bit one, with zeros above it. -/
  | moveZx (dst src : Reg)
  /-- Goes on at a label. -/
  | jump (target : Label)
  /-- Goes on at a label if the last comparison found its operands equal. -/
  | jumpEqual (target : Label)
  /-- Calls a function. -/
  | call (target : Label)
  /-- Returns from a function. -/
  | ret
  /-- Calls the system. -/
  | syscall
deriving DecidableEq, Repr

/-- The instruction as a line of assembly, without its indentation. -/
def Instr.text : Instr → String
  | push r => "push " ++ r.name .qword
  | pop r => "pop " ++ r.name .qword
  | move w d s => "mov " ++ d.name w ++ ", " ++ s.name w
  | moveImm d v => "mov " ++ d.name .dword ++ ", " ++ toString v.toInt
  | load d m => "mov " ++ d.name .dword ++ ", " ++ m.text
  | loadZx d m => "movzx " ++ d.name .dword ++ ", " ++ m.text
  | store m w s => "mov " ++ m.text ++ ", " ++ s.name w
  | storeImm m v => "mov " ++ m.text ++ ", " ++ toString v.toInt
  | reserve n => "sub rsp, " ++ toString n
  | alu op d s => op.mnemonic ++ " " ++ d.name .dword ++ ", " ++ s.name .dword
  | xorImm d v => "xor " ++ d.name .dword ++ ", " ++ toString v.toInt
  | exchange a b => "xchg " ++ a.name .dword ++ ", " ++ b.name .dword
  | cdq => "cdq"
  | idiv r => "idiv " ++ r.name .dword
  | cmp a b => "cmp " ++ a.name .dword ++ ", " ++ b.name .dword
  | cmpImm a v => "cmp " ++ a.name .dword ++ ", " ++ toString v.toInt
  | set c d => c.mnemonic ++ " " ++ d.name .byte
  | moveZx d s => "movzx " ++ d.name .dword ++ ", " ++ s.name .byte
  | jump l => "jmp " ++ l.text
  | jumpEqual l => "je " ++ l.text
  | call l => "call " ++ l.text
  | ret => "ret"
  | syscall => "syscall"

end BlockLang
