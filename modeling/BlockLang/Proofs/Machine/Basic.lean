import BlockLang.Assembly.Basic
import BlockLang.Proofs.Machine.Memory
import Mathlib.Algebra.Ring.Int.Defs
import Mathlib.Logic.Function.Basic
import Mathlib.Logic.Relation

/-!
# The machine

The meaning of the instructions that generated code consists of, on the part of an x86-64 machine
that they touch: the registers, the flags of the last comparison and memory. Nothing here knows of
the language or of code generation.

The machine is deterministic and may get stuck: `Machine.exec` and `Assembly.step` have no result
where the real machine faults (a quotient that does not fit), where the line has no encoding that
means what it says, and where the meaning is not fixed here. The second is the case of operands of
different sizes, of an unknown label, and of a number that is too far: a displacement, and the
number of bytes that are taken from the stack pointer, are 32 bits that the machine extends by their
sign, so there is an instruction for such a number only below 2 ^ 31 (`IsNear`). The last concerns
flags: only a comparison defines them, and every other arithmetic instruction leaves them undefined.

Code is not in memory. The lines of the text section are numbered, and the number of a line is its
address: a call puts the number of the next line on the stack, and a return goes to the number that
it finds there.
-/

namespace BlockLang

/-- The number of bytes of an operand. -/
def Width.bytes : Width → Nat
  | byte => 1
  | dword => 4
  | qword => 8

/-! ### Comparisons -/

/-- The flags that a comparison sets. -/
structure Flags where
  /-- The difference is zero. -/
  zero : Bool
  /-- The difference is negative. -/
  sign : Bool
  /-- The difference does not fit. -/
  overflow : Bool
deriving DecidableEq, Repr

/-- The flags after a comparison of `a` with `b`. -/
def Flags.ofCompare (a b : BitVec 32) : Flags where
  zero := a - b == 0
  sign := (a - b).msb
  overflow := BitVec.ssubOverflow a b

/-- Whether the flags meet a condition. -/
def Cond.holds (f : Flags) : Cond → Bool
  | less => f.sign != f.overflow
  | greater => !f.zero && f.sign == f.overflow
  | equal => f.zero

/-- The result of an operation on two 32-bit operands. -/
def AluOp.apply : AluOp → BitVec 32 → BitVec 32 → BitVec 32
  | add => (· + ·)
  | sub => (· - ·)
  | imul => (· * ·)
  | and => (· &&& ·)
  | or => (· ||| ·)

/-- The number is one that the machine can add to an address or take from it: in an instruction it
stands in 32 bits, which are extended to 64 by their sign. -/
abbrev IsNear (n : Nat) : Prop := n < 2 ^ 31

/-! ### States -/

/-- The state of the machine. -/
structure Machine where
  /-- The registers. -/
  regs : Reg → BitVec 64
  /-- The flags, where they are defined. -/
  flags : Option Flags := none
  /-- The memory. -/
  mem : Memory

namespace Machine

/-- Sets a whole register. -/
def set (m : Machine) (r : Reg) (v : BitVec 64) : Machine :=
  { m with regs := Function.update m.regs r v }

/-- The low half of a register. -/
def low (m : Machine) (r : Reg) : BitVec 32 := (m.regs r).setWidth 32

/-- Sets the low half of a register, with zeros above it. -/
def setLow (m : Machine) (r : Reg) (v : BitVec 32) : Machine := m.set r (v.setWidth 64)

/-- Sets the low byte of a register and keeps the rest of it. -/
def setByte (m : Machine) (r : Reg) (v : BitVec 8) : Machine :=
  m.set r ((m.regs r).extractLsb' 8 56 ++ v)

/-- Leaves the flags undefined. -/
def clobber (m : Machine) : Machine := { m with flags := none }

/-- Writes `n` bytes of a number to memory. -/
def poke (m : Machine) (a n v : Nat) : Machine := { m with mem := m.mem.write a n v }

/-- The number at the top of the stack. -/
def top (m : Machine) : Nat := m.mem.read (m.regs .sp).toNat 8

/-- Puts a number on the stack. -/
def push (m : Machine) (v : Nat) : Machine :=
  (m.set .sp (m.regs .sp - 8)).poke (m.regs .sp - 8).toNat 8 v

/-- Takes the top off the stack. -/
def drop (m : Machine) : Machine := m.set .sp (m.regs .sp + 8)

variable (m : Machine) (r s : Reg)

@[simp] theorem regs_set (v : BitVec 64) :
    (m.set r v).regs s = if s = r then v else m.regs s :=
  Function.update_apply ..

@[simp] theorem mem_set (v : BitVec 64) : (m.set r v).mem = m.mem := rfl

@[simp] theorem regs_setLow (v : BitVec 32) :
    (m.setLow r v).regs s = if s = r then v.setWidth 64 else m.regs s :=
  m.regs_set r s _

@[simp] theorem low_setLow (v : BitVec 32) :
    (m.setLow r v).low s = if s = r then v else m.low s := by
  rw [low, regs_setLow]
  split
  · rw [BitVec.setWidth_setWidth_of_le v (by omega), BitVec.setWidth_eq]
  · rfl

@[simp] theorem mem_setLow (v : BitVec 32) : (m.setLow r v).mem = m.mem := rfl

@[simp] theorem regs_setByte_of_ne (v : BitVec 8) (h : s ≠ r) :
    (m.setByte r v).regs s = m.regs s :=
  (m.regs_set r s _).trans (if_neg h)

/-- The low byte of a register after it was set. -/
@[simp] theorem setWidth_regs_setByte (v : BitVec 8) : ((m.setByte r v).regs r).setWidth 8 = v := by
  rw [setByte, regs_set, if_pos rfl, BitVec.setWidth_append, dif_pos (Nat.le_refl 8),
    BitVec.setWidth_eq]

@[simp] theorem regs_clobber : m.clobber.regs = m.regs := rfl

@[simp] theorem low_clobber : m.clobber.low r = m.low r := rfl

@[simp] theorem regs_poke (a n v : Nat) : (m.poke a n v).regs = m.regs := rfl

@[simp] theorem mem_poke (a n v : Nat) : (m.poke a n v).mem = m.mem.write a n v := rfl

/-- Where the top of the stack is after a push, if there is room. -/
theorem toNat_sp_push (v : Nat) (h : 8 ≤ (m.regs .sp).toNat) :
    ((m.push v).regs .sp).toNat = (m.regs .sp).toNat - 8 := by
  have hle : (8 : BitVec 64) ≤ m.regs .sp := by
    rw [BitVec.le_def]
    exact h
  rw [push, regs_poke, regs_set, if_pos rfl]
  exact BitVec.toNat_sub_of_le hle

theorem mem_push (v : Nat) (h : 8 ≤ (m.regs .sp).toNat) :
    (m.push v).mem = m.mem.write ((m.regs .sp).toNat - 8) 8 v := by
  have hsp := m.toNat_sp_push v h
  rw [push, regs_poke, regs_set, if_pos rfl] at hsp
  rw [push, mem_poke, mem_set, hsp]

/-- The address of a place in memory, where `cells` knows the data section. -/
def locate (cells : String → Option Nat) (m : Machine) : Address → Option Nat
  | .cell x => cells x
  | .slot n => if IsNear n then some (m.regs .bp - BitVec.ofNat 64 n).toNat else none
  | .argument n => if IsNear n then some (m.regs .bp + BitVec.ofNat 64 n).toNat else none

/-- Divides the signed number in the low halves of the data register and the accumulator. There is
no result if the quotient does not fit into 32 bits. -/
def divide (m : Machine) (divisor : BitVec 32) : Option Machine :=
  let dividend : BitVec 64 := m.low .dx ++ m.low .ax
  let quotient := dividend.toInt.tdiv divisor.toInt
  if divisor = 0 ∨ quotient < -2 ^ 31 ∨ 2 ^ 31 ≤ quotient then none
  else
    some ((m.setLow .ax (BitVec.ofInt 32 quotient)).setLow .dx
      (BitVec.ofInt 32 (dividend.toInt.tmod divisor.toInt))).clobber

/-- The state after an instruction that goes on with the next line. -/
def exec (cells : String → Option Nat) (m : Machine) : Instr → Option Machine
  | .push r => some (m.push (m.regs r).toNat)
  | .pop r => some (m.drop.set r (BitVec.ofNat 64 m.top))
  | .move .byte d s => some (m.setByte d ((m.regs s).setWidth 8))
  | .move .dword d s => some (m.setLow d (m.low s))
  | .move .qword d s => some (m.set d (m.regs s))
  | .moveImm d v => some (m.setLow d v.toBitVec)
  | .load d src =>
    if src.width = .dword then
      (m.locate cells src.address).map fun a ↦ m.setLow d (BitVec.ofNat 32 (m.mem.read a 4))
    else none
  | .loadZx d src =>
    if src.width = .byte then
      (m.locate cells src.address).map fun a ↦ m.setLow d (BitVec.ofNat 32 (m.mem.read a 1))
    else none
  | .store dst w s =>
    if dst.width = w then
      (m.locate cells dst.address).map fun a ↦ m.poke a w.bytes (m.regs s).toNat
    else none
  | .storeImm dst v =>
    (m.locate cells dst.address).map fun a ↦
      m.poke a dst.width.bytes (v.toBitVec.signExtend 64).toNat
  | .reserve n =>
    if IsNear n then some (m.set .sp (m.regs .sp - BitVec.ofNat 64 n)).clobber else none
  | .alu op d s => some (m.setLow d (op.apply (m.low d) (m.low s))).clobber
  | .xorImm d v => some (m.setLow d (m.low d ^^^ v.toBitVec)).clobber
  | .exchange a b => some ((m.setLow a (m.low b)).setLow b (m.low a))
  | .cdq => some (m.setLow .dx (if (m.low .ax).msb then -1 else 0))
  | .idiv r => m.divide (m.low r)
  | .cmp a b => some { m with flags := some (.ofCompare (m.low a) (m.low b)) }
  | .cmpImm a v => some { m with flags := some (.ofCompare (m.low a) v.toBitVec) }
  | .set c d => m.flags.map fun f ↦ m.setByte d (if c.holds f then 1 else 0)
  | .moveZx d s => some (m.setLow d (((m.regs s).setWidth 8).setWidth 32))
  | .jump _ => none
  | .jumpEqual _ => none
  | .call _ => none
  | .ret => none
  | .syscall => none

/-- The state after several such instructions. -/
def execAll (cells : String → Option Nat) (m : Machine) (is : List Instr) : Option Machine :=
  is.foldlM (exec cells) m

end Machine

/-! ### Programs -/

/-- The address of a data cell, where the given cells follow one another from the address `data`
on. -/
def cellAddress (data : Nat) : List Cell → String → Option Nat
  | [], _ => none
  | c :: cs, x => if c.name = x then some data else cellAddress (data + c.width.bytes) cs x

/-- The number of bytes of data cells. -/
def cellBytes (cs : List Cell) : Nat := (cs.map fun c ↦ c.width.bytes).sum

/-- The label that a line defines, as it is spelt. -/
def Line.labelText? : Line → Option String
  | label l => some l.text
  | instr _ => none
  | comment _ => none
  | blank => none

/-- A point of a run: the line to be executed, and the state before it. -/
structure Config where
  /-- The number of the line. -/
  pc : Nat
  /-- The state. -/
  machine : Machine

namespace Assembly

/-- All labels that the program defines, as they are spelt. -/
def labels (a : Assembly) : List String :=
  a.cells.map Cell.name ++ a.lines.filterMap Line.labelText?

/-- The line that a label stands for. -/
def target (a : Assembly) (l : Label) : Option Nat :=
  a.lines.findIdx? fun line ↦ line.labelText? = some l.text

/-- The next point of a run of the program, with its data section at the address `data`. -/
def step (a : Assembly) (data : Nat) (c : Config) : Option Config :=
  match a.lines[c.pc]? with
  | none => none
  | some (.label _) => some ⟨c.pc + 1, c.machine⟩
  | some (.comment _) => some ⟨c.pc + 1, c.machine⟩
  | some .blank => some ⟨c.pc + 1, c.machine⟩
  | some (.instr (.jump l)) => (a.target l).map fun pc ↦ ⟨pc, c.machine⟩
  | some (.instr (.jumpEqual l)) =>
    c.machine.flags.bind fun f ↦
      if f.zero then (a.target l).map fun pc ↦ ⟨pc, c.machine⟩ else some ⟨c.pc + 1, c.machine⟩
  | some (.instr (.call l)) => (a.target l).map fun pc ↦ ⟨pc, c.machine.push (c.pc + 1)⟩
  | some (.instr .ret) => some ⟨c.machine.top, c.machine.drop⟩
  | some (.instr i) => (c.machine.exec (cellAddress data a.cells) i).map fun m ↦ ⟨c.pc + 1, m⟩

/-- The second point of a run comes some steps after the first one. -/
def Steps (a : Assembly) (data : Nat) : Config → Config → Prop :=
  Relation.ReflTransGen fun c d ↦ a.step data c = some d

end Assembly

end BlockLang
