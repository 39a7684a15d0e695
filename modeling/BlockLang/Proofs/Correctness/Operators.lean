import BlockLang.Lowering.Expr
import BlockLang.Proofs.Machine.Execution
import BlockLang.Proofs.Semantics.Interpreter

/-!
# Operators on the machine

The code of an operator finds the left operand in the counter and the right one in the accumulator,
and leaves the result in the accumulator: `BinaryOp.exec_code`, one case for each operator. A truth
value is the word 0 or 1, so bitwise operations are the logical ones. An order test goes through the
flags of a comparison, where a difference that does not fit has the wrong sign, and a division
through a dividend of 64 bits, which is the left operand with its sign extended.
-/

namespace BlockLang

/-- The value as the contents of a whole register. -/
def Value.register (v : Value) : BitVec 64 := v.toWord.toBitVec.setWidth 64

/-- The registers of the frame and the memory are the same. -/
structure Machine.Keeps (m m' : Machine) : Prop where
  /-- The same top of the stack. -/
  sp : m'.regs .sp = m.regs .sp
  /-- The same base of the frame. -/
  bp : m'.regs .bp = m.regs .bp
  /-- The same memory. -/
  mem : m'.mem = m.mem

/-! ### Comparisons -/

/-- The difference of two signed numbers of 32 bits, as 32 bits hold it. -/
private theorem bmod_sub {x y : Int} (hx : -2 ^ 31 ≤ x ∧ x < 2 ^ 31)
    (hy : -2 ^ 31 ≤ y ∧ y < 2 ^ 31) :
    (x - y).bmod (2 ^ 32) =
      if x - y < -2 ^ 31 then x - y + 2 ^ 32
      else if 2 ^ 31 ≤ x - y then x - y - 2 ^ 32 else x - y := by
  rw [Int.bmod_def]
  omega

namespace Flags

variable (a b : BitVec 32)

theorem zero_ofCompare : (ofCompare a b).zero = decide (a = b) := by
  have h : a - b = 0 ↔ a = b := by bv_omega
  rw [ofCompare, Bool.eq_iff_iff, beq_iff_eq, h, decide_eq_true_iff]

/-- The sign of a difference is wrong exactly when the difference does not fit. -/
theorem sign_bne_overflow_ofCompare :
    ((ofCompare a b).sign != (ofCompare a b).overflow) = decide (a.toInt < b.toInt) := by
  have ha : -2 ^ 31 ≤ a.toInt ∧ a.toInt < 2 ^ 31 := ⟨a.le_toInt, a.toInt_lt⟩
  have hb : -2 ^ 31 ≤ b.toInt ∧ b.toInt < 2 ^ 31 := ⟨b.le_toInt, b.toInt_lt⟩
  have hsign : (ofCompare a b).sign = decide ((a.toInt - b.toInt).bmod (2 ^ 32) < 0) := by
    rw [ofCompare, BitVec.msb_eq_toInt, BitVec.toInt_sub]
  have hoverflow : (ofCompare a b).overflow =
      decide (a.toInt - b.toInt < -2 ^ 31 ∨ 2 ^ 31 ≤ a.toInt - b.toInt) := by
    rw [ofCompare, BitVec.ssubOverflow, Bool.or_comm, Bool.decide_or]
  rw [hsign, hoverflow, bmod_sub ha hb, Bool.eq_iff_iff, bne_iff_ne, ne_eq, decide_eq_decide,
    decide_eq_true_iff]
  omega

end Flags

namespace Cond

variable (a b : BitVec 32)

theorem holds_less : less.holds (.ofCompare a b) = decide (a.toInt < b.toInt) :=
  Flags.sign_bne_overflow_ofCompare a b

theorem holds_equal : equal.holds (.ofCompare a b) = decide (a = b) := Flags.zero_ofCompare a b

theorem holds_greater : greater.holds (.ofCompare a b) = decide (b.toInt < a.toInt) := by
  have hsign : ((Flags.ofCompare a b).sign == (Flags.ofCompare a b).overflow) =
      !decide (a.toInt < b.toInt) := by
    rw [← Flags.sign_bne_overflow_ofCompare, bne, Bool.not_not]
  have hne : a = b ↔ a.toInt = b.toInt := BitVec.toInt_inj.symm
  rw [holds, Flags.zero_ofCompare, hsign, Bool.eq_iff_iff]
  simp only [Bool.and_eq_true, Bool.not_eq_true', decide_eq_false_iff_not, decide_eq_true_iff, hne]
  omega

end Cond

namespace Machine

variable {cells : String → Option Nat} {m : Machine}

/-- The code of a comparison leaves its outcome as a truth value. -/
theorem execAll_compareCode (c : Cond) :
    ∃ m', m.execAll cells (compareCode c) = some m' ∧
      m'.regs .ax = (Value.bool (c.holds (.ofCompare (m.low .cx) (m.low .ax)))).register ∧
      m.Keeps m' := by
  refine ⟨_, rfl, ?_, ⟨?_, ?_, rfl⟩⟩
  · rw [regs_setLow, if_pos rfl, setWidth_regs_setByte]
    cases c.holds (.ofCompare (m.low .cx) (m.low .ax)) <;> rfl
  · simp
  · simp

/-! ### Division -/

/-- A number with its sign extended into a second word. -/
theorem toInt_sign_append (x : BitVec 32) :
    ((if x.msb then -1 else 0 : BitVec 32) ++ x).toInt = x.toInt := by
  rw [BitVec.toInt_append, if_neg (by decide), BitVec.toInt_eq_msb_cond x]
  cases x.msb
  · show 2 ^ 32 * (0 : BitVec 32).toInt + (x.toNat : Int) = x.toNat
    rw [show (0 : BitVec 32).toInt = 0 by decide]
    omega
  · show 2 ^ 32 * (-1 : BitVec 32).toInt + (x.toNat : Int) = x.toNat - 2 ^ 32
    rw [show (-1 : BitVec 32).toInt = -1 by decide]
    omega

/-- The code of a division, where the quotient fits. -/
theorem execAll_divCode {a b : Int32} (ha : m.low .cx = a.toBitVec) (hb : m.low .ax = b.toBitVec)
    (hzero : b ≠ 0) (hfits : a ≠ Int32.minValue ∨ b ≠ -1) :
    ∃ m', m.execAll cells BinaryOp.div.code = some m' ∧
      m'.regs .ax = (Value.int (a / b)).register ∧ m.Keeps m' := by
  have hdivisor : b.toBitVec ≠ 0 := fun h ↦ hzero (Int32.toBitVec_inj.1 h)
  have hquotient : (a / b).toBitVec.toInt = a.toBitVec.toInt.tdiv b.toBitVec.toInt := by
    rw [Int32.toBitVec_div]
    refine BitVec.toInt_sdiv_of_ne_or_ne _ _ (hfits.imp (fun h h' ↦ h ?_) fun h h' ↦ h ?_)
    · exact Int32.toBitVec_inj.1 h'
    · exact Int32.toBitVec_inj.1 h'
  have hlo : -2 ^ 31 ≤ (a / b).toBitVec.toInt := BitVec.le_toInt _
  have hhi : (a / b).toBitVec.toInt < 2 ^ 31 := BitVec.toInt_lt
  -- after the exchange and the extension, the dividend is the left operand
  generalize hm₁ : ((m.setLow .ax (m.low .cx)).setLow .cx (m.low .ax)).setLow .dx
    (if (m.low .cx).msb then -1 else 0) = m₁
  have hcx : m₁.low .cx = b.toBitVec := by simp [← hm₁, hb]
  have hdividend : (m₁.low .dx ++ m₁.low .ax).toInt = a.toBitVec.toInt := by
    rw [← toInt_sign_append a.toBitVec]
    simp [← hm₁, ha]
  have hdivide : ∃ m₂, m₁.divide (m₁.low .cx) = some m₂ ∧
      m₂.regs .ax = (Value.int (a / b)).register ∧ m₁.Keeps m₂ := by
    rw [divide, hcx, hdividend, ← hquotient, if_neg]
    · refine ⟨_, rfl, ?_, ⟨by simp, by simp, rfl⟩⟩
      simp [Value.register, Value.toWord]
    · rintro (h | h | h)
      · exact hdivisor h
      · omega
      · omega
  obtain ⟨m₂, hm₂, hax, hkeeps⟩ := hdivide
  refine ⟨m₂, ?_, hax, ⟨?_, ?_, ?_⟩⟩
  · have hdx : (if ((m.setLow .ax (m.low .cx)).setLow .cx (m.low .ax)).low .ax |>.msb then -1
        else 0 : BitVec 32) = if (m.low .cx).msb then -1 else 0 := by simp
    simp only [BinaryOp.code, execAll_cons, exec, Option.bind_some, hdx, hm₁, hm₂, execAll_nil]
  · rw [hkeeps.sp, ← hm₁]
    simp
  · rw [hkeeps.bp, ← hm₁]
    simp
  · rw [hkeeps.mem, ← hm₁]
    rfl

end Machine

/-! ### All operators -/

/-- Operands of an operator with a result: two integers, or two truth values. -/
theorem BinaryOp.apply_eq_some {op : BinaryOp} {a b v : Value} (h : op.apply a b = some v) :
    (∃ x y, a = .int x ∧ b = .int y) ∨ ∃ x y, a = .bool x ∧ b = .bool y := by
  cases a with
  | int x =>
    cases b with
    | int y => exact .inl ⟨x, y, rfl, rfl⟩
    | bool y => cases op <;> cases h
  | bool x =>
    cases b with
    | int y => cases op <;> cases h
    | bool y => exact .inr ⟨x, y, rfl, rfl⟩

/-- An operation on the accumulator and the counter. -/
theorem Machine.execAll_alu (cells : String → Option Nat) (m : Machine) (op : AluOp) {v : Value}
    (hv : op.apply (m.low .ax) (m.low .cx) = v.toWord.toBitVec) :
    ∃ m', m.execAll cells [.alu op .ax .cx] = some m' ∧ m'.regs .ax = v.register ∧ m.Keeps m' := by
  refine ⟨_, rfl, ?_, ⟨by simp, by simp, rfl⟩⟩
  simp [hv, Value.register]

/-- The code of an operator computes its result. -/
theorem BinaryOp.exec_code (cells : String → Option Nat) {m : Machine} {op : BinaryOp}
    {a b v : Value} (h : op.eval a b = some v) (ha : m.low .cx = a.toWord.toBitVec)
    (hb : m.low .ax = b.toWord.toBitVec) :
    ∃ m', m.execAll cells op.code = some m' ∧ m'.regs .ax = v.register ∧ m.Keeps m' := by
  rw [eval] at h
  split at h
  · cases h
  rename_i htraps
  -- what a comparison finds is what the order and the equality of the operands say
  have hcompare : ∀ c : Cond, v = .bool (c.holds (.ofCompare a.toWord.toBitVec b.toWord.toBitVec)) →
      ∃ m', m.execAll cells (compareCode c) = some m' ∧ m'.regs .ax = v.register ∧ m.Keeps m' := by
    rintro c rfl
    rw [← ha, ← hb]
    exact Machine.execAll_compareCode c
  obtain ⟨x, y, rfl, rfl⟩ | ⟨x, y, rfl, rfl⟩ := apply_eq_some h
  · cases op with
    | add =>
      obtain rfl := Option.some.inj h
      refine m.execAll_alu cells .add ?_
      show m.low .ax + m.low .cx = (x + y).toBitVec
      rw [ha, hb, Int32.toBitVec_add, BitVec.add_comm]
      rfl
    | sub =>
      obtain rfl := Option.some.inj h
      refine ⟨_, rfl, ?_, ⟨by simp, by simp, rfl⟩⟩
      simp [ha, hb, AluOp.apply, Value.register, Value.toWord]
    | mul =>
      obtain rfl := Option.some.inj h
      refine m.execAll_alu cells .imul ?_
      show m.low .ax * m.low .cx = (x * y).toBitVec
      rw [ha, hb, Int32.toBitVec_mul, BitVec.mul_comm]
      rfl
    | div =>
      obtain rfl := Option.some.inj h
      have hsafe : y ≠ 0 ∧ (x ≠ Int32.minValue ∨ y ≠ -1) := by
        simpa [traps, Classical.or_iff_not_imp_left] using htraps
      exact Machine.execAll_divCode ha hb hsafe.1 hsafe.2
    | lt =>
      obtain rfl := Option.some.inj h
      refine hcompare .less ?_
      rw [Cond.holds_less]
      simp only [Int32.lt_iff_toInt_lt]
      rfl
    | gt =>
      obtain rfl := Option.some.inj h
      refine hcompare .greater ?_
      rw [Cond.holds_greater]
      simp only [Int32.lt_iff_toInt_lt]
      rfl
    | eq =>
      obtain rfl := Option.some.inj h
      refine hcompare .equal ?_
      rw [Cond.holds_equal]
      simp [Int32.toBitVec_inj, Value.toWord]
    | and => cases h
    | or => cases h
  · cases op with
    | and =>
      obtain rfl := Option.some.inj h
      refine m.execAll_alu cells .and ?_
      rw [ha, hb]
      cases x <;> cases y <;> rfl
    | or =>
      obtain rfl := Option.some.inj h
      refine m.execAll_alu cells .or ?_
      rw [ha, hb]
      cases x <;> cases y <;> rfl
    | eq =>
      obtain rfl := Option.some.inj h
      refine hcompare .equal ?_
      rw [Cond.holds_equal]
      cases x <;> cases y <;> rfl
    | add => cases h
    | sub => cases h
    | mul => cases h
    | div => cases h
    | lt => cases h
    | gt => cases h

/-- The code of a negation flips a truth value. -/
theorem exec_notCode {cells : String → Option Nat} {m : Machine} {a v : Value}
    (h : a.not = some v) (ha : m.low .ax = a.toWord.toBitVec) :
    ∃ m', m.execAll cells notCode = some m' ∧ m'.regs .ax = v.register ∧ m.Keeps m' := by
  refine ⟨_, rfl, ?_, ⟨by simp, by simp, rfl⟩⟩
  cases a with
  | int x => cases h
  | bool b =>
    obtain rfl := Option.some.inj h
    rw [Machine.regs_clobber, Machine.regs_setLow, if_pos rfl, ha]
    cases b <;> rfl

end BlockLang
