import BlockLang.Proofs.Correctness.Frame
import BlockLang.Proofs.Correctness.Operators
import BlockLang.Proofs.Static.Constant

/-!
# Expressions on the machine

The code of an expression leaves its value in the accumulator (`Expr.exec_assemble`). The induction
is on the expression, and its invariant is about the stack: the top of the stack comes back to where
it was, nothing at or above it changes, and nothing is written further below it than the expression
is deep. A left operand that waits on the stack thus survives the code of the right one, and no
variable is touched.

Folding replaces the code of a constant by its value, which is the one that the interpreter finds
(`Expr.foldedValue?_eq`). No typing is needed here: an expression that has a value at run time has
one before it.
-/

namespace BlockLang

namespace Expr

/-! ### Constants -/

/-- What a run computes for a constant is known before it. -/
theorem value_of_eval {e : Expr} (hconst : e.isConstant = true) {ρ : String → Option Value}
    {v : Value} (h : e.eval ρ = some v) : e.value .empty = some v := by
  induction e generalizing v with
  | num p w => exact h
  | bool p b => exact h
  | var p x => cases hconst
  | not p e ih =>
    obtain ⟨w, hw, hnot⟩ := Option.bind_eq_some_iff.1 h
    rw [value, ih hconst hw]
    exact hnot
  | binary p op l r ihl ihr =>
    obtain ⟨hl, hr⟩ := Bool.and_eq_true_iff.1 hconst
    obtain ⟨a, ha, hb⟩ := Option.bind_eq_some_iff.1 h
    obtain ⟨b, hb, hop⟩ := Option.bind_eq_some_iff.1 hb
    have happly : op.apply a b = some v := by
      rw [BinaryOp.eval] at hop
      split at hop
      · cases hop
      · exact hop
    rw [value, ihl hl ha, ihr hr hb, BinaryOp.combine, if_neg]
    · exact happly
    · simp [BinaryOp.isOpenQuotient, hr]

/-- Folding finds the value that a run computes. -/
theorem foldedValue?_eq {fold : Bool} {e : Expr} {ρ : String → Option Value} {v w : Value}
    (h : e.eval ρ = some v) (hw : e.foldedValue? fold = some w) : w = v := by
  rw [foldedValue?] at hw
  split at hw
  · obtain ⟨hconst, hvalue⟩ := constantValue_eq_some_iff.1 hw
    exact Option.some.inj (hvalue.symm.trans (value_of_eval hconst h))
  · cases hw

/-- A number that is stored at once is the value that a run computes. -/
theorem startWord?_eq {fold : Bool} {e : Expr} {ρ : String → Option Value} {v : Value} {w : Int32}
    (h : e.eval ρ = some v) (hw : e.startWord? fold = some w) : w = v.toWord := by
  rw [startWord?] at hw
  rcases hfold : e.foldedValue? fold with - | u
  · rw [hfold] at hw
    cases e with
    | num p x =>
      obtain rfl := Option.some.inj h
      exact (Option.some.inj hw).symm
    | bool p b =>
      obtain rfl := Option.some.inj h
      exact (Option.some.inj hw).symm
    | var p x => cases hw
    | not p e => cases hw
    | binary p op l r => cases hw
  · rw [hfold] at hw
    rw [← foldedValue?_eq h hfold]
    exact (Option.some.inj hw).symm

/-- A typed expression has a value of its type, if the variables do. -/
theorem HasType.ty_of_eval {Γ : String → Option Ty} {ρ : String → Option Value}
    (henv : ∀ x t v, Γ x = some t → ρ x = some v → v.ty = t) {e : Expr} {t : Ty}
    (h : HasType Γ e t) {v : Value} (hv : e.eval ρ = some v) : v.ty = t := by
  induction h generalizing v with
  | num p w => obtain rfl := Option.some.inj hv; rfl
  | bool p b => obtain rfl := Option.some.inj hv; rfl
  | var p h => exact henv _ _ v h hv
  | not p h ih =>
    obtain ⟨w, hw, hnot⟩ := Option.bind_eq_some_iff.1 hv
    cases w with
    | int w => cases hnot
    | bool b => obtain rfl := Option.some.inj hnot; rfl
  | binary p hop hl hr ihl ihr =>
    obtain ⟨a, ha, hb⟩ := Option.bind_eq_some_iff.1 hv
    obtain ⟨b, hb, heval⟩ := Option.bind_eq_some_iff.1 hb
    obtain ⟨w, hw, hty⟩ := BinaryOp.Takes.exists_apply (a := a) (b := b) (ihl ha ▸ ihr hb ▸ hop)
    rw [BinaryOp.eval] at heval
    split at heval
    · cases heval
    · rw [hw] at heval
      exact Option.some.inj heval ▸ hty

/-- How many operands of the expression wait on the stack at one time, at most. -/
def depth : Expr → Nat
  | num _ _ => 0
  | bool _ _ => 0
  | var _ _ => 0
  | not _ e => e.depth
  | binary _ _ l r => max l.depth (r.depth + 1)

end Expr

/-! ### Loads and stores -/

theorem Value.isStorable_ty (v : Value) : v.ty.isStorable := by
  cases v <;> rfl

theorem Ty.bytes_width {ty : Ty} (h : ty.isStorable) : ty.width.bytes = ty.size := by
  cases ty with
  | int => rfl
  | bool => rfl
  | void => cases h
  | error => cases h

theorem Ty.storeWidth_eq {ty : Ty} (h : ty.isStorable) : ty.storeWidth = ty.width := by
  cases ty with
  | int => rfl
  | bool => rfl
  | void => cases h
  | error => cases h

/-- A variable without an initializer starts with a value of its type, as the word zero. -/
theorem Ty.defaultValue_eq_some {ty : Ty} {v : Value} (h : ty.defaultValue = some v) :
    v.ty = ty ∧ v.toWord = 0 := by
  cases ty with
  | int => obtain rfl := Option.some.inj h; exact ⟨rfl, rfl⟩
  | bool => obtain rfl := Option.some.inj h; exact ⟨rfl, rfl⟩
  | void => cases h
  | error => cases h

/-- A value fits into the bytes of its type. -/
theorem Value.toNat_lt (v : Value) : v.toWord.toBitVec.toNat < 256 ^ v.ty.size := by
  cases v with
  | int w => exact w.toBitVec.isLt
  | bool b => cases b <;> decide

/-- The low half of a number with its sign extended is the number. -/
theorem toNat_signExtend_mod (x : BitVec 32) : (x.signExtend 64).toNat % 2 ^ 32 = x.toNat := by
  have hx := x.isLt
  rw [BitVec.toNat_signExtend, BitVec.toNat_setWidth, Nat.mod_eq_of_lt (a := x.toNat) (by omega)]
  split <;> omega

/-- The low bytes of the number that is stored for a value are the value. -/
theorem Value.signExtend_mod (v : Value) :
    (v.toWord.toBitVec.signExtend 64).toNat % 256 ^ v.ty.size = v.toWord.toBitVec.toNat := by
  cases v with
  | int w => exact toNat_signExtend_mod w.toBitVec
  | bool b => cases b <;> decide

theorem Value.low_of_register {m : Machine} {r : Reg} {v : Value} (h : m.regs r = v.register) :
    m.low r = v.toWord.toBitVec := by
  rw [Machine.low, h, register, BitVec.setWidth_setWidth_of_le _ (by omega), BitVec.setWidth_eq]

theorem Value.toNat_register (v : Value) : v.register.toNat = v.toWord.toBitVec.toNat := by
  rw [register, BitVec.toNat_setWidth]
  exact Nat.mod_eq_of_lt (by have := v.toWord.toBitVec.isLt; omega)

namespace Activation

variable {A : Activation} {π : Nest Placed} {s : Store} {m : Machine} {taken : Nat} {p : Placed}
  {v : Value}

/-- A load brings the value of a variable into the accumulator. -/
theorem Legal.exec_loadAcc (hp : A.Legal taken p) (hframe : taken ≤ A.frame)
    (hbp : (m.regs .bp).toNat = A.base) (hv : A.Holds m.mem p v) :
    m.exec (cellAddress A.data A.cells) (loadAcc p.ty p.mem) =
      some (m.setLow .ax v.toWord.toBitVec) := by
  have hlocate := hp.locate_eq hframe hbp
  have hword : BitVec.ofNat 32 (m.mem.read (A.locate p.mem.address) p.ty.size) =
      v.toWord.toBitVec := by
    rw [hv.read]
    exact BitVec.ofNat_toNat _ _
  have hwidth := hp.width
  rw [← hv.ty] at hwidth hword ⊢
  cases v with
  | int w =>
    have hdword : p.mem.width = .dword := hwidth
    show m.exec _ (.load .ax p.mem) = _
    rw [Machine.exec, if_pos hdword, hlocate, Option.map_some]
    exact congrArg (fun x ↦ some (m.setLow .ax x)) hword
  | bool b =>
    have hbyte : p.mem.width = .byte := hwidth
    show m.exec _ (.loadZx .ax p.mem) = _
    rw [Machine.exec, if_pos hbyte, hlocate, Option.map_some]
    exact congrArg (fun x ↦ some (m.setLow .ax x)) hword

/-- A store writes the low bytes of a register to a variable. -/
theorem Legal.exec_store (hp : A.Legal taken p) (hframe : taken ≤ A.frame)
    (hbp : (m.regs .bp).toNat = A.base) (r : Reg) :
    m.exec (cellAddress A.data A.cells) (.store p.mem p.ty.storeWidth r) =
      some (m.poke (A.locate p.mem.address) p.ty.size (m.regs r).toNat) := by
  have hwidth : p.mem.width = p.ty.storeWidth := hp.width.trans (Ty.storeWidth_eq hp.storable).symm
  have hbytes : p.ty.storeWidth.bytes = p.ty.size := by
    rw [Ty.storeWidth_eq hp.storable, Ty.bytes_width hp.storable]
  rw [Machine.exec, if_pos hwidth, hp.locate_eq hframe hbp, hbytes]
  rfl

/-- A store of a number writes its low bytes to a variable. -/
theorem Legal.exec_storeImm (hp : A.Legal taken p) (hframe : taken ≤ A.frame)
    (hbp : (m.regs .bp).toNat = A.base) (w : Int32) :
    m.exec (cellAddress A.data A.cells) (.storeImm p.mem w) =
      some (m.poke (A.locate p.mem.address) p.ty.size (w.toBitVec.signExtend 64).toNat) := by
  rw [Machine.exec, hp.locate_eq hframe hbp, hp.width, Ty.bytes_width hp.storable]
  rfl

end Activation

/-! ### Expressions -/

/-- What the code of an expression leaves alone, when it is entered with the top of the stack at
some place: the frame, the stack, and all memory except the bytes below the top of the stack. -/
structure Activation.Restores (A : Activation) (m m' : Machine) : Prop where
  /-- The same top of the stack. -/
  sp : m'.regs .sp = m.regs .sp
  /-- The same base of the frame. -/
  bp : m'.regs .bp = m.regs .bp
  /-- The same memory from the top of the stack on. -/
  mem : Memory.SameOff A.floor (m.regs .sp).toNat m.mem m'.mem

namespace Activation

variable {A : Activation} {m m₁ m₂ : Machine}

theorem Restores.trans (h : A.Restores m m₁) (h' : A.Restores m₁ m₂) : A.Restores m m₂ :=
  ⟨h'.sp.trans h.sp, h'.bp.trans h.bp, h.mem.trans (h.sp ▸ h'.mem)⟩

theorem restores_of_keeps (h : m.Keeps m₁) : A.Restores m m₁ :=
  ⟨h.sp, h.bp, h.mem ▸ .refl _ _ _⟩

theorem restores_setLow (v : BitVec 32) : A.Restores m (m.setLow .ax v) :=
  ⟨by simp, by simp, .refl _ _ _⟩

theorem exec_immediate (A : Activation) (cells : String → Option Nat) (m : Machine) (v : Value) :
    ∃ m', m.execAll cells [.moveImm .ax v.toWord] = some m' ∧ m'.regs .ax = v.register ∧
      A.Restores m m' :=
  ⟨_, rfl, by simp [Value.register], restores_setLow _⟩

theorem sameOff_push {v : Nat} (hroom : A.floor + 8 ≤ (m.regs .sp).toNat) :
    Memory.SameOff A.floor (m.regs .sp).toNat m.mem (m.push v).mem := by
  rw [m.mem_push v (by omega)]
  exact Memory.sameOff_write _ _ (by omega) (by omega)

/-- An operand that waits on the stack while other code runs is there afterwards. -/
theorem exists_pushPop {cells : String → Option Nat} {is : List Instr}
    (hroom : A.floor + 8 ≤ (m.regs .sp).toNat)
    (hrun : (m.push (m.regs .ax).toNat).execAll cells is = some m₂)
    (hrest : A.Restores (m.push (m.regs .ax).toNat) m₂) :
    ∃ m₃, m.execAll cells ([Instr.push .ax] ++ is ++ [Instr.pop .cx]) = some m₃ ∧
      m₃.regs .cx = m.regs .ax ∧ m₃.regs .ax = m₂.regs .ax ∧ A.Restores m m₃ := by
  have hsp : m₂.regs .sp + 8 = m.regs .sp := by
    rw [hrest.sp, Machine.push, Machine.regs_poke, Machine.regs_set, if_pos rfl,
      BitVec.sub_add_cancel]
  have hmem := hrest.mem
  rw [m.toNat_sp_push _ (by omega)] at hmem
  -- the word at the top of the stack is the one that was put there
  have htop : m₂.top = (m.regs .ax).toNat := by
    rw [Machine.top, hrest.sp, m.toNat_sp_push _ (by omega), hmem.read_eq (.inr (Nat.le_refl _)),
      m.mem_push _ (by omega), Memory.read_write]
    exact Nat.mod_eq_of_lt (m.regs .ax).isLt
  refine ⟨m₂.drop.set .cx (BitVec.ofNat 64 m₂.top), ?_, ?_, ?_, ?_, ?_, ?_⟩
  · rw [List.append_assoc]
    show (m.push (m.regs .ax).toNat).execAll cells (is ++ [.pop .cx]) = _
    exact Machine.execAll_append_eq_some hrun rfl
  · rw [Machine.regs_set, if_pos rfl, htop, BitVec.ofNat_toNat, BitVec.setWidth_eq]
  · simp [Machine.drop]
  · rw [Machine.regs_set, if_neg (by decide), Machine.drop, Machine.regs_set, if_pos rfl, hsp]
  · have hbp : (m.push (m.regs .ax).toNat).regs .bp = m.regs .bp := by simp [Machine.push]
    simp [Machine.drop, hrest.bp, hbp]
  · show Memory.SameOff A.floor (m.regs .sp).toNat m.mem m₂.mem
    exact (sameOff_push hroom).trans (hmem.mono (Nat.le_refl _) (Nat.sub_le _ _))

end Activation

/-- The code of an expression computes its value. -/
theorem Expr.exec_assemble {A : Activation} (fold : Bool) {π : Nest Placed} {s : Store}
    {taken : Nat} (hπ : A.Admits π taken) {e : Expr} {m : Machine} {v : Value}
    (heval : e.eval s.find? = some v) (hbp : (m.regs .bp).toNat = A.base)
    (hsp : (m.regs .sp).toNat + A.frame ≤ A.base)
    (hroom : A.floor + 8 * e.depth ≤ (m.regs .sp).toNat) (hagrees : A.Agrees m.mem π s) :
    ∃ m', m.execAll (cellAddress A.data A.cells) (e.assemble fold π.find?) = some m' ∧
      m'.regs .ax = v.register ∧ A.Restores m m' := by
  induction e generalizing m v with
  | num p w =>
    obtain rfl := Option.some.inj heval
    exact A.exec_immediate _ m (.int w)
  | bool p b =>
    obtain rfl := Option.some.inj heval
    exact A.exec_immediate _ m (.bool b)
  | var p x =>
    obtain ⟨q, hq, hholds⟩ := hagrees.find? heval
    obtain ⟨i, hi, -⟩ := (π.find?_eq_some_iff x q).1 hq
    have hload := (hπ.legal hi).exec_loadAcc hπ.taken_le hbp hholds
    refine ⟨m.setLow .ax v.toWord.toBitVec, ?_, by simp [Value.register],
      Activation.restores_setLow _⟩
    simp only [assemble, hq, Machine.execAll_cons, hload, Option.bind_some, Machine.execAll_nil]
  | not p e ih =>
    rw [assemble]
    rcases hfold : (not p e).foldedValue? fold with - | w
    · obtain ⟨a, ha, hnot⟩ := Option.bind_eq_some_iff.1 heval
      obtain ⟨m₁, hm₁, hax₁, hrest₁⟩ := ih ha hbp hsp hroom hagrees
      obtain ⟨m₂, hm₂, hax₂, hkeeps₂⟩ := exec_notCode hnot (Value.low_of_register hax₁)
      exact ⟨m₂, Machine.execAll_append_eq_some hm₁ hm₂, hax₂,
        hrest₁.trans (Activation.restores_of_keeps hkeeps₂)⟩
    · obtain rfl := foldedValue?_eq heval hfold
      exact A.exec_immediate _ m _
  | binary p op l r ihl ihr =>
    rw [assemble]
    rcases hfold : (binary p op l r).foldedValue? fold with - | w
    · obtain ⟨a, ha, hb⟩ := Option.bind_eq_some_iff.1 heval
      obtain ⟨b, hb, hop⟩ := Option.bind_eq_some_iff.1 hb
      have hdepth : l.depth ≤ (binary p op l r).depth ∧ r.depth + 1 ≤ (binary p op l r).depth :=
        ⟨Nat.le_max_left _ _, Nat.le_max_right _ _⟩
      obtain ⟨m₁, hm₁, hax₁, hrest₁⟩ := ihl ha hbp hsp (by omega) hagrees
      have hagrees₁ := hagrees.of_sameOff hπ hsp hrest₁.mem
      rw [← hrest₁.sp] at hsp hroom
      -- the right operand is computed with the left one on the stack
      have hpush : ((m₁.push (m₁.regs .ax).toNat).regs .sp).toNat = (m₁.regs .sp).toNat - 8 :=
        m₁.toNat_sp_push _ (by omega)
      have hagrees₂ : A.Agrees (m₁.push (m₁.regs .ax).toNat).mem π s :=
        hagrees₁.of_sameOff hπ hsp (Activation.sameOff_push (by omega))
      obtain ⟨m₂, hm₂, hax₂, hrest₂⟩ := ihr (m := m₁.push (m₁.regs .ax).toNat) hb
        (by rw [← hbp, ← hrest₁.bp]; simp [Machine.push]) (by omega) (by omega) hagrees₂
      obtain ⟨m₃, hm₃, hcx₃, hax₃, hrest₃⟩ := Activation.exists_pushPop (by omega) hm₂ hrest₂
      obtain ⟨m₄, hm₄, hax₄, hkeeps₄⟩ := BinaryOp.exec_code (cellAddress A.data A.cells) hop
        (Value.low_of_register (hcx₃.trans hax₁)) (Value.low_of_register (hax₃.trans hax₂))
      refine ⟨m₄, ?_, hax₄, hrest₁.trans (hrest₃.trans (Activation.restores_of_keeps hkeeps₄))⟩
      have hcode : l.assemble fold π.find? ++ [Instr.push .ax] ++ r.assemble fold π.find? ++
          [Instr.pop .cx] ++ op.code = l.assemble fold π.find? ++
            (([Instr.push .ax] ++ r.assemble fold π.find? ++ [Instr.pop .cx]) ++ op.code) := by
        simp
      dsimp only
      rw [hcode]
      exact Machine.execAll_append_eq_some hm₁ (Machine.execAll_append_eq_some hm₃ hm₄)
    · obtain rfl := foldedValue?_eq heval hfold
      exact A.exec_immediate _ m _

end BlockLang
