import BlockLang.Proofs.Correctness.Statements
import BlockLang.Proofs.Lowering.Division

/-!
# Expressions without a value on the machine

An expression that is typed has no value at run time for one reason only: a division in it is by
zero, or of the least integer by minus one. Its code then comes to that division, with the operands
where the machine looks for them, and faults there (`Expr.HasType.faults_assemble`).

Folding must not be in the way. It replaces a constant by the value that is known in advance, and
the machine agrees with this value except on one division, the overflowing one: in advance it has
the value that wraps around, and at run time it has none. `Expr.Overflows` says that the expression
holds such a division between constants, and `Expr.eval_eq_value` that this is the only difference.
-/

namespace BlockLang

/-! ### Straight code that faults -/

/-- Straight code comes to a division that faults. -/
def Machine.Faults (cells : String → Option Nat) (m : Machine) (is : List Instr) : Prop :=
  ∃ before r after m', is = before ++ Instr.idiv r :: after ∧ m.execAll cells before = some m' ∧
    m'.divide (m'.low r) = none

namespace Machine

variable {cells : String → Option Nat} {m m' : Machine} {is js : List Instr}

theorem Faults.append (h : m.Faults cells is) (js : List Instr) : m.Faults cells (is ++ js) := by
  obtain ⟨before, r, after, m', rfl, hrun, hdivide⟩ := h
  exact ⟨before, r, after ++ js, m', by simp, hrun, hdivide⟩

theorem Faults.append_left (hrun : m.execAll cells is = some m') (h : m'.Faults cells js) :
    m.Faults cells (is ++ js) := by
  obtain ⟨before, r, after, m'', rfl, hrun', hdivide⟩ := h
  exact ⟨is ++ before, r, after, m'', by simp, execAll_append_eq_some hrun hrun', hdivide⟩

/-- The code of a division, where there is no quotient or where it does not fit. -/
theorem faults_divCode {a b : Int32} (ha : m.low .cx = a.toBitVec) (hb : m.low .ax = b.toBitVec)
    (htraps : b = 0 ∨ a = Int32.minValue ∧ b = -1) : m.Faults cells BinaryOp.div.code := by
  generalize hm₁ : ((m.setLow .ax (m.low .cx)).setLow .cx (m.low .ax)).setLow .dx
    (if (m.low .cx).msb then -1 else 0) = m₁
  refine ⟨[.exchange .ax .cx, .cdq], .cx, [], m₁, rfl, ?_, ?_⟩
  · rw [← hm₁]
    simp [exec]
  · have hcx : m₁.low .cx = b.toBitVec := by simp [← hm₁, hb]
    have hdividend : (m₁.low .dx ++ m₁.low .ax).toInt = a.toBitVec.toInt := by
      rw [← toInt_sign_append a.toBitVec]
      simp [← hm₁, ha]
    rw [divide, hcx, hdividend]
    refine if_pos ?_
    rcases htraps with rfl | ⟨rfl, rfl⟩
    · exact .inl rfl
    · exact .inr (.inr (by decide))

end Machine

/-! ### Constants that overflow -/

namespace BinaryOp

theorem traps_iff {op : BinaryOp} {a b : Value} :
    op.traps a b = true ↔
      op = .div ∧ (b = .int 0 ∨ a = .int Int32.minValue ∧ b = .int (-1)) := by
  simp [traps]

/-- The code of an operator without a result is that of a division, and faults. -/
theorem Takes.faults_code {cells : String → Option Nat} {m : Machine} {op : BinaryOp} {a b : Value}
    {t : Ty} (h : op.Takes a.ty b.ty t) (heval : op.eval a b = none)
    (ha : m.low .cx = a.toWord.toBitVec) (hb : m.low .ax = b.toWord.toBitVec) :
    m.Faults cells op.code := by
  have htraps : op.traps a b = true := by
    by_contra htraps
    obtain ⟨v, hv, -⟩ := h.exists_apply
    rw [eval, if_neg htraps, hv] at heval
    cases heval
  obtain ⟨rfl, hwhy⟩ := traps_iff.1 htraps
  cases a with
  | bool x =>
    -- truth values are not divided
    have hrow := h.typeOf_eq
    cases b <;> cases hrow
  | int x =>
    cases b with
    | bool y => simp at hwhy
    | int y => exact Machine.faults_divCode ha hb (by simpa [Value.toWord] using hwhy)

end BinaryOp

namespace Expr

/-- The expression divides the least integer by minus one, both known in advance. -/
def Overflows (e : Expr) : Prop :=
  ∃ d ∈ e.divisions, d.1.constantValue = some (.int Int32.minValue) ∧
    d.2.constantValue = some (.int (-1))

instance (e : Expr) : Decidable e.Overflows :=
  inferInstanceAs (Decidable (∃ d ∈ e.divisions, d.1.constantValue = some (.int Int32.minValue) ∧
    d.2.constantValue = some (.int (-1))))

theorem overflows_binary {p : Pos} {op : BinaryOp} {l r : Expr} :
    (binary p op l r).Overflows ↔ l.Overflows ∨ r.Overflows ∨
      op = .div ∧ l.constantValue = some (.int Int32.minValue) ∧
        r.constantValue = some (.int (-1)) := by
  simp only [Overflows, mem_divisions_binary, or_and_right, exists_or, and_assoc,
    exists_and_left, exists_eq_left]

/-- Where a constant has a value in advance and does not overflow, the machine agrees with it. -/
theorem eval_eq_value {e : Expr} (hconst : e.isConstant = true) (hparts : e.constantPartFaults = [])
    (hfits : ¬e.Overflows) (ρ : String → Option Value) : e.eval ρ = e.value .empty := by
  induction e with
  | num p v => rfl
  | bool p b => rfl
  | var p x => cases hconst
  | not p e ih => rw [eval, value, ih hconst (constantPartFaults_of_not hparts) hfits]
  | binary p op l r ihl ihr =>
    obtain ⟨hl, hr⟩ := Bool.and_eq_true_iff.1 hconst
    obtain ⟨hpartsl, hpartsr⟩ := constantPartFaults_of_binary hparts
    rw [overflows_binary, not_or, not_or] at hfits
    obtain ⟨hfitsl, hfitsr, hfits⟩ := hfits
    obtain ⟨a, ha⟩ := exists_value_of_valueFaults_eq_nil hl
      (constantPartFaults_of_isConstant hl ▸ hpartsl)
    obtain ⟨b, hb⟩ := exists_value_of_valueFaults_eq_nil hr
      (constantPartFaults_of_isConstant hr ▸ hpartsr)
    have htraps : ¬op.traps a b = true := by
      rw [BinaryOp.traps_iff]
      rintro ⟨rfl, rfl | ⟨rfl, rfl⟩⟩
      · rw [constantPartFaults_of_isConstant hconst] at hparts
        exact valueFaults_div_ne_nil p hl (constantValue_eq_some_iff.2 ⟨hr, hb⟩) hparts
      · exact hfits ⟨rfl, constantValue_eq_some_iff.2 ⟨hl, ha⟩,
          constantValue_eq_some_iff.2 ⟨hr, hb⟩⟩
    rw [eval, value, ihl hl hpartsl hfitsl, ihr hr hpartsr hfitsr, ha, hb, combine_isConstant op hr]
    exact if_neg htraps

/-- If constants are folded, they have values in advance and the machine agrees with these. -/
def Faithful (fold : Bool) (e : Expr) : Prop :=
  fold = true → e.constantPartFaults = [] ∧ ¬e.Overflows

namespace Faithful

variable {fold : Bool} {p : Pos} {e l r : Expr} {op : BinaryOp} {w : Value}

theorem of_not (h : (not p e).Faithful fold) : e.Faithful fold :=
  fun hfold ↦ ⟨constantPartFaults_of_not (h hfold).1, (h hfold).2⟩

theorem of_binary (h : (binary p op l r).Faithful fold) : l.Faithful fold ∧ r.Faithful fold := by
  refine ⟨fun hfold ↦ ?_, fun hfold ↦ ?_⟩
  · exact ⟨(constantPartFaults_of_binary (h hfold).1).1,
      fun hl ↦ (h hfold).2 (overflows_binary.2 (.inl hl))⟩
  · exact ⟨(constantPartFaults_of_binary (h hfold).1).2,
      fun hr ↦ (h hfold).2 (overflows_binary.2 (.inr (.inl hr)))⟩

/-- A value that folding finds is there at run time. -/
theorem eval_of_foldedValue? (h : e.Faithful fold) (hw : e.foldedValue? fold = some w)
    (ρ : String → Option Value) : e.eval ρ = some w := by
  rw [foldedValue?] at hw
  split at hw
  · rename_i hfoldable
    rw [isFoldable, Bool.and_eq_true_iff, Bool.and_eq_true_iff] at hfoldable
    obtain ⟨hconst, hvalue⟩ := constantValue_eq_some_iff.1 hw
    obtain ⟨hparts, hfits⟩ := h hfoldable.1.1
    rw [eval_eq_value hconst hparts hfits, hvalue]
  · cases hw

/-- An initializer with a number that is stored at once has a value at run time. -/
theorem eval_ne_none_of_startWord? (h : e.Faithful fold) {w : Int32}
    (hw : e.startWord? fold = some w) (ρ : String → Option Value) : e.eval ρ ≠ none := by
  rw [startWord?] at hw
  rcases hfold : e.foldedValue? fold with - | u
  · rw [hfold] at hw
    cases e with
    | num p v => exact Option.some_ne_none _
    | bool p b => exact Option.some_ne_none _
    | var p x => cases hw
    | not p e => cases hw
    | binary p op l r => cases hw
  · rw [h.eval_of_foldedValue? hfold]
    exact Option.some_ne_none _

end Faithful

end Expr

/-! ### Expressions -/

/-- A variable with a place has a value. -/
theorem Activation.Agrees.exists_find? {A : Activation} {M : Memory} {π : Nest Placed} {s : Store}
    (h : A.Agrees M π s) {x : String} {p : Placed} (hp : π.find? x = some p) :
    ∃ v, s.find? x = some v := by
  obtain ⟨i, hi, hlt⟩ := (π.find?_eq_some_iff x p).1 hp
  obtain ⟨v, hv, -⟩ := h.holds hi
  exact ⟨v, (s.find?_eq_some_iff x v).2 ⟨i, hv, fun j hj ↦ h.none (hlt j hj)⟩⟩

namespace Activation

/-- The state in which an operand is computed while others may wait on the stack, with room for `n`
more of them. -/
structure Computing (A : Activation) (σ : Site) (s : Store) (n : Nat) (m : Machine) : Prop where
  /-- The base register is at the base of the frame. -/
  bp : (m.regs .bp).toNat = A.base
  /-- The top of the stack is at the end of the frame or below it. -/
  sp : (m.regs .sp).toNat + A.frame ≤ A.base
  /-- There is room on the stack. -/
  room : A.floor + 8 * n ≤ (m.regs .sp).toNat
  /-- The variables hold their values. -/
  agrees : A.Agrees m.mem σ.places s

namespace Computing

variable {A : Activation} {σ : Site} {s : Store} {n : Nat} {m m' : Machine}

theorem of_le (h : A.Computing σ s n m) {k : Nat} (hle : k ≤ n) : A.Computing σ s k m :=
  ⟨h.bp, h.sp, by have := h.room; omega, h.agrees⟩

theorem of_restores (h : A.Computing σ s n m) (hσ : A.AdmitsSite σ) (hrest : A.Restores m m') :
    A.Computing σ s n m' :=
  ⟨hrest.bp ▸ h.bp, hrest.sp ▸ h.sp, hrest.sp ▸ h.room, h.agrees.of_sameOff hσ h.sp hrest.mem⟩

/-- One more operand waits. -/
theorem push (h : A.Computing σ s (n + 1) m) (hσ : A.AdmitsSite σ) (v : Nat) :
    A.Computing σ s n (m.push v) := by
  have hroom := h.room
  have hsp := h.sp
  have hpush := m.toNat_sp_push v (by omega)
  refine ⟨?_, by omega, by omega, h.agrees.of_sameOff hσ h.sp (sameOff_push (by omega))⟩
  rw [← h.bp]
  simp [Machine.push]

theorem exec {e : Expr} (h : A.Computing σ s e.depth m) (hσ : A.AdmitsSite σ) (fold : Bool)
    {v : Value} (heval : e.eval s.find? = some v) :
    ∃ m', m.execAll (cellAddress A.data A.cells) (e.assemble fold σ.places.find?) = some m' ∧
      m'.regs .ax = v.register ∧ A.Restores m m' :=
  Expr.exec_assemble fold hσ heval h.bp h.sp h.room h.agrees

theorem ty_eq {e : Expr} {t : Ty} {v : Value} (h : A.Computing σ s n m)
    (htyped : e.HasType σ.types.find? t) (hv : e.eval s.find? = some v) : v.ty = t :=
  htyped.ty_of_eval (fun _ _ _ ht hv ↦ h.agrees.ty_eq ht hv) hv

end Computing

end Activation

/-- The code of an expression that is typed and has no value comes to a division that faults. -/
theorem Expr.HasType.faults_assemble {A : Activation} {fold : Bool} {σ : Site} {s : Store}
    (hσ : A.AdmitsSite σ) {e : Expr} {t : Ty} (h : e.HasType σ.types.find? t)
    (hfold : e.Faithful fold) {m : Machine} (heval : e.eval s.find? = none)
    (hm : A.Computing σ s e.depth m) :
    m.Faults (cellAddress A.data A.cells) (e.assemble fold σ.places.find?) := by
  induction h generalizing m with
  | num p v => cases heval
  | bool p b => cases heval
  | @var p x t hx =>
    rw [σ.find?_types] at hx
    obtain ⟨q, hq, -⟩ := Option.map_eq_some_iff.1 hx
    obtain ⟨v, hv⟩ := hm.agrees.exists_find? hq
    cases hv.symm.trans heval
  | @not p e h ih =>
    rw [assemble]
    rcases hvalue : (Expr.not p e).foldedValue? fold with - | w
    · refine Machine.Faults.append (ih hfold.of_not ?_ hm) _
      -- a truth value has a negation
      rcases hv : e.eval s.find? with - | v
      · rfl
      · have hty : v.ty = .bool := hm.ty_eq h hv
        rw [eval, hv] at heval
        cases v with
        | int w => cases hty
        | bool b => cases heval
    · cases (hfold.eval_of_foldedValue? hvalue _).symm.trans heval
  | @binary p op l r tl tr t hop hl hr ihl ihr =>
    rw [assemble]
    rcases hvalue : (Expr.binary p op l r).foldedValue? fold with - | w
    · obtain ⟨hfoldl, hfoldr⟩ := hfold.of_binary
      have hcode : l.assemble fold σ.places.find? ++ [Instr.push .ax] ++
          r.assemble fold σ.places.find? ++ [Instr.pop .cx] ++ op.code =
            l.assemble fold σ.places.find? ++ ([Instr.push .ax] ++
              r.assemble fold σ.places.find? ++ [Instr.pop .cx] ++ op.code) := by
        simp
      dsimp only
      rw [hcode]
      -- the code faults in the first of three parts that has no value
      rcases ha : l.eval s.find? with - | a
      · exact (ihl hfoldl ha (hm.of_le (Nat.le_max_left _ _))).append _
      obtain ⟨m₁, hm₁, hax₁, hrest₁⟩ := (hm.of_le (Nat.le_max_left _ _)).exec hσ fold ha
      have hready₁ : A.Computing σ s (r.depth + 1) m₁ :=
        (hm.of_le (Nat.le_max_right _ _)).of_restores hσ hrest₁
      have hready₂ := hready₁.push hσ (m₁.regs .ax).toNat
      refine .append_left hm₁ ?_
      rcases hb : r.eval s.find? with - | b
      · have hpushed : m₁.execAll (cellAddress A.data A.cells) [Instr.push .ax] =
            some (m₁.push (m₁.regs .ax).toNat) := rfl
        exact (((ihr hfoldr hb hready₂).append_left hpushed).append _).append _
      obtain ⟨m₂, hm₂, hax₂, hrest₂⟩ := hready₂.exec hσ fold hb
      obtain ⟨m₃, hm₃, hcx₃, hax₃, -⟩ :=
        Activation.exists_pushPop (by have := hready₁.room; omega) hm₂ hrest₂
      refine .append_left hm₃ ?_
      have hta : a.ty = tl := hm.ty_eq hl ha
      have htb : b.ty = tr := hm.ty_eq hr hb
      have hnone : op.eval a b = none := by
        rw [eval, ha, hb] at heval
        exact heval
      exact (hta ▸ htb ▸ hop : op.Takes a.ty b.ty t).faults_code hnone
        (Value.low_of_register (hcx₃.trans hax₁)) (Value.low_of_register (hax₃.trans hax₂))
    · cases (hfold.eval_of_foldedValue? hvalue _).symm.trans heval

end BlockLang
