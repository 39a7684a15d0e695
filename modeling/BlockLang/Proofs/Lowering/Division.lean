import BlockLang.Proofs.Lowering.Totality

/-!
# Divisions by a constant zero in compiled programs

A zero divisor is found by evaluating the division around it, and evaluation gives up on a division
as soon as one of its operands has no value. Where only the constant parts of an expression are
looked at, these are the largest subexpressions without variables, so a division is looked at as a
whole only if its dividend is a constant as well.

Hence a compiled program has no division of a constant by a constant zero, and that is all: a
division by a constant zero remains where its dividend reads a variable.
-/

namespace BlockLang

/-- Values that an operator accepts have a result. -/
theorem BinaryOp.exists_apply_of_typeOf_eq_ok {op : BinaryOp} {a b : Value} {t : Ty}
    (h : op.typeOf a.ty b.ty = .ok t) : ∃ v, op.apply a b = some v := by
  have ht : t ≠ .error := by
    rintro rfl
    cases op <;> cases a <;> cases b <;> cases h
  obtain ⟨v, hv, -⟩ := ((typeOf_eq_ok_iff ht).1 h).exists_apply
  exact ⟨v, hv⟩

namespace Expr

/-! ### Evaluation of constants -/

/-- The operator of a constant is applied to whatever values its operands have. -/
theorem combine_isConstant (op : BinaryOp) {r : Expr} (hr : r.isConstant = true) (a b : Value) :
    op.combine r.isConstant (some a) (some b) = op.apply a b := by
  simp [hr, BinaryOp.combine, BinaryOp.isOpenQuotient]

theorem combineFaults_isConstant (op : BinaryOp) (p : Pos) {r : Expr} (hr : r.isConstant = true)
    (a b : Value) :
    op.combineFaults p r.isConstant (some a) (some b) = op.applyFaults p a b := by
  simp [hr, BinaryOp.combineFaults, BinaryOp.isOpenQuotient]

/-- A constant whose evaluation reports nothing has a value. -/
theorem exists_value_of_valueFaults_eq_nil {e : Expr} (hconst : e.isConstant = true)
    (h : e.valueFaults .empty = []) : ∃ v, e.value .empty = some v := by
  induction e with
  | num p v => exact ⟨_, rfl⟩
  | bool p b => exact ⟨_, rfl⟩
  | var p x => cases hconst
  | not p e ih =>
    rw [valueFaults, List.append_eq_nil_iff] at h
    obtain ⟨v, hv⟩ := ih hconst h.1
    rw [hv] at h
    cases v with
    | int w => cases h.2
    | bool b => exact ⟨.bool !b, by rw [value, hv]; rfl⟩
  | binary p op l r ihl ihr =>
    obtain ⟨hl, hr⟩ := Bool.and_eq_true_iff.1 hconst
    rw [valueFaults, List.append_eq_nil_iff, List.append_eq_nil_iff] at h
    obtain ⟨a, ha⟩ := ihl hl h.1.1
    obtain ⟨b, hb⟩ := ihr hr h.1.2
    have hfaults : op.applyFaults p a b = [] := by
      rw [← combineFaults_isConstant op p hr, ← ha, ← hb]
      exact h.2
    rw [value, ha, hb, combine_isConstant op hr]
    rw [BinaryOp.applyFaults] at hfaults
    rcases htype : op.typeOf a.ty b.ty with q | t
    · rw [htype] at hfaults
      cases hfaults
    · exact BinaryOp.exists_apply_of_typeOf_eq_ok htype

/-- The evaluation of a constant division by zero reports something. -/
theorem valueFaults_div_ne_nil (p : Pos) {l r : Expr} (hl : l.isConstant = true)
    (hr : r.constantValue = some (.int 0)) : (binary p .div l r).valueFaults .empty ≠ [] := by
  obtain ⟨hconst, hzero⟩ := constantValue_eq_some_iff.1 hr
  intro h
  rw [valueFaults, List.append_eq_nil_iff, List.append_eq_nil_iff] at h
  obtain ⟨a, ha⟩ := exists_value_of_valueFaults_eq_nil hl h.1.1
  have hfaults := h.2
  rw [ha, hzero, combineFaults_isConstant .div p hconst] at hfaults
  cases a <;> cases hfaults

/-! ### Divisions -/

/-- The dividend and the divisor of all divisions in the expression. -/
def divisions : Expr → List (Expr × Expr)
  | num _ _ => []
  | bool _ _ => []
  | var _ _ => []
  | not _ e => e.divisions
  | binary _ op l r => l.divisions ++ r.divisions ++ if op = .div then [(l, r)] else []

theorem mem_divisions_binary {p : Pos} {op : BinaryOp} {l r : Expr} {d : Expr × Expr} :
    d ∈ (binary p op l r).divisions ↔
      d ∈ l.divisions ∨ d ∈ r.divisions ∨ op = .div ∧ d = (l, r) := by
  by_cases hop : op = .div <;> simp [divisions, hop]

/-- Where the constant parts of an expression have no faults, no constant is divided by a constant
zero. -/
theorem isConstant_dividend_of_constantPartFaults {e : Expr} (h : e.constantPartFaults = [])
    {d : Expr × Expr} (hd : d ∈ e.divisions) (hzero : d.2.constantValue = some (.int 0)) :
    d.1.isConstant = false := by
  induction e with
  | num p v => exact absurd hd List.not_mem_nil
  | bool p b => exact absurd hd List.not_mem_nil
  | var p x => exact absurd hd List.not_mem_nil
  | not p e ih => exact ih (constantPartFaults_of_not h) hd
  | binary p op l r ihl ihr =>
    obtain ⟨hl, hr⟩ := constantPartFaults_of_binary h
    rcases mem_divisions_binary.1 hd with hd | hd | ⟨rfl, rfl⟩
    · exact ihl hl hd
    · exact ihr hr hd
    · by_contra hdividend
      have hdividend : l.isConstant = true := by simpa using hdividend
      have hconst : (binary p .div l r).isConstant = true :=
        Bool.and_eq_true_iff.2 ⟨hdividend, (constantValue_eq_some_iff.1 hzero).1⟩
      rw [constantPartFaults_of_isConstant hconst] at h
      exact valueFaults_div_ne_nil p hdividend hzero h

end Expr

namespace Program

/-- No division in a compiled program, at any depth of any of its expressions, is of a constant by a
constant zero. -/
theorem isConstant_dividend_of_compile (o : Options) (p : Program)
    (h : (p.compile o).assembly.isSome = true) :
    ∀ e ∈ p.exprs, ∀ d ∈ e.divisions, d.2.constantValue = some (.int 0) →
      d.1.isConstant = false := by
  obtain ⟨a, ha⟩ := Option.isSome_iff_exists.1 h
  obtain ⟨-, hparts⟩ := wellFormed_of_clean_analyze (clean_of_compile ha).1
  intro e he d hd hzero
  exact Expr.isConstant_dividend_of_constantPartFaults (hparts e he) hd hzero

/-- A program that divides its parameter by `2 - 2`, for nothing. -/
def idleQuotient : Program where
  function := {
    returnTy := .int
    name := "f"
    params := [{ ty := .int, name := "n" }]
    body :=
      .simple
        (.eval {} (.binary {} .div (.var {} "n") (.binary {} .sub (.num {} 2) (.num {} 2))))
        (.simple (.ret {} (some (.var {} "n"))) .done) }

/-- A dividend that reads a variable keeps the zero divisor from being found. -/
theorem isConstant_dividend_idleQuotient :
    (idleQuotient.compile {}).assembly.isSome = true ∧
      Expr.isConstant (.var {} "n") = false := by
  have hsome : (idleQuotient.compile {}).assembly.isSome = true := by decide +kernel
  exact ⟨hsome, isConstant_dividend_of_compile {} idleQuotient hsome _ List.mem_cons_self
    (.var {} "n", .binary {} .sub (.num {} 2) (.num {} 2)) (by decide) (by decide +kernel)⟩

/-- So a compiled program may divide by a constant zero. -/
theorem compile_idleQuotient :
    (idleQuotient.compile {}).assembly.isSome = true ∧ ¬idleQuotient.NoZeroDivisor := by
  decide +kernel

end Program

end BlockLang
