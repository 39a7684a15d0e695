import BlockLang.Proofs.Static.Typing

/-!
# Values known before a run, and the reports of evaluation

Evaluation knows two disciplines that typing does not: values carry their type as a tag, and a
division by a constant zero is reported. Where the tracked values have the declared types, the tags
never disagree with the typing rules (`Expr.HasType.ty_of_value`), so the only report left that is
worse than a warning is the division by zero (`Expr.HasType.quiet_valueFaults`).

Constants evaluate alike in every environment. Code generation evaluates them again, one by one, and
`Expr.constantPartFaults` is what it can meet there: that list is empty as soon as the evaluation of
the whole expression reports no error (`Expr.constantPartFaults_eq_nil_of_quiet_valueFaults`).
-/

namespace BlockLang

/-- The symbol has a storable type, and the value tracked for it is of that type. -/
def Symbol.WellTyped (s : Symbol) : Prop :=
  s.ty.isStorable ∧ ∀ v, s.value = some v → v.ty = s.ty

/-- All symbols that the environment knows are well typed. -/
def Env.WellTyped (env : Env) : Prop := ∀ x s, env x = some s → s.WellTyped

theorem Ty.ne_error_of_isStorable {t : Ty} (h : t.isStorable) : t ≠ .error := by
  rintro rfl
  cases h

theorem Env.wellTyped_empty : Env.empty.WellTyped :=
  fun _ _ h ↦ absurd h.symm (Option.some_ne_none _)

theorem Env.WellTyped.unmarked {env : Env} (h : env.WellTyped) : env.Unmarked :=
  fun x s hs ↦ Ty.ne_error_of_isStorable (h x s hs).1

/-! ### Operators -/

namespace BinaryOp

/-- Operands of the types of a row have a result of its third type. -/
theorem Takes.exists_apply {op : BinaryOp} {a b : Value} {t : Ty} (h : op.Takes a.ty b.ty t) :
    ∃ v, op.apply a b = some v ∧ v.ty = t := by
  generalize ha : a.ty = l at h
  generalize hb : b.ty = r at h
  cases a <;> cases b <;> cases ha <;> cases hb
  case int.int =>
    cases h with
    | arithmetic h => fin_cases h <;> exact ⟨_, rfl, rfl⟩
    | order h => fin_cases h <;> exact ⟨_, rfl, rfl⟩
    | equality => exact ⟨_, rfl, rfl⟩
  case bool.bool =>
    cases h with
    | equality => exact ⟨_, rfl, rfl⟩
    | logic h => fin_cases h <;> exact ⟨_, rfl, rfl⟩
  case int.bool => cases h
  case bool.int => cases h

theorem combine_eq_some {op : BinaryOp} {c : Bool} {l r : Option Value} {v : Value}
    (h : op.combine c l r = some v) : ∃ a b, l = some a ∧ r = some b ∧ op.apply a b = some v := by
  unfold combine at h
  split at h
  · cases h
  · cases l with
    | none => cases h
    | some a =>
      cases r with
      | none => cases h
      | some b => exact ⟨a, b, rfl, rfl, h⟩

/-- The reports on operands of the types of a row: at most a division by zero, and that only by a
constant. -/
theorem Takes.combineFaults_eq {op : BinaryOp} {t l r : Ty} (h : op.Takes l r t) (p : Pos)
    (c : Bool) {a b : Option Value} (ha : ∀ v, a = some v → v.ty = l)
    (hb : ∀ v, b = some v → v.ty = r) :
    op.combineFaults p c a b =
      if op = .div ∧ c = true ∧ a.isSome ∧ b = some (.int 0) then [⟨p, .divisionByZero⟩]
      else [] := by
  unfold combineFaults
  cases a with
  | none => split <;> simp
  | some a =>
    cases b with
    | none => split <;> simp
    | some b =>
      have htype : op.typeOf a.ty b.ty = .ok t := by
        rw [ha a rfl, hb b rfl]
        exact h.typeOf_eq
      simp only [applyFaults, htype, isOpenQuotient]
      cases c <;> by_cases hop : op = .div <;> by_cases hz : b = .int 0 <;> simp [hop, hz]

/-- No report on an operator is a mere warning. -/
theorem combineFaults_eq_nil_of_quiet {op : BinaryOp} {p : Pos} {c : Bool} {a b : Option Value}
    (h : Quiet (op.combineFaults p c a b)) : op.combineFaults p c a b = [] := by
  unfold combineFaults at h ⊢
  split at h
  · rw [if_pos ‹_›]
  · rw [if_neg ‹_›]
    cases a with
    | none => rfl
    | some a =>
      cases b with
      | none => rfl
      | some b =>
        unfold applyFaults at h ⊢
        rcases htype : op.typeOf a.ty b.ty with q | t
        · simp [htype, Diagnostic.category, Problem.category] at h
        · simp only [htype] at h ⊢
          by_cases hz : op = .div ∧ b = .int 0
          · rw [if_pos hz, quiet_singleton] at h
            cases h
          · rw [if_neg hz]

end BinaryOp

namespace Expr

/-! ### Constants -/

/-- What is known of variables does not matter to a constant. -/
theorem value_of_isConstant {e : Expr} (h : e.isConstant = true) (env : Env) :
    e.value env = e.value .empty := by
  induction e with
  | num p v => rfl
  | bool p b => rfl
  | var p x => cases h
  | not p e ih => rw [value, value, ih h]
  | binary p op l r ihl ihr =>
    obtain ⟨hl, hr⟩ := Bool.and_eq_true_iff.1 h
    rw [value, value, ihl hl, ihr hr]

/-- The type of a constant does not depend on variables. -/
theorem HasType.of_isConstant {Γ Γ' : String → Option Ty} {e : Expr} {t : Ty}
    (h : e.HasType Γ t) (hconst : e.isConstant = true) : e.HasType Γ' t := by
  induction h with
  | num p v => exact .num p v
  | bool p b => exact .bool p b
  | var p h => exact absurd hconst Bool.false_ne_true
  | not p h ih => exact .not p (ih hconst)
  | binary p hop hl hr ihl ihr =>
    obtain ⟨hconstl, hconstr⟩ := Bool.and_eq_true_iff.1 hconst
    exact .binary p hop (ihl hconstl) (ihr hconstr)

theorem valueFaults_of_isConstant {e : Expr} (h : e.isConstant = true) (env : Env) :
    e.valueFaults env = e.valueFaults .empty := by
  induction e with
  | num p v => rfl
  | bool p b => rfl
  | var p x => cases h
  | not p e ih =>
    have he : e.isConstant = true := h
    rw [valueFaults, valueFaults, ih he, value_of_isConstant he env]
  | binary p op l r ihl ihr =>
    obtain ⟨hl, hr⟩ := Bool.and_eq_true_iff.1 h
    rw [valueFaults, valueFaults, ihl hl, ihr hr, value_of_isConstant hl env,
      value_of_isConstant hr env]

theorem constantValue_eq_some_iff {e : Expr} {v : Value} :
    e.constantValue = some v ↔ e.isConstant = true ∧ e.value .empty = some v := by
  rw [constantValue]
  split <;> simp_all

theorem constantFaults_of_isConstant {e : Expr} (h : e.isConstant = true) :
    e.constantFaults = e.valueFaults .empty :=
  if_pos h

/-! ### Divisors -/

/-- The divisors of all divisions in the expression. -/
def divisors : Expr → List Expr
  | num _ _ => []
  | bool _ _ => []
  | var _ _ => []
  | not _ e => e.divisors
  | binary _ op l r => l.divisors ++ r.divisors ++ if op = .div then [r] else []

/-- No division is by a constant that evaluates to zero. -/
def NoZeroDivisor (e : Expr) : Prop := ∀ d ∈ e.divisors, d.constantValue ≠ some (.int 0)

instance (e : Expr) : Decidable e.NoZeroDivisor :=
  inferInstanceAs (Decidable (∀ d ∈ e.divisors, d.constantValue ≠ some (.int 0)))

theorem noZeroDivisor_not {p : Pos} {e : Expr} : (not p e).NoZeroDivisor ↔ e.NoZeroDivisor :=
  Iff.rfl

theorem noZeroDivisor_binary {p : Pos} {op : BinaryOp} {l r : Expr} :
    (binary p op l r).NoZeroDivisor ↔
      l.NoZeroDivisor ∧ r.NoZeroDivisor ∧ (op = .div → r.constantValue ≠ some (.int 0)) := by
  simp only [NoZeroDivisor, divisors, List.mem_append]
  constructor
  · intro h
    refine ⟨fun d hd ↦ h d (.inl (.inl hd)), fun d hd ↦ h d (.inl (.inr hd)), fun hop ↦ ?_⟩
    exact h r (.inr (by simp [hop]))
  · rintro ⟨hl, hr, hop⟩ d ((hd | hd) | hd)
    · exact hl d hd
    · exact hr d hd
    · by_cases h : op = .div
      · rw [if_pos h, List.mem_singleton] at hd
        exact hd ▸ hop h
      · rw [if_neg h] at hd
        exact absurd hd List.not_mem_nil

/-! ### Evaluation of typed expressions -/

/-- A known value has the type of its expression. -/
theorem HasType.ty_of_value {env : Env} (henv : env.WellTyped) {e : Expr} {t : Ty}
    (h : HasType env.types e t) {v : Value} (hv : e.value env = some v) : v.ty = t := by
  induction h generalizing v with
  | num p w => obtain rfl := Option.some.inj hv; rfl
  | bool p b => obtain rfl := Option.some.inj hv; rfl
  | var p h =>
    obtain ⟨s, hs, rfl⟩ := Option.map_eq_some_iff.1 h
    rw [value, hs] at hv
    exact (henv _ s hs).2 v hv
  | not p h ih =>
    obtain ⟨w, hw, hnot⟩ := Option.bind_eq_some_iff.1 hv
    cases w with
    | int w => cases hnot
    | bool b => obtain rfl := Option.some.inj hnot; rfl
  | binary p hop hl hr ihl ihr =>
    obtain ⟨a, b, ha, hb, happly⟩ := BinaryOp.combine_eq_some hv
    obtain ⟨w, hw, hty⟩ := BinaryOp.Takes.exists_apply (a := a) (b := b) (ihl ha ▸ ihr hb ▸ hop)
    rw [happly, Option.some.injEq] at hw
    exact hw ▸ hty

/-- The evaluation of a typed expression that divides by no constant zero reports no error. -/
theorem HasType.quiet_valueFaults {env : Env} (henv : env.WellTyped) {e : Expr} {t : Ty}
    (h : HasType env.types e t) (hz : e.NoZeroDivisor) : Quiet (e.valueFaults env) := by
  induction h with
  | num p w => exact quiet_nil
  | bool p b => exact quiet_nil
  | @var p x t h =>
    rw [valueFaults]
    rcases hx : env x with - | s
    · exact quiet_nil
    · cases hv : s.value <;> simp [hv, Diagnostic.category, Problem.category]
  | @not p e h ih =>
    rw [valueFaults, quiet_append]
    refine ⟨ih (noZeroDivisor_not.1 hz), ?_⟩
    rcases hv : e.value env with - | v
    · exact quiet_nil
    · cases v with
      | int w => cases h.ty_of_value henv hv
      | bool b => exact quiet_nil
  | @binary p op l r a b t hop hl hr ihl ihr =>
    obtain ⟨hzl, hzr, hzero⟩ := noZeroDivisor_binary.1 hz
    rw [valueFaults, quiet_append, quiet_append]
    refine ⟨⟨ihl hzl, ihr hzr⟩, ?_⟩
    rw [hop.combineFaults_eq p _ (fun v hv ↦ hl.ty_of_value henv hv)
      (fun v hv ↦ hr.ty_of_value henv hv), if_neg]
    · exact quiet_nil
    · rintro ⟨hdiv, hconst, -, hr0⟩
      rw [value_of_isConstant hconst] at hr0
      exact hzero hdiv (constantValue_eq_some_iff.2 ⟨hconst, hr0⟩)

/-! ### Constant parts -/

/-- No report on a constant is a mere warning. -/
theorem eq_nil_of_quiet_of_isConstant {e : Expr} (h : e.isConstant = true)
    (hq : Quiet (e.valueFaults .empty)) : e.valueFaults .empty = [] := by
  induction e with
  | num p v => rfl
  | bool p b => rfl
  | var p x => cases h
  | not p e ih =>
    rw [valueFaults, quiet_append] at hq
    rw [valueFaults, ih h hq.1]
    rcases hv : e.value .empty with - | v
    · rfl
    · cases v with
      | int w => simp [hv, Value.notFaults, Diagnostic.category, Problem.category] at hq
      | bool b => rfl
  | binary p op l r ihl ihr =>
    obtain ⟨hl, hr⟩ := Bool.and_eq_true_iff.1 h
    rw [valueFaults, quiet_append, quiet_append] at hq
    rw [valueFaults, ihl hl hq.1.1, ihr hr hq.1.2]
    rw [BinaryOp.combineFaults_eq_nil_of_quiet hq.2]
    rfl

/-- On a constant, the faults of its constant parts are those of its evaluation. -/
theorem constantPartFaults_of_isConstant {e : Expr} (h : e.isConstant = true) :
    e.constantPartFaults = e.valueFaults .empty := by
  cases e with
  | num p v => rfl
  | bool p b => rfl
  | var p x => cases h
  | not p e => exact (if_pos h).trans (constantFaults_of_isConstant h)
  | binary p op l r => exact (if_pos h).trans (constantFaults_of_isConstant h)

private theorem constantPartFaults_eq_nil_of_isConstant {env : Env} {e : Expr}
    (hc : e.isConstant = true) (hq : Quiet (e.valueFaults env)) : e.constantPartFaults = [] := by
  rw [valueFaults_of_isConstant hc] at hq
  rw [constantPartFaults_of_isConstant hc]
  exact eq_nil_of_quiet_of_isConstant hc hq

/-- The evaluation of an expression reports the faults of its constant parts among others. -/
theorem constantPartFaults_eq_nil_of_quiet_valueFaults {env : Env} {e : Expr}
    (hq : Quiet (e.valueFaults env)) : e.constantPartFaults = [] := by
  induction e with
  | num p v => rfl
  | bool p b => rfl
  | var p x => rfl
  | not p e ih =>
    by_cases hc : e.isConstant = true
    · exact constantPartFaults_eq_nil_of_isConstant hc hq
    · rw [valueFaults, quiet_append] at hq
      rw [constantPartFaults, if_neg hc]
      exact ih hq.1
  | binary p op l r ihl ihr =>
    by_cases hc : (l.isConstant && r.isConstant) = true
    · exact constantPartFaults_eq_nil_of_isConstant hc hq
    · rw [valueFaults, quiet_append, quiet_append] at hq
      rw [constantPartFaults, if_neg hc, ihl hq.1.1, ihr hq.1.2]
      rfl

/-- Nor is a report on the constant parts of an expression a mere warning. -/
theorem quiet_constantPartFaults_iff {e : Expr} :
    Quiet e.constantPartFaults ↔ e.constantPartFaults = [] := by
  refine ⟨fun hq ↦ ?_, fun h ↦ h ▸ quiet_nil⟩
  induction e with
  | num p v => rfl
  | bool p b => rfl
  | var p x => rfl
  | not p e ih =>
    by_cases hc : e.isConstant = true
    · have hc' : (not p e).isConstant = true := hc
      rw [constantPartFaults_of_isConstant hc'] at hq ⊢
      exact eq_nil_of_quiet_of_isConstant hc' hq
    · rw [constantPartFaults, if_neg hc] at hq ⊢
      exact ih hq
  | binary p op l r ihl ihr =>
    by_cases hc : (l.isConstant && r.isConstant) = true
    · have hc' : (binary p op l r).isConstant = true := hc
      rw [constantPartFaults_of_isConstant hc'] at hq ⊢
      exact eq_nil_of_quiet_of_isConstant hc' hq
    · rw [constantPartFaults, if_neg hc, quiet_append] at hq
      rw [constantPartFaults, if_neg hc, ihl hq.1, ihr hq.2]
      rfl

/-- A typed expression that divides by no constant zero has no faults in its constant parts. -/
theorem HasType.constantPartFaults_eq_nil {env : Env} (henv : env.WellTyped) {e : Expr} {t : Ty}
    (h : HasType env.types e t) (hz : e.NoZeroDivisor) : e.constantPartFaults = [] :=
  constantPartFaults_eq_nil_of_quiet_valueFaults (h.quiet_valueFaults henv hz)

end Expr

end BlockLang
