import BlockLang.Expr.Typing
import Mathlib.Tactic.FinCases

/-!
# The typing rules of expressions

The operator table and the typing of expressions as relations, beside the functions that compute
them. The functions go on after a mistake, with the mark `Ty.error` for what has no type; the
relations know no mark. The two agree in both directions:

* `BinaryOp.typeOf_eq_ok_iff`: the table holds what the function accepts;
* `Expr.hasType_iff`: an expression has a type exactly when the function computes one;
* `Expr.quiet_typeFaults_iff`: and exactly when nothing worse than a warning is reported.
-/

namespace BlockLang

/-- Nothing worse than a warning is reported. -/
def Quiet (ds : List Diagnostic) : Prop := ∀ d ∈ ds, d.category = .warning

@[simp] theorem quiet_nil : Quiet [] := fun _ h ↦ absurd h List.not_mem_nil

@[simp] theorem quiet_append {ds es : List Diagnostic} :
    Quiet (ds ++ es) ↔ Quiet ds ∧ Quiet es := by
  simp [Quiet, or_imp, forall_and]

@[simp] theorem quiet_singleton {d : Diagnostic} : Quiet [d] ↔ d.category = .warning := by
  simp [Quiet]

/-! ### Operators -/

/-- The operator table: an operator takes operands of two types to a result of a third. -/
inductive BinaryOp.Takes : BinaryOp → Ty → Ty → Ty → Prop where
  /-- Arithmetic is on integers. -/
  | arithmetic {op : BinaryOp} (h : op ∈ [.add, .sub, .mul, .div]) : Takes op .int .int .int
  /-- Order tests compare integers. -/
  | order {op : BinaryOp} (h : op ∈ [.lt, .gt]) : Takes op .int .int .bool
  /-- Equality compares two values of one type. -/
  | equality {t : Ty} (h : t ≠ .error) : Takes .eq t t .bool
  /-- Logic is on truth values. -/
  | logic {op : BinaryOp} (h : op ∈ [.and, .or]) : Takes op .bool .bool .bool

namespace BinaryOp

theorem Takes.typeOf_eq {op : BinaryOp} {l r t : Ty} (h : op.Takes l r t) :
    op.typeOf l r = .ok t := by
  cases h with
  | arithmetic h => fin_cases h <;> rfl
  | order h => fin_cases h <;> rfl
  | equality h =>
    cases l with
    | error => exact absurd rfl h
    | int => rfl
    | bool => rfl
    | void => rfl
  | logic h => fin_cases h <;> rfl

theorem Takes.ne_error {op : BinaryOp} {l r t : Ty} (h : op.Takes l r t) : t ≠ .error := by
  cases h <;> simp

theorem Takes.lhs_ne_error {op : BinaryOp} {l r t : Ty} (h : op.Takes l r t) : l ≠ .error := by
  cases h with
  | equality h => exact h
  | arithmetic => simp
  | order => simp
  | logic => simp

theorem Takes.rhs_ne_error {op : BinaryOp} {l r t : Ty} (h : op.Takes l r t) : r ≠ .error := by
  cases h with
  | equality h => exact h
  | arithmetic => simp
  | order => simp
  | logic => simp

/-- The table holds exactly the applications that have a type. -/
theorem typeOf_eq_ok_iff {op : BinaryOp} {l r t : Ty} (ht : t ≠ .error) :
    op.typeOf l r = .ok t ↔ op.Takes l r t := by
  refine ⟨fun h ↦ ?_, Takes.typeOf_eq⟩
  rw [typeOf] at h
  split at h
  · exact absurd (Except.ok.inj h).symm ht
  · split at h
    · rename_i hmark hacc
      obtain rfl := Except.ok.inj h
      -- one case per family: what it accepts are the operands of its row
      cases op <;>
        simp only [family, Family.accepts, Family.result, Ty.isArithmetic, Ty.isBoolean,
          Ty.compatible, Bool.and_eq_true, decide_eq_true_eq] at hacc ⊢
      case eq =>
        obtain ⟨⟨hl, -⟩, rfl⟩ := hacc
        exact .equality (by simpa [Ty.isError] using hl)
      all_goals
        obtain ⟨rfl, rfl⟩ := hacc
        first
        | exact .arithmetic (by decide)
        | exact .order (by decide)
        | exact .logic (by decide)
    · cases h

end BinaryOp

/-! ### Expressions -/

/-- The types of the variables that an environment knows. -/
def Env.types (env : Env) : String → Option Ty := fun x ↦ (env x).map Symbol.ty

/-- No variable that the environment knows bears the mark. -/
def Env.Unmarked (env : Env) : Prop := ∀ x s, env x = some s → s.ty ≠ .error

namespace Expr

/-- An expression has a type, given the types of the visible variables. -/
inductive HasType (Γ : String → Option Ty) : Expr → Ty → Prop where
  /-- Numbers are integers. -/
  | num (p : Pos) (v : Int32) : HasType Γ (.num p v) .int
  /-- Truth values. -/
  | bool (p : Pos) (b : Bool) : HasType Γ (.bool p b) .bool
  /-- A variable has the type of its declaration. -/
  | var (p : Pos) {x : String} {t : Ty} (h : Γ x = some t) : HasType Γ (.var p x) t
  /-- Negation is of truth values. -/
  | not (p : Pos) {e : Expr} (h : HasType Γ e .bool) : HasType Γ (.not p e) .bool
  /-- An operator takes its operands as the table says. -/
  | binary (p : Pos) {op : BinaryOp} {l r : Expr} {a b t : Ty} (hop : op.Takes a b t)
      (hl : HasType Γ l a) (hr : HasType Γ r b) : HasType Γ (.binary p op l r) t

theorem HasType.type_eq {env : Env} {e : Expr} {t : Ty} (h : HasType env.types e t) :
    e.type env = t := by
  induction h with
  | num => rfl
  | bool => rfl
  | var p h =>
    obtain ⟨s, hs, rfl⟩ := Option.map_eq_some_iff.1 h
    rw [type, hs]
  | not p h ih => rw [type, ih]; rfl
  | binary p hop hl hr ihl ihr => rw [type, ihl, ihr, hop.typeOf_eq]

theorem HasType.ne_error {env : Env} (henv : env.Unmarked) {e : Expr} {t : Ty}
    (h : HasType env.types e t) : t ≠ .error := by
  cases h with
  | num => simp
  | bool => simp
  | var p h =>
    obtain ⟨s, hs, rfl⟩ := Option.map_eq_some_iff.1 h
    exact henv _ s hs
  | not => simp
  | binary p hop => exact hop.ne_error

/-- The function computes a type exactly for the expressions that have one. -/
theorem hasType_iff {env : Env} (henv : env.Unmarked) {e : Expr} {t : Ty} :
    HasType env.types e t ↔ e.type env = t ∧ t ≠ .error := by
  refine ⟨fun h ↦ ⟨h.type_eq, h.ne_error henv⟩, ?_⟩
  rintro ⟨rfl, hne⟩
  induction e with
  | num p v => exact .num p v
  | bool p b => exact .bool p b
  | var p x =>
    rw [type] at hne ⊢
    rcases hx : env x with - | s
    · rw [hx] at hne
      exact absurd rfl hne
    · exact .var p (by rw [Env.types, hx]; rfl)
  | not p e ih =>
    rw [type] at hne ⊢
    cases he : e.type env with
    | bool => exact .not p (he ▸ ih (by simp [he]))
    | int => exact absurd rfl (he ▸ hne)
    | void => exact absurd rfl (he ▸ hne)
    | error => exact absurd rfl (he ▸ hne)
  | binary p op l r ihl ihr =>
    rw [type] at hne ⊢
    rcases hop : op.typeOf (l.type env) (r.type env) with q | t
    · rw [hop] at hne
      exact absurd rfl hne
    · rw [hop] at hne
      have htakes := (BinaryOp.typeOf_eq_ok_iff hne).1 hop
      exact .binary p htakes (ihl htakes.lhs_ne_error) (ihr htakes.rhs_ne_error)

/-- An expression is without a type exactly when an error is reported on it. -/
theorem quiet_typeFaults_iff {env : Env} (henv : env.Unmarked) {e : Expr} :
    Quiet (e.typeFaults env) ↔ e.type env ≠ .error := by
  induction e with
  | num p v => simp [typeFaults, type]
  | bool p b => simp [typeFaults, type]
  | var p x =>
    rcases hx : env x with - | s
    · simp [typeFaults, type, hx, Diagnostic.category, Problem.category]
    · have hs : s.ty ≠ .error := henv x s hx
      cases hi : s.initialized <;>
        simp [typeFaults, type, hx, hs, hi, Diagnostic.category, Problem.category]
  | not p e ih =>
    rw [typeFaults, quiet_append, ih, type]
    cases e.type env <;> simp [Ty.typeOfNot, Diagnostic.category, Problem.category]
  | binary p op l r ihl ihr =>
    rw [typeFaults, quiet_append, quiet_append, ihl, ihr, type]
    -- an operand with the mark passes it on, so both sides fail together
    by_cases hl : l.type env = .error
    · simp [hl, BinaryOp.typeOf, Ty.isError]
    by_cases hr : r.type env = .error
    · simp [hr, BinaryOp.typeOf, Ty.isError]
    rcases hop : op.typeOf (l.type env) (r.type env) with q | t
    · simp [Diagnostic.category, Problem.category]
    · have ht : t ≠ .error := by
        rintro rfl
        rw [BinaryOp.typeOf] at hop
        split at hop
        · simp_all [Ty.isError]
        · split at hop
          · cases op <;> simp [BinaryOp.family, Family.result] at hop
          · cases hop
      simp [hl, hr, ht]

/-- Nothing worse than a warning is reported on an expression exactly when it has a type. -/
theorem quiet_typeFaults_iff_hasType {env : Env} (henv : env.Unmarked) {e : Expr} :
    Quiet (e.typeFaults env) ↔ ∃ t, HasType env.types e t := by
  rw [quiet_typeFaults_iff henv]
  constructor
  · intro h
    exact ⟨_, (hasType_iff henv).2 ⟨rfl, h⟩⟩
  · rintro ⟨t, ht⟩
    rw [ht.type_eq]
    exact ht.ne_error henv

end Expr

end BlockLang
