import BlockLang.Diagnostic.Basic
import BlockLang.Symbol.Basic

/-!
# Values of expressions before the program runs

`Expr.value` computes what is known of the value of an expression from what is known of its
variables, and `Expr.valueFaults` lists what is worth a report on the way. Evaluation never stops: a
subexpression with a problem just has no value. A constant division by zero is reported and counts
as zero.

## Main definitions

* `Expr.value`, `Expr.valueFaults`: evaluation with known variables.
* `Expr.constantPartFaults`: the faults of the largest constant parts of an expression.
* `Expr.fold`: a constant expression as a literal.
-/

namespace BlockLang

/-- What is known of the variables that are visible at some point. -/
abbrev Env := String → Option Symbol

/-- The environment without variables. -/
def Env.empty : Env := fun _ => none

namespace BinaryOp

/-- Whether a quotient is left unknown: its divisor is zero, but only because of what is known of a
variable, and the machine may see another divisor. -/
def isOpenQuotient (op : BinaryOp) (constantRhs : Bool) (rhs : Option Value) : Bool :=
  op = .div && rhs = some (.int 0) && !constantRhs

/-- The result of an operator on operands that may be unknown. -/
def combine (op : BinaryOp) (constantRhs : Bool) (lhs rhs : Option Value) : Option Value :=
  if op.isOpenQuotient constantRhs rhs then none
  else
    match lhs, rhs with
    | some a, some b => op.apply a b
    | some _, none => none
    | none, _ => none

/-- What is wrong with an operator applied to two values. -/
def applyFaults (op : BinaryOp) (pos : Pos) (a b : Value) : List Diagnostic :=
  match op.typeOf a.ty b.ty with
  | .error q => [⟨pos, .operands op q a.ty b.ty⟩]
  | .ok _ => if op = .div ∧ b = .int 0 then [⟨pos, .divisionByZero⟩] else []

/-- What is wrong with an operator on operands that may be unknown. -/
def combineFaults (op : BinaryOp) (pos : Pos) (constantRhs : Bool) (lhs rhs : Option Value) :
    List Diagnostic :=
  if op.isOpenQuotient constantRhs rhs then []
  else
    match lhs, rhs with
    | some a, some b => op.applyFaults pos a b
    | some _, none => []
    | none, _ => []

end BinaryOp

/-- What is wrong with the negation of a value. -/
def Value.notFaults (pos : Pos) : Value → List Diagnostic
  | int _ => [⟨pos, .notOperand .oneBool .int⟩]
  | bool _ => []

namespace Expr

/-- The value of the expression, if it is known. -/
def value (env : Env) : Expr → Option Value
  | num _ v => some (.int v)
  | bool _ b => some (.bool b)
  | var _ x => (env x).bind Symbol.value
  | not _ e => (e.value env).bind Value.not
  | binary _ op l r => op.combine r.isConstant (l.value env) (r.value env)

/-- What evaluation reports, in the order left operand, right operand, operator. -/
def valueFaults (env : Env) : Expr → List Diagnostic
  | num _ _ => []
  | bool _ _ => []
  | var pos x =>
    match env x with
    | none => []
    | some s => if s.value.isNone then [⟨pos, .unknownValue x⟩] else []
  | not pos e =>
    e.valueFaults env ++
      match e.value env with
      | some v => v.notFaults pos
      | none => []
  | binary pos op l r =>
    l.valueFaults env ++ r.valueFaults env ++
      op.combineFaults pos r.isConstant (l.value env) (r.value env)

/-- The value of a constant expression. -/
def constantValue (e : Expr) : Option Value :=
  if e.isConstant then e.value .empty else none

/-- What the evaluation of a constant expression reports. -/
def constantFaults (e : Expr) : List Diagnostic :=
  if e.isConstant then e.valueFaults .empty else []

/-- The faults of the largest constant parts of the expression, from left to right. -/
def constantPartFaults : Expr → List Diagnostic
  | num _ _ => []
  | bool _ _ => []
  | var _ _ => []
  | not pos e =>
    if e.isConstant then (not pos e).constantFaults else e.constantPartFaults
  | binary pos op l r =>
    if l.isConstant && r.isConstant then (binary pos op l r).constantFaults
    else l.constantPartFaults ++ r.constantPartFaults

/-- A constant expression as the literal of its value, at the same position; any other expression,
and a constant one without a value, stays. -/
def fold (e : Expr) : Expr :=
  match e.constantValue with
  | some v => v.toLiteral e.pos
  | none => e

end Expr

end BlockLang
