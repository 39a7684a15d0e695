import BlockLang.Expr.Constant

/-!
# Types of expressions

`Expr.type` computes the type of an expression from the declarations that are visible, and
`Expr.typeFaults` lists what is worth a report. A fault is reported once, where it is: an expression
with a fault bears the mark `Ty.error`, and operators pass the mark on in silence.
-/

namespace BlockLang

namespace Expr

/-- The type of the expression; `Ty.error` if the expression has a fault. -/
def type (env : Env) : Expr → Ty
  | num _ _ => .int
  | bool _ _ => .bool
  | var _ x =>
    match env x with
    | none => .error
    | some s => s.ty
  | not _ e =>
    match (e.type env).typeOfNot with
    | .ok t => t
    | .error _ => .error
  | binary _ op l r =>
    match op.typeOf (l.type env) (r.type env) with
    | .ok t => t
    | .error _ => .error

/-- What is reported while the type is computed, in the order left operand, right operand,
operator. -/
def typeFaults (env : Env) : Expr → List Diagnostic
  | num _ _ => []
  | bool _ _ => []
  | var pos x =>
    match env x with
    | none => [⟨pos, .undeclared x⟩]
    | some s => if s.initialized then [] else [⟨pos, .usedUninitialized x⟩]
  | not pos e =>
    e.typeFaults env ++
      match (e.type env).typeOfNot with
      | .ok _ => []
      | .error q => [⟨pos, .notOperand q (e.type env)⟩]
  | binary pos op l r =>
    l.typeFaults env ++ r.typeFaults env ++
      match op.typeOf (l.type env) (r.type env) with
      | .ok _ => []
      | .error q => [⟨pos, .operands op q (l.type env) (r.type env)⟩]

end Expr

end BlockLang
