import BlockLang.Pos
import BlockLang.Value

/-!
# Expressions

Expressions with the position of every node, their printed form, and the distinction between
literals (one node) and constants (built from literals only).
-/

namespace BlockLang

/-- An expression; each node carries its position. -/
inductive Expr where
  /-- An integer literal. -/
  | num (pos : Pos) (value : Int32)
  /-- A truth value. -/
  | bool (pos : Pos) (value : Bool)
  /-- A read of the variable `name`. -/
  | var (pos : Pos) (name : String)
  /-- A negation. -/
  | not (pos : Pos) (operand : Expr)
  /-- An application of a binary operator. -/
  | binary (pos : Pos) (op : BinaryOp) (lhs rhs : Expr)
deriving DecidableEq, Repr

namespace Expr

/-- The position of the outermost node. -/
def pos : Expr → Pos
  | num p _ => p
  | bool p _ => p
  | var p _ => p
  | not p _ => p
  | binary p _ _ _ => p

/-- Whether the expression is a single literal. -/
def isLiteral : Expr → Bool
  | num _ _ => true
  | bool _ _ => true
  | var _ _ => false
  | not _ _ => false
  | binary _ _ _ _ => false

/-- Whether the expression is built from literals only. -/
def isConstant : Expr → Bool
  | num _ _ => true
  | bool _ _ => true
  | var _ _ => false
  | not _ e => e.isConstant
  | binary _ _ l r => l.isConstant && r.isConstant

/-- The printed form. Every application stands in parentheses, so the form needs no precedences. -/
def text : Expr → String
  | num _ v => toString v.toInt
  | bool _ b => toString b
  | var _ x => x
  | not _ e => notSymbol ++ e.text
  | binary _ op l r => "(" ++ l.text ++ " " ++ op.symbol ++ " " ++ r.text ++ ")"

instance : ToString Expr where
  toString := text

end Expr

/-- The literal at `p` that denotes the value. -/
def Value.toLiteral (p : Pos) : Value → Expr
  | int v => .num p v
  | bool b => .bool p b

end BlockLang
