import BlockLang.Ty

/-!
# Operators and their typing table

The binary operators fall into four families. A family fixes what it demands of its operands and
the type of its result, so the typing table has one row per family.

## Main definitions

* `BinaryOp.typeOf`: the type of an application, or the demand that its operands fail.
* `Ty.typeOfNot`: the same for negation, the one unary operator.
-/

namespace BlockLang

/-- A binary operator. -/
inductive BinaryOp where
  /-- Addition. -/
  | add
  /-- Subtraction. -/
  | sub
  /-- Multiplication. -/
  | mul
  /-- Division, toward zero. -/
  | div
  /-- The order test "less than". -/
  | lt
  /-- The order test "greater than". -/
  | gt
  /-- Equality. -/
  | eq
  /-- Conjunction; both operands are evaluated. -/
  | and
  /-- Disjunction; both operands are evaluated. -/
  | or
deriving DecidableEq, Repr

/-- Operators that share their demand on operands and their result type. -/
inductive Family where
  /-- Integers to an integer. -/
  | arithmetic
  /-- Integers to a truth value. -/
  | relational
  /-- Two values of one type to a truth value. -/
  | equality
  /-- Truth values to a truth value. -/
  | logical
deriving DecidableEq, Repr

/-- A demand that an operator makes on its operands. -/
inductive Requirement where
  /-- Both operands are integers. -/
  | bothInt
  /-- Both operands are truth values. -/
  | bothBool
  /-- The operands have one type. -/
  | sameType
  /-- The only operand is a truth value. -/
  | oneBool
deriving DecidableEq, Repr

/-- The demand in words. -/
def Requirement.describe : Requirement → String
  | bothInt => "requires int operands"
  | bothBool => "requires bool operands"
  | sameType => "requires operands of the same type"
  | oneBool => "requires a bool operand"

namespace Family

/-- The type of the result. -/
def result : Family → Ty
  | arithmetic => .int
  | relational => .bool
  | equality => .bool
  | logical => .bool

/-- What the family demands of its operands. -/
def requirement : Family → Requirement
  | arithmetic => .bothInt
  | relational => .bothInt
  | equality => .sameType
  | logical => .bothBool

/-- Whether operands of these types meet the demand. -/
def accepts (f : Family) (l r : Ty) : Bool :=
  match f with
  | arithmetic => l.isArithmetic && r.isArithmetic
  | relational => l.isArithmetic && r.isArithmetic
  | equality => l.compatible r
  | logical => l.isBoolean && r.isBoolean

end Family

namespace BinaryOp

/-- The spelling of an operator. -/
def symbol : BinaryOp → String
  | add => "+"
  | sub => "-"
  | mul => "*"
  | div => "/"
  | lt => "<"
  | gt => ">"
  | eq => "=="
  | and => "&&"
  | or => "||"

instance : ToString BinaryOp where
  toString := symbol

/-- All operators, family by family. -/
def all : List BinaryOp := [add, sub, mul, div, lt, gt, eq, and, or]

/-- The operator with the given spelling. -/
def ofSymbol? (s : String) : Option BinaryOp := all.find? (·.symbol = s)

/-- The family of an operator. -/
def family : BinaryOp → Family
  | add => .arithmetic
  | sub => .arithmetic
  | mul => .arithmetic
  | div => .arithmetic
  | lt => .relational
  | gt => .relational
  | eq => .equality
  | and => .logical
  | or => .logical

/-- The type of an application to operands of types `l` and `r`, or the demand that they fail. An
operand that bears the mark passes it on without a complaint. -/
def typeOf (op : BinaryOp) (l r : Ty) : Except Requirement Ty :=
  if l.isError || r.isError then .ok .error
  else if op.family.accepts l r then .ok op.family.result
  else .error op.family.requirement

end BinaryOp

/-- The spelling of negation. -/
def notSymbol : String := "!"

/-- The type of a negation, or the demand that its operand fails. -/
def Ty.typeOfNot : Ty → Except Requirement Ty
  | .error => .ok .error
  | .bool => .ok .bool
  | .int => .error .oneBool
  | .void => .error .oneBool

end BlockLang
