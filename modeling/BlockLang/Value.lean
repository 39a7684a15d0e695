import BlockLang.Operator

/-!
# Values

What is known of a variable or an expression before the program runs: a 32-bit integer or a truth
value. Integer arithmetic wraps around, and division is toward zero; a quotient by zero is taken to
be zero, so that the expression around it still has a value.
-/

namespace BlockLang

/-- A value known before the program runs. -/
inductive Value where
  /-- An integer of 32 bits. -/
  | int (v : Int32)
  /-- A truth value. -/
  | bool (b : Bool)
deriving DecidableEq, Repr

namespace Value

/-- The type of a value. -/
def ty : Value → Ty
  | int _ => .int
  | bool _ => .bool

/-- The value as a machine word; truth values are the words 0 and 1. -/
def toWord : Value → Int32
  | int v => v
  | bool b => if b then 1 else 0

instance : ToString Value where
  toString
    | int v => toString v.toInt
    | bool b => toString b

/-- Applies `f` to two integers; anything else has no result. -/
def onInts (f : Int32 → Int32 → Value) : Value → Value → Option Value
  | int a, int b => some (f a b)
  | int _, bool _ => none
  | bool _, int _ => none
  | bool _, bool _ => none

/-- Applies `f` to two truth values; anything else has no result. -/
def onBools (f : Bool → Bool → Bool) : Value → Value → Option Value
  | bool a, bool b => some (bool (f a b))
  | int _, int _ => none
  | int _, bool _ => none
  | bool _, int _ => none

/-- Compares two values of one type. -/
def equal : Value → Value → Option Value
  | int a, int b => some (bool (a = b))
  | bool a, bool b => some (bool (a = b))
  | int _, bool _ => none
  | bool _, int _ => none

/-- The negation of a truth value. -/
def not : Value → Option Value
  | bool b => some (bool !b)
  | int _ => none

end Value

/-- The result of an operator on two values, if their types meet its demand. -/
def BinaryOp.apply : BinaryOp → Value → Value → Option Value
  | add => Value.onInts fun a b => .int (a + b)
  | sub => Value.onInts fun a b => .int (a - b)
  | mul => Value.onInts fun a b => .int (a * b)
  | div => Value.onInts fun a b => .int (a / b)
  | lt => Value.onInts fun a b => .bool (a < b)
  | gt => Value.onInts fun a b => .bool (b < a)
  | eq => Value.equal
  | and => Value.onBools (· && ·)
  | or => Value.onBools (· || ·)

/-- The value that a variable of the type holds before anything is stored in it. -/
def Ty.defaultValue : Ty → Option Value
  | int => some (.int 0)
  | bool => some (.bool false)
  | void => none
  | error => none

end BlockLang
