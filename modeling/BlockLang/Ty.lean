/-!
# The types of the language

Variables hold 32-bit integers or truth values; a function may also return nothing. The fourth type
is a mark: an expression that was already reported has it, and whatever is built on such an
expression is accepted without a second report.
-/

namespace BlockLang

/-- A type of the language, or the mark of an expression that has none. -/
inductive Ty where
  /-- Signed integers of 32 bits. -/
  | int
  /-- Truth values. -/
  | bool
  /-- The result type of a function that returns no value. -/
  | void
  /-- The mark of an expression whose misuse has been reported. -/
  | error
deriving DecidableEq, Repr

/-- A text that names no type. -/
structure UnknownType where
  /-- The text. -/
  name : String
deriving DecidableEq, Repr

/-- The report on a text that names no type. -/
def UnknownType.message (e : UnknownType) : String :=
  s!"unknown type name '{e.name}'"

namespace Ty

/-- The spelling of a type in a program. -/
def name : Ty → String
  | int => "int"
  | bool => "bool"
  | void => "void"
  | error => "error"

instance : ToString Ty where
  toString := name

/-- The type that a program spells as `s`. The mark has no spelling of its own. -/
def ofName (s : String) : Except UnknownType Ty :=
  if s = "int" then .ok int
  else if s = "bool" then .ok bool
  else if s = "void" then .ok void
  else .error ⟨s⟩

/-- A word for the type in running text. -/
def describe : Ty → String
  | int => "integer"
  | bool => "boolean"
  | void => "void"
  | error => "error type"

/-- The number of bytes that a variable of the type occupies. -/
def size : Ty → Nat
  | int => 4
  | bool => 1
  | void => 0
  | error => 0

/-- Whether arithmetic applies to the type. -/
def isArithmetic (t : Ty) : Bool := t = int

/-- Whether the logical operators apply to the type. -/
def isBoolean (t : Ty) : Bool := t = bool

/-- Whether this is the mark of a reported expression. -/
def isError (t : Ty) : Bool := t = error

/-- Whether a program can spell the type. -/
def isPrimitive (t : Ty) : Bool := t ≠ error

/-- Whether a variable or a parameter can have the type. -/
def isStorable (t : Ty) : Bool := t = int || t = bool

/-- Whether a value of one type may stand where the other is wanted: the types agree, and neither
is the mark. -/
def compatible (a b : Ty) : Bool :=
  !a.isError && !b.isError && a = b

end Ty

end BlockLang
