import BlockLang.Expr.Basic

/-!
# Symbols

What is known of a declared variable: what the declaration says, the value that is tracked through
the analysis, and, once code is generated, where the variable lives.
-/

namespace BlockLang

/-- Where a variable lives at run time. -/
inductive Storage where
  /-- In a cell of the data section with the variable's name. -/
  | cell
  /-- In the frame, `offset` bytes below its base. -/
  | slot (offset : Nat)
deriving DecidableEq, Repr

/-- A declared variable. -/
structure Symbol where
  /-- The name. -/
  name : String
  /-- The declared type. -/
  ty : Ty
  /-- The value that the variable is known to hold. -/
  value : Option Value := none
  /-- Whether something has been stored in the variable. -/
  initialized : Bool := false
  /-- The position of the declaration. -/
  pos : Pos := {}
  /-- The name of the scope that declares the variable. -/
  owner : String
  /-- Where the variable lives, once that is decided. -/
  storage : Option Storage := none
  /-- The number of bytes it occupies, once it has a place. -/
  size : Nat := 0
deriving DecidableEq, Repr

namespace Symbol

/-- Whether the variable lives in the data section. -/
def isGlobal (s : Symbol) : Bool := s.storage = some .cell

/-- The symbol after a store. The value is `none` if the analysis cannot tell what is stored. -/
def assign (value : Option Value) (s : Symbol) : Symbol :=
  { s with value := value, initialized := true }

/-- The symbol with a place to live in. -/
def place (storage : Storage) (s : Symbol) : Symbol :=
  { s with size := s.ty.size, storage := some storage }

/-- What is known of the value: the value itself, a question mark if something unknown was stored,
or a remark that nothing was. -/
def valueText (s : Symbol) : String :=
  match s.value, s.initialized with
  | some v, _ => " = " ++ toString v
  | none, true => " = ?"
  | none, false => " (uninitialized)"

/-- The place of the variable, if it has one. -/
def storageText (s : Symbol) : String :=
  match s.storage with
  | some .cell => " @" ++ s.name
  | some (.slot offset) => " @rbp-" ++ toString offset
  | none => ""

/-- One line on the symbol. -/
def text (s : Symbol) : String :=
  s.name ++ ": " ++ s.ty.name ++ s.valueText ++ s.storageText ++ " [" ++ toString s.pos ++ "]"

instance : ToString Symbol where
  toString := text

end Symbol

end BlockLang
