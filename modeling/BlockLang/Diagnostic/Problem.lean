import BlockLang.Lowering.Error
import BlockLang.Program.Basic

/-!
# Problems

What can be wrong with a program, as causes. The category and the wording of each cause stand here
and nowhere else.
-/

namespace BlockLang

/-- The kind of a problem. -/
inductive Category where
  /-- A malformed word. -/
  | lexical
  /-- A malformed sentence. -/
  | syntactic
  /-- A violation of the rules on names, scopes, constants and returns. -/
  | semantic
  /-- A violation of the typing rules. -/
  | typing
  /-- A remark that does not stop a compilation. -/
  | warning
deriving DecidableEq, Repr

/-- The label that opens a line on a problem of the category. -/
def Category.label : Category → String
  | lexical => "LEXICAL"
  | syntactic => "SYNTAX"
  | semantic => "SEMANTIC"
  | typing => "TYPE"
  | warning => "WARNING"

/-- Something that is wrong with a program, or worth a remark. -/
inductive Problem where
  /-- A problem found elsewhere, in the words in which it was handed over. -/
  | external (category : Category) (message : String)
  /-- A variable that is not visible is read or assigned. -/
  | undeclared (name : String)
  /-- A scope declares a variable twice. -/
  | redeclared (name : String)
  /-- Two parameters have one name. -/
  | redeclaredParam (name : String)
  /-- A variable has a type that cannot be stored. -/
  | unstorable (name : String) (ty : Ty)
  /-- A parameter has a type that cannot be stored. -/
  | unstorableParam (name : String) (ty : Ty)
  /-- A declaration stores nothing in its variable. -/
  | noInitializer (name : String)
  /-- A variable is read before anything was stored in it. -/
  | usedUninitialized (name : String)
  /-- A value of one type is stored in a variable of another. -/
  | assignMismatch (name : String) (target found : Ty)
  /-- The initializer of a global variable reads a variable. -/
  | globalNotConstant (name : String)
  /-- The name of a global variable means something else in the assembly text. -/
  | reservedGlobal (name : String)
  /-- A condition is no truth value. -/
  | conditionType (construct : Construct) (found : Ty)
  /-- A returned value has another type than the function. -/
  | returnMismatch (expected found : Ty)
  /-- A return without a value in a function that has a result. -/
  | noReturnValue (expected : Ty)
  /-- A function that has a result holds no return. -/
  | noReturn (function : String) (ty : Ty)
  /-- The operands of a binary operator fail its demand. -/
  | operands (op : BinaryOp) (requirement : Requirement) (lhs rhs : Ty)
  /-- The operand of a negation fails its demand. -/
  | notOperand (requirement : Requirement) (found : Ty)
  /-- A constant expression divides by zero. -/
  | divisionByZero
  /-- The value of a variable is wanted before the program runs, and not known. -/
  | unknownValue (name : String)
  /-- Code generation failed. -/
  | lowering (e : LoweringError)
deriving DecidableEq, Repr

namespace Problem

/-- The kind of the problem. -/
def category : Problem → Category
  | external c _ => c
  | undeclared _ => .semantic
  | redeclared _ => .semantic
  | redeclaredParam _ => .semantic
  | unstorable _ _ => .semantic
  | unstorableParam _ _ => .semantic
  | noInitializer _ => .warning
  | usedUninitialized _ => .warning
  | assignMismatch _ _ _ => .typing
  | globalNotConstant _ => .semantic
  | reservedGlobal _ => .semantic
  | conditionType _ _ => .semantic
  | returnMismatch _ _ => .typing
  | noReturnValue _ => .semantic
  | noReturn _ _ => .semantic
  | operands _ _ _ _ => .typing
  | notOperand _ _ => .typing
  | divisionByZero => .semantic
  | unknownValue _ => .warning
  | lowering _ => .semantic

/-- The problem in words. -/
def message : Problem → String
  | external _ m => m
  | undeclared x => s!"variable '{x}' is not declared"
  | redeclared x => s!"variable '{x}' is already declared in this scope"
  | redeclaredParam x => s!"parameter '{x}' is already declared in this scope"
  | unstorable x t => s!"variable '{x}' cannot have type {t}"
  | unstorableParam x t => s!"parameter '{x}' cannot have type {t}"
  | noInitializer x => s!"variable '{x}' declared but not initialized"
  | usedUninitialized x => s!"variable '{x}' is used before being initialized"
  | assignMismatch x target found =>
    s!"cannot assign {found} to variable '{x}' of type {target}"
  | globalNotConstant x => s!"initializer of global '{x}' must be a constant expression"
  | reservedGlobal x =>
    s!"global '{x}' collides with a name reserved in the generated assembly"
  | conditionType c found => s!"condition of '{c.keyword}' must be bool, found {found}"
  | returnMismatch expected found =>
    s!"return type mismatch: expected {expected}, found {found}"
  | noReturnValue expected => s!"function must return a value of type {expected}"
  | noReturn f t => s!"function '{f}' with return type '{t}' must have a return statement"
  | operands op q l r => s!"operator '{op}' {q.describe}, found {l} and {r}"
  | notOperand q t => s!"operator '{notSymbol}' {q.describe}, found {t}"
  | divisionByZero => "division by zero in constant expression"
  | unknownValue x => s!"value of '{x}' is not known at compile time"
  | lowering e => e.message

end Problem

end BlockLang
