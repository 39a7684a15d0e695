import BlockLang.Assembly.Instr
import BlockLang.Expr.Constant

/-!
# Code for expressions

The code of an expression leaves its value in the accumulator. The left operand of an operator waits
on the stack while the right one is computed, and is then taken into the counter register.

With folding, the code of a constant expression is a single immediate value. Folding evaluates the
expression, so it may report a fault; in a program that was analyzed without errors there is none.
-/

namespace BlockLang

/-- The memory operand of a symbol, if it has a place to live in. -/
def Symbol.operand? (s : Symbol) : Option Mem :=
  s.storage.map fun
    | .cell => ⟨s.ty.width, .cell s.name⟩
    | .slot offset => ⟨s.ty.width, .slot offset⟩

/-- Reads a variable of type `ty` into the accumulator. -/
def loadAcc (ty : Ty) (m : Mem) : Instr :=
  if ty = .bool then .loadZx .ax m else .load .ax m

/-- The part of a register that goes into a variable of type `ty`. -/
def Ty.storeWidth (ty : Ty) : Width :=
  if ty = .bool then .byte else .dword

/-- Writes the accumulator to a variable of type `ty`. -/
def storeAcc (ty : Ty) (m : Mem) : Instr := .store m ty.storeWidth .ax

/-- A comparison of the left operand with the right one, as 0 or 1 in the accumulator. -/
def compareCode (c : Cond) : List Instr :=
  [.cmp .cx .ax, .set c .ax, .moveZx .ax .ax]

/-- Combines the left operand, in the counter, with the right one, in the accumulator. Truth values
are 0 and 1, so the bitwise operations are the logical ones. -/
def BinaryOp.code : BinaryOp → List Instr
  | add => [.alu .add .ax .cx]
  | sub => [.alu .sub .cx .ax, .move .dword .ax .cx]
  | mul => [.alu .imul .ax .cx]
  | div => [.exchange .ax .cx, .cdq, .idiv .cx]
  | lt => compareCode .less
  | gt => compareCode .greater
  | eq => compareCode .equal
  | and => [.alu .and .ax .cx]
  | or => [.alu .or .ax .cx]

/-- Flips a truth value in the accumulator. -/
def notCode : List Instr := [.xorImm .ax 1]

/-- The type and the operand of the variable that `x` means in `env`, which knows the places of
variables. -/
def Env.operand (env : Env) (pos : Pos) (x : String) : Except LoweringError (Ty × Mem) :=
  match env x with
  | none => .error (.unresolvedSymbol x pos)
  | some s =>
    match s.operand? with
    | none => .error (.missingStorage s.name pos)
    | some m => .ok (s.ty, m)

namespace Expr

/-- Whether folding looks at the expression: it is a constant, and not a literal already. -/
def isFoldable (fold : Bool) (e : Expr) : Bool := fold && !e.isLiteral && e.isConstant

/-- The value that folding finds for the expression. -/
def foldedValue? (fold : Bool) (e : Expr) : Option Value :=
  if e.isFoldable fold then e.constantValue else none

/-- What folding reports. -/
def foldingFaults (fold : Bool) (e : Expr) : List Diagnostic :=
  if e.isFoldable fold then e.constantFaults else []

/-- The code of the expression, where `env` knows the places of variables. -/
def lower (fold : Bool) (env : Env) : Expr → Except LoweringError (List Instr)
  | num _ v => .ok [.moveImm .ax v]
  | bool _ b => .ok [.moveImm .ax (Value.bool b).toWord]
  | var pos x => do
    let (ty, m) ← env.operand pos x
    return [loadAcc ty m]
  | not pos e =>
    match (not pos e).foldedValue? fold with
    | some v => .ok [.moveImm .ax v.toWord]
    | none => do
      let operand ← e.lower fold env
      return operand ++ notCode
  | binary pos op l r =>
    match (binary pos op l r).foldedValue? fold with
    | some v => .ok [.moveImm .ax v.toWord]
    | none => do
      let lhs ← l.lower fold env
      let rhs ← r.lower fold env
      return lhs ++ [.push .ax] ++ rhs ++ [.pop .cx] ++ op.code

/-- What is reported while the code of the expression is generated. A failure ends the reports. -/
def lowerFaults (fold : Bool) (env : Env) : Expr → List Diagnostic
  | num _ _ => []
  | bool _ _ => []
  | var _ _ => []
  | not pos e =>
    (not pos e).foldingFaults fold ++
      if ((not pos e).foldedValue? fold).isSome then [] else e.lowerFaults fold env
  | binary pos op l r =>
    (binary pos op l r).foldingFaults fold ++
      if ((binary pos op l r).foldedValue? fold).isSome then []
      else
        l.lowerFaults fold env ++
          match l.lower fold env with
          | .ok _ => r.lowerFaults fold env
          | .error _ => []

/-- The number that a literal stands for in the code. -/
def immediate? : Expr → Option Int32
  | num _ v => some v
  | bool _ b => some (Value.bool b).toWord
  | var _ _ => none
  | not _ _ => none
  | binary _ _ _ _ => none

end Expr

end BlockLang
