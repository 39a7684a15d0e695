import BlockLang.Assembly.Basic
import BlockLang.Lowering.Expr
import BlockLang.Session

/-!
# The state of code generation

Code generation visits the scopes of the analysis again, in the same order, and gives every variable
a place when it reaches its declaration. It fails if the scopes do not fit the program; what it
changed until then stays changed.

Bytes of the frame are counted without a bound. A frame is meant to have fewer than 2 ^ 32 of them,
and the results about frames say so (`Function.FrameFits`).
-/

namespace BlockLang

/-- The state of code generation. -/
structure Progress where
  /-- The scopes, diagnostics and log. -/
  session : Session
  /-- How many constructs have been numbered. -/
  labels : Nat := 0
  /-- How many bytes of the frame are taken, a number of 32 bits if the frame fits. -/
  taken : Nat := 0

/-- A step of code generation. -/
abbrev Lower := EStateM LoweringError Progress

namespace Lower

/-- Changes the session. -/
def onSession (f : Session → Session) : Lower Unit :=
  modify fun p => { p with session := f p.session }

/-- Adds a record to the log. -/
def note (e : Event) : Lower Unit := onSession (·.note e)

/-- Records diagnostics. -/
def reportAll (ds : List Diagnostic) : Lower Unit := onSession (·.reportAll ds)

/-- Numbers a construct. -/
def freshLabel : Lower Nat :=
  modifyGet fun p => (p.labels, { p with labels := p.labels + 1 })

/-- Takes the next slot of the frame for a value of type `ty`. -/
def allocate (ty : Ty) : Lower Storage :=
  modifyGet fun p => (.slot (p.taken + ty.size), { p with taken := p.taken + ty.size })

/-- The next unvisited scope becomes current. -/
def enterBlock (pos : Pos) : Lower Unit := do
  match (← get).session.descend? with
  | some s => onSession fun _ => s
  | none => throw (.missingScope pos)

/-- The current scope is left. -/
def leaveBlock (pos : Pos) : Lower Unit := do
  match (← get).session.exit? with
  | some s => onSession fun _ => s
  | none => throw (.unbalancedScope pos)

/-- Runs a step in the next unvisited scope. -/
def inBlock {α : Type} (pos : Pos) (step : Lower α) : Lower α := do
  enterBlock pos
  let a ← step
  leaveBlock pos
  return a

/-- Gives the current scope's own `x` a place, and returns its operand. -/
def place (x : String) (storage : Storage) (pos : Pos) : Lower Mem := do
  match (← get).session.scopes.place? x storage with
  | none => throw (.unresolvedSymbol x pos)
  | some scopes =>
    onSession fun s => { s with scopes }
    match scopes.lookupLocal? x with
    | none => throw (.unresolvedSymbol x pos)
    | some symbol =>
      match symbol.operand? with
      | none => throw (.missingStorage symbol.name pos)
      | some m => return m

/-- The places of the variables that can be used at this point. -/
def env : Lower Env := return (← get).session.scopes.lookupStored?

/-- A result that may be a failure. -/
def ofExcept {α : Type} : Except LoweringError α → Lower α
  | .ok a => return a
  | .error e => throw e

/-- The code of an expression. -/
def expr (fold : Bool) (e : Expr) : Lower (List Line) := do
  let env ← env
  reportAll (e.lowerFaults fold env)
  let code ← ofExcept (e.lower fold env)
  return code.map .instr

/-- The code that stores the accumulator in the variable `x`. -/
def store (pos : Pos) (x : String) : Lower (List Line) := do
  let env ← env
  let (ty, m) ← ofExcept (env.operand pos x)
  return [.instr (storeAcc ty m)]

end Lower

end BlockLang
