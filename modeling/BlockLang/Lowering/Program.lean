import BlockLang.Frame
import BlockLang.Lowering.Block

/-!
# Code for functions and programs

A function saves the base of the caller's frame, makes room for its own, copies its arguments to
their slots and runs its body; every return goes through one common end. Global variables become
cells of the data section.

## Main definitions

* `Program.lower`: the assembly program of a program.
* `Program.generate`: code generation as a pass over a session.
-/

namespace BlockLang

/-- The registers of the first arguments, in order. -/
def argumentRegisters : List Reg := [.di, .si, .dx, .cx, .r8, .r9]

/-- The code that copies an argument of type `ty` to its slot. Later arguments than the registers
hold are on the stack, eight bytes each, above the saved base and the return address. -/
def argumentCode (index : Nat) (ty : Ty) (slot : Mem) : List Line :=
  match argumentRegisters[index]? with
  | some r => [.instr (.store slot ty.storeWidth r)]
  | none =>
    let offset := 16 + 8 * (index - argumentRegisters.length)
    [.instr (.load .ax ⟨.dword, .argument offset⟩), .instr (storeAcc ty slot)]

namespace Lower

/-- The code of a parameter. -/
def param (index : Nat) (p : Param) : Lower (List Line) := do
  let storage ← allocate p.ty
  let slot ← place p.name storage p.pos
  return argumentCode index p.ty slot

/-- The code of parameters, the first of which has the given index. -/
def params (index : Nat) : List Param → Lower (List Line)
  | [] => return []
  | p :: ps => do
    let first ← param index p
    let others ← params (index + 1) ps
    return first ++ others

/-- The cell of a global variable. An initializer without a value counts as zero. -/
def cell (ty : Ty) (v : Declarator) : Lower Cell := do
  let env : Env := (← get).session.scopes.lookup?
  let value ← match v.init with
    | none => pure none
    | some e => do
      reportAll (e.valueFaults env)
      pure (e.value env)
  let _ ← place v.name .cell v.pos
  return { name := v.name, width := ty.width, value := value.elim 0 Value.toWord }

/-- The cells of global variables, in order. -/
def cells (ty : Ty) : List Declarator → Lower (List Cell)
  | [] => return []
  | v :: vs => do
    let first ← cell ty v
    let others ← cells ty vs
    return first :: others

/-- The cells of global declarations, in order. -/
def dataSection : List Declaration → Lower (List Cell)
  | [] => return []
  | d :: ds => do
    let first ← cells d.ty d.vars
    let others ← dataSection ds
    return first ++ others

end Lower

/-- The start of a function with a frame of the given size. -/
def prologue (f : String) (frame : Nat) : List Line :=
  [.label (.named f), .instr (.push .bp), .instr (.move .qword .bp .sp)] ++
    if 0 < frame then [.instr (.reserve frame)] else []

/-- The end of a function. One that can run out of statements returns zero then. -/
def epilogue (f : String) (alwaysReturns : Bool) : List Line :=
  (if alwaysReturns then [] else [.instr (.moveImm .ax 0)]) ++
    [.label (.exit f), .instr (.move .qword .sp .bp), .instr (.pop .bp), .instr .ret, .blank]

/-- The code of a function. -/
def Function.lower (o : Options) (f : Function) : Lower (List Line) := do
  let frame := (f.frameSize o.alignment).toNat
  Lower.note (.framed f.name frame)
  Lower.inBlock f.pos do
    let params ← Lower.params 0 f.params
    let body ← f.body.lower o f.name
    return prologue f.name frame ++ params ++ body ++ epilogue f.name f.body.alwaysReturns

/-- The assembly program of a program that has been analyzed. -/
def Program.lower (o : Options) (p : Program) : Lower Assembly := do
  Lower.note .generationStarted
  Lower.onSession Session.rewind
  let cells ← Lower.dataSection p.globals
  let code ← p.function.lower o
  Lower.note (.generationFinished (← get).labels)
  return { entry := o.entryLabel, function := p.function.name, cells, code }

/-- Generates code for a program in a session that has analyzed it. The session afterwards is the
one that the work has reached, also after a failure. -/
def Program.generate (o : Options) (p : Program) (s : Session) :
    Except LoweringError Assembly × Session :=
  match (p.lower o).run { session := s } with
  | .ok a progress => (.ok a, progress.session)
  | .error e progress => (.error e, progress.session)

end BlockLang
