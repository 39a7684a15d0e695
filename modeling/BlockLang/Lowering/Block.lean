import BlockLang.Lowering.Basic
import BlockLang.Options
import BlockLang.Program.Printer

/-!
# Code for declarations and statements

A variable gets its place after the code of its initializer, so an initializer that reads a variable
of the same name reads the outer one.
-/

namespace BlockLang

/-- A remark, if remarks are wanted. -/
def Options.remark (o : Options) (text : String) : List Line :=
  if o.emitComments then [.comment text] else []

/-- What an initializer leaves for its variable. -/
inductive Initial where
  /-- A number known in advance. -/
  | immediate (value : Int32)
  /-- The value in the accumulator, computed by the given code. -/
  | computed (code : List Line)

namespace Lower

/-- Prepares the value of an initializer; without one a variable starts as zero. -/
def initial (fold : Bool) : Option Expr → Lower Initial
  | none => return .immediate 0
  | some e => do
    reportAll (e.foldingFaults fold)
    match e.foldedValue? fold with
    | some v => return .immediate v.toWord
    | none =>
      match e.immediate? with
      | some v => return .immediate v
      | none => return .computed (← expr fold e)

/-- The code of a variable of the function. -/
def declarator (o : Options) (ty : Ty) (v : Declarator) : Lower (List Line) := do
  let start ← initial o.foldConstants v.init
  let storage ← allocate ty
  let slot ← place v.name storage v.pos
  match start with
  | .immediate value => return [.instr (.storeImm slot value)]
  | .computed code => return code ++ [.instr (storeAcc ty slot)]

/-- The code of variables of the function, in order. -/
def declarators (o : Options) (ty : Ty) : List Declarator → Lower (List Line)
  | [] => return []
  | v :: vs => do
    let first ← declarator o ty v
    let others ← declarators o ty vs
    return first ++ others

end Lower

namespace Simple

/-- The instructions of a statement without inner blocks, in the function `f`. -/
def code (o : Options) (f : String) : Simple → Lower (List Line)
  | declare d => Lower.declarators o d.ty d.vars
  | assign pos x e => do
    let value ← Lower.expr o.foldConstants e
    let store ← Lower.store pos x
    return value ++ store
  | ret _ none => return [.instr (.moveImm .ax 0), .instr (.jump (.exit f))]
  | ret _ (some e) => do
    let value ← Lower.expr o.foldConstants e
    return value ++ [.instr (.jump (.exit f))]
  | eval _ e => Lower.expr o.foldConstants e

/-- The code of a statement without inner blocks, after the statement itself as a remark. -/
def lower (o : Options) (f : String) (s : Simple) : Lower (List Line) := do
  let code ← s.code o f
  return o.remark s.text ++ code

end Simple

namespace Block

/-- The test of a condition: goes on at `target` if it is false. -/
def testCode (cond : List Line) (target : Label) : List Line :=
  cond ++ [.instr (.cmpImm .ax 0), .instr (.jumpEqual target)]

/-- The code of the statements of a block, in the function `f`. A construct takes its number before
the constructs inside it. -/
def lower (o : Options) (f : String) : Block → Lower (List Line)
  | done => return []
  | simple s rest => do
    let first ← s.lower o f
    let others ← rest.lower o f
    return first ++ others
  | ifThen pos c t rest => do
    let id ← Lower.freshLabel
    let cond ← Lower.expr o.foldConstants c
    let body ← Lower.inBlock pos (t.lower o f)
    let others ← rest.lower o f
    return o.remark (guardText .cond c) ++ testCode cond (.construct .endIf id) ++ body ++
      [.label (.construct .endIf id)] ++ others
  | ifElse pos c t e rest => do
    let id ← Lower.freshLabel
    let cond ← Lower.expr o.foldConstants c
    let thenCode ← Lower.inBlock pos (t.lower o f)
    let elseCode ← Lower.inBlock pos (e.lower o f)
    let others ← rest.lower o f
    return o.remark (guardText .cond c) ++ testCode cond (.construct .otherwise id) ++ thenCode ++
      [.instr (.jump (.construct .endIf id)), .label (.construct .otherwise id)] ++ elseCode ++
      [.label (.construct .endIf id)] ++ others
  | loop pos c b rest => do
    let id ← Lower.freshLabel
    let cond ← Lower.expr o.foldConstants c
    let body ← Lower.inBlock pos (b.lower o f)
    let others ← rest.lower o f
    return o.remark (guardText .loop c) ++ [.label (.construct .loopStart id)] ++
      testCode cond (.construct .loopEnd id) ++ body ++
      [.instr (.jump (.construct .loopStart id)), .label (.construct .loopEnd id)] ++ others

end Block

end BlockLang
