import BlockLang.Assembly.Reserved
import BlockLang.Expr.Typing
import BlockLang.Program.Flow
import BlockLang.Session

/-!
# Semantic analysis

One walk over a program that opens a scope per block, declares the variables, checks names and types
and tracks the values of variables. It reports every problem it finds and goes on.

## Main definitions

* `Program.analyze`: the analysis of a program, in whatever scope is current.
* `Block.analyze`: the analysis of a block in a function of a given result type.

## Implementation notes

Expressions change nothing, so what they contribute is a list of diagnostics and a value, computed
from the environment `Session.env`; a statement then records the diagnostics and changes the scopes.
-/

namespace BlockLang

/-- What is visible from the current scope. -/
def Session.env (s : Session) : Env := s.scopes.lookup?

/-! ### Stores -/

/-- What is reported on storing the value of `e`, at `pos`, in a variable `x` of type `target`. -/
def Expr.storeFaults (env : Env) (pos : Pos) (x : String) (target : Ty) (e : Expr) :
    List Diagnostic :=
  let found := e.type env
  e.typeFaults env ++
    if !target.compatible found && !found.isError then [⟨pos, .assignMismatch x target found⟩]
    else []

/-- The value to track for a variable of type `target` that `e` is stored in. -/
def Expr.storedValue (env : Env) (target : Ty) (e : Expr) : Option Value :=
  if target.compatible (e.type env) then e.value env else none

/-- What the evaluation of a stored expression reports; one of the wrong type is not evaluated. -/
def Expr.storedValueFaults (env : Env) (target : Ty) (e : Expr) : List Diagnostic :=
  if target.compatible (e.type env) then e.valueFaults env else []

/-! ### Declarations -/

/-- What is reported on an initializer. A global variable starts with a constant. -/
def Declarator.initFaults (env : Env) (isGlobal : Bool) (ty : Ty) (v : Declarator) (e : Expr) :
    List Diagnostic :=
  e.storeFaults env v.pos v.name ty ++
    (if isGlobal && !e.isConstant then [⟨e.pos, .globalNotConstant v.name⟩] else []) ++
    e.storedValueFaults env ty

/-- Declares one variable of a storable type. A variable whose initializer has an unknown value
still counts as initialized. -/
def Declarator.analyze (isGlobal : Bool) (ty : Ty) (v : Declarator) (s : Session) : Session :=
  if s.scopes.containsLocal v.name then s.report ⟨v.pos, .redeclared v.name⟩
  else
    match v.init with
    | none =>
      ((s.declare v.name ty none v.pos).note (.declared v.name ty)).report
        ⟨v.pos, .noInitializer v.name⟩
    | some e =>
      let value := e.storedValue s.env ty
      let declared :=
        (s.reportAll (v.initFaults s.env isGlobal ty e)).declare v.name ty value v.pos
      let stored := if value.isNone then declared.assign v.name none else declared
      stored.note (.initialized v.name ty value)

/-- Declares variables of a storable type in order. -/
def analyzeDeclarators (isGlobal : Bool) (ty : Ty) (vs : List Declarator) (s : Session) : Session :=
  vs.foldl (fun s v => v.analyze isGlobal ty s) s

/-- Declares the variables of a declaration, if their type is storable. -/
def Declaration.analyze (isGlobal : Bool) (d : Declaration) (s : Session) : Session :=
  if d.ty.isStorable then analyzeDeclarators isGlobal d.ty d.vars s
  else s.reportAll (d.vars.map fun v => ⟨v.pos, .unstorable v.name d.ty⟩)

/-- Declares a parameter. It holds some value from the start; the one tracked for it is that of an
untouched variable. -/
def Param.analyze (p : Param) (s : Session) : Session :=
  if p.ty.isStorable then
    if s.scopes.containsLocal p.name then s.report ⟨p.pos, .redeclaredParam p.name⟩
    else s.declare p.name p.ty p.ty.defaultValue p.pos
  else s.report ⟨p.pos, .unstorableParam p.name p.ty⟩

/-! ### Statements -/

/-- Checks a condition. -/
def Session.checkCondition (s : Session) (c : Construct) (cond : Expr) : Session :=
  let found := cond.type s.env
  s.reportAll
    (cond.typeFaults s.env ++
      if found.isError then []
      else if found.isBoolean then cond.constantPartFaults
      else [⟨cond.pos, .conditionType c found⟩])

/-- Checks an assignment and tracks what it stores. The variable counts as initialized whatever is
stored in it. -/
def Session.analyzeAssign (s : Session) (pos : Pos) (x : String) (e : Expr) : Session :=
  match s.scopes.lookup? x with
  | none => s.report ⟨pos, .undeclared x⟩
  | some target =>
    let faults := e.storeFaults s.env pos x target.ty ++ e.storedValueFaults s.env target.ty
    (s.reportAll faults).assign x (e.storedValue s.env target.ty)

/-- Checks a return in a function with result type `expected`. -/
def Session.analyzeReturn (s : Session) (expected : Ty) (pos : Pos) : Option Expr → Session
  | none => if expected = .void then s else s.report ⟨pos, .noReturnValue expected⟩
  | some e =>
    let found := e.type s.env
    let s' := s.reportAll (e.typeFaults s.env)
    if found.isError then s'
    else if expected.compatible found then
      (s'.reportAll (e.valueFaults s.env)).note (.returned found (e.value s.env))
    else s'.report ⟨e.pos, .returnMismatch expected found⟩

/-- Analyzes a statement without inner blocks. -/
def Simple.analyze (expected : Ty) (s : Session) : Simple → Session
  | declare d => d.analyze false s
  | assign pos x e => s.analyzeAssign pos x e
  | ret pos value => s.analyzeReturn expected pos value
  | eval _ e =>
    s.reportAll
      (e.typeFaults s.env ++ if (e.type s.env).isError then [] else e.constantPartFaults)

/-- Analyzes the statements of a block in the current scope. A block inside an `if` or a `while` is
analyzed in a scope of its own, whatever the condition. -/
def Block.analyze (expected : Ty) : Block → Session → Session
  | done, s => s
  | simple a rest, s => rest.analyze expected (a.analyze expected s)
  | ifThen _ c t rest, s =>
    let s := (t.analyze expected ((s.checkCondition .cond c).enter "if_then")).exit
    rest.analyze expected s
  | ifElse _ c t e rest, s =>
    let s := (t.analyze expected ((s.checkCondition .cond c).enter "if_then")).exit
    let s := (e.analyze expected (s.enter "if_else")).exit
    rest.analyze expected s
  | loop _ c b rest, s =>
    let s := (b.analyze expected ((s.checkCondition .loop c).enter "while_body")).exit
    rest.analyze expected s

/-! ### Programs -/

/-- Whether a function lacks a return that it needs. -/
def Function.lacksReturn (f : Function) : Bool :=
  f.returnTy != .void && !f.body.containsReturn

/-- Analyzes a function in a scope of its own, which its parameters share with the variables of its
outermost block. -/
def Function.analyze (f : Function) (s : Session) : Session :=
  let s := (s.note (.analyzing f.name f.returnTy)).enter ("function_" ++ f.name)
  let s := f.params.foldl (fun s p => p.analyze s) s
  let s := f.body.analyze f.returnTy s
  let s := if f.lacksReturn then s.report ⟨f.pos, .noReturn f.name f.returnTy⟩ else s
  s.exit

/-- The reserved names among the variables of a global declaration. -/
def Declaration.reservedFaults (function entry : String) (d : Declaration) : List Diagnostic :=
  if d.ty.isStorable then
    (d.vars.filter fun v => isReserved v.name function entry).map fun v =>
      ⟨v.pos, .reservedGlobal v.name⟩
  else []

/-- Analyzes a global declaration of a program with the given function and entry label. -/
def Declaration.analyzeGlobal (function entry : String) (d : Declaration) (s : Session) : Session :=
  (d.analyze true s).reportAll (d.reservedFaults function entry)

/-- Analyzes a program that is to start at the label `entry`. -/
def Program.analyze (entry : String) (p : Program) (s : Session) : Session :=
  let s := s.note .analysisStarted
  let s := p.globals.foldl (fun s d => d.analyzeGlobal p.function.name entry s) s
  let s := p.function.analyze s
  s.note (.analysisFinished s.diagnostics.summary)

end BlockLang
