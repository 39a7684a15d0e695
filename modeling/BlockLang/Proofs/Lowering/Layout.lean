import BlockLang.Lowering.Program
import BlockLang.Proofs.Scope.View

/-!
# Code without the passes

Which code belongs to a block, as a function of its text and of the point where it stands. Nothing
here can fail and nothing is recorded; the passes over the scopes have gone into one value, the
`Site`: which variables have a place there, how much of the frame is taken, and which numbers come
next. The code of a block (`Block.assemble`) and the site after it (`Block.siteAfter`) are separate
functions, so that a statement on code need not speak of the state that produced it.

A variable whose place is not known has no code; in code for a well-formed program this case does
not occur.
-/

namespace BlockLang

/-- A point in generated code. -/
structure Site where
  /-- The variables that have a place there. -/
  places : Nest Placed := {}
  /-- The number of the current scope. -/
  scope : Nat := 0
  /-- The number of the next scope. -/
  next : Nat := 1
  /-- How many constructs have been numbered. -/
  labels : Nat := 0
  /-- How many bytes of the frame are taken. -/
  taken : Nat := 0

namespace Site

/-- The types of the variables that have a place. -/
def types (σ : Site) : Nest Ty := σ.places.map Placed.ty

/-- The next slot of the frame, for a variable of type `ty`. -/
def slot (σ : Site) (ty : Ty) : Mem := ⟨ty.width, .slot (σ.taken + ty.size)⟩

/-- The site with `x` at the given place of the current scope. -/
def place (σ : Site) (x : String) (ty : Ty) (m : Mem) : Site :=
  { σ with places := σ.places.bind x ⟨σ.scope, x, ty, m⟩ }

/-- The site after a variable of the function. -/
def declare (σ : Site) (x : String) (ty : Ty) : Site :=
  { σ.place x ty (σ.slot ty) with taken := σ.taken + ty.size }

/-- The site after variables of the function, all of one type. -/
def declareAll (σ : Site) (ty : Ty) (vs : List Declarator) : Site :=
  vs.foldl (fun σ v ↦ σ.declare v.name ty) σ

/-- The site after parameters. -/
def declareParams (σ : Site) (ps : List Param) : Site :=
  ps.foldl (fun σ p ↦ σ.declare p.name p.ty) σ

/-- The site after a construct took a number. -/
def number (σ : Site) : Site := { σ with labels := σ.labels + 1 }

/-- The site at the start of a new scope. -/
def enter (σ : Site) : Site :=
  { σ with places := σ.places.enter, scope := σ.next, next := σ.next + 1 }

/-- The site after a scope that was entered at `σ`, where `inner` is the site at its end. -/
def back (inner σ : Site) : Site := { inner with places := σ.places, scope := σ.scope }

@[simp] theorem types_enter (σ : Site) : σ.enter.types = σ.types.enter := rfl

theorem types_place (σ : Site) (x : String) (ty : Ty) (m : Mem) :
    (σ.place x ty m).types = σ.types.bind x ty :=
  Nest.map_bind _ _ _ _

theorem types_declare (σ : Site) (x : String) (ty : Ty) :
    (σ.declare x ty).types = σ.types.bind x ty :=
  σ.types_place x ty _

theorem find?_types (σ : Site) (x : String) :
    σ.types.find? x = (σ.places.find? x).map Placed.ty :=
  Nest.find?_map _ _ _

end Site

/-! ### Expressions -/

/-- The code of an expression, where `π` knows the places of variables. -/
def Expr.assemble (fold : Bool) (π : String → Option Placed) : Expr → List Instr
  | num _ v => [.moveImm .ax v]
  | bool _ b => [.moveImm .ax (Value.bool b).toWord]
  | var _ x =>
    match π x with
    | some p => [loadAcc p.ty p.mem]
    | none => []
  | not pos e =>
    match (not pos e).foldedValue? fold with
    | some v => [.moveImm .ax v.toWord]
    | none => e.assemble fold π ++ notCode
  | binary pos op l r =>
    match (binary pos op l r).foldedValue? fold with
    | some v => [.moveImm .ax v.toWord]
    | none => l.assemble fold π ++ [.push .ax] ++ r.assemble fold π ++ [.pop .cx] ++ op.code

/-- The code of an expression as lines. -/
def Expr.lines (fold : Bool) (σ : Site) (e : Expr) : List Line :=
  (e.assemble fold σ.places.find?).map .instr

/-! ### Declarations and statements -/

/-- The number that an initializer is known to have in advance. -/
def Expr.startWord? (fold : Bool) (e : Expr) : Option Int32 :=
  match e.foldedValue? fold with
  | some v => some v.toWord
  | none => e.immediate?

/-- The code that stores the value of an expression in `slot`. -/
def Expr.startCode (fold : Bool) (σ : Site) (ty : Ty) (slot : Mem) (e : Expr) : List Line :=
  match e.startWord? fold with
  | some w => [.instr (.storeImm slot w)]
  | none => e.lines fold σ ++ [.instr (storeAcc ty slot)]

/-- The code of a variable of the function. -/
def Declarator.assemble (fold : Bool) (σ : Site) (ty : Ty) (v : Declarator) : List Line :=
  match v.init with
  | none => [.instr (.storeImm (σ.slot ty) 0)]
  | some e => e.startCode fold σ ty (σ.slot ty)

/-- The code of variables of the function, in order. -/
def assembleAll (fold : Bool) (ty : Ty) : List Declarator → Site → List Line
  | [], _ => []
  | v :: vs, σ => v.assemble fold σ ty ++ assembleAll fold ty vs (σ.declare v.name ty)

/-- The code that stores the accumulator in the variable `x`. -/
def Site.storeCode (σ : Site) (x : String) : List Line :=
  match σ.places.find? x with
  | some p => [.instr (storeAcc p.ty p.mem)]
  | none => []

namespace Simple

/-- The instructions of a statement without inner blocks, in the function `f`. -/
def body (fold : Bool) (f : String) (σ : Site) : Simple → List Line
  | declare d => assembleAll fold d.ty d.vars σ
  | assign _ x e => e.lines fold σ ++ σ.storeCode x
  | ret _ none => [.instr (.moveImm .ax 0), .instr (.jump (.exit f))]
  | ret _ (some e) => e.lines fold σ ++ [.instr (.jump (.exit f))]
  | eval _ e => e.lines fold σ

/-- The code of a statement without inner blocks, after the statement itself as a remark. -/
def assemble (o : Options) (f : String) (σ : Site) (a : Simple) : List Line :=
  o.remark a.text ++ a.body o.foldConstants f σ

/-- The site after a statement without inner blocks. -/
def siteAfter (σ : Site) : Simple → Site
  | declare d => σ.declareAll d.ty d.vars
  | assign _ _ _ => σ
  | ret _ _ => σ
  | eval _ _ => σ

end Simple

/-! ### Blocks -/

namespace Block

/-- The site after a block. -/
def siteAfter : Block → Site → Site
  | done, σ => σ
  | simple a rest, σ => rest.siteAfter (a.siteAfter σ)
  | ifThen _ _ t rest, σ => rest.siteAfter ((t.siteAfter σ.number.enter).back σ.number)
  | ifElse _ _ t e rest, σ =>
    let σ₁ := (t.siteAfter σ.number.enter).back σ.number
    rest.siteAfter ((e.siteAfter σ₁.enter).back σ₁)
  | loop _ _ b rest, σ => rest.siteAfter ((b.siteAfter σ.number.enter).back σ.number)

/-- The site after a block inside a construct that stands at `σ`. -/
def siteInside (b : Block) (σ : Site) : Site := (b.siteAfter σ.enter).back σ

/-- The code of a block at a site, in the function `f`. -/
def assemble (o : Options) (f : String) : Block → Site → List Line
  | done, _ => []
  | simple a rest, σ => a.assemble o f σ ++ rest.assemble o f (a.siteAfter σ)
  | ifThen _ c t rest, σ =>
    o.remark (guardText .cond c) ++
      testCode (c.lines o.foldConstants σ) (.construct .endIf σ.labels) ++
      t.assemble o f σ.number.enter ++ [.label (.construct .endIf σ.labels)] ++
      rest.assemble o f (t.siteInside σ.number)
  | ifElse _ c t e rest, σ =>
    o.remark (guardText .cond c) ++
      testCode (c.lines o.foldConstants σ) (.construct .otherwise σ.labels) ++
      t.assemble o f σ.number.enter ++
      [.instr (.jump (.construct .endIf σ.labels)), .label (.construct .otherwise σ.labels)] ++
      e.assemble o f (t.siteInside σ.number).enter ++ [.label (.construct .endIf σ.labels)] ++
      rest.assemble o f (e.siteInside (t.siteInside σ.number))
  | loop _ c b rest, σ =>
    o.remark (guardText .loop c) ++ [.label (.construct .loopStart σ.labels)] ++
      testCode (c.lines o.foldConstants σ) (.construct .loopEnd σ.labels) ++
      b.assemble o f σ.number.enter ++
      [.instr (.jump (.construct .loopStart σ.labels)), .label (.construct .loopEnd σ.labels)] ++
      rest.assemble o f (b.siteInside σ.number)

end Block

/-! ### Functions and programs -/

/-- The code of parameters, the first of which has the given index. -/
def assembleParams (index : Nat) : List Param → Site → List Line
  | [], _ => []
  | p :: ps, σ =>
    argumentCode index p.ty (σ.slot p.ty) ++ assembleParams (index + 1) ps (σ.declare p.name p.ty)

namespace Function

/-- The size of the frame in bytes. -/
def frameBytes (o : Options) (f : Function) : Nat := (f.frameSize o.alignment).toNat

/-- The site at the start of the body of a function that is entered at `σ`. -/
def bodySite (f : Function) (σ : Site) : Site := σ.enter.declareParams f.params

/-- The code of a function that is entered at `σ`. -/
def assemble (o : Options) (f : Function) (σ : Site) : List Line :=
  prologue f.name (f.frameBytes o) ++ assembleParams 0 f.params σ.enter ++
    f.body.assemble o f.name (f.bodySite σ) ++ epilogue f.name f.body.alwaysReturns

end Function

/-- The cell of a global variable. -/
def Declarator.toCell (ty : Ty) (v : Declarator) : Cell where
  name := v.name
  width := ty.width
  value := (v.init.bind Expr.constantValue).elim 0 Value.toWord

/-- The site after global variables. -/
def Site.declareGlobals (σ : Site) (d : Declaration) : Site :=
  d.vars.foldl (fun σ v ↦ σ.place v.name d.ty ⟨d.ty.width, .cell v.name⟩) σ

namespace Program

/-- The data section of a program. -/
def dataCells (p : Program) : List Cell := p.globals.flatMap fun d ↦ d.vars.map (·.toCell d.ty)

/-- The site at which the function of a program is entered. -/
def functionSite (p : Program) : Site := p.globals.foldl Site.declareGlobals {}

/-- The assembly program of a program. -/
def assembled (o : Options) (p : Program) : Assembly where
  entry := o.entryLabel
  function := p.function.name
  cells := p.dataCells
  code := p.function.assemble o p.functionSite

end Program

end BlockLang
