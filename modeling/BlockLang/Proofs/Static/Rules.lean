import BlockLang.Assembly.Reserved
import BlockLang.Program.Flow
import BlockLang.Proofs.Scope.Nest
import BlockLang.Proofs.Static.Constant

/-!
# The static rules of programs

Which programs are well formed, said without any pass over them: no diagnostics, no scope tree and
no tracked values occur here. The rules read a program from the top and carry a `Context`, the types
of the variables declared so far in the scopes around the point.

* A declaration gives its variables a storable type and new names in their own scope; an initializer
  has the type of its variable and does not see it.
* A condition is a truth value; a block inside an `if` or a `while` is a scope of its own.
* A return has exactly the result type of the function, and none is needed only where that is
  `void`.
* A global variable starts with a constant and is not spelt like something in the assembly text.
-/

namespace BlockLang

/-- The types of the variables declared so far, scope by scope. -/
abbrev Context := Nest Ty

namespace Context

/-- The context after variables of one type. -/
def declareAll (Γ : Context) (ty : Ty) (vs : List Declarator) : Context :=
  vs.foldl (fun Γ v ↦ Γ.bind v.name ty) Γ

/-- The context after a declaration. -/
def declare (Γ : Context) (d : Declaration) : Context := Γ.declareAll d.ty d.vars

/-- The context after parameters. -/
def declareParams (Γ : Context) (ps : List Param) : Context :=
  ps.foldl (fun Γ p ↦ Γ.bind p.name p.ty) Γ

end Context

/-! ### Declarations -/

/-- The variables of a declaration are new, one after the other, and their initializers have their
type. -/
inductive WellDeclared (isGlobal : Bool) (ty : Ty) : Context → List Declarator → Prop where
  /-- No variables. -/
  | nil {Γ : Context} : WellDeclared isGlobal ty Γ []
  /-- A variable, and then others that may read it. -/
  | cons {Γ : Context} {v : Declarator} {vs : List Declarator} (hnew : Γ.here v.name = none)
      (hinit : ∀ e, v.init = some e →
        e.HasType Γ.find? ty ∧ (isGlobal = true → e.isConstant = true))
      (hrest : WellDeclared isGlobal ty (Γ.bind v.name ty) vs) :
      WellDeclared isGlobal ty Γ (v :: vs)

/-- A declaration is well formed. One without variables always is. -/
structure Declaration.WellFormed (isGlobal : Bool) (Γ : Context) (d : Declaration) : Prop where
  /-- Its variables can be stored. -/
  storable : d.vars ≠ [] → d.ty.isStorable
  /-- Its variables are new and their initializers fit. -/
  declared : WellDeclared isGlobal d.ty Γ d.vars

/-- Parameters are storable and have different names. -/
inductive WellPassed : Context → List Param → Prop where
  /-- No parameters. -/
  | nil {Γ : Context} : WellPassed Γ []
  /-- A parameter, and then others. -/
  | cons {Γ : Context} {p : Param} {ps : List Param} (hty : p.ty.isStorable)
      (hnew : Γ.here p.name = none) (hrest : WellPassed (Γ.bind p.name p.ty) ps) :
      WellPassed Γ (p :: ps)

/-! ### Statements -/

/-- A block is well formed in a function with result type `result`. -/
inductive Block.WellFormed (result : Ty) : Context → Block → Prop where
  /-- The end of a block. -/
  | done {Γ : Context} : WellFormed result Γ .done
  /-- A declaration, visible in what follows. -/
  | declare {Γ : Context} {d : Declaration} {rest : Block} (hd : d.WellFormed false Γ)
      (hrest : WellFormed result (Γ.declare d) rest) :
      WellFormed result Γ (.simple (.declare d) rest)
  /-- A store of a value of the variable's type. -/
  | assign {Γ : Context} {pos : Pos} {x : String} {e : Expr} {t : Ty} {rest : Block}
      (hx : Γ.find? x = some t) (he : e.HasType Γ.find? t) (hrest : WellFormed result Γ rest) :
      WellFormed result Γ (.simple (.assign pos x e) rest)
  /-- A return of a value. -/
  | ret {Γ : Context} {pos : Pos} {e : Expr} {rest : Block} (he : e.HasType Γ.find? result)
      (hrest : WellFormed result Γ rest) :
      WellFormed result Γ (.simple (.ret pos (some e)) rest)
  /-- A return without a value. -/
  | retVoid {Γ : Context} {pos : Pos} {rest : Block} (hvoid : result = .void)
      (hrest : WellFormed result Γ rest) : WellFormed result Γ (.simple (.ret pos none) rest)
  /-- An expression evaluated for nothing. -/
  | eval {Γ : Context} {pos : Pos} {e : Expr} {t : Ty} {rest : Block} (he : e.HasType Γ.find? t)
      (hrest : WellFormed result Γ rest) : WellFormed result Γ (.simple (.eval pos e) rest)
  /-- A conditional without `else`. -/
  | ifThen {Γ : Context} {pos : Pos} {c : Expr} {t rest : Block} (hc : c.HasType Γ.find? .bool)
      (ht : WellFormed result Γ.enter t) (hrest : WellFormed result Γ rest) :
      WellFormed result Γ (.ifThen pos c t rest)
  /-- A conditional with `else`. -/
  | ifElse {Γ : Context} {pos : Pos} {c : Expr} {t e rest : Block}
      (hc : c.HasType Γ.find? .bool) (ht : WellFormed result Γ.enter t)
      (he : WellFormed result Γ.enter e) (hrest : WellFormed result Γ rest) :
      WellFormed result Γ (.ifElse pos c t e rest)
  /-- A loop. -/
  | loop {Γ : Context} {pos : Pos} {c : Expr} {b rest : Block} (hc : c.HasType Γ.find? .bool)
      (hb : WellFormed result Γ.enter b) (hrest : WellFormed result Γ rest) :
      WellFormed result Γ (.loop pos c b rest)

namespace Block

variable {result : Ty} {Γ : Context} {pos : Pos} {c : Expr} {t e b rest : Block}

theorem wellFormed_ifThen :
    (ifThen pos c t rest).WellFormed result Γ ↔ c.HasType Γ.find? .bool ∧
      t.WellFormed result Γ.enter ∧ rest.WellFormed result Γ :=
  ⟨fun | .ifThen hc ht hrest => ⟨hc, ht, hrest⟩, fun ⟨hc, ht, hrest⟩ ↦ .ifThen hc ht hrest⟩

theorem wellFormed_ifElse :
    (ifElse pos c t e rest).WellFormed result Γ ↔ c.HasType Γ.find? .bool ∧
      t.WellFormed result Γ.enter ∧ e.WellFormed result Γ.enter ∧ rest.WellFormed result Γ :=
  ⟨fun | .ifElse hc ht he hrest => ⟨hc, ht, he, hrest⟩,
    fun ⟨hc, ht, he, hrest⟩ ↦ .ifElse hc ht he hrest⟩

theorem wellFormed_loop :
    (loop pos c b rest).WellFormed result Γ ↔ c.HasType Γ.find? .bool ∧
      b.WellFormed result Γ.enter ∧ rest.WellFormed result Γ :=
  ⟨fun | .loop hc hb hrest => ⟨hc, hb, hrest⟩, fun ⟨hc, hb, hrest⟩ ↦ .loop hc hb hrest⟩

end Block

/-- The statements without inner blocks, at any depth, in the order of the text. -/
def Block.statements : Block → List Simple
  | done => []
  | simple s rest => s :: rest.statements
  | ifThen _ _ t rest => t.statements ++ rest.statements
  | ifElse _ _ t e rest => t.statements ++ e.statements ++ rest.statements
  | loop _ _ b rest => b.statements ++ rest.statements

/-! ### Programs -/

/-- A function is well formed after global declarations. Its parameters share a scope with the
variables of its outermost block. -/
structure Function.WellFormed (Γ : Context) (f : Function) : Prop where
  /-- The parameters are storable and have different names. -/
  params : WellPassed Γ.enter f.params
  /-- The body is well formed. -/
  body : f.body.WellFormed f.returnTy (Context.declareParams Γ.enter f.params)
  /-- A function with a result holds a return. -/
  returns : f.returnTy ≠ .void → ∃ pos value, Simple.ret pos value ∈ f.body.statements

/-- The global declarations of a program with the given function and entry label are well formed,
one after the other. -/
inductive WellFormedGlobals (function entry : String) : Context → List Declaration → Prop where
  /-- No declarations. -/
  | nil {Γ : Context} : WellFormedGlobals function entry Γ []
  /-- A declaration, and then others. -/
  | cons {Γ : Context} {d : Declaration} {ds : List Declaration} (hd : d.WellFormed true Γ)
      (hnames : ∀ v ∈ d.vars, isReserved v.name function entry = false)
      (hrest : WellFormedGlobals function entry (Γ.declare d) ds) :
      WellFormedGlobals function entry Γ (d :: ds)

/-- The context after global declarations. -/
def Context.ofGlobals (ds : List Declaration) : Context :=
  ds.foldl Context.declare {}

/-- A program that is to start at the label `entry` is well formed. -/
structure Program.WellFormed (entry : String) (p : Program) : Prop where
  /-- The global declarations are well formed. -/
  globals : WellFormedGlobals p.function.name entry {} p.globals
  /-- The function is well formed. -/
  function : p.function.WellFormed (Context.ofGlobals p.globals)

/-! ### The expressions of a program -/

/-- The initializers of a declaration. -/
def Declaration.exprs (d : Declaration) : List Expr := d.vars.filterMap Declarator.init

/-- The expressions of a statement without inner blocks. -/
def Simple.exprs : Simple → List Expr
  | declare d => d.exprs
  | assign _ _ e => [e]
  | ret _ value => value.toList
  | eval _ e => [e]

/-- The expressions of a block and of the blocks inside it. -/
def Block.exprs : Block → List Expr
  | done => []
  | simple s rest => s.exprs ++ rest.exprs
  | ifThen _ c t rest => c :: (t.exprs ++ rest.exprs)
  | ifElse _ c t e rest => c :: (t.exprs ++ e.exprs ++ rest.exprs)
  | loop _ c b rest => c :: (b.exprs ++ rest.exprs)

namespace Block

variable {P : Expr → Prop} {pos : Pos} {c : Expr} {t e rest : Block}

theorem forall_mem_exprs_simple {a : Simple} :
    (∀ d ∈ (simple a rest).exprs, P d) ↔ (∀ d ∈ a.exprs, P d) ∧ ∀ d ∈ rest.exprs, P d :=
  List.forall_mem_append

theorem forall_mem_exprs_ifThen :
    (∀ d ∈ (ifThen pos c t rest).exprs, P d) ↔
      P c ∧ (∀ d ∈ t.exprs, P d) ∧ ∀ d ∈ rest.exprs, P d := by
  rw [exprs, List.forall_mem_cons, List.forall_mem_append]

theorem forall_mem_exprs_ifElse :
    (∀ d ∈ (ifElse pos c t e rest).exprs, P d) ↔
      P c ∧ (∀ d ∈ t.exprs, P d) ∧ (∀ d ∈ e.exprs, P d) ∧ ∀ d ∈ rest.exprs, P d := by
  rw [exprs, List.forall_mem_cons, List.forall_mem_append, List.forall_mem_append, and_assoc]

theorem forall_mem_exprs_loop :
    (∀ d ∈ (loop pos c t rest).exprs, P d) ↔
      P c ∧ (∀ d ∈ t.exprs, P d) ∧ ∀ d ∈ rest.exprs, P d := by
  rw [exprs, List.forall_mem_cons, List.forall_mem_append]

end Block

/-- The expressions of a program. -/
def Program.exprs (p : Program) : List Expr :=
  p.globals.flatMap Declaration.exprs ++ p.function.body.exprs

/-- No division of the program is by a constant that evaluates to zero. -/
def Program.NoZeroDivisor (p : Program) : Prop := ∀ e ∈ p.exprs, e.NoZeroDivisor

instance (p : Program) : Decidable p.NoZeroDivisor :=
  inferInstanceAs (Decidable (∀ e ∈ p.exprs, e.NoZeroDivisor))

end BlockLang
