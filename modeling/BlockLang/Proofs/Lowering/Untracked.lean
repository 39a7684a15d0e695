import BlockLang.Proofs.Lowering.Totality
import BlockLang.Proofs.Scope.Map

/-!
# Code generation and the values tracked by an analysis

An analysis leaves in each symbol the value it saw last, which says nothing about a run: a loop or a
branch may store another one. Code generation must not look at these values, and does not: two scope
trees that differ in nothing else give the same code or the same failure, the same reports, and
scopes that again differ in nothing else (`Program.generate_untracked`).

Instead of two runs side by side the proof has one map on sessions (`Session.recast`). It changes
every symbol in a way that code generation cannot see (`Symbol.Unseen`), and it puts what another
session has recorded before what this one has. Every step of code generation commutes with it
(`Lower.Commutes`). The map that forgets values then joins the two runs, and the map that changes no
symbol shows what a run adds to the records.

Code generation evaluates expressions in two places. Folding takes constants only, which read no
variables; and the initializers of global variables are evaluated among the symbols in view, which
is why they have to be constants here.
-/

namespace BlockLang

/-! ### Changes of symbols -/

/-- Code generation cannot see the change of symbols. -/
structure Symbol.Unseen (g : Symbol → Symbol) : Prop where
  /-- The name stays. -/
  name : ∀ s, (g s).name = s.name
  /-- The type stays. -/
  ty : ∀ s, (g s).ty = s.ty
  /-- The place stays. -/
  storage : ∀ s, (g s).storage = s.storage
  /-- A place may be given before or after. -/
  place : ∀ storage s, g (Symbol.place storage s) = Symbol.place storage (g s)

/-- The symbol without what is tracked for it. -/
def Symbol.untracked (s : Symbol) : Symbol := { s with value := none, initialized := false }

theorem Symbol.unseen_untracked : Unseen untracked :=
  ⟨fun _ ↦ rfl, fun _ ↦ rfl, fun _ ↦ rfl, fun _ _ ↦ rfl⟩

theorem Symbol.unseen_id : Unseen id := ⟨fun _ ↦ rfl, fun _ ↦ rfl, fun _ ↦ rfl, fun _ _ ↦ rfl⟩

/-- The scope with every symbol changed. -/
def Scope.mapSymbols (g : Symbol → Symbol) (s : Scope) : Scope :=
  { s with symbols := ⟨s.symbols.entries.map fun e ↦ (e.1, g e.2)⟩ }

/-- The tree with every symbol changed. -/
def ScopeTree.mapSymbols (g : Symbol → Symbol) (t : ScopeTree) : ScopeTree :=
  t.map (Scope.mapSymbols g)

/-- The tree without what is tracked for its symbols. -/
def ScopeTree.untracked (t : ScopeTree) : ScopeTree := t.mapSymbols Symbol.untracked

variable {g : Symbol → Symbol}

theorem Scope.get?_mapSymbols (g : Symbol → Symbol) (s : Scope) (x : String) :
    (s.mapSymbols g).symbols.get? x = (s.symbols.get? x).map g := by
  show (s.symbols.entries.map fun e ↦ (e.1, g e.2)).lookup x = (s.symbols.entries.lookup x).map g
  induction s.symbols.entries with
  | nil => rfl
  | cons e es ih =>
    obtain ⟨y, sym⟩ := e
    rw [List.map_cons, List.lookup_cons, List.lookup_cons, ih]
    cases x == y <;> rfl

namespace ScopeTree

variable {t : ScopeTree}

theorem mapSymbols_id (t : ScopeTree) : t.mapSymbols id = t := by
  have hscope : ∀ s : Scope, s.mapSymbols id = s := fun s ↦
    congrArg (fun es ↦ ({ s with symbols := ⟨es⟩ } : Scope)) (List.map_id _)
  have hforest : ∀ F : Forest, F.map (Scope.mapSymbols id) = F := by
    intro F
    induction F with
    | nil => rfl
    | cons s i l ihi ihl => rw [Forest.map, hscope, ihi, ihl]
  have houter : t.outer.map (Enclosing.map (Scope.mapSymbols id)) = t.outer := by
    refine (List.map_congr_left fun e _ ↦ ?_).trans (List.map_id _)
    rw [Enclosing.map, hscope, hforest, hforest, id]
  rw [mapSymbols, map, hscope, hforest, houter]

theorem keepsVisits_mapSymbols (g : Symbol → Symbol) : Scope.KeepsVisits (Scope.mapSymbols g) :=
  fun _ _ ↦ rfl

theorem containsLocal_mapSymbols (t : ScopeTree) (x : String) :
    (t.mapSymbols g).containsLocal x = t.containsLocal x := by
  show ((t.here.mapSymbols g).symbols.get? x).isSome = (t.here.symbols.get? x).isSome
  rw [Scope.get?_mapSymbols, Option.isSome_map]

theorem place?_mapSymbols (hg : Symbol.Unseen g) (t : ScopeTree) (x : String) (storage : Storage) :
    (t.mapSymbols g).place? x storage = (t.place? x storage).map (mapSymbols g) := by
  have hhere : ∀ s : Scope, ({ s.mapSymbols g with
      symbols := (s.mapSymbols g).symbols.modify x (Symbol.place storage) } : Scope) =
        Scope.mapSymbols g { s with symbols := s.symbols.modify x (Symbol.place storage) } := by
    intro s
    rw [Scope.mapSymbols, Scope.mapSymbols, SymbolTable.modify, SymbolTable.modify, List.map_map,
      List.map_map]
    refine congrArg (fun es ↦ ({ s with symbols := ⟨es⟩ } : Scope))
      (List.map_congr_left fun e _ ↦ ?_)
    by_cases hx : e.1 = x
    · simp [hx, hg.place]
    · simp [hx]
  rw [place?, place?, containsLocal_mapSymbols]
  split
  · exact congrArg (fun s ↦ some { t.mapSymbols g with here := s }) (hhere t.here)
  · rfl

theorem lookupStored?_mapSymbols (hg : Symbol.Unseen g) (t : ScopeTree) (x : String) :
    (t.mapSymbols g).lookupStored? x = (t.lookupStored? x).map g := by
  rw [lookupStored?, mapSymbols, chain_map, List.findSome?_map, lookupStored?, List.map_findSome?]
  refine congrArg (t.chain.findSome? ·) (funext fun s ↦ ?_)
  show ((s.mapSymbols g).symbols.get? x).filter _ = ((s.symbols.get? x).filter _).map g
  rw [Scope.get?_mapSymbols]
  rcases s.symbols.get? x with - | sym
  · rfl
  · simp only [Option.map_some, Option.filter_some, hg.storage]
    split <;> rfl

end ScopeTree

/-! ### Sessions -/

namespace Session

/-- The session with every symbol changed, where `base` has been recorded before. -/
def recast (s : Session) (g : Symbol → Symbol) (base : Session) : Session where
  scopes := s.scopes.mapSymbols g
  diagnostics :=
    { errors := base.diagnostics.errors ++ s.diagnostics.errors
      warnings := base.diagnostics.warnings ++ s.diagnostics.warnings }
  log := base.log ++ s.log

variable (s base : Session)

/-- A session is what a fresh one with its scopes is when its records have been made before. -/
theorem recast_id (s : Session) : recast { scopes := s.scopes } id s = s := by
  obtain ⟨scopes, ⟨errors, warnings⟩, log⟩ := s
  show Session.mk (scopes.mapSymbols id) ⟨errors ++ [], warnings ++ []⟩ (log ++ []) = _
  rw [scopes.mapSymbols_id, List.append_nil, List.append_nil, List.append_nil]

theorem recast_note (e : Event) : (s.recast g base).note e = (s.note e).recast g base := by
  rw [note, note, recast, recast, List.append_assoc]

theorem recast_report (d : Diagnostic) :
    (s.recast g base).report d = (s.report d).recast g base := by
  rw [report, report, ← recast_note]
  refine congrArg (note · _) ?_
  rw [recast, recast, Diagnostics.report, Diagnostics.report]
  split
  · rw [Diagnostics.addWarning, Diagnostics.addWarning, List.append_assoc]
  · rw [Diagnostics.addError, Diagnostics.addError, List.append_assoc]

theorem recast_reportAll (ds : List Diagnostic) :
    (s.recast g base).reportAll ds = (s.reportAll ds).recast g base := by
  induction ds generalizing s with
  | nil => rfl
  | cons d ds ih =>
    show ((s.recast g base).report d).reportAll ds = ((s.report d).reportAll ds).recast g base
    rw [recast_report, ih]

theorem recast_rewind : (s.recast g base).rewind = s.rewind.recast g base := by
  have hscopes : (s.scopes.mapSymbols g).rewind = s.scopes.rewind.mapSymbols g :=
    ScopeTree.rewind_map (ScopeTree.keepsVisits_mapSymbols g) s.scopes
  rw [rewind, rewind, recast, recast, hscopes]

theorem recast_descend? : (s.recast g base).descend? = s.descend?.map (·.recast g base) := by
  have hscopes : (s.scopes.mapSymbols g).descend? =
      s.scopes.descend?.map (ScopeTree.mapSymbols g) :=
    ScopeTree.descend?_map (ScopeTree.keepsVisits_mapSymbols g) s.scopes
  rw [descend?, descend?, Option.map_map]
  show (s.scopes.mapSymbols g).descend?.map _ = _
  rw [hscopes, Option.map_map]
  exact congrArg (Option.map · _) (funext fun t ↦ recast_note { s with scopes := t } base _)

theorem recast_exit? : (s.recast g base).exit? = s.exit?.map (·.recast g base) := by
  have hscopes : (s.scopes.mapSymbols g).exit? = s.scopes.exit?.map (ScopeTree.mapSymbols g) :=
    ScopeTree.exit?_map _ s.scopes
  rw [exit?, exit?, Option.map_map]
  show (s.scopes.mapSymbols g).exit?.map _ = _
  rw [hscopes, Option.map_map]
  exact congrArg (Option.map · _) (funext fun t ↦ recast_note { s with scopes := t } base _)

end Session

/-! ### Steps -/

/-- The state with its session changed as by `Session.recast`. -/
def Progress.recast (g : Symbol → Symbol) (base : Session) (p : Progress) : Progress :=
  { p with session := p.session.recast g base }

variable {α β : Type} {base : Session}

namespace Lower

/-- The outcome of a step with the state changed as by `Session.recast`. -/
def recastOutcome (g : Symbol → Symbol) (base : Session) :
    EStateM.Result LoweringError Progress α → EStateM.Result LoweringError Progress α
  | .ok a p => .ok a (p.recast g base)
  | .error e p => .error e (p.recast g base)

/-- The step does the same in a changed state, and changes it in the same way. -/
def Commutes (g : Symbol → Symbol) (base : Session) (m : Lower α) : Prop :=
  ∀ p : Progress, m (p.recast g base) = recastOutcome g base (m p)

theorem commutes_pure (a : α) : Commutes g base (pure a) := fun _ ↦ rfl

theorem Commutes.bind {m : Lower α} {k : α → Lower β} (hm : m.Commutes g base)
    (hk : ∀ a, (k a).Commutes g base) : (m >>= k).Commutes g base := by
  intro p
  show EStateM.bind m k _ = recastOutcome g base (EStateM.bind m k p)
  rw [EStateM.bind, EStateM.bind, hm p]
  rcases m p with ⟨a, q⟩ | ⟨e, q⟩
  · exact hk a q
  · rfl

theorem commutes_onSession {f : Session → Session}
    (hf : ∀ s, f (s.recast g base) = (f s).recast g base) : (onSession f).Commutes g base := by
  intro p
  show EStateM.Result.ok () { p with session := f (p.session.recast g base) } = _
  rw [hf]
  rfl

theorem commutes_note (e : Event) : (note e).Commutes g base :=
  commutes_onSession fun s ↦ s.recast_note base e

theorem commutes_reportAll (ds : List Diagnostic) : (reportAll ds).Commutes g base :=
  commutes_onSession fun s ↦ s.recast_reportAll base ds

theorem commutes_freshLabel : freshLabel.Commutes g base := fun _ ↦ rfl

theorem commutes_allocate (ty : Ty) : (allocate ty).Commutes g base := fun _ ↦ rfl

theorem commutes_ofExcept (x : Except LoweringError α) : (ofExcept x).Commutes g base :=
  fun _ ↦ by cases x <;> rfl

/-- A step that first looks at the places of variables, and sees no more of a symbol than its name,
type and place. -/
theorem commutes_env_bind (hg : Symbol.Unseen g) {k : Env → Lower β}
    (hk : ∀ env, (k env).Commutes g base)
    (hcongr : ∀ env : Env, k (fun x ↦ (env x).map g) = k env) : (env >>= k).Commutes g base := by
  intro p
  have henv : (p.recast g base).session.scopes.lookupStored? =
      fun x ↦ (p.session.scopes.lookupStored? x).map g :=
    funext (p.session.scopes.lookupStored?_mapSymbols hg)
  rw [env_bind_apply, env_bind_apply, henv, hcongr]
  exact hk _ p

/-- A step that first looks at the state, and sees in it what the change leaves alone. -/
theorem commutes_get_bind {k : Progress → Lower β} (hk : ∀ p, (k p).Commutes g base)
    (hcongr : ∀ p : Progress, k (p.recast g base) = k p) : (get >>= k).Commutes g base := by
  intro p
  rw [get_bind_apply, get_bind_apply, hcongr]
  exact hk p p

end Lower

/-! ### Expressions -/

theorem Symbol.Unseen.operand?_eq (hg : Unseen g) (s : Symbol) : (g s).operand? = s.operand? := by
  rw [operand?, operand?, hg.storage, hg.ty, hg.name]

theorem Env.operand_map (hg : Symbol.Unseen g) (env : Env) (pos : Pos) (x : String) :
    operand (fun x ↦ (env x).map g) pos x = env.operand pos x := by
  rw [operand, operand]
  rcases env x with - | s
  · rfl
  · simp only [Option.map_some, hg.operand?_eq, hg.name, hg.ty]

namespace Expr

theorem lower_map (hg : Symbol.Unseen g) (fold : Bool) (env : Env) (e : Expr) :
    e.lower fold (fun x ↦ (env x).map g) = e.lower fold env := by
  induction e with
  | num pos v => rfl
  | bool pos b => rfl
  | var pos x => rw [lower, lower, env.operand_map hg]
  | not pos e ih => rw [lower, lower, ih]
  | binary pos op l r ihl ihr => rw [lower, lower, ihl, ihr]

theorem lowerFaults_map (hg : Symbol.Unseen g) (fold : Bool) (env : Env) (e : Expr) :
    e.lowerFaults fold (fun x ↦ (env x).map g) = e.lowerFaults fold env := by
  induction e with
  | num pos v => rfl
  | bool pos b => rfl
  | var pos x => rfl
  | not pos e ih => rw [lowerFaults, lowerFaults, ih]
  | binary pos op l r ihl ihr => rw [lowerFaults, lowerFaults, ihl, ihr, lower_map hg]

/-- Folding evaluates constants only, so it finds and reports what evaluation would with any known
variables. -/
theorem folding_eq {fold : Bool} {e : Expr} (h : e.isFoldable fold = true) (env : Env) :
    e.foldedValue? fold = e.value env ∧ e.foldingFaults fold = e.valueFaults env := by
  have hconst : e.isConstant = true := (Bool.and_eq_true_iff.1 h).2
  rw [foldedValue?, foldingFaults, if_pos h, if_pos h, constantValue, if_pos hconst,
    constantFaults_of_isConstant hconst, value_of_isConstant hconst env,
    valueFaults_of_isConstant hconst env]
  exact ⟨rfl, rfl⟩

end Expr

namespace Lower

theorem commutes_expr (hg : Symbol.Unseen g) (fold : Bool) (e : Expr) :
    (expr fold e).Commutes g base := by
  refine commutes_env_bind hg (fun env ↦ ?_) fun env ↦ ?_
  · exact (commutes_reportAll _).bind fun _ ↦ (commutes_ofExcept _).bind fun _ ↦ commutes_pure _
  · rw [e.lowerFaults_map hg, e.lower_map hg]

theorem commutes_store (hg : Symbol.Unseen g) (pos : Pos) (x : String) :
    (store pos x).Commutes g base := by
  refine commutes_env_bind hg (fun env ↦ (commutes_ofExcept _).bind fun _ ↦ commutes_pure _)
    fun env ↦ ?_
  rw [env.operand_map hg]

theorem commutes_initial (hg : Symbol.Unseen g) (fold : Bool) (init : Option Expr) :
    (initial fold init).Commutes g base := by
  rcases init with - | e
  · exact commutes_pure _
  · refine (commutes_reportAll _).bind fun _ ↦ ?_
    split
    · exact commutes_pure _
    · split
      · exact commutes_pure _
      · exact (commutes_expr hg fold e).bind fun _ ↦ commutes_pure _

/-! ### Declarations -/

theorem commutes_place (hg : Symbol.Unseen g) (x : String) (storage : Storage) (pos : Pos) :
    (place x storage pos).Commutes g base := by
  intro p
  have hplace : (p.recast g base).session.scopes.place? x storage =
      (p.session.scopes.place? x storage).map (ScopeTree.mapSymbols g) :=
    p.session.scopes.place?_mapSymbols hg x storage
  rw [place, get_bind_apply, get_bind_apply, hplace]
  rcases p.session.scopes.place? x storage with - | t
  · rfl
  · have hlookup : (t.mapSymbols g).lookupLocal? x = (t.lookupLocal? x).map g :=
      t.here.get?_mapSymbols g x
    dsimp only [Option.map_some]
    rw [hlookup]
    rcases t.lookupLocal? x with - | sym
    · rfl
    · dsimp only [Option.map_some]
      rw [hg.operand?_eq, hg.name]
      rcases sym.operand? with - | m <;> rfl

theorem commutes_declarators (hg : Symbol.Unseen g) (o : Options) (ty : Ty)
    (vs : List Declarator) : (declarators o ty vs).Commutes g base := by
  have hfirst : ∀ v, (declarator o ty v).Commutes g base := fun v ↦
    (commutes_initial hg o.foldConstants v.init).bind fun start ↦ (commutes_allocate ty).bind
      fun storage ↦ (commutes_place hg v.name storage v.pos).bind fun slot ↦ by
        rcases start with value | code <;> exact commutes_pure _
  induction vs with
  | nil => exact commutes_pure _
  | cons v vs ih => exact (hfirst v).bind fun _ ↦ ih.bind fun _ ↦ commutes_pure _

theorem commutes_params (hg : Symbol.Unseen g) (index : Nat) (ps : List Param) :
    (params index ps).Commutes g base := by
  induction ps generalizing index with
  | nil => exact commutes_pure _
  | cons q ps ih =>
    have hfirst : (param index q).Commutes g base := (commutes_allocate q.ty).bind fun _ ↦
      (commutes_place hg q.name _ q.pos).bind fun _ ↦ commutes_pure _
    exact hfirst.bind fun _ ↦ (ih (index + 1)).bind fun _ ↦ commutes_pure _

/-- The cell of a variable whose initializer reads no variables. -/
theorem commutes_cell (hg : Symbol.Unseen g) (ty : Ty) {v : Declarator}
    (hv : ∀ e, v.init = some e → e.isConstant = true) : (cell ty v).Commutes g base := by
  refine commutes_get_bind (fun p ↦ ?_) fun p ↦ ?_
  · rcases v.init with - | e
    · exact (commutes_pure _).bind fun _ ↦ (commutes_place hg _ _ _).bind fun _ ↦ commutes_pure _
    · exact ((commutes_reportAll _).bind fun _ ↦ commutes_pure _).bind fun _ ↦
        (commutes_place hg _ _ _).bind fun _ ↦ commutes_pure _
  · rcases hinit : v.init with - | e
    · rfl
    · have hconst : e.isConstant = true := hv e hinit
      dsimp only
      rw [Expr.value_of_isConstant hconst, Expr.valueFaults_of_isConstant hconst,
        Expr.value_of_isConstant hconst p.session.scopes.lookup?,
        Expr.valueFaults_of_isConstant hconst p.session.scopes.lookup?]

theorem commutes_dataSection (hg : Symbol.Unseen g) {ds : List Declaration}
    (hds : ∀ d ∈ ds, ∀ v ∈ d.vars, ∀ e, v.init = some e → e.isConstant = true) :
    (dataSection ds).Commutes g base := by
  have hcells : ∀ (ty : Ty) (vs : List Declarator),
      (∀ v ∈ vs, ∀ e, v.init = some e → e.isConstant = true) → (cells ty vs).Commutes g base := by
    intro ty vs hvs
    induction vs with
    | nil => exact commutes_pure _
    | cons v vs ih =>
      exact (commutes_cell hg ty (hvs v List.mem_cons_self)).bind fun _ ↦
        (ih fun w hw ↦ hvs w (List.mem_cons_of_mem _ hw)).bind fun _ ↦ commutes_pure _
  induction ds with
  | nil => exact commutes_pure _
  | cons d ds ih =>
    exact (hcells d.ty d.vars (hds d List.mem_cons_self)).bind fun _ ↦
      (ih fun d' hd' ↦ hds d' (List.mem_cons_of_mem _ hd')).bind fun _ ↦ commutes_pure _

/-! ### Blocks -/

theorem commutes_enterBlock (pos : Pos) : (enterBlock pos).Commutes g base := by
  intro p
  have hdescend := p.session.recast_descend? (g := g) base
  rw [enterBlock, get_bind_apply, get_bind_apply]
  dsimp only [Progress.recast]
  rw [hdescend]
  rcases p.session.descend? with - | s <;> rfl

theorem commutes_leaveBlock (pos : Pos) : (leaveBlock pos).Commutes g base := by
  intro p
  have hexit := p.session.recast_exit? (g := g) base
  rw [leaveBlock, get_bind_apply, get_bind_apply]
  dsimp only [Progress.recast]
  rw [hexit]
  rcases p.session.exit? with - | s <;> rfl

theorem Commutes.inBlock {m : Lower α} (hm : m.Commutes g base) (pos : Pos) :
    (inBlock pos m).Commutes g base :=
  (commutes_enterBlock pos).bind fun _ ↦ hm.bind fun _ ↦ (commutes_leaveBlock pos).bind fun _ ↦
    commutes_pure _

end Lower

/-! ### Statements and programs -/

open Lower

theorem Simple.commutes_lower (hg : Symbol.Unseen g) (o : Options) (f : String) (a : Simple) :
    (a.lower o f).Commutes g base := by
  have hcode : (a.code o f).Commutes g base := by
    rcases a with d | ⟨pos, x, e⟩ | ⟨pos, - | e⟩ | ⟨pos, e⟩
    · exact commutes_declarators hg o d.ty d.vars
    · exact (commutes_expr hg _ e).bind fun _ ↦ (commutes_store hg pos x).bind fun _ ↦
        commutes_pure _
    · exact commutes_pure _
    · exact (commutes_expr hg _ e).bind fun _ ↦ commutes_pure _
    · exact commutes_expr hg _ e
  exact hcode.bind fun _ ↦ commutes_pure _

theorem Block.commutes_lower (hg : Symbol.Unseen g) (o : Options) (f : String) (b : Block) :
    (b.lower o f).Commutes g base := by
  induction b with
  | done => exact commutes_pure _
  | simple a rest ih =>
    exact (a.commutes_lower hg o f).bind fun _ ↦ ih.bind fun _ ↦ commutes_pure _
  | ifThen pos c t rest iht ih =>
    exact commutes_freshLabel.bind fun _ ↦ (commutes_expr hg _ c).bind fun _ ↦
      (iht.inBlock pos).bind fun _ ↦ ih.bind fun _ ↦ commutes_pure _
  | ifElse pos c t e rest iht ihe ih =>
    exact commutes_freshLabel.bind fun _ ↦ (commutes_expr hg _ c).bind fun _ ↦
      (iht.inBlock pos).bind fun _ ↦ (ihe.inBlock pos).bind fun _ ↦ ih.bind fun _ ↦
        commutes_pure _
  | loop pos c b rest ihb ih =>
    exact commutes_freshLabel.bind fun _ ↦ (commutes_expr hg _ c).bind fun _ ↦
      (ihb.inBlock pos).bind fun _ ↦ ih.bind fun _ ↦ commutes_pure _

theorem Function.commutes_lower (hg : Symbol.Unseen g) (o : Options) (f : Function) :
    (f.lower o).Commutes g base :=
  (commutes_note _).bind fun _ ↦ Commutes.inBlock
    ((commutes_params hg 0 f.params).bind fun _ ↦ (f.body.commutes_lower hg o f.name).bind fun _ ↦
      commutes_pure _) f.pos

namespace Program

/-- No initializer of a global variable reads a variable. -/
def ConstantGlobals (p : Program) : Prop :=
  ∀ d ∈ p.globals, ∀ v ∈ d.vars, ∀ e ∈ v.init, e.isConstant = true

instance (p : Program) : Decidable p.ConstantGlobals :=
  inferInstanceAs (Decidable (∀ d ∈ p.globals, ∀ v ∈ d.vars, ∀ e ∈ v.init, e.isConstant = true))

variable {p : Program}

theorem commutes_lower (hg : Symbol.Unseen g) (o : Options) (hp : p.ConstantGlobals) :
    (p.lower o).Commutes g base :=
  (commutes_note _).bind fun _ ↦ (commutes_onSession fun s ↦ s.recast_rewind base).bind fun _ ↦
    (commutes_dataSection hg hp).bind fun _ ↦ (p.function.commutes_lower hg o).bind fun _ ↦
      commutes_get_bind (fun _ ↦ (commutes_note _).bind fun _ ↦ commutes_pure _) fun _ ↦ rfl

/-- Code generation does the same in a changed session, and changes it in the same way. -/
theorem generate_recast (hg : Symbol.Unseen g) (o : Options) (hp : p.ConstantGlobals)
    (s : Session) : p.generate o (s.recast g base) =
      ((p.generate o s).1, (p.generate o s).2.recast g base) := by
  have hrun : (p.lower o).run { session := s.recast g base } =
      recastOutcome g base ((p.lower o).run { session := s }) :=
    commutes_lower hg o hp { session := s }
  rw [generate, generate, hrun]
  rcases (p.lower o).run { session := s } with ⟨a, q⟩ | ⟨e, q⟩ <;> rfl

/-- What is tracked for variables does not reach the code. From two sessions whose scopes differ in
tracked values only, code generation gives the same result and adds the same records, and the scopes
afterwards differ in tracked values only. Where it evaluates an expression to fold it, the values of
variables do not matter. -/
theorem generate_untracked (o : Options) (hp : p.ConstantGlobals) {s s' : Session}
    (h : s.scopes.untracked = s'.scopes.untracked) :
    (p.generate o s).1 = (p.generate o s').1 ∧
      (p.generate o s).2.scopes.untracked = (p.generate o s').2.scopes.untracked ∧
      (∃ errors warnings log,
        ((p.generate o s).2.diagnostics.errors = s.diagnostics.errors ++ errors ∧
          (p.generate o s).2.diagnostics.warnings = s.diagnostics.warnings ++ warnings ∧
          (p.generate o s).2.log = s.log ++ log) ∧
        (p.generate o s').2.diagnostics.errors = s'.diagnostics.errors ++ errors ∧
          (p.generate o s').2.diagnostics.warnings = s'.diagnostics.warnings ++ warnings ∧
          (p.generate o s').2.log = s'.log ++ log) ∧
      ∀ (fold : Bool) (e : Expr), e.isFoldable fold = true → ∀ env,
        e.foldedValue? fold = e.value env ∧ e.foldingFaults fold = e.valueFaults env := by
  -- a run only adds to the records, so it is that of a session without any
  have hfresh : ∀ u : Session, p.generate o u = ((p.generate o { scopes := u.scopes }).1,
      (p.generate o { scopes := u.scopes }).2.recast id u) := by
    intro u
    rw [← generate_recast Symbol.unseen_id o hp, u.recast_id]
  have hsame : Session.recast { scopes := s.scopes } Symbol.untracked {} =
      Session.recast { scopes := s'.scopes } Symbol.untracked {} :=
    congrArg (fun t ↦ ({ scopes := t } : Session)) h
  have hruns := congrArg (p.generate o) hsame
  rw [generate_recast Symbol.unseen_untracked o hp, generate_recast Symbol.unseen_untracked o hp,
    Prod.mk.injEq] at hruns
  obtain ⟨hresult, hsession⟩ := hruns
  rw [hfresh s, hfresh s']
  refine ⟨hresult, ?_, ⟨_, _, _, ⟨rfl, rfl, rfl⟩, ?_⟩, fun fold e he env ↦ Expr.folding_eq he env⟩
  · show (ScopeTree.mapSymbols id _).untracked = (ScopeTree.mapSymbols id _).untracked
    rw [ScopeTree.mapSymbols_id, ScopeTree.mapSymbols_id]
    exact congrArg Session.scopes hsession
  · have herrors := congrArg (·.diagnostics.errors) hsession
    have hwarnings := congrArg (·.diagnostics.warnings) hsession
    have hlog := congrArg Session.log hsession
    exact ⟨congrArg (s'.diagnostics.errors ++ ·) herrors.symm,
      congrArg (s'.diagnostics.warnings ++ ·) hwarnings.symm, congrArg (s'.log ++ ·) hlog.symm⟩

/-- In `halving` the analysis tracks a value for `g`; it does not matter to the code. -/
theorem generate_untracked_halving :
    halving.ConstantGlobals ∧
      (halving.analyze "_start" {}).scopes.untracked.untracked =
        (halving.analyze "_start" {}).scopes.untracked ∧
      (halving.analyze "_start" {}).scopes.untracked ≠ (halving.analyze "_start" {}).scopes ∧
      (halving.generate {} { scopes := (halving.analyze "_start" {}).scopes.untracked }).1 =
        (halving.generate {} (halving.analyze "_start" {})).1 := by
  have hconst : halving.ConstantGlobals := by decide +kernel
  have hscopes : (halving.analyze "_start" {}).scopes.untracked.untracked =
      (halving.analyze "_start" {}).scopes.untracked := by decide +kernel
  exact ⟨hconst, hscopes, by decide +kernel, (generate_untracked {} hconst (s := {
    scopes := (halving.analyze "_start" {}).scopes.untracked }) hscopes).1⟩

end Program

end BlockLang
