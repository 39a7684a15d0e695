import BlockLang.Proofs.Analysis.Programs
import BlockLang.Proofs.Relabeling.Basic

/-!
# The analysis of a relabeled program

An analysis of a program with other names and positions is the analysis of the program, with the
other names and positions in all that it leaves (`Program.analyze_relabel`).

Expressions come first. They see variables through an environment, so what they need is two
environments that say the same of a name and of its other name (`Env.Relabels`). A statement then
does the same in both sessions, one operation after the other. Only the check of reserved names
looks at the letters of a name, and it looks at the names of global variables; these have to stay
as they are.
-/

namespace BlockLang

variable {φ : Relabeling}

/-! ### Expressions -/

namespace Expr

@[simp] theorem pos_relabel (e : Expr) : (e.relabel φ).pos = φ.pos e.pos := by
  cases e <;> rfl

@[simp] theorem isLiteral_relabel (e : Expr) : (e.relabel φ).isLiteral = e.isLiteral := by
  cases e <;> rfl

/-- An expression has variables under other names if it has any. -/
@[simp] theorem isConstant_relabel (e : Expr) : (e.relabel φ).isConstant = e.isConstant := by
  induction e with
  | num pos v => rfl
  | bool pos b => rfl
  | var pos x => rfl
  | not pos e ih => exact ih
  | binary pos op l r ihl ihr => rw [relabel, isConstant, isConstant, ihl, ihr]

end Expr

/-- What `env` says of a name, `env'` says of its other name. -/
def Env.Relabels (φ : Relabeling) (env env' : Env) : Prop :=
  ∀ x, env' (φ.name x) = (env x).map (Symbol.relabel φ)

/-- Constant expressions are evaluated without variables, so there is nothing to rename. -/
theorem Env.relabels_empty : Env.Relabels φ .empty .empty := fun _ ↦ rfl

/-- What a relabeled session knows of variables. This is where sessions meet expressions. -/
theorem Session.relabels_env (s : Session) : Env.Relabels φ s.env (s.relabel φ).env :=
  s.scopes.lookup?_relabel φ

@[simp] theorem Value.map_notFaults (v : Value) (pos : Pos) :
    (v.notFaults pos).map (Diagnostic.relabel φ) = v.notFaults (φ.pos pos) := by
  cases v <;> rfl

/-- Faults of an operator are at its position and name no variable. -/
@[simp] theorem BinaryOp.map_combineFaults (op : BinaryOp) (pos : Pos) (c : Bool)
    (lhs rhs : Option Value) :
    (op.combineFaults pos c lhs rhs).map (Diagnostic.relabel φ) =
      op.combineFaults (φ.pos pos) c lhs rhs := by
  have happly : ∀ a b, (op.applyFaults pos a b).map (Diagnostic.relabel φ) =
      op.applyFaults (φ.pos pos) a b := by
    intro a b
    rw [applyFaults, applyFaults]
    split
    · rfl
    · split <;> rfl
  unfold combineFaults
  split
  · rfl
  · rcases lhs with - | a
    · rfl
    · rcases rhs with - | b
      · rfl
      · exact happly a b

namespace Expr

variable {env env' : Env}

/-- A value does not depend on what variables are called or on where they stand. -/
theorem value_relabel (h : Env.Relabels φ env env') (e : Expr) :
    (e.relabel φ).value env' = e.value env := by
  induction e with
  | num pos v => rfl
  | bool pos b => rfl
  | var pos x =>
    rw [relabel, value, value, h]
    rcases env x with - | s <;> rfl
  | not pos e ih => rw [relabel, value, value, ih]
  | binary pos op l r ihl ihr => rw [relabel, value, value, ihl, ihr, isConstant_relabel]

/-- Evaluation reports the same faults at the other positions, in the same order. -/
theorem valueFaults_relabel (h : Env.Relabels φ env env') (e : Expr) :
    (e.relabel φ).valueFaults env' = (e.valueFaults env).map (Diagnostic.relabel φ) := by
  induction e with
  | num pos v => rfl
  | bool pos b => rfl
  | var pos x =>
    rw [relabel, valueFaults, valueFaults, h]
    rcases env x with - | s
    · rfl
    · rw [apply_ite (List.map (Diagnostic.relabel φ))]
      rfl
  | not pos e ih =>
    rw [relabel, valueFaults, valueFaults, ih, value_relabel h, List.map_append]
    rcases e.value env with - | v
    · rfl
    · exact congrArg _ (v.map_notFaults pos).symm
  | binary pos op l r ihl ihr =>
    rw [relabel, valueFaults, valueFaults, ihl, ihr, value_relabel h, value_relabel h,
      isConstant_relabel, List.map_append, List.map_append, BinaryOp.map_combineFaults]

@[simp] theorem constantValue_relabel (e : Expr) :
    (e.relabel φ).constantValue = e.constantValue := by
  rw [constantValue, constantValue, isConstant_relabel, value_relabel Env.relabels_empty]

/-- A constant expression reports the same faults at the other positions. -/
theorem constantFaults_relabel (e : Expr) :
    (e.relabel φ).constantFaults = e.constantFaults.map (Diagnostic.relabel φ) := by
  rw [constantFaults, constantFaults, isConstant_relabel, valueFaults_relabel Env.relabels_empty]
  split <;> rfl

/-- The constant parts stay the same parts, since being constant does not depend on names. -/
theorem constantPartFaults_relabel (e : Expr) :
    (e.relabel φ).constantPartFaults = e.constantPartFaults.map (Diagnostic.relabel φ) := by
  induction e with
  | num pos v => rfl
  | bool pos b => rfl
  | var pos x => rfl
  | not pos e ih =>
    rw [relabel, constantPartFaults, constantPartFaults, isConstant_relabel, ih]
    split
    · exact constantFaults_relabel (.not pos e)
    · rfl
  | binary pos op l r ihl ihr =>
    rw [relabel, constantPartFaults, constantPartFaults, isConstant_relabel, isConstant_relabel,
      ihl, ihr]
    split
    · exact constantFaults_relabel (.binary pos op l r)
    · exact List.map_append.symm

/-- A type does not depend on names either. -/
theorem type_relabel (h : Env.Relabels φ env env') (e : Expr) :
    (e.relabel φ).type env' = e.type env := by
  induction e with
  | num pos v => rfl
  | bool pos b => rfl
  | var pos x =>
    rw [relabel, type, type, h]
    rcases env x with - | s <;> rfl
  | not pos e ih => rw [relabel, type, type, ih]
  | binary pos op l r ihl ihr => rw [relabel, type, type, ihl, ihr]

/-- The faults of types name variables, and name them by their other names. -/
theorem typeFaults_relabel (h : Env.Relabels φ env env') (e : Expr) :
    (e.relabel φ).typeFaults env' = (e.typeFaults env).map (Diagnostic.relabel φ) := by
  induction e with
  | num pos v => rfl
  | bool pos b => rfl
  | var pos x =>
    rw [relabel, typeFaults, typeFaults, h]
    rcases env x with - | s
    · rfl
    · rw [apply_ite (List.map (Diagnostic.relabel φ))]
      rfl
  | not pos e ih =>
    rw [relabel, typeFaults, typeFaults, ih, type_relabel h, List.map_append]
    rcases (e.type env).typeOfNot with q | t <;> rfl
  | binary pos op l r ihl ihr =>
    rw [relabel, typeFaults, typeFaults, ihl, ihr, type_relabel h, type_relabel h,
      List.map_append, List.map_append]
    rcases op.typeOf (l.type env) (r.type env) with q | t <;> rfl

/-! ### Stores -/

/-- A mismatch names the target of the store as well as the two types. -/
theorem storeFaults_relabel (h : Env.Relabels φ env env') (pos : Pos) (x : String) (target : Ty)
    (e : Expr) :
    (e.relabel φ).storeFaults env' (φ.pos pos) (φ.name x) target =
      (e.storeFaults env pos x target).map (Diagnostic.relabel φ) := by
  rw [storeFaults, storeFaults, typeFaults_relabel h, type_relabel h, List.map_append]
  split <;> rfl

/-- What is stored is decided by the types alone. -/
theorem storedValue_relabel (h : Env.Relabels φ env env') (target : Ty) (e : Expr) :
    (e.relabel φ).storedValue env' target = e.storedValue env target := by
  rw [storedValue, storedValue, type_relabel h, value_relabel h]

/-- A value is evaluated on both sides or on neither. -/
theorem storedValueFaults_relabel (h : Env.Relabels φ env env') (target : Ty) (e : Expr) :
    (e.relabel φ).storedValueFaults env' target =
      (e.storedValueFaults env target).map (Diagnostic.relabel φ) := by
  rw [storedValueFaults, storedValueFaults, type_relabel h, valueFaults_relabel h]
  split <;> rfl

end Expr

/-! ### Declarations -/

/-- What is wrong with an initializer names the variable that it initializes. -/
theorem Declarator.initFaults_relabel {env env' : Env} (h : Env.Relabels φ env env')
    (isGlobal : Bool) (ty : Ty) (v : Declarator) (e : Expr) :
    (v.relabel φ).initFaults env' isGlobal ty (e.relabel φ) =
      (v.initFaults env isGlobal ty e).map (Diagnostic.relabel φ) := by
  rw [initFaults, initFaults, List.map_append, List.map_append, Expr.isConstant_relabel,
    Expr.pos_relabel, Expr.storedValueFaults_relabel h]
  show (e.relabel φ).storeFaults env' (φ.pos v.pos) (φ.name v.name) ty ++ _ ++ _ = _
  rw [Expr.storeFaults_relabel h]
  split <;> rfl

/-- Whether a name is new is the same question for the other name, because no two names become one.
-/
theorem Declarator.analyze_relabel (isGlobal : Bool) (ty : Ty) (v : Declarator) (s : Session) :
    (v.relabel φ).analyze isGlobal ty (s.relabel φ) = (v.analyze isGlobal ty s).relabel φ := by
  have hlocal : (s.relabel φ).scopes.containsLocal (v.relabel φ).name =
      s.scopes.containsLocal v.name := s.scopes.containsLocal_relabel φ v.name
  rw [analyze, analyze, hlocal]
  split
  · rw [Session.relabel_report]
    rfl
  · rcases hinit : v.init with - | e
    · have hinit' : (v.relabel φ).init = none := congrArg (Option.map (Expr.relabel φ)) hinit
      rw [hinit']
      dsimp only
      rw [Session.relabel_report, Session.relabel_note, Session.relabel_declare]
      rfl
    · have hinit' : (v.relabel φ).init = some (e.relabel φ) :=
        congrArg (Option.map (Expr.relabel φ)) hinit
      have hvalue := Expr.storedValue_relabel s.relabels_env ty e (φ := φ)
      have hfaults := v.initFaults_relabel s.relabels_env isGlobal ty e (φ := φ)
      rw [hinit']
      dsimp only
      rw [hvalue, hfaults, Session.relabel_note]
      refine congrArg (Session.note · _) ?_
      split
      · rw [Session.relabel_assign, Session.relabel_declare, Session.relabel_reportAll]
        rfl
      · rw [Session.relabel_declare, Session.relabel_reportAll]
        rfl

/-- Variables of one declaration, from left to right. -/
theorem analyzeDeclarators_relabel (isGlobal : Bool) (ty : Ty) (vs : List Declarator)
    (s : Session) :
    analyzeDeclarators isGlobal ty (vs.map (Declarator.relabel φ)) (s.relabel φ) =
      (analyzeDeclarators isGlobal ty vs s).relabel φ := by
  rw [analyzeDeclarators, analyzeDeclarators, List.foldl_map]
  exact (List.foldl_hom (Session.relabel φ) fun s v ↦ v.analyze_relabel isGlobal ty s)

/-- A declaration whose type cannot be stored is reported once for each variable, by its other name.
-/
theorem Declaration.analyze_relabel (isGlobal : Bool) (d : Declaration) (s : Session) :
    (d.relabel φ).analyze isGlobal (s.relabel φ) = (d.analyze isGlobal s).relabel φ := by
  show (if d.ty.isStorable then _ else _) = _
  rw [analyze]
  split
  · exact analyzeDeclarators_relabel isGlobal d.ty d.vars s
  · rw [Session.relabel_reportAll, relabel, List.map_map, List.map_map]
    rfl

/-- A parameter is declared like a variable, but never without a value. -/
theorem Param.analyze_relabel (p : Param) (s : Session) :
    (p.relabel φ).analyze (s.relabel φ) = (p.analyze s).relabel φ := by
  have hlocal : (s.relabel φ).scopes.containsLocal (p.relabel φ).name =
      s.scopes.containsLocal p.name := s.scopes.containsLocal_relabel φ p.name
  rw [analyze, analyze, hlocal]
  show (if p.ty.isStorable then _ else _) = _
  split
  · split
    · rw [Session.relabel_report]
      rfl
    · rw [Session.relabel_declare]
      rfl
  · rw [Session.relabel_report]
    rfl

theorem analyzeParams_relabel (ps : List Param) (s : Session) :
    analyzeParams (ps.map (Param.relabel φ)) (s.relabel φ) =
      (analyzeParams ps s).relabel φ := by
  rw [analyzeParams, analyzeParams, List.foldl_map]
  exact List.foldl_hom (Session.relabel φ) fun s p ↦ p.analyze_relabel s

/-! ### Statements -/

namespace Session

/-- A condition is looked at and changes no scope. -/
theorem checkCondition_relabel (s : Session) (c : Construct) (cond : Expr) :
    (s.relabel φ).checkCondition c (cond.relabel φ) = (s.checkCondition c cond).relabel φ := by
  rw [checkCondition, checkCondition, relabel_reportAll, List.map_append,
    Expr.typeFaults_relabel s.relabels_env, Expr.type_relabel s.relabels_env,
    Expr.constantPartFaults_relabel, Expr.pos_relabel]
  split
  · rfl
  · split <;> rfl

/-- The target of an assignment is found as the variable that it was. -/
theorem analyzeAssign_relabel (s : Session) (pos : Pos) (x : String) (e : Expr) :
    (s.relabel φ).analyzeAssign (φ.pos pos) (φ.name x) (e.relabel φ) =
      (s.analyzeAssign pos x e).relabel φ := by
  have hlookup : (s.relabel φ).scopes.lookup? (φ.name x) =
      (s.scopes.lookup? x).map (Symbol.relabel φ) := s.scopes.lookup?_relabel φ x
  rw [analyzeAssign, analyzeAssign, hlookup]
  rcases s.scopes.lookup? x with - | target
  · exact (relabel_report φ s ⟨pos, .undeclared x⟩).symm
  · show ((s.relabel φ).reportAll
      ((e.relabel φ).storeFaults _ (φ.pos pos) (φ.name x) target.ty ++
        (e.relabel φ).storedValueFaults _ target.ty)).assign (φ.name x)
          ((e.relabel φ).storedValue _ target.ty) = _
    rw [Expr.storeFaults_relabel s.relabels_env, Expr.storedValueFaults_relabel s.relabels_env,
      Expr.storedValue_relabel s.relabels_env, ← List.map_append, relabel_assign,
      relabel_reportAll]

/-- A return depends on the result type of the function, which has no names in it. -/
theorem analyzeReturn_relabel (s : Session) (expected : Ty) (pos : Pos) (value : Option Expr) :
    (s.relabel φ).analyzeReturn expected (φ.pos pos) (value.map (Expr.relabel φ)) =
      (s.analyzeReturn expected pos value).relabel φ := by
  rcases value with - | e
  · show (if expected = .void then _ else _) = _
    rw [analyzeReturn]
    split
    · rfl
    · exact (relabel_report φ s ⟨pos, .noReturnValue expected⟩).symm
  · rw [Option.map_some, analyzeReturn, analyzeReturn, Expr.type_relabel s.relabels_env,
      Expr.typeFaults_relabel s.relabels_env, Expr.valueFaults_relabel s.relabels_env,
      Expr.value_relabel s.relabels_env, Expr.pos_relabel]
    split
    · rw [relabel_reportAll]
    · split
      · rw [relabel_note, relabel_reportAll, relabel_reportAll]
        rfl
      · rw [relabel_report, relabel_reportAll]
        rfl

end Session

/-- Statements without inner blocks, one case for each. -/
theorem Simple.analyze_relabel (expected : Ty) (s : Session) (a : Simple) :
    (a.relabel φ).analyze expected (s.relabel φ) = (a.analyze expected s).relabel φ := by
  rcases a with d | ⟨pos, x, e⟩ | ⟨pos, value⟩ | ⟨pos, e⟩
  · exact d.analyze_relabel false s
  · exact s.analyzeAssign_relabel pos x e
  · exact s.analyzeReturn_relabel expected pos value
  · rw [relabel, analyze, analyze, Session.relabel_reportAll, List.map_append,
      Expr.typeFaults_relabel s.relabels_env, Expr.type_relabel s.relabels_env,
      Expr.constantPartFaults_relabel]
    split <;> rfl

/-- Scopes are named after constructs and not after variables, so both sessions open the same ones.
-/
theorem Block.analyze_relabel (expected : Ty) (b : Block) (s : Session) :
    (b.relabel φ).analyze expected (s.relabel φ) = (b.analyze expected s).relabel φ := by
  induction b generalizing s with
  | done => rfl
  | simple a rest ih => rw [relabel, analyze, analyze, a.analyze_relabel, ih]
  | ifThen pos c t rest iht ih =>
    rw [relabel, analyze, analyze, s.checkCondition_relabel, ← Session.relabel_enter, iht,
      ← Session.relabel_exit, ih]
  | ifElse pos c t e rest iht ihe ih =>
    rw [relabel, analyze, analyze, s.checkCondition_relabel, ← Session.relabel_enter, iht,
      ← Session.relabel_exit, ← Session.relabel_enter, ihe, ← Session.relabel_exit, ih]
  | loop pos c b rest ihb ih =>
    rw [relabel, analyze, analyze, s.checkCondition_relabel, ← Session.relabel_enter, ihb,
      ← Session.relabel_exit, ih]

/-! ### Programs -/

@[simp] theorem Simple.isReturn_relabel (a : Simple) : (a.relabel φ).isReturn = a.isReturn := by
  cases a <;> rfl

/-- Whether there is a return shows in the shape of the block. -/
@[simp] theorem Block.containsReturn_relabel (b : Block) :
    (b.relabel φ).containsReturn = b.containsReturn := by
  induction b with
  | done => rfl
  | simple a rest ih => rw [relabel, containsReturn, containsReturn, a.isReturn_relabel, ih]
  | ifThen pos c t rest iht ih => rw [relabel, containsReturn, containsReturn, iht, ih]
  | ifElse pos c t e rest iht ihe ih =>
    rw [relabel, containsReturn, containsReturn, iht, ihe, ih]
  | loop pos c b rest ihb ih => rw [relabel, containsReturn, containsReturn, ihb, ih]

/-- The name of the function is kept, for the log and the labels. -/
theorem Function.analyze_relabel (f : Function) (s : Session) :
    (f.relabel φ).analyze (s.relabel φ) = (f.analyze s).relabel φ := by
  have hlacks : (f.relabel φ).lacksReturn = f.lacksReturn := by
    show (f.returnTy != .void && !(f.body.relabel φ).containsReturn) = _
    rw [Block.containsReturn_relabel]
    rfl
  have hopened : (f.relabel φ).opened (s.relabel φ) = (f.opened s).relabel φ := by
    rw [opened, opened, Session.relabel_enter, Session.relabel_note]
    rfl
  have hbody : (f.relabel φ).bodyEnd (s.relabel φ) = (f.bodyEnd s).relabel φ := by
    show (f.body.relabel φ).analyze f.returnTy (analyzeParams (f.params.map (Param.relabel φ))
      ((f.relabel φ).opened (s.relabel φ))) = _
    rw [hopened, analyzeParams_relabel, Block.analyze_relabel]
    rfl
  rw [analyze_eq, analyze_eq, hlacks, hbody, Session.relabel_exit]
  split
  · rw [Session.relabel_report]
    rfl
  · rfl

/-- The relabeling keeps the names of the variables that the declarations declare. -/
def Relabeling.Fixes (φ : Relabeling) (ds : List Declaration) : Prop :=
  ∀ d ∈ ds, ∀ v ∈ d.vars, φ.name v.name = v.name

/-- Reserved names are the one check that looks at letters. It is the reason why names of global
variables are kept. -/
theorem Declaration.reservedFaults_relabel (function entry : String) {d : Declaration}
    (h : ∀ v ∈ d.vars, φ.name v.name = v.name) :
    (d.relabel φ).reservedFaults function entry =
      (d.reservedFaults function entry).map (Diagnostic.relabel φ) := by
  show (if d.ty.isStorable then _ else _) = _
  rw [reservedFaults]
  split
  · have hfilter : (d.vars.filter fun v ↦ isReserved (φ.name v.name) function entry) =
        d.vars.filter fun v ↦ isReserved v.name function entry :=
      List.filter_congr fun v hv ↦ by rw [h v hv]
    rw [relabel, List.filter_map, List.map_map, List.map_map]
    show (d.vars.filter fun v ↦ isReserved (φ.name v.name) function entry).map _ = _
    rw [hfilter]
    rfl
  · rfl

/-- Global declarations in order, each followed by the check of its names. -/
theorem analyzeGlobals_relabel (function entry : String) {ds : List Declaration}
    (h : φ.Fixes ds) (s : Session) :
    analyzeGlobals function entry (ds.map (Declaration.relabel φ)) (s.relabel φ) =
      (analyzeGlobals function entry ds s).relabel φ := by
  induction ds generalizing s with
  | nil => rfl
  | cons d ds ih =>
    have hfirst : (d.relabel φ).analyzeGlobal function entry (s.relabel φ) =
        (d.analyzeGlobal function entry s).relabel φ := by
      rw [Declaration.analyzeGlobal, Declaration.analyzeGlobal, d.analyze_relabel,
        Declaration.reservedFaults_relabel function entry (h d List.mem_cons_self),
        Session.relabel_reportAll]
    show analyzeGlobals function entry (ds.map (Declaration.relabel φ))
      ((d.relabel φ).analyzeGlobal function entry (s.relabel φ)) = _
    rw [hfirst, ih fun d' hd' ↦ h d' (List.mem_cons_of_mem _ hd')]
    rfl

/-- The analysis of a program with other names and positions is the analysis of the program with
them. -/
theorem Program.analyze_relabel (entry : String) {p : Program} (h : φ.Fixes p.globals)
    (s : Session) :
    (p.relabel φ).analyze entry (s.relabel φ) = (p.analyze entry s).relabel φ := by
  generalize hend : p.function.analyze
    (analyzeGlobals p.function.name entry p.globals (s.note .analysisStarted)) = r
  have hend' : (p.function.relabel φ).analyze (analyzeGlobals p.function.name entry
      (p.globals.map (Declaration.relabel φ)) ((s.relabel φ).note .analysisStarted)) =
      r.relabel φ := by
    have hstart : (s.note .analysisStarted).relabel φ = (s.relabel φ).note .analysisStarted :=
      s.relabel_note φ .analysisStarted
    rw [← hstart, analyzeGlobals_relabel _ entry h, Function.analyze_relabel, hend]
  have hsummary : (r.relabel φ).diagnostics.summary = r.diagnostics.summary :=
    r.diagnostics.summary_relabel φ
  calc (p.relabel φ).analyze entry (s.relabel φ)
    _ = (r.relabel φ).note (.analysisFinished (r.relabel φ).diagnostics.summary) := by
      rw [← hend']
      rfl
    _ = (r.note (.analysisFinished r.diagnostics.summary)).relabel φ := by
      rw [hsummary, Session.relabel_note]
      rfl
    _ = (p.analyze entry s).relabel φ := by
      rw [← hend]
      rfl

end BlockLang
