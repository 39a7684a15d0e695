import BlockLang.Proofs.Analysis.Inference

/-!
# An analysis, step by step

The analysis of a program as a list of small steps (`Program.steps`): a record in the log, a report,
the inference or the evaluation of one expression, and the operations on scopes. To run the steps in
order is to analyze the program (`Program.after_steps`), and the sessions in between are the points
of the analysis. A property of all points is then one of single steps.

A part of the program does different steps in different sessions, so it is a `Routine`. Routines
follow one another in sequence, and each part of a program has its routine beside its analysis.
-/

namespace BlockLang

namespace Session

/-- The evaluation of an expression, as a step of an analysis: the value, if it is known, and the
session after the reports. -/
def evaluate (s : Session) (e : Expr) : Option Value × Session :=
  (e.value s.env, s.reportAll (e.valueFaults s.env))

/-- A step of an analysis. -/
inductive Step where
  /-- Adds a record to the log. -/
  | note (e : Event)
  /-- Reports a diagnostic. -/
  | report (d : Diagnostic)
  /-- Infers the type of an expression. -/
  | infer (e : Expr)
  /-- Evaluates an expression. -/
  | evaluate (e : Expr)
  /-- Opens a scope. -/
  | enter (name : String)
  /-- Leaves the current scope. -/
  | exit
  /-- Declares a variable in the current scope. -/
  | declare (x : String) (ty : Ty) (value : Option Value) (pos : Pos)
  /-- Stores a value in the nearest variable of a name. -/
  | assign (x : String) (value : Option Value)
deriving DecidableEq, Repr

/-- The session after a step. -/
def Step.run (s : Session) : Step → Session
  | note e => s.note e
  | report d => s.report d
  | infer e => (s.infer e).2
  | evaluate e => (s.evaluate e).2
  | enter name => s.enter name
  | exit => s.exit
  | declare x ty value pos => s.declare x ty value pos
  | assign x value => s.assign x value

/-- The session after steps in order. -/
def after (s : Session) (steps : List Step) : Session := steps.foldl Step.run s

@[simp] theorem after_nil (s : Session) : s.after [] = s := rfl

@[simp] theorem after_cons (s : Session) (a : Step) (steps : List Step) :
    s.after (a :: steps) = (a.run s).after steps := rfl

@[simp] theorem after_append (s : Session) (steps steps' : List Step) :
    s.after (steps ++ steps') = (s.after steps).after steps' :=
  List.foldl_append

@[simp] theorem after_reports (s : Session) (ds : List Diagnostic) :
    s.after (ds.map .report) = s.reportAll ds :=
  List.foldl_map

theorem reportAll_append (s : Session) (ds es : List Diagnostic) :
    s.reportAll (ds ++ es) = (s.reportAll ds).reportAll es :=
  List.foldl_append

@[simp] theorem env_reportAll (s : Session) (ds : List Diagnostic) :
    (s.reportAll ds).env = s.env := by
  rw [env, scopes_reportAll, env]

theorem env_infer (s : Session) (e : Expr) : (s.infer e).2.env = s.env := s.env_reportAll _

end Session

open Session (Step)

/-! ### Routines -/

/-- The steps of a part of an analysis, by the session in which the part begins. -/
abbrev Routine := Session → List Step

namespace Routine

/-- No steps. -/
def skip : Routine := fun _ ↦ []

/-- The same step in every session. -/
def step (a : Step) : Routine := fun _ ↦ [a]

/-- One routine after another. -/
def andThen (f g : Routine) : Routine := fun s ↦ f s ++ g (s.after (f s))

/-- The routines of some parts in order. -/
def all {α : Type} (f : α → Routine) : List α → Routine
  | [] => skip
  | a :: as => (f a).andThen (all f as)

variable {α : Type} {f g : Routine}

@[simp] theorem after_skip (s : Session) : s.after (skip s) = s := rfl

@[simp] theorem after_step (a : Step) (s : Session) : s.after (step a s) = a.run s := rfl

@[simp] theorem after_andThen (f g : Routine) (s : Session) :
    s.after (f.andThen g s) = (s.after (f s)).after (g (s.after (f s))) :=
  s.after_append _ _

/-- Parts in order do what their analyses do in order. -/
theorem after_all {f : α → Routine} {analyze : α → Session → Session}
    (h : ∀ a s, s.after (f a s) = analyze a s) (as : List α) (s : Session) :
    s.after (all f as s) = as.foldl (fun s a ↦ analyze a s) s := by
  induction as generalizing s with
  | nil => rfl
  | cons a as ih => rw [all, after_andThen, ih, h, List.foldl_cons]

end Routine

/-! ### Expressions -/

namespace Expr

/-- The largest constant parts of the expression, from left to right. They are all that is evaluated
of an expression whose value is not needed. -/
def constantParts : Expr → List Expr
  | num pos v => [num pos v]
  | bool pos b => [bool pos b]
  | var _ _ => []
  | not pos e => if e.isConstant then [not pos e] else e.constantParts
  | binary pos op l r =>
    if l.isConstant && r.isConstant then [binary pos op l r] else l.constantParts ++ r.constantParts

/-- The faults of the constant parts are the reports of their evaluation, one part after another and
in any environment. -/
theorem flatMap_constantParts (env : Env) (e : Expr) :
    e.constantParts.flatMap (valueFaults env) = e.constantPartFaults := by
  induction e with
  | num p v => rfl
  | bool p b => rfl
  | var p x => rfl
  | not p e ih =>
    rw [constantParts, constantPartFaults]
    split
    · rename_i hc
      have hnot : (not p e).isConstant = true := hc
      rw [List.flatMap_singleton, constantFaults_of_isConstant hnot,
        valueFaults_of_isConstant hnot]
    · exact ih
  | binary p op l r ihl ihr =>
    rw [constantParts, constantPartFaults]
    split
    · rename_i hc
      have hbinary : (binary p op l r).isConstant = true := hc
      rw [List.flatMap_singleton, constantFaults_of_isConstant hbinary,
        valueFaults_of_isConstant hbinary]
    · rw [List.flatMap_append, ihl, ihr]

/-- The steps that evaluate the constant parts of an expression. -/
def constantPartSteps (e : Expr) : List Step := e.constantParts.map .evaluate

theorem after_constantPartSteps (e : Expr) (s : Session) :
    s.after e.constantPartSteps = s.reportAll e.constantPartFaults := by
  rw [← flatMap_constantParts s.env, constantPartSteps]
  generalize henv : s.env = env
  induction e.constantParts generalizing s with
  | nil => rfl
  | cons part parts ih =>
    have hpart : (Step.evaluate part).run s = s.reportAll (part.valueFaults env) := henv ▸ rfl
    rw [List.map_cons, Session.after_cons, hpart, ih _ ((s.env_reportAll _).trans henv),
      List.flatMap_cons, Session.reportAll_append]

/-- The steps on a value to be stored: its type, what is wrong with it, and its evaluation if it has
the type of its target. -/
def storeRoutine (pos : Pos) (x : String) (target : Ty) (remarks : List Diagnostic) (e : Expr) :
    Routine := fun s ↦
  let found := e.type s.env
  let mismatch : List Diagnostic :=
    if !target.compatible found && !found.isError then [⟨pos, .assignMismatch x target found⟩]
    else []
  .infer e :: (mismatch ++ remarks).map .report ++
    if target.compatible found then [.evaluate e] else []

theorem after_storeRoutine (pos : Pos) (x : String) (target : Ty) (remarks : List Diagnostic)
    (e : Expr) (s : Session) :
    s.after (e.storeRoutine pos x target remarks s) =
      s.reportAll (e.storeFaults s.env pos x target ++ remarks ++
        e.storedValueFaults s.env target) := by
  simp only [storeRoutine, storeFaults, storedValueFaults, List.cons_append, Session.after_cons,
    Session.after_append, Session.after_reports, Step.run, Session.infer, Session.reportAll_append]
  by_cases hc : target.compatible (e.type s.env) = true
  · rw [if_pos hc, if_pos hc]
    show (Session.evaluate _ e).2 = _
    simp only [Session.evaluate, Session.env_reportAll]
  · rw [if_neg hc, if_neg hc]
    rfl

end Expr

/-! ### Declarations -/

/-- The steps on one variable of a declaration. -/
def Declarator.routine (isGlobal : Bool) (ty : Ty) (v : Declarator) : Routine := fun s ↦
  if s.scopes.containsLocal v.name then [.report ⟨v.pos, .redeclared v.name⟩]
  else
    match v.init with
    | none =>
      [.declare v.name ty none v.pos, .note (.declared v.name ty),
        .report ⟨v.pos, .noInitializer v.name⟩]
    | some e =>
      e.storeRoutine v.pos v.name ty
          (if isGlobal && !e.isConstant then [⟨e.pos, .globalNotConstant v.name⟩] else []) s ++
        .declare v.name ty (e.storedValue s.env ty) v.pos ::
          ((if (e.storedValue s.env ty).isNone then [.assign v.name none] else []) ++
            [.note (.initialized v.name ty (e.storedValue s.env ty))])

theorem Declarator.after_routine (isGlobal : Bool) (ty : Ty) (v : Declarator) (s : Session) :
    s.after (v.routine isGlobal ty s) = v.analyze isGlobal ty s := by
  rw [routine, analyze]
  split
  · rfl
  · rcases v.init with - | e
    · rfl
    · dsimp only
      rw [Session.after_append, Expr.after_storeRoutine, Session.after_cons, Session.after_append,
        initFaults]
      cases (e.storedValue s.env ty).isNone <;> rfl

/-- The steps on a declaration. -/
def Declaration.routine (isGlobal : Bool) (d : Declaration) : Routine := fun s ↦
  if d.ty.isStorable then Routine.all (Declarator.routine isGlobal d.ty) d.vars s
  else (d.vars.map fun v ↦ ⟨v.pos, .unstorable v.name d.ty⟩).map .report

theorem Declaration.after_routine (isGlobal : Bool) (d : Declaration) (s : Session) :
    s.after (d.routine isGlobal s) = d.analyze isGlobal s := by
  rw [routine, analyze]
  split
  · exact Routine.after_all (Declarator.after_routine isGlobal d.ty) d.vars s
  · exact s.after_reports _

/-- The steps on a parameter. -/
def Param.routine (p : Param) : Routine := fun s ↦
  if p.ty.isStorable then
    if s.scopes.containsLocal p.name then [.report ⟨p.pos, .redeclaredParam p.name⟩]
    else [.declare p.name p.ty p.ty.defaultValue p.pos]
  else [.report ⟨p.pos, .unstorableParam p.name p.ty⟩]

theorem Param.after_routine (p : Param) (s : Session) : s.after (p.routine s) = p.analyze s := by
  rw [routine, analyze]
  split
  · split <;> rfl
  · rfl

/-! ### Statements -/

/-- The steps on a condition. -/
def conditionRoutine (c : Construct) (cond : Expr) : Routine := fun s ↦
  .infer cond ::
    if (cond.type s.env).isError then []
    else if (cond.type s.env).isBoolean then cond.constantPartSteps
    else [.report ⟨cond.pos, .conditionType c (cond.type s.env)⟩]

theorem after_conditionRoutine (c : Construct) (cond : Expr) (s : Session) :
    s.after (conditionRoutine c cond s) = s.checkCondition c cond := by
  rw [conditionRoutine, Session.checkCondition, Session.after_cons, Session.reportAll_append]
  split
  · rfl
  · split
    · exact cond.after_constantPartSteps _
    · rfl

/-- The steps on an assignment. -/
def assignRoutine (pos : Pos) (x : String) (e : Expr) : Routine := fun s ↦
  match s.scopes.lookup? x with
  | none => [.report ⟨pos, .undeclared x⟩]
  | some target =>
    e.storeRoutine pos x target.ty [] s ++ [.assign x (e.storedValue s.env target.ty)]

theorem after_assignRoutine (pos : Pos) (x : String) (e : Expr) (s : Session) :
    s.after (assignRoutine pos x e s) = s.analyzeAssign pos x e := by
  rw [assignRoutine, Session.analyzeAssign]
  rcases s.scopes.lookup? x with - | target
  · rfl
  · dsimp only
    rw [Session.after_append, Expr.after_storeRoutine, List.append_nil]
    rfl

/-- The steps on a return. -/
def returnRoutine (expected : Ty) (pos : Pos) (value : Option Expr) : Routine := fun s ↦
  match value with
  | none => if expected = .void then [] else [.report ⟨pos, .noReturnValue expected⟩]
  | some e =>
    .infer e ::
      if (e.type s.env).isError then []
      else if expected.compatible (e.type s.env) then
        [.evaluate e, .note (.returned (e.type s.env) (e.value s.env))]
      else [.report ⟨e.pos, .returnMismatch expected (e.type s.env)⟩]

theorem after_returnRoutine (expected : Ty) (pos : Pos) (value : Option Expr) (s : Session) :
    s.after (returnRoutine expected pos value s) = s.analyzeReturn expected pos value := by
  rcases value with - | e
  · rw [returnRoutine, Session.analyzeReturn]
    split <;> rfl
  · rw [returnRoutine, Session.analyzeReturn, Session.after_cons]
    split
    · rfl
    · split
      · show Session.note (Session.evaluate _ e).2 _ = _
        rw [Step.run, Session.infer, Session.evaluate, Session.env_reportAll]
      · rfl

/-- The steps on a statement without inner blocks. -/
def Simple.routine (expected : Ty) : Simple → Routine
  | declare d => d.routine false
  | assign pos x e => assignRoutine pos x e
  | ret pos value => returnRoutine expected pos value
  | eval _ e => fun s ↦ .infer e :: if (e.type s.env).isError then [] else e.constantPartSteps

theorem Simple.after_routine (expected : Ty) (a : Simple) (s : Session) :
    s.after (a.routine expected s) = a.analyze expected s := by
  rcases a with d | ⟨pos, x, e⟩ | ⟨pos, value⟩ | ⟨pos, e⟩
  · exact d.after_routine false s
  · exact after_assignRoutine pos x e s
  · exact after_returnRoutine expected pos value s
  · rw [routine, analyze, Session.after_cons, Session.reportAll_append]
    split
    · rfl
    · exact e.after_constantPartSteps _

/-- A routine in a scope of its own. -/
def Routine.inside (name : String) (f : Routine) : Routine :=
  (step (.enter name)).andThen (f.andThen (step .exit))

/-- The steps on the statements of a block. -/
def Block.routine (expected : Ty) : Block → Routine
  | done => Routine.skip
  | simple a rest => (a.routine expected).andThen (rest.routine expected)
  | ifThen _ c t rest =>
    (conditionRoutine .cond c).andThen
      (((t.routine expected).inside "if_then").andThen (rest.routine expected))
  | ifElse _ c t e rest =>
    (conditionRoutine .cond c).andThen
      (((t.routine expected).inside "if_then").andThen
        (((e.routine expected).inside "if_else").andThen (rest.routine expected)))
  | loop _ c b rest =>
    (conditionRoutine .loop c).andThen
      (((b.routine expected).inside "while_body").andThen (rest.routine expected))

/-- The routine of a block in a scope of its own does what the analysis of the block does there. -/
theorem Routine.after_inside {expected : Ty} {b : Block}
    (h : ∀ s : Session, s.after (b.routine expected s) = b.analyze expected s) (name : String)
    (s : Session) :
    s.after (((b.routine expected).inside name) s) = b.analyzeInside expected name s := by
  rw [inside, after_andThen, after_step, after_andThen, after_step, h]
  rfl

theorem Block.after_routine (expected : Ty) (b : Block) (s : Session) :
    s.after (b.routine expected s) = b.analyze expected s := by
  induction b generalizing s with
  | done => rfl
  | simple a rest ih => rw [routine, Routine.after_andThen, ih, a.after_routine, analyze]
  | ifThen pos c t rest iht ih =>
    rw [routine, Routine.after_andThen, Routine.after_andThen, ih, Routine.after_inside iht,
      after_conditionRoutine, analyze_ifThen]
  | ifElse pos c t e rest iht ihe ih =>
    rw [routine, Routine.after_andThen, Routine.after_andThen, Routine.after_andThen, ih,
      Routine.after_inside ihe, Routine.after_inside iht, after_conditionRoutine, analyze_ifElse]
  | loop pos c b rest ihb ih =>
    rw [routine, Routine.after_andThen, Routine.after_andThen, ih, Routine.after_inside ihb,
      after_conditionRoutine, analyze_loop]

/-! ### Programs -/

/-- The steps on a function. -/
def Function.routine (f : Function) : Routine :=
  (Routine.step (.note (.analyzing f.name f.returnTy))).andThen <|
    (Routine.step (.enter ("function_" ++ f.name))).andThen <|
      (Routine.all Param.routine f.params).andThen <|
        (f.body.routine f.returnTy).andThen <|
          (if f.lacksReturn then Routine.step (.report ⟨f.pos, .noReturn f.name f.returnTy⟩)
            else Routine.skip).andThen (Routine.step .exit)

theorem Function.after_routine (f : Function) (s : Session) :
    s.after (f.routine s) = f.analyze s := by
  have hbody : ((s.note (.analyzing f.name f.returnTy)).enter ("function_" ++ f.name)).after
      (Routine.all Param.routine f.params _) = f.bodyStart s :=
    Routine.after_all Param.after_routine f.params _
  rw [routine, analyze_eq]
  simp only [Routine.after_andThen, Routine.after_step, Step.run]
  rw [hbody, Block.after_routine]
  split <;> rfl

/-- The steps on a global declaration. -/
def Declaration.globalRoutine (function entry : String) (d : Declaration) : Routine :=
  (d.routine true).andThen fun _ ↦ (d.reservedFaults function entry).map .report

theorem Declaration.after_globalRoutine (function entry : String) (d : Declaration) (s : Session) :
    s.after (d.globalRoutine function entry s) = d.analyzeGlobal function entry s := by
  rw [globalRoutine, Routine.after_andThen, Session.after_reports, d.after_routine, analyzeGlobal]

namespace Program

/-- The steps on the globals and the function of a program. -/
def routine (entry : String) (p : Program) : Routine :=
  (Routine.step (.note .analysisStarted)).andThen <|
    (Routine.all (Declaration.globalRoutine p.function.name entry) p.globals).andThen <|
      p.function.routine.andThen fun s ↦ [.note (.analysisFinished s.diagnostics.summary)]

/-- The steps of the analysis of a program in a fresh session. -/
def steps (entry : String) (p : Program) : List Step := p.routine entry {}

/-- The steps of a program make up its analysis. -/
theorem after_steps (entry : String) (p : Program) :
    Session.after {} (p.steps entry) = p.analyze entry {} := by
  have hglobals : Session.after (Session.note {} .analysisStarted)
      (Routine.all (Declaration.globalRoutine p.function.name entry) p.globals _) =
        p.globalEnd entry :=
    Routine.after_all (Declaration.after_globalRoutine p.function.name entry) p.globals _
  rw [steps, routine]
  simp only [Routine.after_andThen, Routine.after_step, Step.run]
  rw [hglobals, Function.after_routine]
  rfl

end Program

end BlockLang
