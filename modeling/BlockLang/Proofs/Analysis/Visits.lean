import BlockLang.Proofs.Analysis.Trace

/-!
# The visits of an analysis

The analysis of a program as a list of visits: to each variable of a declaration, each parameter,
each other statement and each condition, and into and out of the scopes between them. To make the
visits in order is to analyze the program (`Program.diagnostics_follow_visits`). Unlike the steps of
`BlockLang.Proofs.Analysis.Trace`, which depend on the session, the visits are read off the text,
and a visit has to do with one expression at most. Each expression of the program has its visit
(`Program.filterMap_expr?_visits`).

Whether a visit looks at its expression does depend on the session: the initializer of a variable
that cannot be declared is passed over, and so is the value for a target that is not visible. If it
does look, `Visit.purpose?` says what the expression is for, and the diagnostics of the visit are
those of inference, a few of the statement itself, and those of the evaluation that the purpose asks
for (`Visit.exists_reports`). An expression that does not fit its purpose is not evaluated.
-/

namespace BlockLang

/-! ### Visits -/

/-- A part of an analysis. -/
inductive Visit where
  /-- A record for the log. -/
  | note (e : Event)
  /-- The start of a scope. -/
  | enter (name : String)
  /-- The end of a scope. -/
  | exit
  /-- One variable of a declaration of type `ty`. -/
  | declarator (isGlobal : Bool) (ty : Ty) (v : Declarator)
  /-- A global variable with a reserved name. -/
  | reserved (v : Declarator)
  /-- A parameter. -/
  | param (p : Param)
  /-- An assignment. -/
  | assign (pos : Pos) (x : String) (e : Expr)
  /-- A return in a function with result type `expected`. -/
  | ret (expected : Ty) (pos : Pos) (value : Option Expr)
  /-- An expression evaluated for nothing. -/
  | eval (e : Expr)
  /-- The condition of a construct. -/
  | test (c : Construct) (cond : Expr)
  /-- The end of a function that lacks a return. -/
  | noReturn (f : Function)
deriving DecidableEq, Repr

/-- The session after a visit. -/
def Visit.run (s : Session) : Visit → Session
  | note e => s.note e
  | enter name => s.enter name
  | exit => s.exit
  | declarator isGlobal ty v =>
    if ty.isStorable then v.analyze isGlobal ty s else s.report ⟨v.pos, .unstorable v.name ty⟩
  | reserved v => s.report ⟨v.pos, .reservedGlobal v.name⟩
  | param p => p.analyze s
  | assign pos x e => s.analyzeAssign pos x e
  | ret expected pos value => s.analyzeReturn expected pos value
  | eval e =>
    s.reportAll
      (e.typeFaults s.env ++ if (e.type s.env).isError then [] else e.constantPartFaults)
  | test c cond => s.checkCondition c cond
  | noReturn f => s.report ⟨f.pos, .noReturn f.name f.returnTy⟩

/-- The visits to what is inside a scope, with those that open and close it. -/
def Visit.inside (name : String) (vs : List Visit) : List Visit := enter name :: (vs ++ [exit])

/-- The visits to the variables of a declaration. -/
def Declaration.visits (isGlobal : Bool) (d : Declaration) : List Visit :=
  d.vars.map (.declarator isGlobal d.ty)

/-- The visits to a global declaration. -/
def Declaration.globalVisits (function entry : String) (d : Declaration) : List Visit :=
  d.visits true ++
    if d.ty.isStorable then
      (d.vars.filter fun v ↦ isReserved v.name function entry).map .reserved
    else []

/-- The visits to a statement without inner blocks. -/
def Simple.visits (expected : Ty) : Simple → List Visit
  | declare d => d.visits false
  | assign pos x e => [.assign pos x e]
  | ret pos value => [.ret expected pos value]
  | eval _ e => [.eval e]

/-- The visits to the statements of a block. -/
def Block.visits (expected : Ty) : Block → List Visit
  | done => []
  | simple a rest => a.visits expected ++ rest.visits expected
  | ifThen _ c t rest =>
    .test .cond c :: (Visit.inside "if_then" (t.visits expected) ++ rest.visits expected)
  | ifElse _ c t e rest =>
    .test .cond c :: (Visit.inside "if_then" (t.visits expected) ++
      (Visit.inside "if_else" (e.visits expected) ++ rest.visits expected))
  | loop _ c b rest =>
    .test .loop c :: (Visit.inside "while_body" (b.visits expected) ++ rest.visits expected)

/-- The visits to a function. -/
def Function.visits (f : Function) : List Visit :=
  .note (.analyzing f.name f.returnTy) ::
    Visit.inside ("function_" ++ f.name)
      (f.params.map .param ++ (f.body.visits f.returnTy ++
        if f.lacksReturn then [.noReturn f] else []))

/-- The visits to the globals and the function of a program. -/
def Program.visits (entry : String) (p : Program) : List Visit :=
  .note .analysisStarted ::
    (p.globals.flatMap (Declaration.globalVisits p.function.name entry) ++ p.function.visits)

/-! ### An analysis as its visits -/

namespace Session

/-- The session after visits in order. -/
def follow (s : Session) (vs : List Visit) : Session := vs.foldl Visit.run s

@[simp] theorem follow_nil (s : Session) : s.follow [] = s := rfl

@[simp] theorem follow_cons (s : Session) (a : Visit) (vs : List Visit) :
    s.follow (a :: vs) = (a.run s).follow vs := rfl

@[simp] theorem follow_append (s : Session) (vs ws : List Visit) :
    s.follow (vs ++ ws) = (s.follow vs).follow ws :=
  List.foldl_append

end Session

theorem Declaration.follow_visits (isGlobal : Bool) (d : Declaration) (s : Session) :
    s.follow (d.visits isGlobal) = d.analyze isGlobal s := by
  rw [Session.follow, visits, List.foldl_map, analyze]
  by_cases hty : d.ty.isStorable = true
  · simp only [Visit.run, if_pos hty]
    rfl
  · rw [if_neg hty, Session.reportAll, List.foldl_map]
    simp only [Visit.run, if_neg hty]

theorem Declaration.follow_globalVisits (function entry : String) (d : Declaration) (s : Session) :
    s.follow (d.globalVisits function entry) = d.analyzeGlobal function entry s := by
  rw [globalVisits, Session.follow_append, d.follow_visits, analyzeGlobal, reservedFaults]
  split
  · rw [Session.follow, List.foldl_map, Session.reportAll, List.foldl_map]
    rfl
  · rfl

theorem Simple.follow_visits (expected : Ty) (a : Simple) (s : Session) :
    s.follow (a.visits expected) = a.analyze expected s := by
  rcases a with d | ⟨pos, x, e⟩ | ⟨pos, value⟩ | ⟨pos, e⟩
  · exact d.follow_visits false s
  · rfl
  · rfl
  · rfl

theorem Block.follow_inside {expected : Ty} {b : Block}
    (h : ∀ s : Session, s.follow (b.visits expected) = b.analyze expected s) (name : String)
    (s : Session) :
    s.follow (Visit.inside name (b.visits expected)) = b.analyzeInside expected name s := by
  rw [Visit.inside, Session.follow_cons, Session.follow_append, h]
  rfl

theorem Block.follow_visits (expected : Ty) (b : Block) (s : Session) :
    s.follow (b.visits expected) = b.analyze expected s := by
  induction b generalizing s with
  | done => rfl
  | simple a rest ih => rw [visits, Session.follow_append, ih, a.follow_visits, analyze]
  | ifThen pos c t rest iht ih =>
    rw [visits, Session.follow_cons, Session.follow_append, ih, follow_inside iht, analyze_ifThen]
    rfl
  | ifElse pos c t e rest iht ihe ih =>
    rw [visits, Session.follow_cons, Session.follow_append, Session.follow_append, ih,
      follow_inside ihe, follow_inside iht, analyze_ifElse]
    rfl
  | loop pos c b rest ihb ih =>
    rw [visits, Session.follow_cons, Session.follow_append, ih, follow_inside ihb, analyze_loop]
    rfl

theorem Function.follow_visits (f : Function) (s : Session) : s.follow f.visits = f.analyze s := by
  have hparams (r : Session) : r.follow (f.params.map .param) = analyzeParams f.params r := by
    rw [Session.follow, List.foldl_map]
    rfl
  rw [visits, Visit.inside, analyze_eq]
  simp only [Session.follow_cons, Session.follow_append, Session.follow_nil, Block.follow_visits,
    hparams]
  split <;> rfl

namespace Program

theorem follow_visits (entry : String) (p : Program) :
    Session.follow {} (p.visits entry) = p.function.analyze (p.globalEnd entry) := by
  have hglobals (ds : List Declaration) (s : Session) :
      s.follow (ds.flatMap (Declaration.globalVisits p.function.name entry)) =
        analyzeGlobals p.function.name entry ds s := by
    induction ds generalizing s with
    | nil => rfl
    | cons d ds ih =>
      rw [List.flatMap_cons, Session.follow_append, d.follow_globalVisits, ih]
      rfl
  rw [visits, Session.follow_cons, Session.follow_append, hglobals, Function.follow_visits]
  rfl

/-- The visits of a program make up its analysis; a record that the analysis is over is all that is
left. -/
theorem diagnostics_follow_visits (entry : String) (p : Program) :
    (Session.follow {} (p.visits entry)).diagnostics = (p.analyze entry {}).diagnostics := by
  rw [p.follow_visits, p.diagnostics_analyze]

end Program

/-! ### Expressions -/

/-- The expression that a visit has to do with. -/
def Visit.expr? : Visit → Option Expr
  | declarator _ _ v => v.init
  | assign _ _ e => some e
  | ret _ _ value => value
  | eval e => some e
  | test _ cond => some cond
  | note _ => none
  | enter _ => none
  | exit => none
  | reserved _ => none
  | param _ => none
  | noReturn _ => none

theorem Declaration.filterMap_expr?_visits (isGlobal : Bool) (d : Declaration) :
    (d.visits isGlobal).filterMap Visit.expr? = d.exprs := by
  rw [visits, List.filterMap_map]
  rfl

theorem Declaration.filterMap_expr?_globalVisits (function entry : String) (d : Declaration) :
    (d.globalVisits function entry).filterMap Visit.expr? = d.exprs := by
  rw [globalVisits, List.filterMap_append, d.filterMap_expr?_visits]
  have hreserved (vs : List Declarator) :
      (vs.map Visit.reserved).filterMap Visit.expr? = [] := by
    rw [List.filterMap_map]
    exact List.filterMap_eq_nil_iff.2 fun v _ ↦ rfl
  split
  · rw [hreserved, List.append_nil]
  · exact List.append_nil _

theorem Visit.filterMap_expr?_inside (name : String) (vs : List Visit) :
    (inside name vs).filterMap expr? = vs.filterMap expr? := by
  rw [inside, List.filterMap_cons_none rfl, List.filterMap_append]
  exact List.append_nil _

theorem Visit.filterMap_expr?_test (c : Construct) (cond : Expr) (vs : List Visit) :
    (test c cond :: vs).filterMap expr? = cond :: vs.filterMap expr? := rfl

theorem Block.filterMap_expr?_visits (expected : Ty) (b : Block) :
    (b.visits expected).filterMap Visit.expr? = b.exprs := by
  induction b with
  | done => rfl
  | simple a rest ih =>
    rw [visits, List.filterMap_append, ih, exprs]
    rcases a with d | ⟨pos, x, e⟩ | ⟨pos, - | e⟩ | ⟨pos, e⟩
    · exact congrArg (· ++ rest.exprs) (d.filterMap_expr?_visits false)
    all_goals rfl
  | ifThen pos c t rest iht ih =>
    rw [visits, Visit.filterMap_expr?_test, List.filterMap_append, Visit.filterMap_expr?_inside,
      iht, ih, exprs]
  | ifElse pos c t e rest iht ihe ih =>
    rw [visits, Visit.filterMap_expr?_test, List.filterMap_append, List.filterMap_append,
      Visit.filterMap_expr?_inside, Visit.filterMap_expr?_inside, iht, ihe, ih, exprs,
      List.append_assoc]
  | loop pos c b rest ihb ih =>
    rw [visits, Visit.filterMap_expr?_test, List.filterMap_append, Visit.filterMap_expr?_inside,
      ihb, ih, exprs]

/-- The expressions of the visits are those of the program, in order. -/
theorem Program.filterMap_expr?_visits (entry : String) (p : Program) :
    (p.visits entry).filterMap Visit.expr? = p.exprs := by
  have hglobals (ds : List Declaration) :
      (ds.flatMap (Declaration.globalVisits p.function.name entry)).filterMap Visit.expr? =
        ds.flatMap Declaration.exprs := by
    rw [List.filterMap_flatMap]
    simp only [Declaration.filterMap_expr?_globalVisits]
  have hparams : (p.function.params.map Visit.param).filterMap Visit.expr? = [] := by
    rw [List.filterMap_map]
    exact List.filterMap_eq_nil_iff.2 fun q _ ↦ rfl
  have hreturns : (if p.function.lacksReturn then [Visit.noReturn p.function] else []).filterMap
      Visit.expr? = [] := by
    split <;> rfl
  rw [visits, List.filterMap_cons_none rfl, List.filterMap_append, hglobals, Function.visits,
    List.filterMap_cons_none rfl, Visit.filterMap_expr?_inside, List.filterMap_append,
    List.filterMap_append, hparams, hreturns, Block.filterMap_expr?_visits, List.nil_append,
    List.append_nil, exprs]

/-- What an expression is for. -/
inductive Purpose where
  /-- It is tested. -/
  | test
  /-- Its value is not used. -/
  | discard
  /-- It yields a value of a type, to be stored or returned. -/
  | yield (ty : Ty)
deriving DecidableEq, Repr

namespace Purpose

/-- The purpose is met by an expression of the type. -/
def Admits : Purpose → Ty → Prop
  | test, t => t = .bool
  | discard, _ => True
  | yield ty, t => t = ty

/-- The expression has a type that meets the purpose. -/
def Fits (u : Purpose) (env : Env) (e : Expr) : Prop := ∃ t, e.HasType env.types t ∧ u.Admits t

/-- Whether an expression of the type is evaluated for the purpose. -/
def accepts : Purpose → Ty → Bool
  | test, t => t.isBoolean
  | discard, t => !t.isError
  | yield ty, t => ty.compatible t

/-- The reports of the evaluation that the purpose asks for: of the constant parts alone, or with
what is known of variables. -/
def faults (env : Env) (e : Expr) : Purpose → List Diagnostic
  | test => e.constantPartFaults
  | discard => e.constantPartFaults
  | yield _ => e.valueFaults env

/-- What fits its purpose is evaluated, and nothing else is. -/
theorem accepts_iff {u : Purpose} {env : Env} (henv : env.Unmarked) {e : Expr} :
    u.accepts (e.type env) = true ↔ u.Fits env e := by
  have hfits : u.Fits env e ↔ e.type env ≠ .error ∧ u.Admits (e.type env) := by
    constructor
    · rintro ⟨t, ht, hadmits⟩
      rw [ht.type_eq]
      exact ⟨ht.ne_error henv, hadmits⟩
    · rintro ⟨hne, hadmits⟩
      exact ⟨_, (Expr.hasType_iff henv).2 ⟨rfl, hne⟩, hadmits⟩
  rw [hfits]
  rcases u with - | - | ty
  · cases e.type env <;> simp [accepts, Admits, Ty.isBoolean]
  · simp [accepts, Admits, Ty.isError]
  · rw [accepts, Ty.compatible_iff, Admits]
    constructor
    · rintro ⟨rfl, hne⟩
      exact ⟨hne, rfl⟩
    · rintro ⟨hne, rfl⟩
      exact ⟨rfl, hne⟩

end Purpose

/-- What the visit needs its expression for in the session, if it looks at one at all. -/
def Visit.purpose? (s : Session) : Visit → Option Purpose
  | declarator _ ty v =>
    if ty.isStorable && !s.scopes.containsLocal v.name then some (.yield ty) else none
  | assign _ x _ => (s.scopes.lookup? x).map fun target ↦ .yield target.ty
  | ret expected _ _ => some (.yield expected)
  | eval _ => some .discard
  | test _ _ => some .test
  | note _ => none
  | enter _ => none
  | exit => none
  | reserved _ => none
  | param _ => none
  | noReturn _ => none

/-! ### Reports -/

/-- Neither a division by zero nor a read before a store. -/
def Diagnostic.Plain (d : Diagnostic) : Prop :=
  match d.problem with
  | .divisionByZero => False
  | .usedUninitialized _ => False
  | _ => True

theorem Diagnostic.Plain.ite {d : Diagnostic} (h : d.Plain) (c : Prop) [Decidable c] :
    ∀ d' ∈ (if c then [d] else []), d'.Plain := by
  split
  · exact List.forall_mem_singleton.2 h
  · exact fun d' hd' ↦ absurd hd' List.not_mem_nil

theorem Session.exists_plain_report (s : Session) {d : Diagnostic} (h : d.Plain) :
    ∃ others, (∀ d ∈ others, d.Plain) ∧
      (s.report d).diagnostics = (s.reportAll others).diagnostics :=
  ⟨[d], List.forall_mem_singleton.2 h, rfl⟩

/-- What is reported on a new variable with an initializer. -/
theorem Declarator.diagnostics_analyze {isGlobal : Bool} {ty : Ty} {v : Declarator} {s : Session}
    {e : Expr} (hnew : s.scopes.containsLocal v.name = false) (he : v.init = some e) :
    (v.analyze isGlobal ty s).diagnostics =
      (s.reportAll (v.initFaults s.env isGlobal ty e)).diagnostics := by
  rw [analyze, hnew, if_neg Bool.false_ne_true, he]
  dsimp only
  split <;> rfl

namespace Visit

variable {s : Session} {a : Visit} {u : Purpose} {e : Expr}

/-- What is reported on a visit that looks at an expression. -/
theorem exists_reports (hu : a.purpose? s = some u) (he : a.expr? = some e) :
    ∃ others, (∀ d ∈ others, d.Plain) ∧
      (a.run s).diagnostics = (s.reportAll (e.typeFaults s.env ++ others ++
        if u.accepts (e.type s.env) then u.faults s.env e else [])).diagnostics := by
  rcases a with _ | _ | _ | ⟨isGlobal, ty, v⟩ | _ | _ | ⟨pos, x, d⟩ | ⟨expected, pos, value⟩ | d |
    ⟨c, d⟩ | _
  case declarator =>
    rw [purpose?] at hu
    split at hu
    · rename_i hnew
      obtain rfl := Option.some.inj hu
      obtain ⟨hty, hlocal⟩ := Bool.and_eq_true_iff.1 hnew
      rw [run, if_pos hty, Declarator.diagnostics_analyze (by simpa using hlocal) he,
        Declarator.initFaults, Expr.storeFaults, List.append_assoc (e.typeFaults s.env)]
      refine ⟨_, fun f hf ↦ ?_, rfl⟩
      exact (List.mem_append.1 hf).elim (.ite (by trivial) _ f) (.ite (by trivial) _ f)
    · exact absurd hu (by simp)
  case assign =>
    obtain rfl := Option.some.inj he
    obtain ⟨target, hx, rfl⟩ := Option.map_eq_some_iff.1 hu
    rw [run, Session.analyzeAssign, hx]
    exact ⟨_, .ite (by trivial) _, rfl⟩
  case ret =>
    obtain rfl : value = some e := he
    obtain rfl := Option.some.inj hu
    rw [run, Session.analyzeReturn]
    by_cases hc : expected.compatible (e.type s.env) = true
    · -- what is compatible does not bear the mark
      have herr : (e.type s.env).isError = false := by
        obtain ⟨htype, hne⟩ := Ty.compatible_iff.1 hc
        simpa [Ty.isError, htype] using hne
      refine ⟨[], List.forall_mem_nil _, ?_⟩
      rw [herr, if_neg Bool.false_ne_true, if_pos hc, Purpose.accepts, if_pos hc, List.append_nil,
        Session.reportAll_append]
      rfl
    · rw [if_neg hc, Purpose.accepts, if_neg hc]
      by_cases herr : (e.type s.env).isError = true
      · rw [if_pos herr]
        exact ⟨[], List.forall_mem_nil _, by rw [List.append_nil, List.append_nil]⟩
      · rw [if_neg herr]
        refine ⟨[⟨e.pos, .returnMismatch expected (e.type s.env)⟩],
          List.forall_mem_singleton.2 trivial, ?_⟩
        rw [List.append_nil, Session.reportAll_append]
        rfl
  case eval =>
    obtain rfl := Option.some.inj he
    obtain rfl := Option.some.inj hu
    refine ⟨[], List.forall_mem_nil _, ?_⟩
    rw [run, Purpose.accepts, List.append_nil]
    cases (d.type s.env).isError <;> rfl
  case test =>
    obtain rfl := Option.some.inj he
    obtain rfl := Option.some.inj hu
    rw [run, Session.checkCondition, Purpose.accepts]
    rcases htype : d.type s.env
    case bool => exact ⟨[], List.forall_mem_nil _, by rw [List.append_nil]; rfl⟩
    case error => exact ⟨[], List.forall_mem_nil _, by rw [List.append_nil]; rfl⟩
    all_goals
      refine ⟨[⟨d.pos, .conditionType c (d.type s.env)⟩], List.forall_mem_singleton.2 trivial, ?_⟩
      rw [htype, List.append_assoc]
      rfl
  all_goals exact absurd hu (by simp [purpose?])

/-- What is reported on any other visit. -/
theorem exists_reports_of_none (h : a.purpose? s = none ∨ a.expr? = none) :
    ∃ others, (∀ d ∈ others, d.Plain) ∧
      (a.run s).diagnostics = (s.reportAll others).diagnostics := by
  rcases a with _ | _ | _ | ⟨isGlobal, ty, v⟩ | v | p | ⟨pos, x, d⟩ | ⟨expected, pos, value⟩ | d |
    ⟨c, d⟩ | f
  case note => exact ⟨[], List.forall_mem_nil _, rfl⟩
  case enter => exact ⟨[], List.forall_mem_nil _, rfl⟩
  case exit => exact ⟨[], List.forall_mem_nil _, s.diagnostics_exit⟩
  case declarator =>
    rw [run]
    split
    · rw [Declarator.analyze]
      split
      · exact s.exists_plain_report (by trivial)
      · rename_i hty hlocal
        -- the visit looks at an initializer, so there is none
        have hinit : v.init = none := by
          refine h.resolve_left fun hnone ↦ ?_
          rw [purpose?, if_pos (by simpa [hty] using hlocal)] at hnone
          exact absurd hnone (by simp)
        rw [hinit]
        exact s.exists_plain_report (by trivial)
    · exact s.exists_plain_report (by trivial)
  case reserved => exact s.exists_plain_report (by trivial)
  case param =>
    rw [run, Param.analyze]
    split
    · split
      · exact s.exists_plain_report (by trivial)
      · exact ⟨[], List.forall_mem_nil _, rfl⟩
    · exact s.exists_plain_report (by trivial)
  case assign =>
    obtain hx | hx := h
    · rw [run, Session.analyzeAssign, Option.map_eq_none_iff.1 hx]
      exact s.exists_plain_report (by trivial)
    · exact absurd hx (by simp [expr?])
  case ret =>
    obtain hx | hx := h
    · exact absurd hx (by simp [purpose?])
    · obtain rfl : value = none := hx
      rw [run, Session.analyzeReturn]
      split
      · exact ⟨[], List.forall_mem_nil _, rfl⟩
      · exact s.exists_plain_report (by trivial)
  case eval => simp [purpose?, expr?] at h
  case test => simp [purpose?, expr?] at h
  case noReturn => exact s.exists_plain_report (by trivial)

/-- Visits keep symbols sound. -/
theorem sound_run (hs : s.scopes.Sound) (a : Visit) : (a.run s).scopes.Sound := by
  rcases a with e | name | - | ⟨isGlobal, ty, v⟩ | v | p | ⟨pos, x, e⟩ | ⟨expected, pos, value⟩ |
    e | ⟨c, cond⟩ | f
  case note => exact hs
  case enter => exact hs.enter name
  case exit =>
    rw [run, Session.scopes_exit]
    rcases he : s.scopes.exit? with - | t
    · exact hs
    · exact hs.exit? he
  case declarator =>
    rw [run]
    split
    · rename_i hty
      exact (v.extends_analyze isGlobal hty s).sound hs
    · exact hs
  case reserved => exact hs
  case param => exact (p.extends_analyze s).sound hs
  case assign => exact (s.extends_analyzeAssign pos x e).sound hs
  case ret => simpa [run] using hs
  case eval => simpa [run] using hs
  case test => simpa [run] using hs
  case noReturn => exact hs

end Visit

/-- At every point of an analysis the symbols in view are sound. -/
theorem Session.sound_follow {s : Session} (hs : s.scopes.Sound) (vs : List Visit) :
    (s.follow vs).scopes.Sound := by
  induction vs generalizing s with
  | nil => exact hs
  | cons a vs ih => exact ih (a.sound_run hs)

end BlockLang
