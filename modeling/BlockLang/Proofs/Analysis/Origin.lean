import BlockLang.Proofs.Analysis.Programs

/-!
# Where diagnostics come from

A failure of code generation has a diagnostic of its own (`Problem.lowering`). No analysis records
one, whatever the program: each list of faults is free of it, and so is each step that records such
lists. One lemma for each function that reports, in the order in which the analysis calls them.
-/

namespace BlockLang

/-- None of the diagnostics is on a failure of code generation. -/
def Native (ds : List Diagnostic) : Prop := ∀ d ∈ ds, ∀ e, d.problem ≠ .lowering e

@[simp] theorem native_nil : Native [] := fun _ h ↦ absurd h List.not_mem_nil

/-- Lists of faults are put together by appending, so this is all that each function needs. -/
@[simp] theorem native_append {ds es : List Diagnostic} :
    Native (ds ++ es) ↔ Native ds ∧ Native es := by
  simp [Native, or_imp, forall_and]

/-- For a diagnostic at hand it is decided by its problem. -/
@[simp] theorem native_singleton {d : Diagnostic} : Native [d] ↔ ∀ e, d.problem ≠ .lowering e := by
  simp [Native]

/-! ### Faults of expressions -/

/-- An operator reports types that do not fit and divisions by zero. -/
theorem BinaryOp.native_combineFaults (op : BinaryOp) (pos : Pos) (c : Bool)
    (a b : Option Value) : Native (op.combineFaults pos c a b) := by
  unfold combineFaults
  split
  · exact native_nil
  · split
    · unfold applyFaults
      split
      · simp
      · split <;> simp
    · exact native_nil
    · exact native_nil

namespace Expr

/-- Inference reports undeclared variables, reads before a store, and operands that do not fit. -/
theorem native_typeFaults (env : Env) (e : Expr) : Native (e.typeFaults env) := by
  induction e with
  | num p v => exact native_nil
  | bool p b => exact native_nil
  | var p x =>
    rw [typeFaults]
    split
    · simp
    · split <;> simp
  | not p e ih =>
    rw [typeFaults, native_append]
    refine ⟨ih, ?_⟩
    split <;> simp
  | binary p op l r ihl ihr =>
    rw [typeFaults, native_append, native_append]
    refine ⟨⟨ihl, ihr⟩, ?_⟩
    split <;> simp

/-- Evaluation reports variables without a known value, and what operators report. -/
theorem native_valueFaults (env : Env) (e : Expr) : Native (e.valueFaults env) := by
  induction e with
  | num p v => exact native_nil
  | bool p b => exact native_nil
  | var p x =>
    rw [valueFaults]
    split
    · exact native_nil
    · split <;> simp
  | not p e ih =>
    rw [valueFaults, native_append]
    refine ⟨ih, ?_⟩
    rcases e.value env with - | v
    · exact native_nil
    · cases v <;> simp [Value.notFaults]
  | binary p op l r ihl ihr =>
    rw [valueFaults, native_append, native_append]
    exact ⟨⟨ihl, ihr⟩, op.native_combineFaults _ _ _ _⟩

theorem native_constantFaults (e : Expr) : Native e.constantFaults := by
  rw [constantFaults]
  split
  · exact e.native_valueFaults _
  · exact native_nil

/-- The faults of constant parts are reports of evaluations. -/
theorem native_constantPartFaults (e : Expr) : Native e.constantPartFaults := by
  induction e with
  | num p v => exact native_nil
  | bool p b => exact native_nil
  | var p x => exact native_nil
  | not p e ih =>
    rw [constantPartFaults]
    split
    · exact native_constantFaults _
    · exact ih
  | binary p op l r ihl ihr =>
    rw [constantPartFaults]
    split
    · exact native_constantFaults _
    · exact native_append.2 ⟨ihl, ihr⟩

/-- A store adds the mismatch with the type of its target. -/
theorem native_storeFaults (env : Env) (pos : Pos) (x : String) (target : Ty) (e : Expr) :
    Native (e.storeFaults env pos x target) := by
  rw [storeFaults, native_append]
  refine ⟨e.native_typeFaults env, ?_⟩
  split <;> simp

/-- The value of a store is evaluated if its type is that of the target. -/
theorem native_storedValueFaults (env : Env) (target : Ty) (e : Expr) :
    Native (e.storedValueFaults env target) := by
  rw [storedValueFaults]
  split
  · exact e.native_valueFaults env
  · exact native_nil

end Expr

/-! ### Sessions -/

namespace Session

/-- None of the diagnostics recorded so far is on a failure of code generation. -/
def Native (s : Session) : Prop :=
  BlockLang.Native s.diagnostics.errors ∧ BlockLang.Native s.diagnostics.warnings

/-- What changes only scopes and the log records nothing. -/
theorem Native.of_eq {s s' : Session} (hs : s.Native) (h : s'.diagnostics = s.diagnostics) :
    s'.Native := by
  rw [Native, h]
  exact hs

/-- A report is an error or a warning, and joins one of the two lists. -/
theorem Native.report {s : Session} (hs : s.Native) {d : Diagnostic}
    (hd : ∀ e, d.problem ≠ .lowering e) : (s.report d).Native := by
  show BlockLang.Native (s.diagnostics.report d).errors ∧
    BlockLang.Native (s.diagnostics.report d).warnings
  rw [Diagnostics.report]
  split
  · exact ⟨hs.1, native_append.2 ⟨hs.2, native_singleton.2 hd⟩⟩
  · exact ⟨native_append.2 ⟨hs.1, native_singleton.2 hd⟩, hs.2⟩

/-- The step that every other one is reduced to. -/
theorem Native.reportAll {s : Session} (hs : s.Native) {ds : List Diagnostic}
    (hds : BlockLang.Native ds) : (s.reportAll ds).Native := by
  induction ds generalizing s with
  | nil => exact hs
  | cons d ds ih =>
    have hhead : ∀ e, d.problem ≠ .lowering e := hds d List.mem_cons_self
    exact ih (hs.report hhead) fun d' hd' ↦ hds d' (List.mem_cons_of_mem _ hd')

theorem Native.enter {s : Session} (hs : s.Native) (name : String) : (s.enter name).Native := hs

/-- Leaving a scope is no report. -/
theorem Native.exit {s : Session} (hs : s.Native) : s.exit.Native := hs.of_eq s.diagnostics_exit

/-- A condition may have a type that is not that of conditions. -/
theorem Native.checkCondition {s : Session} (hs : s.Native) (c : Construct) (cond : Expr) :
    (s.checkCondition c cond).Native := by
  refine hs.reportAll (native_append.2 ⟨cond.native_typeFaults _, ?_⟩)
  split
  · exact native_nil
  · split
    · exact cond.native_constantPartFaults
    · simp

/-- The target of an assignment may be undeclared. -/
theorem Native.analyzeAssign {s : Session} (hs : s.Native) (pos : Pos) (x : String) (e : Expr) :
    (s.analyzeAssign pos x e).Native := by
  rw [Session.analyzeAssign]
  split
  · exact hs.report (by simp)
  · rename_i sym _
    have hreport := hs.reportAll (native_append.2
      ⟨e.native_storeFaults s.env pos x sym.ty, e.native_storedValueFaults s.env sym.ty⟩)
    exact hreport.of_eq rfl

/-- A return may lack a value or have one of another type. -/
theorem Native.analyzeReturn {s : Session} (hs : s.Native) (expected : Ty) (pos : Pos)
    (value : Option Expr) : (s.analyzeReturn expected pos value).Native := by
  cases value with
  | none =>
    rw [Session.analyzeReturn]
    split
    · exact hs
    · exact hs.report (by simp)
  | some e =>
    have htyped := hs.reportAll (e.native_typeFaults s.env)
    rw [Session.analyzeReturn]
    split
    · exact htyped
    · split
      · exact (htyped.reportAll (e.native_valueFaults s.env)).of_eq rfl
      · exact htyped.report (by simp)

end Session

/-! ### Declarations and statements -/

/-- A name may be declared twice, and an initializer of a global variable may be no constant. -/
theorem Declarator.native_analyze (isGlobal : Bool) (ty : Ty) (v : Declarator) {s : Session}
    (hs : s.Native) : (v.analyze isGlobal ty s).Native := by
  rw [analyze]
  split
  · exact hs.report (by simp)
  · split
    · exact Session.Native.report (hs.of_eq rfl) (by simp)
    · rename_i e _
      have hreported : (s.reportAll (v.initFaults s.env isGlobal ty e)).Native := by
        refine hs.reportAll (native_append.2 ⟨native_append.2 ⟨e.native_storeFaults _ _ _ _, ?_⟩,
          e.native_storedValueFaults _ _⟩)
        split <;> simp
      refine hreported.of_eq ?_
      dsimp only
      split <;> rfl

/-- A type that cannot be stored is reported once for each variable. -/
theorem Declaration.native_analyze (isGlobal : Bool) (d : Declaration) {s : Session}
    (hs : s.Native) : (d.analyze isGlobal s).Native := by
  rw [analyze]
  split
  · generalize d.vars = vs
    induction vs generalizing s with
    | nil => exact hs
    | cons v vs ih => exact ih (v.native_analyze isGlobal d.ty hs)
  · refine hs.reportAll fun fault hfault ↦ ?_
    obtain ⟨v, -, rfl⟩ := List.mem_map.1 hfault
    simp

/-- The same for a parameter. -/
theorem Param.native_analyze (p : Param) {s : Session} (hs : s.Native) : (p.analyze s).Native := by
  rw [analyze]
  split
  · split
    · exact hs.report (by simp)
    · exact hs.of_eq rfl
  · exact hs.report (by simp)

theorem native_analyzeParams (ps : List Param) {s : Session} (hs : s.Native) :
    (analyzeParams ps s).Native := by
  induction ps generalizing s with
  | nil => exact hs
  | cons p ps ih => exact ih (p.native_analyze hs)

theorem Simple.native_analyze (result : Ty) (a : Simple) {s : Session} (hs : s.Native) :
    (a.analyze result s).Native := by
  cases a with
  | declare d => exact d.native_analyze false hs
  | assign pos x e => exact hs.analyzeAssign pos x e
  | ret pos value => exact hs.analyzeReturn result pos value
  | eval pos e =>
    refine hs.reportAll (native_append.2 ⟨e.native_typeFaults _, ?_⟩)
    split
    · exact native_nil
    · exact e.native_constantPartFaults

/-- Blocks in scopes of their own report into the same session. -/
theorem Block.native_analyze (result : Ty) (b : Block) {s : Session} (hs : s.Native) :
    (b.analyze result s).Native := by
  induction b generalizing s with
  | done => exact hs
  | simple a rest ih => exact ih (a.native_analyze result hs)
  | ifThen pos c t rest iht ih => exact ih (iht ((hs.checkCondition .cond c).enter "if_then")).exit
  | ifElse pos c t e rest iht ihe ih =>
    have ht := (iht ((hs.checkCondition .cond c).enter "if_then")).exit
    exact ih (ihe (ht.enter "if_else")).exit
  | loop pos c b rest ihb ih => exact ih (ihb ((hs.checkCondition .loop c).enter "while_body")).exit

/-! ### Programs -/

/-- At the end of a function a missing return may be reported. -/
theorem Function.native_analyze (f : Function) {s : Session} (hs : s.Native) :
    (f.analyze s).Native := by
  have hbody : (f.bodyEnd s).Native :=
    f.body.native_analyze _ (native_analyzeParams f.params (hs.of_eq rfl))
  rw [f.analyze_eq]
  split
  · exact (hbody.report (by simp)).exit
  · exact hbody.exit

/-- After each global declaration reserved names are reported. -/
theorem native_analyzeGlobals (function entry : String) (ds : List Declaration) {s : Session}
    (hs : s.Native) : (analyzeGlobals function entry ds s).Native := by
  induction ds generalizing s with
  | nil => exact hs
  | cons d ds ih =>
    refine ih ((d.native_analyze true hs).reportAll ?_)
    rw [Declaration.reservedFaults]
    split
    · intro fault hfault
      obtain ⟨v, -, rfl⟩ := List.mem_map.1 hfault
      simp
    · exact native_nil

/-- An analysis records no failure of code generation. -/
theorem Program.native_analyze (entry : String) (p : Program) : (p.analyze entry {}).Native := by
  have hglobals : (p.globalEnd entry).Native :=
    native_analyzeGlobals p.function.name entry p.globals ⟨native_nil, native_nil⟩
  exact (p.function.native_analyze hglobals).of_eq (p.diagnostics_analyze entry)

end BlockLang
