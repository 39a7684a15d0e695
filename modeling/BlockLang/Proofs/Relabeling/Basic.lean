import BlockLang.Analysis
import BlockLang.Proofs.Scope.Map

/-!
# Other names and other positions

A `Relabeling` gives every position and every name of a variable another one, distinct names to
distinct names. It acts on the text of a program and on all that the passes make of it: symbols,
scopes, diagnostics and the log. The name of a function is no name of a variable and stays, and so
do the names of scopes, which are made from it and from numbers.

Operations on scopes commute with relabelings: they compare names and do nothing else with them, and
for a comparison it is enough that distinct names stay distinct.
-/

namespace BlockLang

/-- A change of positions and of the names of variables that keeps distinct names distinct. -/
structure Relabeling where
  /-- The new position for a position. -/
  pos : Pos → Pos
  /-- The new name for a name. -/
  name : String → String
  /-- Distinct names stay distinct. -/
  injective : Function.Injective name

namespace Relabeling

/-- A change of positions only. -/
def ofPositions (ρ : Pos → Pos) : Relabeling := ⟨ρ, id, Function.injective_id⟩

/-- A change of names only. -/
def ofNames (σ : String → String) (hσ : Function.Injective σ) : Relabeling := ⟨id, σ, hσ⟩

@[simp] theorem name_inj (φ : Relabeling) {x y : String} : φ.name x = φ.name y ↔ x = y :=
  φ.injective.eq_iff

end Relabeling

variable (φ : Relabeling)

/-! ### Texts -/

/-- The expression with other names and positions. -/
def Expr.relabel : Expr → Expr
  | num pos v => num (φ.pos pos) v
  | bool pos b => bool (φ.pos pos) b
  | var pos x => var (φ.pos pos) (φ.name x)
  | not pos e => not (φ.pos pos) e.relabel
  | binary pos op l r => binary (φ.pos pos) op l.relabel r.relabel

/-- The variable with another name and position. -/
def Declarator.relabel (v : Declarator) : Declarator where
  name := φ.name v.name
  init := v.init.map (Expr.relabel φ)
  pos := φ.pos v.pos

/-- The declaration with other names and positions. -/
def Declaration.relabel (d : Declaration) : Declaration where
  ty := d.ty
  vars := d.vars.map (Declarator.relabel φ)
  pos := φ.pos d.pos

/-- The statement with other names and positions. -/
def Simple.relabel : Simple → Simple
  | declare d => declare (d.relabel φ)
  | assign pos x e => assign (φ.pos pos) (φ.name x) (e.relabel φ)
  | ret pos value => ret (φ.pos pos) (value.map (Expr.relabel φ))
  | eval pos e => eval (φ.pos pos) (e.relabel φ)

/-- The block with other names and positions. -/
def Block.relabel : Block → Block
  | done => done
  | simple a rest => simple (a.relabel φ) rest.relabel
  | ifThen pos c t rest => ifThen (φ.pos pos) (c.relabel φ) t.relabel rest.relabel
  | ifElse pos c t e rest => ifElse (φ.pos pos) (c.relabel φ) t.relabel e.relabel rest.relabel
  | loop pos c b rest => loop (φ.pos pos) (c.relabel φ) b.relabel rest.relabel

/-- The parameter with another name and position. -/
def Param.relabel (p : Param) : Param := ⟨p.ty, φ.name p.name, φ.pos p.pos⟩

/-- The function with other names of variables and other positions. -/
def Function.relabel (f : Function) : Function where
  returnTy := f.returnTy
  name := f.name
  params := f.params.map (Param.relabel φ)
  body := f.body.relabel φ
  pos := φ.pos f.pos

/-- The program with other names of variables and other positions. -/
def Program.relabel (p : Program) : Program where
  globals := p.globals.map (Declaration.relabel φ)
  function := p.function.relabel φ

/-! ### Symbols and scopes -/

/-- The symbol with another name and position. -/
def Symbol.relabel (s : Symbol) : Symbol := { s with name := φ.name s.name, pos := φ.pos s.pos }

/-- The table with other names and positions. -/
def SymbolTable.relabel (T : SymbolTable) : SymbolTable :=
  ⟨T.entries.map fun e ↦ (φ.name e.1, e.2.relabel φ)⟩

/-- The scope with other names and positions of its symbols. -/
def Scope.relabel (s : Scope) : Scope := { s with symbols := s.symbols.relabel φ }

/-- The tree with other names and positions of the symbols in it. -/
def ScopeTree.relabel (t : ScopeTree) : ScopeTree := t.map (Scope.relabel φ)

namespace SymbolTable

theorem get?_relabel (T : SymbolTable) (x : String) :
    (T.relabel φ).get? (φ.name x) = (T.get? x).map (Symbol.relabel φ) := by
  show (T.entries.map fun e ↦ (φ.name e.1, e.2.relabel φ)).lookup (φ.name x) = _
  rw [get?]
  induction T.entries with
  | nil => rfl
  | cons e es ih =>
    obtain ⟨y, s⟩ := e
    rw [List.map_cons, List.lookup_cons, List.lookup_cons, ih]
    -- the other names of `x` and `y` are equal only if these are
    by_cases hy : x = y
    · simp [hy]
    · simp [hy, beq_false_of_ne]

theorem contains_relabel (T : SymbolTable) (x : String) :
    (T.relabel φ).contains (φ.name x) = T.contains x := by
  rw [contains, get?_relabel, Option.isSome_map, contains]

theorem push_relabel (T : SymbolTable) (x : String) (s : Symbol) :
    (T.push x s).relabel φ = (T.relabel φ).push (φ.name x) (s.relabel φ) := by
  rw [push, relabel, List.map_append]
  rfl

theorem modify_relabel {f : Symbol → Symbol} (hf : ∀ s, (f s).relabel φ = f (s.relabel φ))
    (T : SymbolTable) (x : String) :
    (T.modify x f).relabel φ = (T.relabel φ).modify (φ.name x) f := by
  rw [modify, modify, relabel, relabel, List.map_map, List.map_map]
  refine congrArg mk (List.map_congr_left fun e _ ↦ ?_)
  by_cases hx : e.1 = x
  · simp [hx, hf]
  · simp [hx]

end SymbolTable

namespace ScopeTree

theorem keepsVisits_relabel : Scope.KeepsVisits (Scope.relabel φ) := fun _ _ ↦ rfl

theorem enter_relabel (t : ScopeTree) (name : String) :
    (t.relabel φ).enter name = (t.enter name).relabel φ :=
  enter_map (fun _ _ ↦ rfl) t name

theorem exit?_relabel (t : ScopeTree) : (t.relabel φ).exit? = t.exit?.map (relabel φ) :=
  exit?_map _ t

theorem descend?_relabel (t : ScopeTree) : (t.relabel φ).descend? = t.descend?.map (relabel φ) :=
  descend?_map (keepsVisits_relabel φ) t

theorem rewind_relabel (t : ScopeTree) : (t.relabel φ).rewind = t.rewind.relabel φ :=
  rewind_map (keepsVisits_relabel φ) t

theorem lookup?_relabel (t : ScopeTree) (x : String) :
    (t.relabel φ).lookup? (φ.name x) = (t.lookup? x).map (Symbol.relabel φ) := by
  rw [lookup?, relabel, chain_map, List.findSome?_map, lookup?, List.map_findSome?]
  refine congrArg (t.chain.findSome? ·) (funext fun s ↦ ?_)
  exact s.symbols.get?_relabel φ x

theorem containsLocal_relabel (t : ScopeTree) (x : String) :
    (t.relabel φ).containsLocal (φ.name x) = t.containsLocal x :=
  t.here.symbols.contains_relabel φ x

theorem declare?_relabel (t : ScopeTree) (x : String) (ty : Ty) (value : Option Value)
    (pos : Pos) :
    (t.relabel φ).declare? (φ.name x) ty value (φ.pos pos) =
      (t.declare? x ty value pos).map (relabel φ) := by
  rw [declare?, declare?, containsLocal_relabel]
  split
  · rfl
  · have hpush := t.here.symbols.push_relabel φ x
      { name := x, ty, value, initialized := value.isSome, pos, owner := t.here.name }
    exact congrArg (fun T ↦ some { t.relabel φ with here := { t.here with symbols := T } })
      hpush.symm

theorem modifyHere_relabel {f : Symbol → Symbol} (hf : ∀ s, (f s).relabel φ = f (s.relabel φ))
    (t : ScopeTree) (x : String) :
    (t.relabel φ).modifyHere (φ.name x) f = (t.modifyHere x f).relabel φ := by
  rw [modifyHere, modifyHere, relabel, relabel, map, map, Scope.relabel, Scope.relabel,
    SymbolTable.modify_relabel φ hf]

private theorem modifyOuter_relabel {f : Symbol → Symbol}
    (hf : ∀ s, (f s).relabel φ = f (s.relabel φ)) (x : String) (es : List Enclosing) :
    modifyOuter (φ.name x) f (es.map (Enclosing.map (Scope.relabel φ))) =
      (modifyOuter x f es).map (List.map (Enclosing.map (Scope.relabel φ))) := by
  induction es with
  | nil => rfl
  | cons e es ih =>
    have hcontains : (e.map (Scope.relabel φ)).scope.symbols.contains (φ.name x) =
        e.scope.symbols.contains x := e.scope.symbols.contains_relabel φ x
    rw [List.map_cons, modifyOuter, modifyOuter, hcontains]
    split
    · rw [Option.map_some, List.map_cons, Enclosing.map, Enclosing.map, Scope.relabel,
        Scope.relabel, SymbolTable.modify_relabel φ hf]
    · rw [ih, Option.map_map, Option.map_map]
      rfl

theorem modify?_relabel {f : Symbol → Symbol} (hf : ∀ s, (f s).relabel φ = f (s.relabel φ))
    (t : ScopeTree) (x : String) :
    (t.relabel φ).modify? (φ.name x) f = (t.modify? x f).map (relabel φ) := by
  rw [modify?, modify?, containsLocal_relabel]
  split
  · rw [modifyHere_relabel φ hf]
    rfl
  · have houter := modifyOuter_relabel φ hf x t.outer
    rw [Option.map_map]
    show (modifyOuter (φ.name x) f (t.outer.map (Enclosing.map (Scope.relabel φ)))).map _ = _
    rw [houter, Option.map_map]
    rfl

theorem assign?_relabel (t : ScopeTree) (x : String) (value : Option Value) :
    (t.relabel φ).assign? (φ.name x) value = (t.assign? x value).map (relabel φ) :=
  modify?_relabel φ (f := Symbol.assign value) (fun _ ↦ rfl) t x

theorem place?_relabel (t : ScopeTree) (x : String) (storage : Storage) :
    (t.relabel φ).place? (φ.name x) storage = (t.place? x storage).map (relabel φ) := by
  rw [place?, place?, containsLocal_relabel,
    modifyHere_relabel φ (f := Symbol.place storage) fun _ ↦ rfl]
  split <;> rfl

end ScopeTree

/-! ### Diagnostics and sessions -/

/-- The failure with another name and position. -/
def LoweringError.relabel : LoweringError → LoweringError
  | unresolvedSymbol x pos => unresolvedSymbol (φ.name x) (φ.pos pos)
  | missingStorage x pos => missingStorage (φ.name x) (φ.pos pos)
  | missingScope pos => missingScope (φ.pos pos)
  | unbalancedScope pos => unbalancedScope (φ.pos pos)

/-- The problem with other names of variables. -/
def Problem.relabel : Problem → Problem
  | external c m => external c m
  | undeclared x => undeclared (φ.name x)
  | redeclared x => redeclared (φ.name x)
  | redeclaredParam x => redeclaredParam (φ.name x)
  | unstorable x t => unstorable (φ.name x) t
  | unstorableParam x t => unstorableParam (φ.name x) t
  | noInitializer x => noInitializer (φ.name x)
  | usedUninitialized x => usedUninitialized (φ.name x)
  | assignMismatch x target found => assignMismatch (φ.name x) target found
  | globalNotConstant x => globalNotConstant (φ.name x)
  | reservedGlobal x => reservedGlobal (φ.name x)
  | conditionType c found => conditionType c found
  | returnMismatch expected found => returnMismatch expected found
  | noReturnValue expected => noReturnValue expected
  | noReturn f t => noReturn f t
  | operands op q l r => operands op q l r
  | notOperand q t => notOperand q t
  | divisionByZero => divisionByZero
  | unknownValue x => unknownValue (φ.name x)
  | lowering e => lowering (e.relabel φ)

/-- The diagnostic with other names and at another position. -/
def Diagnostic.relabel (d : Diagnostic) : Diagnostic := ⟨φ.pos d.pos, d.problem.relabel φ⟩

/-- The diagnostics with other names and at other positions. -/
def Diagnostics.relabel (ds : Diagnostics) : Diagnostics where
  errors := ds.errors.map (Diagnostic.relabel φ)
  warnings := ds.warnings.map (Diagnostic.relabel φ)

/-- The record with other names and positions. -/
def Event.relabel : Event → Event
  | foundError d => foundError (d.relabel φ)
  | foundWarning d => foundWarning (d.relabel φ)
  | enteredScope name level => enteredScope name level
  | exitedScope name => exitedScope name
  | replayedScope name => replayedScope name
  | analysisStarted => analysisStarted
  | analyzing f t => analyzing f t
  | declared x t => declared (φ.name x) t
  | initialized x t v => initialized (φ.name x) t v
  | returned t v => returned t v
  | analysisFinished m => analysisFinished m
  | generationSkipped m => generationSkipped m
  | generationStarted => generationStarted
  | framed f n => framed f n
  | generationFinished n => generationFinished n

/-- The session with other names and positions. -/
def Session.relabel (s : Session) : Session where
  scopes := s.scopes.relabel φ
  diagnostics := s.diagnostics.relabel φ
  log := s.log.map (Event.relabel φ)

/-- The category of a problem has nothing to do with names. -/
@[simp] theorem Diagnostic.category_relabel (d : Diagnostic) :
    (d.relabel φ).category = d.category := by
  obtain ⟨pos, problem⟩ := d
  rcases problem <;> rfl

theorem Diagnostics.report_relabel (ds : Diagnostics) (d : Diagnostic) :
    (ds.relabel φ).report (d.relabel φ) = (ds.report d).relabel φ := by
  rw [report, report, Diagnostic.category_relabel]
  split
  · simp [addWarning, relabel]
  · simp [addError, relabel]

@[simp] theorem Diagnostics.summary_relabel (ds : Diagnostics) :
    (ds.relabel φ).summary = ds.summary := by
  simp [summary, relabel]

namespace Session

@[simp] theorem relabel_note (s : Session) (e : Event) :
    (s.note e).relabel φ = (s.relabel φ).note (e.relabel φ) := by
  rw [note, note, relabel, List.map_append]
  rfl

@[simp] theorem relabel_report (s : Session) (d : Diagnostic) :
    (s.report d).relabel φ = (s.relabel φ).report (d.relabel φ) := by
  rw [report, report, relabel_note, Diagnostic.category_relabel]
  have hevent : Event.relabel φ (if d.category = .warning then .foundWarning d else .foundError d) =
      if d.category = .warning then .foundWarning (d.relabel φ) else .foundError (d.relabel φ) := by
    split <;> rfl
  have hreport : relabel φ { s with diagnostics := s.diagnostics.report d } =
      { s.relabel φ with diagnostics := (s.relabel φ).diagnostics.report (d.relabel φ) } :=
    congrArg (Session.mk (s.scopes.relabel φ) · (s.log.map (Event.relabel φ)))
      (s.diagnostics.report_relabel φ d).symm
  rw [hevent, hreport]

@[simp] theorem relabel_reportAll (s : Session) (ds : List Diagnostic) :
    (s.reportAll ds).relabel φ = (s.relabel φ).reportAll (ds.map (Diagnostic.relabel φ)) := by
  induction ds generalizing s with
  | nil => rfl
  | cons d ds ih =>
    show ((s.report d).reportAll ds).relabel φ = _
    rw [ih, relabel_report]
    rfl

@[simp] theorem relabel_enter (s : Session) (name : String) :
    (s.enter name).relabel φ = (s.relabel φ).enter name := by
  have hscopes : (s.relabel φ).scopes.enter name = (s.scopes.enter name).relabel φ :=
    s.scopes.enter_relabel φ name
  rw [enter, enter, relabel_note, hscopes, ScopeTree.relabel, ScopeTree.level_map]
  rfl

@[simp] theorem relabel_exit (s : Session) : s.exit.relabel φ = (s.relabel φ).exit := by
  have hscopes : (s.relabel φ).scopes.exit? = s.scopes.exit?.map (ScopeTree.relabel φ) :=
    s.scopes.exit?_relabel φ
  rw [exit, exit, exit?, exit?, hscopes]
  rcases s.scopes.exit? with - | t
  · rfl
  · exact relabel_note φ _ _

@[simp] theorem relabel_declare (s : Session) (x : String) (ty : Ty) (value : Option Value)
    (pos : Pos) :
    (s.declare x ty value pos).relabel φ =
      (s.relabel φ).declare (φ.name x) ty value (φ.pos pos) := by
  have hscopes : (s.relabel φ).scopes.declare? (φ.name x) ty value (φ.pos pos) =
      (s.scopes.declare? x ty value pos).map (ScopeTree.relabel φ) :=
    s.scopes.declare?_relabel φ x ty value pos
  rw [declare, declare, hscopes]
  rcases s.scopes.declare? x ty value pos with - | t <;> rfl

@[simp] theorem relabel_assign (s : Session) (x : String) (value : Option Value) :
    (s.assign x value).relabel φ = (s.relabel φ).assign (φ.name x) value := by
  have hscopes : (s.relabel φ).scopes.assign? (φ.name x) value =
      (s.scopes.assign? x value).map (ScopeTree.relabel φ) :=
    s.scopes.assign?_relabel φ x value
  rw [assign, assign, hscopes]
  rcases s.scopes.assign? x value with - | t <;> rfl

end Session

end BlockLang
