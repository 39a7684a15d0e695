import BlockLang.Proofs.Analysis.Trace
import BlockLang.Proofs.Lowering.Totality
import BlockLang.Proofs.Scope.Numbering

/-!
# Tracked values along an analysis

Typing and evaluation are two disciplines: one computes types from declarations, the other tags
values and refuses those with the wrong tag. They meet in the values that an analysis tracks for
variables, which it goes on changing after a mistake.

The invariant is on all symbols of all scopes (`ScopeTree.Tracked`): a tracked value has the type of
its symbol, and the symbol counts as initialized. A step keeps it if it is `Admissible`, that is, if
what it stores fits, and a step that evaluates an expression is one only if the expression has a
type. All steps of an analysis are admissible where they are taken, errors or not
(`Program.admits_steps`). So at every point evaluation finds values of the types inferred, and the
errors of types in a compilation are those of the analysis itself (`Program.tracked_steps`).
-/

namespace BlockLang

/-! ### Symbols and scopes -/

/-- What an analysis knows of every symbol. -/
structure Symbol.Tracked (s : Symbol) : Prop where
  /-- The value tracked for the symbol has its type. -/
  wellTyped : s.WellTyped
  /-- A symbol with a value counts as initialized. -/
  initialized : ∀ v, s.value = some v → s.initialized = true

/-- What an analysis knows of every scope. -/
structure Scope.Tracked (s : Scope) : Prop where
  /-- The scope owns its symbols, so a name finds all of them that bear it. -/
  owned : s.symbols.Owned s.name
  /-- The symbols are tracked. -/
  symbols : ∀ e ∈ s.symbols.entries, e.2.Tracked

/-- In a table with distinct names, each symbol is found under its name. -/
theorem SymbolTable.get?_of_mem {T : SymbolTable} (hnodup : T.names.Nodup)
    {e : String × Symbol} (he : e ∈ T.entries) : T.get? e.1 = some e.2 := by
  obtain ⟨es, es', hsplit⟩ := List.append_of_mem he
  rw [names, hsplit, List.map_append, List.map_cons, List.nodup_middle, List.nodup_cons] at hnodup
  refine List.lookup_eq_some_iff.2 ⟨es, es', hsplit, fun p hp ↦ ?_⟩
  rw [bne_iff_ne]
  intro hx
  exact hnodup.1 (List.mem_append_left _ (hx ▸ List.mem_map_of_mem hp))

namespace Scope.Tracked

theorem blank (n : Nat) (name : String) : Scope.Tracked { id := n, name } :=
  ⟨SymbolTable.owned_empty name, fun _ he ↦ absurd he List.not_mem_nil⟩

theorem get? {s : Scope} (h : s.Tracked) {x : String} {sym : Symbol}
    (hx : s.symbols.get? x = some sym) : sym.Tracked := by
  obtain ⟨es, es', hsplit⟩ := SymbolTable.exists_split hx
  exact h.symbols (x, sym) (hsplit ▸ List.mem_append_right _ List.mem_cons_self)

theorem push {s : Scope} (h : s.Tracked) {x : String} {sym : Symbol}
    (hx : s.symbols.get? x = none) (hname : sym.name = x) (howner : sym.owner = s.name)
    (hsym : sym.Tracked) : Scope.Tracked { s with symbols := s.symbols.push x sym } := by
  refine ⟨h.owned.push hx hname howner, fun e he ↦ ?_⟩
  rcases List.mem_append.1 he with he | he
  · exact h.symbols e he
  · obtain rfl := List.mem_singleton.1 he
    exact hsym

theorem assign {s : Scope} (h : s.Tracked) {x : String} {value : Option Value}
    (hvalue : ∀ sym v, s.symbols.get? x = some sym → value = some v → v.ty = sym.ty) :
    Scope.Tracked { s with symbols := s.symbols.modify x (Symbol.assign value) } := by
  refine ⟨h.owned.modify x fun _ ↦ ⟨rfl, rfl⟩, fun e' he' ↦ ?_⟩
  obtain ⟨e, he, rfl⟩ := List.mem_map.1 he'
  have hold : e.2.Tracked := h.symbols e he
  by_cases hx : e.1 = x
  · subst hx
    have hget := SymbolTable.get?_of_mem h.owned.nodup he
    rw [if_pos rfl]
    exact ⟨⟨hold.wellTyped.1, fun v hv ↦ hvalue e.2 v hget hv⟩, fun _ _ ↦ rfl⟩
  · rw [if_neg hx]
    exact hold

end Scope.Tracked

/-! ### Scope trees -/

namespace ScopeTree

variable {t t' : ScopeTree}

/-- All symbols of all scopes are tracked. -/
def Tracked (t : ScopeTree) : Prop := ∀ r ∈ t.infos, r.scope.Tracked

theorem tracked_empty : empty.Tracked := forall_infos_empty (.blank 0 "global")

theorem Tracked.enter (h : t.Tracked) (name : String) : (t.enter name).Tracked :=
  forall_infos_enter h (.blank _ _)

theorem Tracked.exit? (h : t.Tracked) (he : t.exit? = some t') : t'.Tracked := by
  rw [Tracked, (infos_exit? he).1]
  exact h

theorem Tracked.declare? (h : t.Tracked) {x : String} {ty : Ty} {value : Option Value} {pos : Pos}
    (hty : ty.isStorable) (hvalue : ∀ v, value = some v → v.ty = ty)
    (hd : t.declare? x ty value pos = some t') : t'.Tracked := by
  have hnew : t.here.symbols.get? x = none :=
    (t.here.symbols.contains_eq_false_iff x).1 (containsLocal_of_declare? hd)
  refine (edits_declare? hd).forall_infos h fun hs ↦ hs.push hnew rfl rfl ⟨⟨hty, hvalue⟩, ?_⟩
  rintro v hv
  show value.isSome = true
  rw [show value = some v from hv, Option.isSome_some]

/-- An assignment changes the symbol that its name finds, so the value has to fit that one. -/
theorem Tracked.assign? (h : t.Tracked) {x : String} {value : Option Value}
    (hvalue : ∀ sym v, t.lookup? x = some sym → value = some v → v.ty = sym.ty)
    (ha : t.assign? x value = some t') : t'.Tracked := by
  obtain ⟨r, hedit, sym, hsym, hbinding⟩ := edits_nearest ha
  have hget : r.scope.symbols.get? x = t.lookup? x := by
    rw [t.lookup?_eq_binding?, hbinding, hsym]
    rfl
  exact hedit.forall_infos h fun hs ↦ hs.assign (hget ▸ hvalue)

/-- What is visible is tracked. -/
theorem Tracked.lookup? (h : t.Tracked) {x : String} {sym : Symbol}
    (hx : t.lookup? x = some sym) : sym.Tracked := by
  obtain ⟨s, hs, hget⟩ := List.exists_of_findSome?_eq_some hx
  obtain ⟨r, hr, rfl⟩ := exists_info_of_mem_chain hs
  exact (h r hr).get? hget

theorem Tracked.env_wellTyped {s : Session} (h : s.scopes.Tracked) : s.env.WellTyped :=
  fun _ _ hx ↦ (h.lookup? hx).wellTyped

end ScopeTree

/-! ### Evaluation of typed expressions -/

namespace Expr

/-- The constant parts of a typed expression have types. -/
theorem HasType.exists_of_mem_constantParts {Γ : String → Option Ty} {e part : Expr} {t : Ty}
    (h : HasType Γ e t) (hpart : part ∈ e.constantParts) : ∃ t', HasType Γ part t' := by
  induction h with
  | num p v =>
    obtain rfl := List.mem_singleton.1 hpart
    exact ⟨_, .num p v⟩
  | bool p b =>
    obtain rfl := List.mem_singleton.1 hpart
    exact ⟨_, .bool p b⟩
  | var p h => cases hpart
  | not p h ih =>
    rw [constantParts] at hpart
    split at hpart
    · obtain rfl := List.mem_singleton.1 hpart
      exact ⟨_, .not p h⟩
    · exact ih hpart
  | binary p hop hl hr ihl ihr =>
    rw [constantParts] at hpart
    split at hpart
    · obtain rfl := List.mem_singleton.1 hpart
      exact ⟨_, .binary p hop hl hr⟩
    · exact (List.mem_append.1 hpart).elim ihl ihr

/-- The evaluation of a typed expression finds nothing wrong with types: a tag never disagrees with
the type that was inferred. -/
theorem HasType.category_ne_typing {env : Env} (henv : env.WellTyped) {e : Expr} {t : Ty}
    (h : HasType env.types e t) : ∀ d ∈ e.valueFaults env, d.category ≠ .typing := by
  induction h with
  | num p v => exact fun d hd ↦ absurd hd List.not_mem_nil
  | bool p b => exact fun d hd ↦ absurd hd List.not_mem_nil
  | @var p x t h =>
    intro d hd
    rw [valueFaults] at hd
    rcases hx : env x with - | s
    · rw [hx] at hd
      cases hd
    · rcases hv : s.value with - | v
      · simp only [hx, hv, Option.isNone_none, if_true, List.mem_singleton] at hd
        subst hd
        simp [Diagnostic.category, Problem.category]
      · simp [hx, hv] at hd
  | @not p e h ih =>
    intro d hd
    rw [valueFaults, List.mem_append] at hd
    rcases hd with hd | hd
    · exact ih d hd
    · rcases hv : e.value env with - | v
      · rw [hv] at hd
        cases hd
      · rw [hv] at hd
        have hty : v.ty = .bool := h.ty_of_value henv hv
        cases v with
        | int w => cases hty
        | bool b => cases hd
  | @binary p op l r a b t hop hl hr ihl ihr =>
    intro d hd
    rw [valueFaults, List.mem_append, List.mem_append,
      hop.combineFaults_eq p _ (fun v hv ↦ hl.ty_of_value henv hv)
        (fun v hv ↦ hr.ty_of_value henv hv)] at hd
    rcases hd with (hd | hd) | hd
    · exact ihl d hd
    · exact ihr d hd
    · split at hd
      · obtain rfl := List.mem_singleton.1 hd
        simp [Diagnostic.category, Problem.category]
      · cases hd

end Expr

/-! ### Admissible steps -/

namespace Session

/-- A step that may be taken in a session: what it stores has the type of the variable, and what it
evaluates has a type. -/
def Step.Admissible (s : Session) : Step → Prop
  | note _ => True
  | report _ => True
  | infer _ => True
  | evaluate e => e.type s.env ≠ .error
  | enter _ => True
  | exit => True
  | declare _ ty value _ => ty.isStorable ∧ ∀ v, value = some v → v.ty = ty
  | assign x value => ∀ sym v, s.scopes.lookup? x = some sym → value = some v → v.ty = sym.ty

/-- An admissible step keeps all symbols tracked. -/
theorem Step.tracked_run {s : Session} (h : s.scopes.Tracked) {a : Step} (ha : a.Admissible s) :
    (a.run s).scopes.Tracked := by
  rcases a with e | d | e | e | name | - | ⟨x, ty, value, pos⟩ | ⟨x, value⟩
  case note => exact h
  case report => exact h
  case infer => simpa [run, Session.infer] using h
  case evaluate => simpa [run, Session.evaluate] using h
  case enter => exact h.enter name
  case exit =>
    rw [run, scopes_exit]
    rcases he : s.scopes.exit? with - | t
    · exact h
    · exact h.exit? he
  case declare =>
    rw [run, Session.declare]
    rcases hd : s.scopes.declare? x ty value pos with - | t
    · exact h
    · exact h.declare? ha.1 ha.2 hd
  case assign =>
    rw [run, Session.assign]
    rcases hs : s.scopes.assign? x value with - | t
    · exact h
    · exact h.assign? ha hs

/-- Each of the steps is admissible in the session in which it is taken. -/
def Admits (s : Session) : List Step → Prop
  | [] => True
  | a :: steps => a.Admissible s ∧ (a.run s).Admits steps

theorem admits_append {s : Session} {steps steps' : List Step} :
    s.Admits (steps ++ steps') ↔ s.Admits steps ∧ (s.after steps).Admits steps' := by
  induction steps generalizing s with
  | nil => exact (iff_of_eq (true_and _)).symm
  | cons a steps ih =>
    rw [List.cons_append, Admits, ih, Admits, after_cons, and_assoc]

/-- Admissible steps keep all symbols tracked. -/
theorem Admits.tracked_after {s : Session} {steps : List Step} (h : s.scopes.Tracked)
    (hsteps : s.Admits steps) : (s.after steps).scopes.Tracked := by
  induction steps generalizing s with
  | nil => exact h
  | cons a steps ih => exact ih (Step.tracked_run h hsteps.1) hsteps.2

theorem admits_reports (s : Session) (ds : List Diagnostic) : s.Admits (ds.map .report) := by
  induction ds generalizing s with
  | nil => trivial
  | cons d ds ih => exact ⟨trivial, ih _⟩

theorem admits_evaluations {s : Session} {es : List Expr} (h : ∀ e ∈ es, e.type s.env ≠ .error) :
    s.Admits (es.map .evaluate) := by
  induction es generalizing s with
  | nil => trivial
  | cons e es ih =>
    have henv : (Step.run s (.evaluate e)).env = s.env := s.env_reportAll _
    exact ⟨h e List.mem_cons_self, ih fun e' he' ↦ henv ▸ h e' (List.mem_cons_of_mem _ he')⟩

end Session

open Session (Step)

/-! ### Admissible routines -/

namespace Routine

variable {α : Type} {f g : Routine}

/-- The steps of the routine are admissible wherever all symbols are tracked. -/
def Sound (f : Routine) : Prop := ∀ s : Session, s.scopes.Tracked → s.Admits (f s)

theorem sound_skip : Sound skip := fun _ _ ↦ trivial

theorem sound_step {a : Step} (h : ∀ s, a.Admissible s) : Sound (step a) :=
  fun s _ ↦ ⟨h s, trivial⟩

theorem Sound.andThen (hf : Sound f) (hg : Sound g) : Sound (f.andThen g) :=
  fun s h ↦ Session.admits_append.2 ⟨hf s h, hg _ ((hf s h).tracked_after h)⟩

theorem sound_all {f : α → Routine} (h : ∀ a, Sound (f a)) (as : List α) : Sound (all f as) := by
  induction as with
  | nil => exact sound_skip
  | cons a as ih => exact (h a).andThen ih

theorem sound_note (e : Event) : Sound (step (.note e)) := sound_step fun _ ↦ trivial

theorem sound_enter {name : String} : Sound (step (.enter name)) := sound_step fun _ ↦ trivial

theorem sound_exit : Sound (step .exit) := sound_step fun _ ↦ trivial

theorem Sound.inside (hf : Sound f) (name : String) : Sound (f.inside name) :=
  sound_enter.andThen (hf.andThen sound_exit)

end Routine

namespace Expr

/-- Once an expression has been given a type, its constant parts may be evaluated. -/
theorem admits_constantPartSteps {s : Session} (h : s.scopes.Tracked) {e : Expr}
    (he : ¬(e.type s.env).isError = true) : (s.infer e).2.Admits e.constantPartSteps := by
  have henv : s.env.Unmarked := h.env_wellTyped.unmarked
  have htyped : e.HasType s.env.types (e.type s.env) :=
    (hasType_iff henv).2 ⟨rfl, by simpa [Ty.isError] using he⟩
  refine Session.admits_evaluations fun part hpart ↦ ?_
  obtain ⟨t, ht⟩ := htyped.exists_of_mem_constantParts hpart
  rw [Session.env_infer, ht.type_eq]
  exact ht.ne_error henv

theorem admits_storeRoutine (pos : Pos) (x : String) (target : Ty) (remarks : List Diagnostic)
    (e : Expr) (s : Session) : s.Admits (e.storeRoutine pos x target remarks s) := by
  have henv (ds : List Diagnostic) :
      ((Step.run s (.infer e)).after (ds.map .report)).env = s.env := by
    rw [Session.after_reports, Session.env_reportAll, Step.run, Session.env_infer]
  refine ⟨trivial, Session.admits_append.2 ⟨Session.admits_reports _ _, ?_⟩⟩
  by_cases hc : target.compatible (e.type s.env) = true
  · obtain ⟨htype, hne⟩ := Ty.compatible_iff.1 hc
    rw [if_pos hc]
    refine ⟨?_, trivial⟩
    show e.type (Session.env _) ≠ .error
    rw [henv, htype]
    exact hne
  · rw [if_neg hc]
    trivial

end Expr

/-! ### The routines of an analysis -/

theorem Declarator.sound_routine (isGlobal : Bool) {ty : Ty} (hty : ty.isStorable)
    (v : Declarator) : Routine.Sound (v.routine isGlobal ty) := by
  intro s h
  rw [routine]
  split
  · exact ⟨trivial, trivial⟩
  · rcases v.init with - | e
    · exact ⟨⟨hty, fun v hv ↦ by cases hv⟩, trivial, trivial, trivial⟩
    · have hvalue : ∀ w, e.storedValue s.env ty = some w → w.ty = ty :=
        fun w hw ↦ Expr.ty_of_storedValue h.env_wellTyped hw
      refine Session.admits_append.2 ⟨e.admits_storeRoutine _ _ _ _ s, ⟨hty, hvalue⟩, ?_⟩
      -- what follows the declaration of an unknown value stores nothing known
      by_cases hnone : (e.storedValue s.env ty).isNone = true
      · rw [if_pos hnone]
        exact ⟨fun sym w _ hw ↦ (by cases hw), trivial, trivial⟩
      · rw [if_neg hnone]
        exact ⟨trivial, trivial⟩

theorem Declaration.sound_routine (isGlobal : Bool) (d : Declaration) :
    Routine.Sound (d.routine isGlobal) := by
  intro s h
  rw [routine]
  split
  · rename_i hty
    exact Routine.sound_all (Declarator.sound_routine isGlobal hty) d.vars s h
  · exact s.admits_reports _

theorem Param.sound_routine (p : Param) : Routine.Sound p.routine := by
  intro s h
  rw [routine]
  split
  · rename_i hty
    split
    · exact ⟨trivial, trivial⟩
    · refine ⟨⟨hty, fun v hv ↦ ?_⟩, trivial⟩
      generalize p.ty = t at hv
      cases t <;> cases hv <;> rfl
  · exact ⟨trivial, trivial⟩

theorem sound_conditionRoutine (c : Construct) (cond : Expr) :
    Routine.Sound (conditionRoutine c cond) := by
  intro s h
  refine ⟨trivial, ?_⟩
  split
  · trivial
  · rename_i herr
    split
    · exact cond.admits_constantPartSteps h herr
    · exact ⟨trivial, trivial⟩

theorem sound_assignRoutine (pos : Pos) (x : String) (e : Expr) :
    Routine.Sound (assignRoutine pos x e) := by
  intro s h
  rw [assignRoutine]
  rcases hx : s.scopes.lookup? x with - | target
  · exact ⟨trivial, trivial⟩
  · refine Session.admits_append.2
      ⟨e.admits_storeRoutine _ _ _ _ s, fun sym v hsym hv ↦ ?_, trivial⟩
    rw [Expr.after_storeRoutine, Session.scopes_reportAll, hx] at hsym
    obtain rfl := Option.some.inj hsym
    exact Expr.ty_of_storedValue h.env_wellTyped hv

theorem sound_returnRoutine (expected : Ty) (pos : Pos) (value : Option Expr) :
    Routine.Sound (returnRoutine expected pos value) := by
  intro s _
  rcases value with - | e
  · rw [returnRoutine]
    split
    · trivial
    · exact ⟨trivial, trivial⟩
  · refine ⟨trivial, ?_⟩
    split
    · trivial
    · rename_i herr
      split
      · refine ⟨?_, trivial, trivial⟩
        show e.type (s.infer e).2.env ≠ .error
        rw [Session.env_infer]
        simpa [Ty.isError] using herr
      · exact ⟨trivial, trivial⟩

theorem Simple.sound_routine (expected : Ty) (a : Simple) : Routine.Sound (a.routine expected) := by
  rcases a with d | ⟨pos, x, e⟩ | ⟨pos, value⟩ | ⟨pos, e⟩
  · exact d.sound_routine false
  · exact sound_assignRoutine pos x e
  · exact sound_returnRoutine expected pos value
  · intro s h
    refine ⟨trivial, ?_⟩
    split
    · trivial
    · rename_i herr
      exact e.admits_constantPartSteps h herr

theorem Block.sound_routine (expected : Ty) (b : Block) : Routine.Sound (b.routine expected) := by
  induction b with
  | done => exact Routine.sound_skip
  | simple a rest ih => exact (a.sound_routine expected).andThen ih
  | ifThen pos c t rest iht ih =>
    exact (sound_conditionRoutine .cond c).andThen ((iht.inside _).andThen ih)
  | ifElse pos c t e rest iht ihe ih =>
    exact (sound_conditionRoutine .cond c).andThen
      ((iht.inside _).andThen ((ihe.inside _).andThen ih))
  | loop pos c b rest ihb ih =>
    exact (sound_conditionRoutine .loop c).andThen ((ihb.inside _).andThen ih)

theorem Function.sound_routine (f : Function) : Routine.Sound f.routine := by
  have hreturns : Routine.Sound (if f.lacksReturn then
      Routine.step (.report ⟨f.pos, .noReturn f.name f.returnTy⟩) else Routine.skip) := by
    split
    · exact Routine.sound_step fun _ ↦ trivial
    · exact Routine.sound_skip
  exact (Routine.sound_note _).andThen (Routine.sound_enter.andThen
    ((Routine.sound_all Param.sound_routine f.params).andThen
      ((f.body.sound_routine f.returnTy).andThen (hreturns.andThen Routine.sound_exit))))

theorem Declaration.sound_globalRoutine (function entry : String) (d : Declaration) :
    Routine.Sound (d.globalRoutine function entry) :=
  (d.sound_routine true).andThen fun s _ ↦ s.admits_reports _

/-! ### Reports on types -/

/-- The errors of types among diagnostics. -/
def typingErrors (ds : List Diagnostic) : List Diagnostic := ds.filter (·.category = .typing)

@[simp] theorem typingErrors_append (ds es : List Diagnostic) :
    typingErrors (ds ++ es) = typingErrors ds ++ typingErrors es :=
  List.filter_append _ _

namespace Session

/-- The errors of types that have been recorded. -/
def typingErrors (s : Session) : List Diagnostic := BlockLang.typingErrors s.diagnostics.errors

/-- Of reported diagnostics the errors of types join those recorded, in order. -/
theorem typingErrors_reportAll (s : Session) (ds : List Diagnostic) :
    (s.reportAll ds).typingErrors = s.typingErrors ++ BlockLang.typingErrors ds := by
  rw [typingErrors, errors_reportAll, typingErrors_append, BlockLang.typingErrors,
    BlockLang.typingErrors, List.filter_filter]
  refine congrArg _ (List.filter_congr fun d _ ↦ ?_)
  rcases d.category <;> rfl

/-- What the analysis itself reports in a step. The reports of evaluation are not among it. -/
def Step.reports (s : Session) : Step → List Diagnostic
  | report d => [d]
  | infer e => e.typeFaults s.env
  | evaluate _ => []
  | note _ => []
  | enter _ => []
  | exit => []
  | declare _ _ _ _ => []
  | assign _ _ => []

/-- What the analysis itself reports in steps. -/
def reports (s : Session) : List Step → List Diagnostic
  | [] => []
  | a :: steps => a.reports s ++ (a.run s).reports steps

/-- The evaluation of an expression with a type gives a value of that type if it gives one, and adds
no error of types. -/
theorem evaluate_of_admissible {s : Session} (h : s.scopes.Tracked) {e : Expr}
    (he : (s.infer e).1 ≠ .error) :
    (∀ v, (s.evaluate e).1 = some v → v.ty = (s.infer e).1) ∧
      (s.evaluate e).2.typingErrors = s.typingErrors := by
  have henv : s.env.WellTyped := h.env_wellTyped
  have htyped : e.HasType s.env.types (e.type s.env) :=
    (Expr.hasType_iff henv.unmarked).2 ⟨rfl, he⟩
  refine ⟨fun v hv ↦ htyped.ty_of_value henv hv, ?_⟩
  have hnone : BlockLang.typingErrors (e.valueFaults s.env) = [] :=
    List.filter_eq_nil_iff.2 fun d hd ↦ by simpa using htyped.category_ne_typing henv d hd
  rw [evaluate, typingErrors_reportAll, hnone, List.append_nil]

/-- The errors of types that an admissible step adds are reports of the analysis itself. -/
theorem Step.typingErrors_run {s : Session} (h : s.scopes.Tracked) {a : Step}
    (ha : a.Admissible s) :
    (a.run s).typingErrors = s.typingErrors ++ BlockLang.typingErrors (a.reports s) := by
  rcases a with e | d | e | e | name | - | ⟨x, ty, value, pos⟩ | ⟨x, value⟩
  case report => exact s.typingErrors_reportAll [d]
  case infer => exact s.typingErrors_reportAll _
  case evaluate => exact (evaluate_of_admissible h ha).2.trans (List.append_nil _).symm
  case exit =>
    rw [run, Session.typingErrors, diagnostics_exit]
    exact (List.append_nil _).symm
  all_goals exact (List.append_nil _).symm

theorem Admits.typingErrors_after {s : Session} (h : s.scopes.Tracked) {steps : List Step}
    (hsteps : s.Admits steps) :
    (s.after steps).typingErrors = s.typingErrors ++ BlockLang.typingErrors (s.reports steps) := by
  induction steps generalizing s with
  | nil => exact (List.append_nil _).symm
  | cons a steps ih =>
    rw [after_cons, ih (Step.tracked_run h hsteps.1) hsteps.2, Step.typingErrors_run h hsteps.1,
      reports, typingErrors_append, List.append_assoc]

end Session

/-! ### Programs -/

namespace Program

theorem admits_steps (entry : String) (p : Program) : Session.Admits {} (p.steps entry) := by
  have hsound : Routine.Sound (p.routine entry) :=
    (Routine.sound_note _).andThen
      ((Routine.sound_all (Declaration.sound_globalRoutine p.function.name entry) p.globals).andThen
        (p.function.sound_routine.andThen fun _ _ ↦ ⟨trivial, trivial⟩))
  exact hsound {} ScopeTree.tracked_empty

/-- Typing and evaluation agree all along an analysis, whatever is wrong with the program. At every
point each symbol that holds a value holds one of its type and counts as initialized. What the
analysis evaluates it has given a type, the value is of that type if there is one, and no error of
types is added. So the errors of types in a compilation are reports of the analysis itself. -/
theorem tracked_steps (o : Options) (p : Program) :
    Session.after {} (p.steps o.entryLabel) = p.analyze o.entryLabel {} ∧
      (∀ before, before <+: p.steps o.entryLabel →
        ∀ r ∈ (Session.after {} before).scopes.infos, ∀ sym ∈ r.scope.symbols.toList,
          ∀ v, sym.value = some v → v.ty = sym.ty ∧ sym.initialized = true) ∧
      (∀ before e, before ++ [.evaluate e] <+: p.steps o.entryLabel →
        ((Session.after {} before).infer e).1 ≠ .error ∧
          (∀ v, ((Session.after {} before).evaluate e).1 = some v →
            v.ty = ((Session.after {} before).infer e).1) ∧
          ((Session.after {} before).evaluate e).2.typingErrors =
            (Session.after {} before).typingErrors) ∧
      (p.compile o).session.typingErrors =
        typingErrors (Session.reports {} (p.steps o.entryLabel)) := by
  have hadmits := p.admits_steps o.entryLabel
  have hempty : (Session.scopes {}).Tracked := ScopeTree.tracked_empty
  refine ⟨p.after_steps _, ?_, ?_, ?_⟩
  · rintro before ⟨rest, hsteps⟩ r hr sym hsym v hv
    rw [← hsteps, Session.admits_append] at hadmits
    have htracked := hadmits.1.tracked_after hempty
    obtain ⟨e, he, rfl⟩ := List.mem_map.1 hsym
    obtain ⟨hwell, hinit⟩ := (htracked r hr).symbols e he
    exact ⟨hwell.2 v hv, hinit v hv⟩
  · rintro before e ⟨rest, hsteps⟩
    rw [← hsteps, Session.admits_append, Session.admits_append] at hadmits
    obtain ⟨⟨hbefore, he, -⟩, -⟩ := hadmits
    exact ⟨he, Session.evaluate_of_admissible (hbefore.tracked_after hempty) he⟩
  · rw [Session.typingErrors, (p.compile_cases o).1, ← p.after_steps]
    exact hadmits.typingErrors_after hempty

/-- A program with three mistakes of types, `int g = true; int f(bool b) { int n = 6 * 7; b = n;
return n + b; }`. -/
def confused : Program where
  globals := [⟨.int, [⟨"g", some (.bool {} true), {}⟩], {}⟩]
  function :=
    { returnTy := .int
      name := "f"
      params := [⟨.bool, "b", {}⟩]
      body :=
        .simple (.declare ⟨.int,
            [⟨"n", some (.binary {} .mul (.num {} 6) (.num {} 7)), {}⟩], {}⟩)
          (.simple (.assign {} "b" (.var {} "n"))
            (.simple (.ret {} (some (.binary {} .add (.var {} "n") (.var {} "b")))) .done)) }

theorem tracked_steps_confused :
    (confused.steps "_start").take 10 ++ [.evaluate (.binary {} .mul (.num {} 6) (.num {} 7))] <+:
        confused.steps "_start" ∧
      ((Session.after {} ((confused.steps "_start").take 10)).infer
        (.binary {} .mul (.num {} 6) (.num {} 7))).1 = (Value.int 42).ty ∧
      (confused.compile {}).session.typingErrors =
        [⟨{}, .assignMismatch "g" .int .bool⟩, ⟨{}, .assignMismatch "b" .bool .int⟩,
          ⟨{}, .operands .add .bothInt .int .bool⟩] := by
  obtain ⟨-, -, hevaluate, herrors⟩ := tracked_steps {} confused
  have htaken : (confused.steps "_start").take 10 ++
      [.evaluate (.binary {} .mul (.num {} 6) (.num {} 7))] <+: confused.steps "_start" := by
    decide +kernel
  have hvalue := (hevaluate _ _ htaken).2.1 (.int 42) (by decide +kernel)
  exact ⟨htaken, hvalue.symm, herrors.trans (by decide +kernel)⟩

end Program

end BlockLang
