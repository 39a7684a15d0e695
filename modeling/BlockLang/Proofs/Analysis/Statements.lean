import BlockLang.Proofs.Analysis.Session
import BlockLang.Proofs.Static.Rules

/-!
# What each statement does to an analysis

For every kind of statement that opens no scope: when it records no error, in terms of the typing
rules and of the reports of evaluation, and what it makes of the types in view. A statement records
warnings freely, so each condition is on errors alone (`Session.Clean`).

Declarations are treated through every view that does not look at tracked values (`Blind`), since
the types are one such view and the numbers of the declaring scopes are another.
-/

namespace BlockLang

variable {α : Type}

/-! ### Environments -/

/-- The types that an analysis sees are those of its scopes. -/
theorem Session.env_types (s : Session) : s.env.types = s.scopes.types.find? := by
  funext x
  exact (s.scopes.find?_types x).symm

theorem ScopeTree.Sound.env_wellTyped {s : Session} (h : s.scopes.Sound) : s.env.WellTyped :=
  h.wellTyped

theorem ScopeTree.Sound.env_unmarked {s : Session} (h : s.scopes.Sound) : s.env.Unmarked :=
  h.wellTyped.unmarked

/-! ### Stores -/

theorem Ty.compatible_iff {a b : Ty} : a.compatible b = true ↔ b = a ∧ a ≠ .error := by
  cases a <;> cases b <;> simp [compatible, isError]

namespace Expr

/-- A store is without error exactly when the value has the type of the variable. -/
theorem quiet_storeFaults_iff {env : Env} (henv : env.Unmarked) {pos : Pos} {x : String}
    {target : Ty} (ht : target ≠ .error) {e : Expr} :
    Quiet (e.storeFaults env pos x target) ↔ e.HasType env.types target := by
  rw [storeFaults, quiet_append, quiet_typeFaults_iff henv, hasType_iff henv]
  by_cases hc : target.compatible (e.type env) = true
  · have htype : e.type env = target := (Ty.compatible_iff.1 hc).1
    rw [hc]
    simp [htype, ht]
  · have htype : e.type env ≠ target := fun h ↦ hc (Ty.compatible_iff.2 ⟨h, ht⟩)
    by_cases herr : e.type env = .error
    · simp [herr, ht.symm]
    · have hmark : (e.type env).isError = false := by simpa [Ty.isError] using herr
      simp [hc, hmark, htype, Diagnostic.category, Problem.category]

theorem HasType.compatible {env : Env} (henv : env.Unmarked) {e : Expr} {t : Ty}
    (h : e.HasType env.types t) : t.compatible (e.type env) = true :=
  Ty.compatible_iff.2 ⟨h.type_eq, h.ne_error henv⟩

/-- The value tracked for a variable has its type. -/
theorem ty_of_storedValue {env : Env} (henv : env.WellTyped) {target : Ty} {e : Expr} {v : Value}
    (h : e.storedValue env target = some v) : v.ty = target := by
  rw [storedValue] at h
  split at h
  · rename_i hc
    obtain ⟨htype, hne⟩ := Ty.compatible_iff.1 hc
    have htyped : e.HasType env.types target := (hasType_iff henv.unmarked).2 ⟨htype, hne⟩
    exact htyped.ty_of_value henv h
  · cases h

end Expr

/-! ### Declarations -/

namespace Declarator

/-- A declaration of a new name adds it to the current scope, with a value that its initializer
accounts for; the mark of initialization may follow. -/
theorem scopes_analyze (isGlobal : Bool) (ty : Ty) (v : Declarator) {s : Session}
    (hnew : s.scopes.containsLocal v.name = false) :
    ∃ value t, s.scopes.declare? v.name ty value v.pos = some t ∧
      (∀ w, value = some w → ∃ e, v.init = some e ∧ e.storedValue s.env ty = some w) ∧
      ((v.analyze isGlobal ty s).scopes = t ∨
        t.assign? v.name none = some (v.analyze isGlobal ty s).scopes) := by
  rw [analyze, hnew, if_neg Bool.false_ne_true]
  rcases hinit : v.init with - | e
  · refine ⟨none, _, s.scopes.declare?_eq_some hnew ty none v.pos, by simp, .inl ?_⟩
    simp [Session.declare, s.scopes.declare?_eq_some hnew]
  · refine ⟨e.storedValue s.env ty, _, s.scopes.declare?_eq_some hnew ty _ v.pos,
      fun w hw ↦ ⟨e, rfl, hw⟩, ?_⟩
    simp only [Session.scopes_note, Session.declare, Session.scopes_reportAll, Session.assign,
      s.scopes.declare?_eq_some hnew, Option.getD_some]
    split
    · rcases ScopeTree.assign? _ v.name none with - | t
      · exact .inl rfl
      · exact .inr rfl
    · exact .inl rfl

/-- A declaration of a new name binds it in every blind view. -/
theorem view_analyze {f : Nat → Symbol → Option α} (hf : Blind f) (isGlobal : Bool) (ty : Ty)
    (v : Declarator) {s : Session} (hnew : s.scopes.containsLocal v.name = false) {a : α}
    (ha : ∀ value, f s.scopes.here.id (s.scopes.newSymbol v.name ty value v.pos) = some a) :
    (v.analyze isGlobal ty s).scopes.view f = (s.scopes.view f).bind v.name a := by
  obtain ⟨value, t, ht, -, heq | hassign⟩ := v.scopes_analyze isGlobal ty hnew
  · rw [heq, ScopeTree.view_declare? f ht (ha value)]
  · rw [ScopeTree.view_assign? hf hassign, ScopeTree.view_declare? f ht (ha value)]

theorem types_analyze (isGlobal : Bool) (ty : Ty) (v : Declarator) {s : Session}
    (hnew : s.scopes.types.here v.name = none) :
    (v.analyze isGlobal ty s).scopes.types = s.scopes.types.bind v.name ty :=
  v.view_analyze blind_types isGlobal ty ((s.scopes.containsLocal_eq_false_iff _).2 hnew)
    fun _ ↦ rfl

theorem scopes_analyze_of_containsLocal (isGlobal : Bool) (ty : Ty) (v : Declarator) {s : Session}
    (hold : s.scopes.containsLocal v.name = true) :
    (v.analyze isGlobal ty s).scopes = s.scopes := by
  rw [analyze, if_pos hold, Session.scopes_report]

theorem extends_analyze (isGlobal : Bool) {ty : Ty} (hty : ty.isStorable) (v : Declarator)
    (s : Session) : s.Extends (v.analyze isGlobal ty s) := by
  rcases hnew : s.scopes.containsLocal v.name with - | -
  · obtain ⟨value, t, ht, hvalue, hstep⟩ := v.scopes_analyze isGlobal ty hnew
    have houter : t.outer = s.scopes.outer := ScopeTree.outer_declare? ht
    refine ⟨fun hs ↦ ?_, fun f hf ↦ ?_⟩
    swap
    · obtain heq | hassign := hstep
      · rw [heq, ScopeTree.view, houter]
        rfl
      · rw [ScopeTree.view_assign? hf hassign, ScopeTree.view, houter]
        rfl
    have htsound : t.Sound := by
      refine hs.declare? ht hty fun w hw ↦ ?_
      obtain ⟨e, -, he⟩ := hvalue w hw
      exact Expr.ty_of_storedValue hs.env_wellTyped he
    obtain heq | hassign := hstep
    · exact heq ▸ htsound
    · exact htsound.assign? (fun sym w _ hw ↦ absurd hw (by simp)) hassign
  · exact .of_eq (v.scopes_analyze_of_containsLocal isGlobal ty hnew)

/-- A declaration records no error exactly when its name is new and its initializer fits. -/
theorem clean_analyze_iff {isGlobal : Bool} {ty : Ty} (hty : ty.isStorable) {v : Declarator}
    {s : Session} (hs : s.scopes.Sound) :
    (v.analyze isGlobal ty s).Clean ↔
      s.Clean ∧ s.scopes.types.here v.name = none ∧ ∀ e, v.init = some e →
        (e.HasType s.scopes.types.find? ty ∧ (isGlobal = true → e.isConstant = true)) ∧
          Quiet (e.valueFaults s.env) := by
  have hne : ty ≠ .error := Ty.ne_error_of_isStorable hty
  rw [← s.scopes.containsLocal_eq_false_iff, ← s.env_types, analyze]
  rcases hnew : s.scopes.containsLocal v.name with - | -
  · rw [if_neg Bool.false_ne_true]
    rcases hinit : v.init with - | e
    · rw [Session.clean_report]
      simp [Session.Clean, Session.declare, Session.note, Diagnostic.category, Problem.category]
    · -- neither the declaration nor the mark of initialization touches the diagnostics
      have hclean : ∀ b : Session, (b.reportAll (v.initFaults s.env isGlobal ty e)).Clean ↔
          b.Clean ∧ Quiet (v.initFaults s.env isGlobal ty e) := fun b ↦ Session.clean_reportAll
      have hfaults : Quiet (v.initFaults s.env isGlobal ty e) ↔
          (e.HasType s.env.types ty ∧ (isGlobal = true → e.isConstant = true)) ∧
            Quiet (e.valueFaults s.env) := by
        rw [initFaults, quiet_append, quiet_append,
          Expr.quiet_storeFaults_iff hs.env_unmarked hne, and_assoc, and_assoc]
        refine and_congr_right fun htyped ↦ and_congr ?_ ?_
        · cases isGlobal <;> cases e.isConstant <;>
            simp [Diagnostic.category, Problem.category]
        · rw [Expr.storedValueFaults, if_pos (htyped.compatible hs.env_unmarked)]
      have hstored : ∀ b : Session, Session.Clean ((if (e.storedValue s.env ty).isNone then
          (b.declare v.name ty (e.storedValue s.env ty) v.pos).assign v.name none
          else b.declare v.name ty (e.storedValue s.env ty) v.pos).note
            (.initialized v.name ty (e.storedValue s.env ty))) ↔ b.Clean := by
        intro b
        split <;> rfl
      rw [hstored, hclean, hfaults]
      simp
  · rw [if_pos rfl, Session.clean_report]
    simp [Diagnostic.category, Problem.category]

end Declarator

/-! ### Parameters -/

namespace Param

theorem clean_analyze_iff {p : Param} {s : Session} :
    (p.analyze s).Clean ↔
      s.Clean ∧ p.ty.isStorable ∧ s.scopes.types.here p.name = none := by
  rw [analyze, ← s.scopes.containsLocal_eq_false_iff]
  rcases hty : p.ty.isStorable with - | -
  · rw [if_neg Bool.false_ne_true, Session.clean_report]
    simp [Diagnostic.category, Problem.category]
  · rw [if_pos rfl]
    rcases hnew : s.scopes.containsLocal p.name with - | -
    · simp [Session.Clean, Session.declare]
    · rw [if_pos rfl, Session.clean_report]
      simp [Diagnostic.category, Problem.category]

/-- A storable parameter with a new name is declared with the value of an untouched variable. -/
theorem declare?_scopes_analyze {p : Param} {s : Session} (hty : p.ty.isStorable)
    (hnew : s.scopes.containsLocal p.name = false) :
    s.scopes.declare? p.name p.ty p.ty.defaultValue p.pos = some (p.analyze s).scopes := by
  rw [analyze, if_pos hty, hnew, if_neg Bool.false_ne_true]
  simp [Session.declare, s.scopes.declare?_eq_some hnew]

theorem view_analyze (f : Nat → Symbol → Option α) {p : Param} {s : Session}
    (hty : p.ty.isStorable) (hnew : s.scopes.containsLocal p.name = false) {a : α}
    (ha : ∀ value, f s.scopes.here.id (s.scopes.newSymbol p.name p.ty value p.pos) = some a) :
    (p.analyze s).scopes.view f = (s.scopes.view f).bind p.name a :=
  ScopeTree.view_declare? f (declare?_scopes_analyze hty hnew) (ha _)

theorem types_analyze {p : Param} {s : Session} (hty : p.ty.isStorable)
    (hnew : s.scopes.types.here p.name = none) :
    (p.analyze s).scopes.types = s.scopes.types.bind p.name p.ty :=
  view_analyze _ hty ((s.scopes.containsLocal_eq_false_iff _).2 hnew) fun _ ↦ rfl

theorem extends_analyze (p : Param) (s : Session) : s.Extends (p.analyze s) := by
  rcases hty : p.ty.isStorable with - | -
  · refine .of_eq ?_
    rw [analyze, hty, if_neg Bool.false_ne_true, Session.scopes_report]
  rcases hnew : s.scopes.containsLocal p.name with - | -
  · refine ⟨fun hs ↦ hs.declare? (declare?_scopes_analyze hty hnew) hty fun v hv ↦ ?_, ?_⟩
    · generalize p.ty = t at hv
      cases t <;> cases hv <;> rfl
    · intro α f _
      rw [ScopeTree.view, ScopeTree.outer_declare? (declare?_scopes_analyze hty hnew)]
      rfl
  · refine .of_eq ?_
    rw [analyze, if_pos hty, if_pos hnew, Session.scopes_report]

end Param

/-! ### Other statements -/

namespace Session

@[simp] theorem scopes_checkCondition (s : Session) (c : Construct) (cond : Expr) :
    (s.checkCondition c cond).scopes = s.scopes :=
  s.scopes_reportAll _

/-- A condition is without error exactly when it is a truth value and its constant parts have
values. -/
theorem clean_checkCondition_iff {s : Session} (hs : s.scopes.Sound) {c : Construct} {cond : Expr} :
    (s.checkCondition c cond).Clean ↔
      s.Clean ∧ cond.HasType s.scopes.types.find? .bool ∧ cond.constantPartFaults = [] := by
  have henv : s.env.Unmarked := hs.env_unmarked
  rw [checkCondition, clean_reportAll, quiet_append, Expr.quiet_typeFaults_iff henv,
    ← s.env_types, Expr.hasType_iff henv]
  refine and_congr_right fun _ ↦ ?_
  cases htype : cond.type s.env <;>
    simp [Ty.isError, Ty.isBoolean, Diagnostic.category, Problem.category,
      Expr.quiet_constantPartFaults_iff]

/-- An assignment keeps every blind view. -/
theorem view_analyzeAssign {f : Nat → Symbol → Option α} (hf : Blind f) (s : Session) (pos : Pos)
    (x : String) (e : Expr) : (s.analyzeAssign pos x e).scopes.view f = s.scopes.view f := by
  rw [analyzeAssign]
  rcases hx : s.scopes.lookup? x with - | target
  · rfl
  · simp only [assign, scopes_reportAll]
    rcases ht : s.scopes.assign? x (e.storedValue s.env target.ty) with - | t
    · rfl
    · exact ScopeTree.view_assign? hf ht

theorem extends_analyzeAssign (s : Session) (pos : Pos) (x : String) (e : Expr) :
    s.Extends (s.analyzeAssign pos x e) := by
  refine ⟨fun hs ↦ ?_, fun f hf ↦ by rw [s.view_analyzeAssign hf pos x e]⟩
  rw [analyzeAssign]
  rcases hx : s.scopes.lookup? x with - | target
  · exact hs
  · simp only [assign, scopes_reportAll]
    rcases ht : s.scopes.assign? x (e.storedValue s.env target.ty) with - | t
    · exact hs
    · refine hs.assign? (fun sym v hsym hv ↦ ?_) ht
      obtain rfl := Option.some.inj (hx.symm.trans hsym)
      exact Expr.ty_of_storedValue hs.env_wellTyped hv

/-- An assignment is without error exactly when its target is declared and the value fits. -/
theorem clean_analyzeAssign_iff {s : Session} (hs : s.scopes.Sound) {pos : Pos} {x : String}
    {e : Expr} :
    (s.analyzeAssign pos x e).Clean ↔
      s.Clean ∧ ∃ t, s.scopes.types.find? x = some t ∧ e.HasType s.scopes.types.find? t ∧
        Quiet (e.valueFaults s.env) := by
  have henv : s.env.Unmarked := hs.env_unmarked
  rw [analyzeAssign, s.scopes.find?_types x, ← s.env_types]
  rcases hx : s.scopes.lookup? x with - | target
  · rw [clean_report]
    simp [Diagnostic.category, Problem.category]
  · have hne : target.ty ≠ .error := henv x target hx
    have hassign : ∀ b : Session, Clean (b.assign x (e.storedValue s.env target.ty)) ↔ b.Clean :=
      fun b ↦ Iff.rfl
    rw [hassign, clean_reportAll, quiet_append, Expr.quiet_storeFaults_iff henv hne]
    refine and_congr_right fun _ ↦ ?_
    constructor
    · rintro ⟨htyped, hquiet⟩
      rw [Expr.storedValueFaults, if_pos (htyped.compatible henv)] at hquiet
      exact ⟨target.ty, rfl, htyped, hquiet⟩
    · rintro ⟨t, ht, htyped, hquiet⟩
      obtain rfl := Option.some.inj ht
      rw [Expr.storedValueFaults, if_pos (htyped.compatible henv)]
      exact ⟨htyped, hquiet⟩

@[simp] theorem scopes_analyzeReturn (s : Session) (expected : Ty) (pos : Pos)
    (value : Option Expr) : (s.analyzeReturn expected pos value).scopes = s.scopes := by
  cases value with
  | none =>
    rw [analyzeReturn]
    split <;> simp
  | some e =>
    rw [analyzeReturn]
    split
    · simp
    · split <;> simp

theorem clean_analyzeReturn_none_iff {s : Session} {expected : Ty} (pos : Pos) :
    (s.analyzeReturn expected pos none).Clean ↔ s.Clean ∧ expected = .void := by
  rw [analyzeReturn]
  split
  · simp [*]
  · rw [clean_report]
    simp [*, Diagnostic.category, Problem.category]

/-- A return is without error exactly when its value has the result type. -/
theorem clean_analyzeReturn_some_iff {s : Session} (hs : s.scopes.Sound) {expected : Ty} (pos : Pos)
    {e : Expr} :
    (s.analyzeReturn expected pos (some e)).Clean ↔
      s.Clean ∧ e.HasType s.scopes.types.find? expected ∧ Quiet (e.valueFaults s.env) := by
  have henv : s.env.Unmarked := hs.env_unmarked
  rw [← s.env_types, Expr.hasType_iff henv, analyzeReturn]
  have htypes : Quiet (e.typeFaults s.env) ↔ e.type s.env ≠ .error :=
    Expr.quiet_typeFaults_iff henv
  by_cases herr : e.type s.env = .error
  · rw [if_pos (by simp [Ty.isError, herr]), clean_reportAll, htypes]
    simp only [herr, ne_eq, not_true_eq_false, and_false, false_iff, not_and]
    rintro - ⟨rfl, hne⟩
    exact absurd rfl hne
  · rw [if_neg (by simp [Ty.isError, herr])]
    by_cases hc : expected.compatible (e.type s.env) = true
    · obtain ⟨htype, hne⟩ := Ty.compatible_iff.1 hc
      rw [if_pos hc]
      show ((s.reportAll _).reportAll _).Clean ↔ _
      rw [clean_reportAll, clean_reportAll, htypes, and_assoc]
      simp [htype, hne]
    · have htype : ¬(e.type s.env = expected ∧ expected ≠ .error) :=
        fun h ↦ hc (Ty.compatible_iff.2 h)
      rw [if_neg hc, clean_report]
      simp only [Diagnostic.category, Problem.category, reduceCtorEq, and_false, false_iff]
      exact fun h ↦ htype h.2.1

end Session

namespace Simple

theorem clean_analyze_eval_iff {s : Session} (hs : s.scopes.Sound) {expected : Ty} {pos : Pos}
    {e : Expr} :
    (Simple.analyze expected s (.eval pos e)).Clean ↔
      s.Clean ∧ (∃ t, e.HasType s.scopes.types.find? t) ∧ e.constantPartFaults = [] := by
  have henv : s.env.Unmarked := hs.env_unmarked
  rw [analyze, Session.clean_reportAll, quiet_append, ← s.env_types,
    Expr.quiet_typeFaults_iff_hasType henv]
  refine and_congr_right fun _ ↦ and_congr_right fun ⟨t, ht⟩ ↦ ?_
  have herr : (e.type s.env).isError = false := by
    rw [ht.type_eq]
    simpa [Ty.isError] using ht.ne_error henv
  rw [herr, if_neg Bool.false_ne_true, Expr.quiet_constantPartFaults_iff]

end Simple

end BlockLang
