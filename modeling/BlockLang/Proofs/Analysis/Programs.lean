import BlockLang.Proofs.Analysis.Acceptance

/-!
# Acceptance of whole programs

Parameters, the function and the global declarations, put together from the acceptance of blocks and
declarations. The main statement is `Program.errors_analyze_eq_nil_iff`: on programs that divide by
no constant zero, the analysis records no error exactly when the static rules hold.
-/

namespace BlockLang

/-! ### Parameters -/

/-- The analysis of parameters in order. -/
def analyzeParams (ps : List Param) (s : Session) : Session := ps.foldl (fun s p ↦ p.analyze s) s

theorem extends_analyzeParams (ps : List Param) (s : Session) : s.Extends (analyzeParams ps s) := by
  induction ps generalizing s with
  | nil => exact .refl s
  | cons p ps ih => exact (p.extends_analyze s).trans (ih _)

theorem WellPassed.types_analyzeParams {ps : List Param} {s : Session}
    (h : WellPassed s.scopes.types ps) :
    (analyzeParams ps s).scopes.types = Context.declareParams s.scopes.types ps := by
  generalize hΓ : s.scopes.types = Γ at h
  induction h generalizing s with
  | nil => exact hΓ
  | @cons Γ p ps hty hnew hrest ih =>
    subst hΓ
    exact ih (Param.types_analyze hty hnew)

/-- Parameters are without error exactly when they are storable and have different names. -/
theorem clean_analyzeParams_iff {ps : List Param} {s : Session} :
    (analyzeParams ps s).Clean ↔ s.Clean ∧ WellPassed s.scopes.types ps := by
  induction ps generalizing s with
  | nil => exact ⟨fun h ↦ ⟨h, .nil⟩, fun h ↦ h.1⟩
  | cons p ps ih =>
    show (analyzeParams ps (p.analyze s)).Clean ↔ _
    rw [ih, Param.clean_analyze_iff]
    constructor
    · rintro ⟨⟨hclean, hty, hnew⟩, hrest⟩
      rw [Param.types_analyze hty hnew] at hrest
      exact ⟨hclean, .cons hty hnew hrest⟩
    · rintro ⟨hclean, hpassed⟩
      cases hpassed with
      | cons hty hnew hrest =>
        rw [← Param.types_analyze hty hnew] at hrest
        exact ⟨⟨hclean, hty, hnew⟩, hrest⟩

/-! ### The function -/

/-- A block holds a return exactly when one of its statements is one. -/
theorem Block.containsReturn_iff {b : Block} :
    b.containsReturn = true ↔ ∃ pos value, Simple.ret pos value ∈ b.statements := by
  induction b with
  | done => simp [containsReturn, statements]
  | simple a rest ih =>
    rw [containsReturn, Bool.or_eq_true, ih]
    cases a with
    | ret pos value => exact ⟨fun _ ↦ ⟨pos, value, List.mem_cons_self⟩, fun _ ↦ .inl rfl⟩
    | declare d => simp [Simple.isReturn, statements]
    | assign pos x e => simp [Simple.isReturn, statements]
    | eval pos e => simp [Simple.isReturn, statements]
  | ifThen pos c t rest iht ih =>
    rw [containsReturn, Bool.or_eq_true, iht, ih]
    simp [statements, exists_or]
  | ifElse pos c t e rest iht ihe ih =>
    rw [containsReturn, Bool.or_eq_true, Bool.or_eq_true, iht, ihe, ih]
    simp [statements, exists_or, or_assoc]
  | loop pos c b rest ihb ih =>
    rw [containsReturn, Bool.or_eq_true, ihb, ih]
    simp [statements, exists_or]

namespace Function

/-- The session in which a function analyzes its parameters. -/
def opened (f : Function) (s : Session) : Session :=
  (s.note (.analyzing f.name f.returnTy)).enter ("function_" ++ f.name)

/-- The session in which a function analyzes its body. -/
def bodyStart (f : Function) (s : Session) : Session := analyzeParams f.params (f.opened s)

/-- The session after the body of a function. -/
def bodyEnd (f : Function) (s : Session) : Session := f.body.analyze f.returnTy (f.bodyStart s)

theorem analyze_eq (f : Function) (s : Session) :
    f.analyze s = (if f.lacksReturn then (f.bodyEnd s).report ⟨f.pos, .noReturn f.name f.returnTy⟩
      else f.bodyEnd s).exit := rfl

theorem lacksReturn_eq_false_iff {f : Function} :
    f.lacksReturn = false ↔
      (f.returnTy ≠ .void → ∃ pos value, Simple.ret pos value ∈ f.body.statements) := by
  rw [← Block.containsReturn_iff, lacksReturn]
  cases f.body.containsReturn <;> simp

theorem clean_analyze_iff {f : Function} {s : Session} :
    (f.analyze s).Clean ↔ (f.bodyEnd s).Clean ∧ f.lacksReturn = false := by
  rw [analyze_eq, Session.clean_exit]
  split
  · rw [Session.clean_report]
    simp [*, Diagnostic.category, Problem.category]
  · simp [*]

theorem extends_bodyStart (f : Function) (s : Session) : (f.opened s).Extends (f.bodyStart s) :=
  extends_analyzeParams f.params _

theorem types_opened (f : Function) (s : Session) :
    (f.opened s).scopes.types = s.scopes.types.enter := rfl

theorem wellFormed_of_clean {f : Function} {s : Session} (hs : s.scopes.Sound)
    (h : (f.analyze s).Clean) :
    s.Clean ∧ f.WellFormed s.scopes.types ∧ ∀ e ∈ f.body.exprs, e.constantPartFaults = [] := by
  obtain ⟨hend, hreturns⟩ := clean_analyze_iff.1 h
  have hopened : (f.opened s).scopes.Sound := hs.enter _
  obtain ⟨hstart, hbody, hparts⟩ :=
    Block.wellFormed_of_clean_analyze ((f.extends_bodyStart s).sound hopened) hend
  obtain ⟨hclean, hparams⟩ := clean_analyzeParams_iff.1 hstart
  rw [bodyStart, hparams.types_analyzeParams] at hbody
  exact ⟨hclean, ⟨hparams, hbody, lacksReturn_eq_false_iff.1 hreturns⟩, hparts⟩

theorem WellFormed.clean_analyze {f : Function} {s : Session} (hs : s.scopes.Sound)
    (h : f.WellFormed s.scopes.types) (hz : ∀ e ∈ f.body.exprs, e.NoZeroDivisor)
    (hclean : s.Clean) : (f.analyze s).Clean := by
  have hopened : (f.opened s).scopes.Sound := hs.enter _
  have hparams : WellPassed (f.opened s).scopes.types f.params := h.params
  have hstart : (f.bodyStart s).Clean := clean_analyzeParams_iff.2 ⟨hclean, hparams⟩
  have hbody : f.body.WellFormed f.returnTy (f.bodyStart s).scopes.types := by
    rw [bodyStart, hparams.types_analyzeParams]
    exact h.body
  refine clean_analyze_iff.2 ⟨?_, lacksReturn_eq_false_iff.2 h.returns⟩
  exact hbody.clean_analyze ((f.extends_bodyStart s).sound hopened) hz hstart

end Function

/-! ### Global declarations -/

/-- The analysis of global declarations in order. -/
def analyzeGlobals (function entry : String) (ds : List Declaration) (s : Session) : Session :=
  ds.foldl (fun s d ↦ d.analyzeGlobal function entry s) s

namespace Declaration

theorem scopes_analyzeGlobal (function entry : String) (d : Declaration) (s : Session) :
    (d.analyzeGlobal function entry s).scopes = (d.analyze true s).scopes :=
  Session.scopes_reportAll _ _

theorem extends_analyzeGlobal (function entry : String) (d : Declaration) (s : Session) :
    s.Extends (d.analyzeGlobal function entry s) :=
  (d.extends_analyze true s).trans (.of_eq (d.scopes_analyzeGlobal function entry s))

theorem WellFormed.types_analyzeGlobal {d : Declaration} {s : Session}
    (h : d.WellFormed true s.scopes.types) (function entry : String) :
    (d.analyzeGlobal function entry s).scopes.types = Context.declare s.scopes.types d := by
  rw [scopes_analyzeGlobal, h.types_analyze]

/-- On a well-formed declaration, the reserved names are what is reported. -/
theorem WellFormed.quiet_reservedFaults_iff {d : Declaration} {Γ : Context}
    (h : d.WellFormed true Γ) {function entry : String} :
    Quiet (d.reservedFaults function entry) ↔
      ∀ v ∈ d.vars, isReserved v.name function entry = false := by
  rw [reservedFaults]
  rcases hty : d.ty.isStorable with - | -
  · have hnil : d.vars = [] := by
      by_contra hne
      exact absurd (h.storable hne) (by simp [hty])
    simp [hnil]
  · rw [if_pos rfl]
    constructor
    · intro hquiet v hv
      by_contra hreserved
      have hmem : v ∈ d.vars.filter fun v ↦ isReserved v.name function entry :=
        List.mem_filter.2 ⟨hv, by simpa using hreserved⟩
      have hcategory := hquiet _ (List.mem_map_of_mem hmem)
      cases hcategory
    · intro hfree fault hfault
      obtain ⟨v, hv, rfl⟩ := List.mem_map.1 hfault
      obtain ⟨hmem, hreserved⟩ := List.mem_filter.1 hv
      rw [hfree v hmem] at hreserved
      cases hreserved

end Declaration

theorem extends_analyzeGlobals (function entry : String) (ds : List Declaration) (s : Session) :
    s.Extends (analyzeGlobals function entry ds s) := by
  induction ds generalizing s with
  | nil => exact .refl s
  | cons d ds ih => exact (d.extends_analyzeGlobal function entry s).trans (ih _)

theorem WellFormedGlobals.types_analyzeGlobals {function entry : String} {ds : List Declaration}
    {s : Session} (h : WellFormedGlobals function entry s.scopes.types ds) :
    (analyzeGlobals function entry ds s).scopes.types =
      ds.foldl Context.declare s.scopes.types := by
  generalize hΓ : s.scopes.types = Γ at h
  induction h generalizing s with
  | nil => exact hΓ
  | @cons Γ d ds hd _ _ ih =>
    subst hΓ
    exact ih (hd.types_analyzeGlobal function entry)

theorem wellFormedGlobals_of_clean {function entry : String} {ds : List Declaration} {s : Session}
    (hs : s.scopes.Sound) (h : (analyzeGlobals function entry ds s).Clean) :
    s.Clean ∧ WellFormedGlobals function entry s.scopes.types ds ∧
      ∀ e ∈ ds.flatMap Declaration.exprs, e.constantPartFaults = [] := by
  induction ds generalizing s with
  | nil => exact ⟨h, .nil, fun e he ↦ absurd he List.not_mem_nil⟩
  | cons d ds ih =>
    obtain ⟨hclean, hrest, hparts⟩ := ih ((d.extends_analyzeGlobal function entry s).sound hs) h
    obtain ⟨hclean, hquiet⟩ := Session.clean_reportAll.1 hclean
    obtain ⟨hclean, hd, hdparts⟩ := Declaration.wellFormed_of_clean hs hclean
    rw [hd.types_analyzeGlobal] at hrest
    refine ⟨hclean, .cons hd (hd.quiet_reservedFaults_iff.1 hquiet) hrest, fun e he ↦ ?_⟩
    rw [List.flatMap_cons] at he
    exact (List.mem_append.1 he).elim (hdparts e) (hparts e)

theorem WellFormedGlobals.clean {function entry : String} {ds : List Declaration} {s : Session}
    (hs : s.scopes.Sound) (h : WellFormedGlobals function entry s.scopes.types ds)
    (hz : ∀ e ∈ ds.flatMap Declaration.exprs, e.NoZeroDivisor) (hclean : s.Clean) :
    (analyzeGlobals function entry ds s).Clean := by
  generalize hΓ : s.scopes.types = Γ at h
  induction h generalizing s with
  | nil => exact hclean
  | @cons Γ d ds hd hnames _ ih =>
    subst hΓ
    rw [List.flatMap_cons] at hz
    refine ih ((d.extends_analyzeGlobal function entry s).sound hs)
      (fun e he ↦ hz e (List.mem_append_right _ he)) ?_ (hd.types_analyzeGlobal function entry)
    exact Session.clean_reportAll.2
      ⟨hd.clean hs (fun e he ↦ hz e (List.mem_append_left _ he)) hclean,
        hd.quiet_reservedFaults_iff.2 hnames⟩

/-! ### Programs -/

namespace Program

/-- The session after the global declarations of a program, from a fresh one. -/
def globalEnd (entry : String) (p : Program) : Session :=
  analyzeGlobals p.function.name entry p.globals (Session.note {} .analysisStarted)

theorem scopes_analyze (entry : String) (p : Program) :
    (p.analyze entry {}).scopes = (p.function.analyze (p.globalEnd entry)).scopes := rfl

theorem diagnostics_analyze (entry : String) (p : Program) :
    (p.analyze entry {}).diagnostics = (p.function.analyze (p.globalEnd entry)).diagnostics := rfl

theorem sound_globalEnd (entry : String) (p : Program) : (p.globalEnd entry).scopes.Sound :=
  (extends_analyzeGlobals _ entry p.globals _).sound ScopeTree.sound_empty

theorem WellFormed.types_globalEnd {entry : String} {p : Program} (h : p.WellFormed entry) :
    (p.globalEnd entry).scopes.types = Context.ofGlobals p.globals :=
  WellFormedGlobals.types_analyzeGlobals h.globals

/-- A program that is analyzed without error is well formed, and all constant parts of its
expressions have values. -/
theorem wellFormed_of_clean_analyze {entry : String} {p : Program}
    (h : (p.analyze entry {}).Clean) :
    p.WellFormed entry ∧ ∀ e ∈ p.exprs, e.constantPartFaults = [] := by
  have hfunction : (p.function.analyze (p.globalEnd entry)).Clean := h
  obtain ⟨hclean, hf, hbody⟩ := Function.wellFormed_of_clean (p.sound_globalEnd entry) hfunction
  obtain ⟨-, hglobals, hinits⟩ := wellFormedGlobals_of_clean ScopeTree.sound_empty hclean
  have htypes : (p.globalEnd entry).scopes.types = Context.ofGlobals p.globals :=
    WellFormedGlobals.types_analyzeGlobals hglobals
  rw [htypes] at hf
  exact ⟨⟨hglobals, hf⟩, fun e he ↦ (List.mem_append.1 he).elim (hinits e) (hbody e)⟩

theorem WellFormed.clean_analyze {entry : String} {p : Program} (h : p.WellFormed entry)
    (hz : p.NoZeroDivisor) : (p.analyze entry {}).Clean := by
  have hclean : (p.globalEnd entry).Clean := WellFormedGlobals.clean ScopeTree.sound_empty h.globals
    (fun e he ↦ hz e (List.mem_append_left _ he)) rfl
  have hf : p.function.WellFormed (p.globalEnd entry).scopes.types := by
    rw [h.types_globalEnd]
    exact h.function
  exact hf.clean_analyze (p.sound_globalEnd entry) (fun e he ↦ hz e (List.mem_append_right _ he))
    hclean

/-- On a program that divides by no constant zero, the analysis records no error exactly when the
static rules hold. -/
theorem errors_analyze_eq_nil_iff (entry : String) (p : Program) (hz : p.NoZeroDivisor) :
    (p.analyze entry {}).diagnostics.errors = [] ↔ p.WellFormed entry :=
  ⟨fun h ↦ (wellFormed_of_clean_analyze h).1, fun h ↦ h.clean_analyze hz⟩

/-- A program with a shadowing declaration, `int g = 7 / 2; int f(int n) { while (n > 0)
{ int n = n / g; g = n; } return g; }`. -/
def halving : Program where
  globals := [⟨.int, [⟨"g", some (.binary {} .div (.num {} 7) (.num {} 2)), {}⟩], {}⟩]
  function :=
    { returnTy := .int
      name := "f"
      params := [⟨.int, "n", {}⟩]
      body :=
        .loop {} (.binary {} .gt (.var {} "n") (.num {} 0))
          (.simple (.declare ⟨.int,
              [⟨"n", some (.binary {} .div (.var {} "n") (.var {} "g")), {}⟩], {}⟩)
            (.simple (.assign {} "g" (.var {} "n")) .done))
          (.simple (.ret {} (some (.var {} "g"))) .done) }

theorem wellFormed_halving : halving.NoZeroDivisor ∧ halving.WellFormed "_start" := by
  have hz : halving.NoZeroDivisor := by decide +kernel
  exact ⟨hz, (errors_analyze_eq_nil_iff "_start" halving hz).1 (by decide +kernel)⟩

end Program

end BlockLang
