import BlockLang.Compile
import BlockLang.Proofs.Analysis.Origin
import BlockLang.Proofs.Lowering.Blocks

/-!
# Code generation succeeds on analyzed programs

The two passes over a program stay in step: whatever the analysis accepts, code generation
completes, with the code that `Program.assembled` names and without a further diagnostic. A
compilation then has an assembly program exactly when it has no errors, and its internal failures
never show.

No bound on the frame is needed for this. The size of a frame is computed with the wrapping
arithmetic of 32 bits, and an overflow spoils the number and not the run.
-/

namespace BlockLang

namespace Lower

variable {p : Progress} {σ : Site} {T : SymbolTable} {L : Forest}

/-! ### The function -/

theorem goes_params {ps : List Param} (index : Nat) (hp : p.At σ T L)
    (hdeclared : ∀ q ∈ ps, T.Declares q.name q.ty) :
    (params index ps).Goes p (assembleParams index ps σ) (σ.declareParams ps) T L := by
  induction ps generalizing p σ index with
  | nil => exact goes_pure hp _
  | cons q ps ih =>
    have hfirst : (param index q).Goes p (argumentCode index q.ty (σ.slot q.ty))
        (σ.declare q.name q.ty) T L :=
      (goes_allocate hp q.ty).bind fun r hr ↦
        (goes_place hr (hdeclared q List.mem_cons_self) _ q.pos).bind fun u hu ↦ goes_pure hu _
    refine hfirst.bind fun r hr ↦ ?_
    exact (ih (index + 1) hr fun w hw ↦ hdeclared w (List.mem_cons_of_mem _ hw)).bind
      fun u hu ↦ goes_pure hu _

/-! ### Global variables -/

theorem goes_cell (hp : p.At σ T L) {ty : Ty} {v : Declarator} (hv : T.Declares v.name ty)
    (hconst : ∀ e, v.init = some e → e.isConstant = true)
    (hparts : ∀ e, v.init = some e → e.constantPartFaults = []) :
    (cell ty v).Goes p (v.toCell ty) (σ.place v.name ty ⟨ty.width, .cell v.name⟩) T L := by
  unfold cell
  refine Goes.get_bind ?_
  rcases hinit : v.init with - | e
  · refine (goes_pure hp none).bind fun q hq ↦ (goes_place hq hv .cell v.pos).bind fun r hr ↦ ?_
    rw [Declarator.toCell, hinit]
    exact goes_pure hr _
  · -- the initializer is a constant, so the environment does not matter
    have hc : e.isConstant = true := hconst e hinit
    have hfaults : e.valueFaults p.session.scopes.lookup? = [] := by
      rw [Expr.valueFaults_of_isConstant hc, ← Expr.constantPartFaults_of_isConstant hc,
        hparts e hinit]
    have hvalue : e.value p.session.scopes.lookup? = e.constantValue := by
      rw [Expr.value_of_isConstant hc, Expr.constantValue, if_pos hc]
    dsimp only
    rw [hfaults, hvalue]
    refine ((goes_reportAll_nil hp).bind fun q hq ↦ goes_pure hq _).bind fun q hq ↦
      (goes_place hq hv .cell v.pos).bind fun r hr ↦ ?_
    rw [Declarator.toCell, hinit]
    exact goes_pure hr _

theorem goes_cells {ty : Ty} {vs : List Declarator} (hp : p.At σ T L)
    (hdeclared : ∀ v ∈ vs, T.Declares v.name ty)
    (hconst : ∀ v ∈ vs, ∀ e, v.init = some e → e.isConstant = true)
    (hparts : ∀ e ∈ vs.filterMap Declarator.init, e.constantPartFaults = []) :
    (cells ty vs).Goes p (vs.map (·.toCell ty))
      (vs.foldl (fun σ v ↦ σ.place v.name ty ⟨ty.width, .cell v.name⟩) σ) T L := by
  induction vs generalizing p σ with
  | nil => exact goes_pure hp _
  | cons v vs ih =>
    refine (goes_cell hp (hdeclared v List.mem_cons_self) (hconst v List.mem_cons_self)
      fun e he ↦ hparts e (List.mem_filterMap.2 ⟨v, List.mem_cons_self, he⟩)).bind fun q hq ↦ ?_
    refine (ih hq (fun w hw ↦ hdeclared w (List.mem_cons_of_mem _ hw))
      (fun w hw ↦ hconst w (List.mem_cons_of_mem _ hw)) fun e he ↦ hparts e ?_).bind
      fun r hr ↦ goes_pure hr _
    obtain ⟨w, hw, hinit⟩ := List.mem_filterMap.1 he
    exact List.mem_filterMap.2 ⟨w, List.mem_cons_of_mem _ hw, hinit⟩

theorem goes_dataSection {ds : List Declaration} (hp : p.At σ T L)
    (hdeclared : ∀ d ∈ ds, ∀ v ∈ d.vars, T.Declares v.name d.ty)
    (hconst : ∀ d ∈ ds, ∀ v ∈ d.vars, ∀ e, v.init = some e → e.isConstant = true)
    (hparts : ∀ e ∈ ds.flatMap Declaration.exprs, e.constantPartFaults = []) :
    (dataSection ds).Goes p (ds.flatMap fun d ↦ d.vars.map (·.toCell d.ty))
      (ds.foldl Site.declareGlobals σ) T L := by
  induction ds generalizing p σ with
  | nil => exact goes_pure hp _
  | cons d ds ih =>
    rw [List.flatMap_cons] at hparts
    refine (goes_cells hp (hdeclared d List.mem_cons_self) (hconst d List.mem_cons_self)
      fun e he ↦ hparts e (List.mem_append_left _ he)).bind fun q hq ↦ ?_
    exact (ih hq (fun d' hd' ↦ hdeclared d' (List.mem_cons_of_mem _ hd'))
      (fun d' hd' ↦ hconst d' (List.mem_cons_of_mem _ hd'))
      fun e he ↦ hparts e (List.mem_append_right _ he)).bind fun r hr ↦ goes_pure hr _

end Lower

/-! ### Types at the sites of a program -/

theorem Site.types_declareParams (σ : Site) (ps : List Param) :
    (σ.declareParams ps).types = Context.declareParams σ.types ps := by
  induction ps generalizing σ with
  | nil => rfl
  | cons q ps ih =>
    show ((σ.declare q.name q.ty).declareParams ps).types = _
    rw [ih, σ.types_declare]
    rfl

theorem Site.next_declareParams (σ : Site) (ps : List Param) :
    (σ.declareParams ps).next = σ.next := by
  induction ps generalizing σ with
  | nil => rfl
  | cons q ps ih => exact ih (σ.declare q.name q.ty)

theorem Site.types_declareGlobals (σ : Site) (d : Declaration) :
    (σ.declareGlobals d).types = Context.declare σ.types d := by
  rw [declareGlobals, Context.declare]
  generalize d.vars = vs
  induction vs generalizing σ with
  | nil => rfl
  | cons v vs ih =>
    rw [List.foldl_cons, ih, σ.types_place]
    rfl

/-- Global variables take nothing of the frame and no numbers. -/
theorem Site.declareGlobals_eq (σ : Site) (d : Declaration) :
    σ.declareGlobals d = { σ with places := (σ.declareGlobals d).places } := by
  rw [declareGlobals]
  generalize d.vars = vs
  induction vs generalizing σ with
  | nil => rfl
  | cons v vs ih =>
    rw [List.foldl_cons]
    exact ih (σ.place v.name d.ty ⟨d.ty.width, .cell v.name⟩)

namespace Program

theorem types_functionSite (p : Program) :
    p.functionSite.types = Context.ofGlobals p.globals := by
  have h : ∀ (ds : List Declaration) (σ : Site),
      (ds.foldl Site.declareGlobals σ).types = ds.foldl Context.declare σ.types := by
    intro ds
    induction ds with
    | nil => exact fun σ ↦ rfl
    | cons d ds ih =>
      intro σ
      rw [List.foldl_cons, List.foldl_cons, ih, σ.types_declareGlobals]
  exact h p.globals {}

theorem functionSite_eq (p : Program) : p.functionSite = { places := p.functionSite.places } := by
  have h : ∀ (ds : List Declaration) (σ : Site), ds.foldl Site.declareGlobals σ =
      { σ with places := (ds.foldl Site.declareGlobals σ).places } := by
    intro ds
    induction ds with
    | nil => exact fun σ ↦ rfl
    | cons d ds ih =>
      intro σ
      rw [List.foldl_cons, ih, σ.declareGlobals_eq]
  exact h p.globals {}

theorem next_functionSite (p : Program) : p.functionSite.next = 1 := by
  rw [p.functionSite_eq]

theorem scope_functionSite (p : Program) : p.functionSite.scope = 0 := by
  rw [p.functionSite_eq]

end Program

/-- Global initializers are constants. -/
theorem WellFormedGlobals.isConstant {function entry : String} {Γ : Context} {ds : List Declaration}
    (h : WellFormedGlobals function entry Γ ds) :
    ∀ d ∈ ds, ∀ v ∈ d.vars, ∀ e, v.init = some e → e.isConstant = true := by
  have hvars : ∀ {ty : Ty} {Γ : Context} {vs : List Declarator}, WellDeclared true ty Γ vs →
      ∀ v ∈ vs, ∀ e, v.init = some e → e.isConstant = true := by
    intro ty Γ vs hvs
    induction hvs with
    | nil => exact fun v hv ↦ absurd hv List.not_mem_nil
    | cons _ hinit _ ih =>
      intro v hv e he
      rcases List.mem_cons.1 hv with rfl | hv
      · exact (hinit e he).2 rfl
      · exact ih v hv e he
  induction h with
  | nil => exact fun d hd ↦ absurd hd List.not_mem_nil
  | cons hd _ _ ih =>
    intro d' hd' v hv
    rcases List.mem_cons.1 hd' with rfl | hd'
    · exact hvars hd.declared v hv
    · exact ih d' hd' v hv

namespace Program

/-! ### Programs -/

/-- Code generation after the scopes have been rewound. -/
def lowerRewound (o : Options) (p : Program) : Lower Assembly := do
  let cells ← Lower.dataSection p.globals
  let code ← p.function.lower o
  Lower.note (.generationFinished (← get).labels)
  return { entry := o.entryLabel, function := p.function.name, cells, code }

/-- After an analysis there is nothing to rewind. -/
theorem Analyzed.rewind_note {p : Program} {s : Session} (hs : p.Analyzed s.scopes) (e : Event) :
    (s.note e).rewind = s.note e := by
  rw [Session.rewind, Session.scopes_note, hs.rewind_eq]
  rfl

theorem Analyzed.lower_eq (o : Options) {p : Program} {s : Session} (hs : p.Analyzed s.scopes) :
    p.lower o { session := s } = p.lowerRewound o { session := s.note .generationStarted } := by
  show p.lowerRewound o { session := (s.note .generationStarted).rewind } = _
  rw [hs.rewind_note]

/-- The state in which the data section is laid out: nothing has a place, and the scope of the
function is to be visited. -/
theorem Analyzed.at_start {p : Program} {s : Session} (hs : p.Analyzed s.scopes) :
    Progress.At { session := s } {} s.scopes.here.symbols s.scopes.inner := by
  refine ⟨?_, hs.opened.id, rfl, rfl, .refl _, .nil, rfl, hs.opened.visited.symm⟩
  ext1
  · exact funext hs.opened.view_placed?
  · show s.scopes.outer.map _ = []
    rw [hs.outer]
    rfl

/-- The function of a well-formed program is generated as its code at the site after the global
variables. -/
theorem WellFormed.goes_function (o : Options) {entry : String} {p : Program}
    (h : p.WellFormed entry) (hparts : ∀ e ∈ p.exprs, e.constantPartFaults = []) {t : ScopeTree}
    (ht : p.Analyzed t) {q : Progress} (hq : q.At p.functionSite t.here.symbols t.inner) :
    (p.function.lower o).Goes q (p.function.assemble o p.functionSite)
      ((p.function.body.siteAfter (p.function.bodySite p.functionSite)).back p.functionSite)
      t.here.symbols .nil := by
  have hinner := ht.inner
  rcases hforest : t.inner with - | ⟨scope, F, rest⟩
  · rw [hforest] at hinner
    exact hinner.elim
  rw [hforest] at hinner hq
  obtain ⟨hopened, ⟨hparams, hfits⟩, rfl⟩ := hinner
  refine (Lower.goes_note hq _).bind fun q₁ h₁ ↦ ?_
  refine h₁.inBlock p.function.pos (p.next_functionSite.symm ▸ hopened) fun q₂ h₂ ↦ ?_
  refine (Lower.goes_params 0 h₂ hparams).bind fun q₃ h₃ ↦ ?_
  have hnext : (p.function.bodySite p.functionSite).next = 2 := by
    rw [Function.bodySite, Site.next_declareParams]
    exact congrArg (· + 1) p.next_functionSite
  have htypes : (p.function.bodySite p.functionSite).types =
      Context.declareParams (Nest.enter (Context.ofGlobals p.globals)) p.function.params := by
    rw [Function.bodySite, Site.types_declareParams, Site.types_enter, p.types_functionSite]
  have hbody : p.function.body.WellFormed p.function.returnTy
      (p.function.bodySite p.functionSite).types := by
    rw [htypes]
    exact h.function.body
  exact (hbody.goes_lower o p.function.name h₃ (hnext.symm ▸ hfits)
    fun e he ↦ hparts e (List.mem_append_right _ he)).bind fun q₄ h₄ ↦ Lower.goes_pure h₄ _

/-- Code generation for a well-formed program, from the scopes of its analysis. -/
theorem WellFormed.lower_eq_ok (o : Options) {entry : String} {p : Program} (h : p.WellFormed entry)
    (hparts : ∀ e ∈ p.exprs, e.constantPartFaults = []) {s : Session} (hs : p.Analyzed s.scopes) :
    ∃ q, p.lower o { session := s } = .ok (p.assembled o) q ∧
      q.session.diagnostics = s.diagnostics ∧ q.session.scopes.outer = [] ∧
      q.session.scopes.here.id = 0 := by
  have hnoted : p.Analyzed (s.note .generationStarted).scopes := hs
  have hgoes : (p.lowerRewound o).Goes { session := s.note .generationStarted } (p.assembled o)
      ((p.function.body.siteAfter (p.function.bodySite p.functionSite)).back p.functionSite)
      s.scopes.here.symbols .nil := by
    refine (Lower.goes_dataSection hnoted.at_start hs.globals h.globals.isConstant
      fun e he ↦ hparts e (List.mem_append_left _ he)).bind fun q hq ↦ ?_
    refine (h.goes_function o hparts hs hq).bind fun q₁ h₁ ↦ ?_
    refine Lower.Goes.get_bind ?_
    exact (Lower.goes_note h₁ _).bind fun q₂ h₂ ↦ Lower.goes_pure h₂ _
  obtain ⟨q, hq, hat, hkeeps⟩ := hgoes
  refine ⟨q, (hs.lower_eq o).trans hq, hkeeps.diagnostics, hkeeps.outer.trans hs.outer, ?_⟩
  rw [hat.scope]
  exact p.scope_functionSite

/-- A program that is analyzed without error is generated as its closed form. -/
theorem generate_eq_ok (o : Options) {entry : String} {p : Program}
    (h : (p.analyze entry {}).Clean) :
    ∃ s, p.generate o (p.analyze entry {}) = (.ok (p.assembled o), s) ∧
      s.diagnostics = (p.analyze entry {}).diagnostics ∧ s.scopes.outer = [] ∧
      s.scopes.here.id = 0 := by
  obtain ⟨hwf, hparts⟩ := wellFormed_of_clean_analyze h
  obtain ⟨q, hq, hrest⟩ := hwf.lower_eq_ok o hparts hwf.analyzed
  refine ⟨q.session, ?_, hrest⟩
  have hrun : (p.lower o).run { session := p.analyze entry {} } = .ok (p.assembled o) q := hq
  rw [generate, hrun]

theorem hasErrors_eq_false_iff {s : Session} : s.diagnostics.hasErrors = false ↔ s.Clean := by
  rw [Diagnostics.hasErrors, Session.Clean]
  cases s.diagnostics.errors <;> simp

theorem hasErrors_eq_true_iff {s : Session} : s.diagnostics.hasErrors = true ↔ ¬s.Clean := by
  rw [← hasErrors_eq_false_iff, Bool.not_eq_false]

/-- A compilation ends in one of two ways: the analysis found errors and there is no code, or it
found none and there is the code of the program. In both, the diagnostics are those of the
analysis. -/
theorem compile_cases (o : Options) (p : Program) :
    (p.compile o).session.diagnostics = (p.analyze o.entryLabel {}).diagnostics ∧
      (¬(p.analyze o.entryLabel {}).Clean ∧ (p.compile o).assembly = none ∨
        (p.analyze o.entryLabel {}).Clean ∧ (p.compile o).assembly = some (p.assembled o)) := by
  rw [compile]
  by_cases hclean : (p.analyze o.entryLabel {}).Clean
  · have herrors : (p.analyze o.entryLabel {}).diagnostics.hasErrors = false :=
      hasErrors_eq_false_iff.2 hclean
    obtain ⟨s, hs, hdiag, -⟩ := generate_eq_ok o hclean
    simp only [herrors, hs, hdiag]
    exact ⟨hdiag, .inr ⟨hclean, rfl⟩⟩
  · rw [if_pos (hasErrors_eq_true_iff.2 hclean)]
    exact ⟨rfl, .inl ⟨hclean, rfl⟩⟩

/-- A program that has been compiled was analyzed without error, and the assembly program is its
closed form. -/
theorem clean_of_compile {o : Options} {p : Program} {a : Assembly}
    (h : (p.compile o).assembly = some a) :
    (p.analyze o.entryLabel {}).Clean ∧ p.assembled o = a := by
  obtain ⟨-, ⟨-, hnone⟩ | ⟨hclean, hsome⟩⟩ := p.compile_cases o
  · rw [hnone] at h
    cases h
  · exact ⟨hclean, Option.some.inj (hsome.symm.trans h)⟩

/-- A compilation has an assembly program exactly if the analysis found no errors. -/
theorem isSome_assembly_compile (o : Options) (p : Program) :
    (p.compile o).assembly.isSome = true ↔ (p.analyze o.entryLabel {}).Clean := by
  obtain ⟨-, ⟨hnot, hnone⟩ | ⟨hclean, hsome⟩⟩ := p.compile_cases o
  · simp [hnone, hnot]
  · simp [hsome, hclean]

/-- Code generation completes on every program that is analyzed without error, at the outermost
scope and without touching the diagnostics. So a compilation has an assembly program exactly when it
has no errors, and no diagnostic of a compilation is on a failure of code generation. -/
theorem generate_of_analyzed (o : Options) (p : Program) :
    (∀ entry, (p.analyze entry {}).diagnostics.errors = [] →
      ∃ a s, p.generate o (p.analyze entry {}) = (.ok a, s) ∧
        s.scopes.outer = [] ∧ s.scopes.here.id = 0 ∧
        s.diagnostics = (p.analyze entry {}).diagnostics) ∧
    ((p.compile o).assembly.isSome = true ↔ (p.compile o).session.diagnostics.errors = []) ∧
    ∀ d ∈ (p.compile o).session.diagnostics.errors ++ (p.compile o).session.diagnostics.warnings,
      ∀ e, d.problem ≠ .lowering e := by
  obtain ⟨hdiag, hcases⟩ := p.compile_cases o
  refine ⟨fun entry hclean ↦ ?_, ?_, ?_⟩
  · obtain ⟨s, hs, hkept, houter, hid⟩ := generate_eq_ok o hclean
    exact ⟨p.assembled o, s, hs, houter, hid, hkept⟩
  · rw [hdiag]
    rcases hcases with ⟨hnot, hnone⟩ | ⟨hclean, hsome⟩
    · rw [hnone]
      exact ⟨fun h ↦ absurd h (by simp), fun h ↦ absurd h hnot⟩
    · rw [hsome]
      exact ⟨fun _ ↦ hclean, fun _ ↦ rfl⟩
  · rw [hdiag]
    exact native_append.2 (p.native_analyze o.entryLabel)

theorem generate_halving :
    (halving.analyze "_start" {}).diagnostics.errors = [] ∧
      (∃ a s, halving.generate {} (halving.analyze "_start" {}) = (.ok a, s) ∧
        s.scopes.outer = [] ∧ s.scopes.here.id = 0 ∧
        s.diagnostics = (halving.analyze "_start" {}).diagnostics) ∧
      (halving.compile {}).assembly.isSome = true := by
  have hclean : (halving.analyze "_start" {}).diagnostics.errors = [] := by decide +kernel
  obtain ⟨hgenerate, hiff, -⟩ := generate_of_analyzed {} halving
  exact ⟨hclean, hgenerate "_start" hclean, hiff.2 (by decide +kernel)⟩

end Program

end BlockLang
