import BlockLang.Proofs.Resolution.Analysis

/-!
# The passes resolve names alike

The analysis looks a name up in scopes that grow as it walks; code generation looks it up in the
finished scopes and takes a place for a sign that the declaration has been passed. The two find the
same declaration at every occurrence of a variable (`Program.analysisUses_eq_loweringUses`).

Both walks are compared with the walk over sites. Code generation stands at a site in the sense of
`Progress.At`, which is what `BlockLang.Proofs.Lowering.Blocks` establishes at every point of a
well-formed block.
-/

namespace BlockLang

/-! ### Code generation -/

theorem Lower.Goes.after_at {α : Type} {m : Lower α} {p : Progress} {a : α} {σ : Site}
    {T : SymbolTable} {L : Forest} (h : m.Goes p a σ T L) : (m.after p).At σ T L := by
  obtain ⟨q, hq, hat, -⟩ := h
  rw [Lower.after, hq]
  exact hat

namespace Progress

variable {p : Progress} {σ : Site} {T : SymbolTable} {L : Forest}

theorem At.find_eq (h : p.At σ T L) (o : Options) (f : String) :
    (loweringWalk o f).find p = siteWalk.find σ := by
  funext x
  show (p.session.scopes.storedBinding? x).map _ = (σ.places.find? x).map Placed.owner
  rw [← h.places, ScopeTree.find?_places]
  rcases hentry : p.session.scopes.storedBinding? x with - | ⟨i, sym⟩
  · rfl
  · -- what is found has a place
    have hstored : sym.storage.isSome := by
      obtain ⟨scope, -, hsome⟩ := List.exists_of_findSome?_eq_some hentry
      obtain ⟨sym', hfilter, heq⟩ := Option.map_eq_some_iff.1 hsome
      obtain rfl : sym' = sym := congrArg Prod.snd heq
      exact (Option.filter_eq_some_iff.1 hfilter).2
    obtain ⟨storage, hstorage⟩ := Option.isSome_iff_exists.1 hstored
    simp [Symbol.placed?, Symbol.operand?, hstorage, Placed.owner]

theorem At.declaratorUses_eq (h : p.At σ T L) (o : Options) (f : String) {ty : Ty}
    {vs : List Declarator} (hdeclared : ∀ v ∈ vs, T.Declares v.name ty)
    (hvs : WellDeclared false ty σ.types vs)
    (hparts : ∀ e ∈ vs.filterMap Declarator.init, e.constantPartFaults = []) :
    (loweringWalk o f).declaratorUses ty vs p = siteWalk.declaratorUses ty vs σ := by
  induction vs generalizing p σ with
  | nil => rfl
  | cons v vs ih =>
    cases hvs with
    | cons _ hinit hrest =>
      have hfirst := Lower.goes_declarator o h (hdeclared v List.mem_cons_self)
        (fun e he ↦ (hinit e he).1)
        fun e he ↦ hparts e (List.mem_filterMap.2 ⟨v, List.mem_cons_self, he⟩)
      rw [← σ.types_declare] at hrest
      have hlater := ih hfirst.after_at (fun w hw ↦ hdeclared w (List.mem_cons_of_mem _ hw)) hrest
        fun e he ↦ by
          obtain ⟨w, hw, hinit⟩ := List.mem_filterMap.1 he
          exact hparts e (List.mem_filterMap.2 ⟨w, List.mem_cons_of_mem _ hw, hinit⟩)
      exact congrArg₂ (· ++ ·) (Walk.optionUses_congr (h.find_eq o f) v.init) hlater

/-- The first statement of a well-formed block. -/
theorem At.simpleUses_eq (h : p.At σ T L) (o : Options) (f : String) {result : Ty} {a : Simple}
    {rest : Block} (hwf : (Block.simple a rest).WellFormed result σ.types)
    (hdeclared : a.DeclaredIn T) (hparts : ∀ e ∈ a.exprs, e.constantPartFaults = []) :
    (loweringWalk o f).simpleUses p a = siteWalk.simpleUses σ a := by
  have hfind := h.find_eq o f
  cases hwf with
  | declare hd _ => exact h.declaratorUses_eq o f hdeclared hd.declared hparts
  | @assign _ pos x e _ _ _ he _ =>
    have hvalue := (Lower.goes_expr o.foldConstants h he (hparts e List.mem_cons_self)).after_at
    have hstore : (loweringWalk o f).find ((loweringWalk o f).value e p) = siteWalk.find σ :=
      hvalue.find_eq o f
    rw [Walk.simpleUses, Walk.simpleUses, hfind, hstore]
    rfl
  | @ret _ _ e _ _ _ => exact Walk.optionUses_congr hfind (some e)
  | retVoid _ _ => exact Walk.optionUses_congr hfind none
  | eval _ _ => rw [Walk.simpleUses, Walk.simpleUses, hfind]

/-- The scope of the block of a construct. -/
theorem At.after_enterBlock {s : Scope} {i : Forest} (h : p.At σ T (.cons s i L)) (pos : Pos)
    (hopened : s.Opened σ.next) : ((Lower.enterBlock pos).after p).At σ.enter s.symbols i := by
  obtain ⟨-, q, hq, hat, -⟩ := h.enterBlock pos hopened
  rw [Lower.after, hq]
  exact hat

/-- The state after the block of a construct. -/
theorem At.after_inBlock {s : Scope} {i : Forest} (h : p.At σ T (.cons s i L)) (o : Options)
    (f : String) (pos : Pos) (hopened : s.Opened σ.next) {result : Ty} {b : Block}
    (hwf : b.WellFormed result σ.types.enter) (hfits : b.Fits (σ.next + 1) s.symbols i)
    (hparts : ∀ e ∈ b.exprs, e.constantPartFaults = []) :
    ((Lower.inBlock pos (b.lower o f)).after p).At (b.siteInside σ) T L :=
  (h.inBlock pos hopened fun _ hq ↦
    Block.WellFormed.goes_lower o f (σ := σ.enter) hwf hq hfits hparts).after_at

/-- The condition of a construct, and the state after it. -/
theorem At.after_test (h : p.At σ T L) (o : Options) (f : String) (k : Construct) {c : Expr}
    (hc : c.HasType σ.types.find? .bool) (hpart : c.constantPartFaults = []) :
    ((loweringWalk o f).tested k c p).At σ.number T L ∧
      c.uses ((loweringWalk o f).find ((loweringWalk o f).test k p)) =
        c.uses (siteWalk.find σ.number) := by
  have h₁ := (Lower.goes_freshLabel h).after_at
  refine ⟨(Lower.goes_expr o.foldConstants h₁ hc hpart).after_at, ?_⟩
  rw [← h₁.find_eq o f]
  rfl

/-- Code generation for a well-formed block has the uses of the walk over sites. -/
theorem At.blockUses_eq (h : p.At σ T L) (o : Options) (f : String) {result : Ty} {b : Block}
    (hwf : b.WellFormed result σ.types) (hfits : b.Fits σ.next T L)
    (hparts : ∀ e ∈ b.exprs, e.constantPartFaults = []) :
    (loweringWalk o f).blockUses b p = siteWalk.blockUses b σ := by
  induction b generalizing p σ T L with
  | done => rfl
  | simple a rest ih =>
    obtain ⟨hpartsa, hparts⟩ := Block.forall_mem_exprs_simple.1 hparts
    have hnext : (a.siteAfter σ).next = σ.next := a.next_siteAfter σ
    have hlater := ih (hwf.goes_simple o f h hfits.1 hpartsa).after_at hwf.rest
      (hnext.symm ▸ hfits.2) hparts
    exact congrArg₂ (· ++ ·) (h.simpleUses_eq o f hwf hfits.1 hpartsa) hlater
  | ifThen pos c t rest iht ih =>
    obtain ⟨hc, ht, hrest⟩ := Block.wellFormed_ifThen.1 hwf
    obtain ⟨hpartc, hpartst, hparts⟩ := Block.forall_mem_exprs_ifThen.1 hparts
    cases L with
    | nil => exact hfits.elim
    | cons s i L =>
      obtain ⟨hopened, hfitt, hfitrest⟩ := hfits
      obtain ⟨h₁, hcond⟩ := h.after_test o f .cond hc hpartc
      have h₂ := h₁.after_inBlock o f pos hopened ht hfitt hpartst
      have hinner := iht (h₁.after_enterBlock pos hopened) ht hfitt hpartst
      have hafter := ih h₂ hrest ((t.next_siteInside σ.number).symm ▸ hfitrest) hparts
      exact congrArg₂ (· ++ ·) (congrArg₂ (· ++ ·) hcond hinner) hafter
  | ifElse pos c t e rest iht ihe ih =>
    obtain ⟨hc, ht, he, hrest⟩ := Block.wellFormed_ifElse.1 hwf
    obtain ⟨hpartc, hpartst, hpartse, hparts⟩ := Block.forall_mem_exprs_ifElse.1 hparts
    cases L with
    | nil => exact hfits.elim
    | cons s i L =>
      obtain ⟨hopened, hfitt, hlater⟩ := hfits
      cases L with
      | nil => exact hlater.elim
      | cons s' i' L =>
        obtain ⟨hopened', hfite, hfitrest⟩ := hlater
        -- the scopes of the second block are numbered after those of the first
        have hnext : (t.siteInside σ.number).next = σ.next + (t.scopeCount + 1) :=
          t.next_siteInside σ.number
        have hnext' : (e.siteInside (t.siteInside σ.number)).next =
            σ.next + (t.scopeCount + 1) + (e.scopeCount + 1) := by
          rw [e.next_siteInside, hnext]
        rw [← hnext] at hopened' hfite
        obtain ⟨h₁, hcond⟩ := h.after_test o f .cond hc hpartc
        have h₂ := h₁.after_inBlock o f pos hopened ht hfitt hpartst
        have h₃ := h₂.after_inBlock o f pos hopened' he hfite hpartse
        have hpositive := iht (h₁.after_enterBlock pos hopened) ht hfitt hpartst
        have hnegative := ihe (h₂.after_enterBlock pos hopened') he hfite hpartse
        have hafter := ih h₃ hrest (hnext'.symm ▸ hfitrest) hparts
        exact congrArg₂ (· ++ ·)
          (congrArg₂ (· ++ ·) (congrArg₂ (· ++ ·) hcond hpositive) hnegative) hafter
  | loop pos c b rest ihb ih =>
    obtain ⟨hc, hb, hrest⟩ := Block.wellFormed_loop.1 hwf
    obtain ⟨hpartc, hpartsb, hparts⟩ := Block.forall_mem_exprs_loop.1 hparts
    cases L with
    | nil => exact hfits.elim
    | cons s i L =>
      obtain ⟨hopened, hfitb, hfitrest⟩ := hfits
      obtain ⟨h₁, hcond⟩ := h.after_test o f .loop hc hpartc
      have h₂ := h₁.after_inBlock o f pos hopened hb hfitb hpartsb
      have hinner := ihb (h₁.after_enterBlock pos hopened) hb hfitb hpartsb
      have hafter := ih h₂ hrest ((b.next_siteInside σ.number).symm ▸ hfitrest) hparts
      exact congrArg₂ (· ++ ·) (congrArg₂ (· ++ ·) hcond hinner) hafter

end Progress

/-! ### Programs -/

namespace Program

/-- Code generation up to the body of the function. -/
def lowerHead (o : Options) (p : Program) : Lower (List Cell × List Line) := do
  Lower.note .generationStarted
  Lower.onSession Session.rewind
  let cells ← Lower.dataSection p.globals
  Lower.note (.framed p.function.name (p.function.frameBytes o))
  Lower.enterBlock p.function.pos
  let params ← Lower.params 0 p.function.params
  return (cells, params)

/-- Code generation is its head, the body of the function and a rest that looks no name up. -/
theorem lower_eq_head_bind (o : Options) (p : Program) :
    p.lower o = (do
      let (cells, params) ← p.lowerHead o
      let body ← p.function.body.lower o p.function.name
      Lower.leaveBlock p.function.pos
      Lower.note (.generationFinished (← get).labels)
      return { entry := o.entryLabel, function := p.function.name, cells,
               code := prologue p.function.name (p.function.frameBytes o) ++ params ++ body ++
                 epilogue p.function.name p.function.body.alwaysReturns }) := by
  simp [lower, lowerHead, Function.lower, Function.frameBytes, Lower.inBlock]

/-- The uses in the function body, as the analysis from a fresh session finds them. -/
def analysisUses (entry : String) (p : Program) : List Use :=
  (analysisWalk p.function.returnTy).blockUses p.function.body
    (p.function.bodyStart (p.globalEnd entry))

/-- The uses in the function body, as code generation from the session `s` finds them. -/
def loweringUses (o : Options) (p : Program) (s : Session) : List Use :=
  (loweringWalk o p.function.name).blockUses p.function.body
    ((p.lowerHead o).after { session := s })

theorem WellFormed.mirrors_bodyStart {entry : String} {p : Program} (h : p.WellFormed entry) :
    (p.function.bodyStart (p.globalEnd entry)).Mirrors (p.function.bodySite p.functionSite) := by
  have hfresh : (Session.note {} .analysisStarted).Mirrors {} :=
    ⟨rfl, rfl, rfl, rfl, ScopeTree.sound_empty⟩
  have hglobals : (p.globalEnd entry).Mirrors p.functionSite := hfresh.globals h.globals
  have hopened : (p.function.opened (p.globalEnd entry)).Mirrors p.functionSite.enter :=
    (hglobals.of_eq (Session.scopes_note _ _)).enter _
  refine hopened.params ?_
  rw [Site.types_enter, p.types_functionSite]
  exact h.function.params

/-- The state in which code generation comes to the body of the function. -/
theorem WellFormed.at_bodyStart (o : Options) {entry : String} {p : Program}
    (h : p.WellFormed entry) (hparts : ∀ e ∈ p.exprs, e.constantPartFaults = []) {s : Session}
    (hs : p.Analyzed s.scopes) :
    ∃ T F, ((p.lowerHead o).after { session := s }).At (p.function.bodySite p.functionSite) T F ∧
      p.function.body.Fits 2 T F := by
  have hinner := hs.inner
  rcases hforest : s.scopes.inner with - | ⟨scope, F, rest⟩
  · rw [hforest] at hinner
    exact hinner.elim
  rw [hforest] at hinner
  obtain ⟨hopened, ⟨hparams, hfits⟩, rfl⟩ := hinner
  have hnoted : p.Analyzed (s.note .generationStarted).scopes := hs
  have hstart := hnoted.at_start
  rw [Session.scopes_note, hforest] at hstart
  obtain ⟨q₁, hq₁, h₁, -⟩ := Lower.goes_dataSection hstart hs.globals h.globals.isConstant
    fun e he ↦ hparts e (List.mem_append_left _ he)
  obtain ⟨q₂, hq₂, h₂, -⟩ :=
    Lower.goes_note h₁ (.framed p.function.name (p.function.frameBytes o))
  obtain ⟨-, q₃, hq₃, h₃, -⟩ := h₂.enterBlock p.function.pos (p.next_functionSite.symm ▸ hopened)
  obtain ⟨q₄, hq₄, h₄, -⟩ := Lower.goes_params 0 h₃ hparams
  refine ⟨scope.symbols, F, ?_, hfits⟩
  have hrun : p.lowerHead o { session := s } =
      .ok (p.dataCells, assembleParams 0 p.function.params p.functionSite.enter) q₄ := by
    show EStateM.bind (Lower.dataSection p.globals) _
      { session := (s.note .generationStarted).rewind } = _
    rw [hs.rewind_note, EStateM.bind, hq₁]
    show EStateM.bind (Lower.note _) _ q₁ = _
    rw [EStateM.bind, hq₂]
    show EStateM.bind (Lower.enterBlock _) _ q₂ = _
    rw [EStateM.bind, hq₃]
    show EStateM.bind (Lower.params 0 _) _ q₃ = _
    rw [EStateM.bind, hq₄]
    rfl
  rw [Lower.after, hrun]
  exact h₄

/-- For a program that is analyzed without error, the first code generation finds at every
occurrence of a variable in the function body the declaration that the analysis found there. No
occurrence is left out, and none is without a declaration. -/
theorem analysisUses_eq_loweringUses (o : Options) (entry : String) (p : Program)
    (h : (p.analyze entry {}).diagnostics.errors = []) :
    p.analysisUses entry = p.loweringUses o (p.analyze entry {}) ∧
      (p.analysisUses entry).map Use.occurrence = p.function.body.occurrences ∧
      ∀ u ∈ p.analysisUses entry, ∃ scope, u.entry = some (scope, u.name) := by
  obtain ⟨hwf, hparts⟩ := wellFormed_of_clean_analyze h
  have hmirrors := hwf.mirrors_bodyStart
  have hbody : p.function.body.WellFormed p.function.returnTy
      (p.function.bodySite p.functionSite).types := by
    rw [Function.bodySite, Site.types_declareParams, Site.types_enter, p.types_functionSite]
    exact hwf.function.body
  obtain ⟨hanalysis, hfound⟩ := hmirrors.blockUses_eq hbody
  obtain ⟨T, F, hat, hfits⟩ := hwf.at_bodyStart o hparts hwf.analyzed
  have hnext : (p.function.bodySite p.functionSite).next = 2 := by
    rw [Function.bodySite, Site.next_declareParams]
    exact congrArg (· + 1) p.next_functionSite
  have hlowering := hat.blockUses_eq o p.function.name hbody (hnext.symm ▸ hfits)
    fun e he ↦ hparts e (List.mem_append_right _ he)
  refine ⟨hanalysis.trans hlowering.symm, ?_, ?_⟩
  · exact (analysisWalk p.function.returnTy).map_occurrence_blockUses p.function.body _
  · rw [analysisUses, hanalysis]
    exact hfound

/-- A program that reads outer variables before inner declarations of the same name:
`int x = 1; int f(int n) { int y = n; if (n > 0) { y = x; int x = x, z = x; y = z; } else
{ int x = 2; y = x; } return x; }`. -/
def shadowing : Program where
  globals := [⟨.int, [⟨"x", some (.num {} 1), {}⟩], {}⟩]
  function :=
    { returnTy := .int
      name := "f"
      params := [⟨.int, "n", {}⟩]
      body :=
        .simple (.declare ⟨.int, [⟨"y", some (.var {} "n"), {}⟩], {}⟩)
          (.ifElse {} (.binary {} .gt (.var {} "n") (.num {} 0))
            (.simple (.assign {} "y" (.var {} "x"))
              (.simple (.declare ⟨.int,
                  [⟨"x", some (.var {} "x"), {}⟩, ⟨"z", some (.var {} "x"), {}⟩], {}⟩)
                (.simple (.assign {} "y" (.var {} "z")) .done)))
            (.simple (.declare ⟨.int, [⟨"x", some (.num {} 2), {}⟩], {}⟩)
              (.simple (.assign {} "y" (.var {} "x")) .done))
            (.simple (.ret {} (some (.var {} "x"))) .done)) }

theorem loweringUses_shadowing :
    (shadowing.analyze "_start" {}).diagnostics.errors = [] ∧
      shadowing.analysisUses "_start" =
        shadowing.loweringUses {} (shadowing.analyze "_start" {}) ∧
      (shadowing.loweringUses {} (shadowing.analyze "_start" {})).map Use.entry =
        [some (1, "n"), some (1, "n"), some (0, "x"), some (1, "y"), some (0, "x"), some (2, "x"),
          some (2, "z"), some (1, "y"), some (3, "x"), some (1, "y"), some (0, "x")] := by
  have hclean : (shadowing.analyze "_start" {}).diagnostics.errors = [] := by decide +kernel
  have huses := (analysisUses_eq_loweringUses {} "_start" shadowing hclean).1
  refine ⟨hclean, huses, ?_⟩
  rw [← huses]
  decide +kernel

end Program

end BlockLang
