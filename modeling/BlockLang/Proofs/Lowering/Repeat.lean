import BlockLang.Proofs.Correctness.Programs
import BlockLang.Proofs.Lowering.Reassembly
import BlockLang.Proofs.Lowering.Settle

/-!
# Code generation repeated

Code generation takes a place for a sign that a declaration has been passed, and rewinding the
scopes does not take the places away. So a second generation on the same session starts with all
variables placed. It completes like the first one, puts every variable where it is already, and
leaves the scopes as they were. In the code it looks names up among places known in advance, and its
assembly program is the one of the first generation exactly if the text captures no occurrence of a
variable (`Program.generate_generate`).
-/

namespace BlockLang

/-! ### Statements -/

theorem Site.Foretold.covers {σ ω : Site} {ρ : Nest Placed} {ν : Outlook}
    (h : σ.Foretold ω ρ ν) : (σ.over ρ).Covers σ.types := by
  intro x t hx
  obtain ⟨-, q', -, hq', -⟩ := h.echoed hx
  exact ⟨q', hq'⟩

namespace Lower

variable {p : Progress} {σ ω : Site} {ρ : Nest Placed} {ν : Outlook} {T : SymbolTable} {L : Forest}

/-- Variables of the function that have their places already. -/
theorem goes_declarators_over (o : Options) {ty : Ty} {vs : List Declarator}
    (hσ : σ.Foretold ω ρ ν) (hp : p.At (σ.over ρ) T L) (hdeclared : ∀ v ∈ vs, T.Declares v.name ty)
    (h : WellDeclared false ty σ.types vs) (hty : vs ≠ [] → ty.isStorable)
    (hgrows : (σ.declareAll ty vs).Grows ω)
    (hparts : ∀ e ∈ vs.filterMap Declarator.init, e.constantPartFaults = []) :
    (declarators o ty vs).Goes p (assembleAll o.foldConstants ty vs (σ.over ρ))
      ((σ.declareAll ty vs).over ρ) T L := by
  induction vs generalizing p σ ν with
  | nil => exact goes_pure hp _
  | cons v vs ih =>
    cases h with
    | cons _ hinit hrest =>
      rw [← σ.types_declare] at hrest
      have hstorable : vs ≠ [] → ty.isStorable := fun _ ↦ hty (List.cons_ne_nil v vs)
      have hnext : (σ.declare v.name ty).Grows ω :=
        (Site.grows_declareAll hrest hstorable).trans hgrows
      refine (goes_declarator_of_covers o hp hσ.covers (hdeclared v List.mem_cons_self)
        (fun e he ↦ (hinit e he).1)
        fun e he ↦ hparts e (List.mem_filterMap.2 ⟨v, List.mem_cons_self, he⟩)).bind fun q hq ↦ ?_
      rw [σ.over_declare ω hσ.here hnext] at hq
      rw [assembleAll, σ.over_declare ω hσ.here hnext]
      refine (ih (hσ.declare hnext) hq (fun w hw ↦ hdeclared w (List.mem_cons_of_mem _ hw)) hrest
        hstorable hgrows fun e he ↦ hparts e ?_).bind fun r hr ↦ goes_pure hr _
      obtain ⟨w, hw, hinit⟩ := List.mem_filterMap.1 he
      exact List.mem_filterMap.2 ⟨w, List.mem_cons_of_mem _ hw, hinit⟩

end Lower

namespace Block

variable {p : Progress} {σ ω : Site} {ρ : Nest Placed} {ν : Outlook} {T : SymbolTable} {L : Forest}

/-- The first statement of a well-formed block. -/
theorem WellFormed.goes_simple_over (o : Options) (f : String) {result : Ty} {a : Simple}
    {rest : Block} (h : (simple a rest).WellFormed result σ.types) (hσ : σ.Foretold ω ρ ν)
    (hgrows : (a.siteAfter σ).Grows ω) (hp : p.At (σ.over ρ) T L) (hdeclared : a.DeclaredIn T)
    (hparts : ∀ e ∈ a.exprs, e.constantPartFaults = []) :
    (a.lower o f).Goes p (a.assemble o f (σ.over ρ)) ((a.siteAfter σ).over ρ) T L := by
  have hcode : (a.code o f).Goes p (a.body o.foldConstants f (σ.over ρ))
      ((a.siteAfter σ).over ρ) T L := by
    cases h with
    | declare hd _ =>
      exact Lower.goes_declarators_over o hσ hp hdeclared hd.declared hd.storable hgrows hparts
    | @assign _ pos x e _ _ hx he _ =>
      exact (Lower.goes_expr_of_covers o.foldConstants hp hσ.covers he
        (hparts e List.mem_cons_self)).bind fun q hq ↦
          (Lower.goes_store_of_covers hq hσ.covers hx pos).bind fun r hr ↦ Lower.goes_pure hr _
    | @ret _ _ e _ he _ =>
      exact (Lower.goes_expr_of_covers o.foldConstants hp hσ.covers he
        (hparts e List.mem_cons_self)).bind fun q hq ↦ Lower.goes_pure hq _
    | retVoid _ _ => exact Lower.goes_pure hp _
    | @eval _ _ e _ _ he _ =>
      exact Lower.goes_expr_of_covers o.foldConstants hp hσ.covers he
        (hparts e List.mem_cons_self)
  exact hcode.bind fun q hq ↦ Lower.goes_pure hq _

/-! ### Blocks -/

/-- A step in the scope of the block `t`, which is entered with all its places. -/
theorem inBlock_over {m : Lower (List Line)} {code : List Line} {t : Block} {s : Scope} {i : Forest}
    (hp : p.At (σ.over ρ) T (.cons s i L)) (pos : Pos) (hs : s.SettledFor σ t)
    (hm : ∀ q, q.At (σ.enter.over (t.foreseen σ ρ)) s.symbols i →
      m.Goes q code ((t.siteAfter σ.enter).over (t.foreseen σ ρ)) s.symbols .nil) :
    (Lower.inBlock pos m).Goes p code ((t.siteInside σ).over ρ) T L := by
  show (Lower.inBlock pos m).Goes p code
    (((t.siteAfter σ.enter).over (t.foreseen σ ρ)).back (σ.over ρ)) T L
  refine hp.inScope pos hs.id hs.visited fun q hq ↦ hm q ?_
  rw [hs.view] at hq
  exact hq

/-- Code generation for a well-formed block whose variables all have their places yields the code of
the block with these places. -/
theorem WellFormed.goes_lower_over (o : Options) (f : String) {result : Ty} {b : Block}
    (h : b.WellFormed result σ.types) (hσ : σ.Foretold (b.siteAfter σ) ρ ν)
    (hp : p.At (σ.over ρ) T L) (hfits : b.FitsAt Scope.SettledFor σ T L)
    (hparts : ∀ e ∈ b.exprs, e.constantPartFaults = []) :
    (b.lower o f).Goes p (b.reassemble o f σ ρ) ((b.siteAfter σ).over ρ) T .nil := by
  induction b generalizing p σ ρ ν T L with
  | done =>
    obtain rfl : L = .nil := hfits
    exact Lower.goes_pure hp _
  | simple a rest ih =>
    obtain ⟨hpartsa, hparts⟩ := forall_mem_exprs_simple.1 hparts
    obtain ⟨-, hafter, -⟩ := hσ.simple o f h h.rest.grows
    refine (h.goes_simple_over o f hσ h.rest.grows hp hfits.1 hpartsa).bind fun q hq ↦ ?_
    exact (ih h.rest hafter hq hfits.2 hparts).bind fun r hr ↦ Lower.goes_pure hr _
  | ifThen pos c t rest iht ih =>
    obtain ⟨hc, ht, hrest⟩ := wellFormed_ifThen.1 h
    obtain ⟨hpartc, hpartst, hparts⟩ := forall_mem_exprs_ifThen.1 hparts
    have hgrows : (t.siteInside σ.number).Grows (rest.siteAfter (t.siteInside σ.number)) :=
      WellFormed.grows hrest
    cases L with
    | nil => exact hfits.elim
    | cons s i L =>
      obtain ⟨hs, hfitst, hfits⟩ := hfits
      refine (Lower.goes_freshLabel hp).bind fun p₁ h₁ ↦ ?_
      refine (Lower.goes_expr_of_covers o.foldConstants h₁ hσ.covers hc hpartc).bind
        fun p₂ h₂ ↦ ?_
      refine (inBlock_over (σ := σ.number) h₂ pos hs fun q hq ↦
        iht (σ := σ.number.enter) ht (hσ.number.enter ht hgrows) hq hfitst hpartst).bind
        fun p₃ h₃ ↦ ?_
      exact (ih (σ := t.siteInside σ.number) hrest (hσ.number.inside hgrows) h₃ hfits hparts).bind
        fun p₄ h₄ ↦ Lower.goes_pure h₄ _
  | ifElse pos c t e rest iht ihe ih =>
    obtain ⟨hc, ht, he, hrest⟩ := wellFormed_ifElse.1 h
    obtain ⟨hpartc, hpartst, hpartse, hparts⟩ := forall_mem_exprs_ifElse.1 hparts
    have hgrows' : (e.siteInside (t.siteInside σ.number)).Grows
        (rest.siteAfter (e.siteInside (t.siteInside σ.number))) := WellFormed.grows hrest
    have hgrows := (Site.grows_siteInside (t.siteInside σ.number) e).trans hgrows'
    have hafter := hσ.number.inside hgrows
    cases L with
    | nil => exact hfits.elim
    | cons s i L =>
      obtain ⟨hs, hfitst, hlater⟩ := hfits
      cases L with
      | nil => exact hlater.elim
      | cons s' i' L =>
        obtain ⟨hs', hfitse, hfits⟩ := hlater
        refine (Lower.goes_freshLabel hp).bind fun p₁ h₁ ↦ ?_
        refine (Lower.goes_expr_of_covers o.foldConstants h₁ hσ.covers hc hpartc).bind
          fun p₂ h₂ ↦ ?_
        refine (inBlock_over (σ := σ.number) h₂ pos hs fun q hq ↦
          iht (σ := σ.number.enter) ht (hσ.number.enter ht hgrows) hq hfitst hpartst).bind
          fun p₃ h₃ ↦ ?_
        refine (inBlock_over h₃ pos hs' fun q hq ↦ ihe (σ := (t.siteInside σ.number).enter) he
          (hafter.enter he hgrows') hq hfitse hpartse).bind fun p₄ h₄ ↦ ?_
        exact (ih (σ := e.siteInside (t.siteInside σ.number)) hrest (hafter.inside hgrows') h₄
          hfits hparts).bind fun p₅ h₅ ↦ Lower.goes_pure h₅ _
  | loop pos c b rest ihb ih =>
    obtain ⟨hc, hb, hrest⟩ := wellFormed_loop.1 h
    obtain ⟨hpartc, hpartsb, hparts⟩ := forall_mem_exprs_loop.1 hparts
    have hgrows : (b.siteInside σ.number).Grows (rest.siteAfter (b.siteInside σ.number)) :=
      WellFormed.grows hrest
    cases L with
    | nil => exact hfits.elim
    | cons s i L =>
      obtain ⟨hs, hfitsb, hfits⟩ := hfits
      refine (Lower.goes_freshLabel hp).bind fun p₁ h₁ ↦ ?_
      refine (Lower.goes_expr_of_covers o.foldConstants h₁ hσ.covers hc hpartc).bind
        fun p₂ h₂ ↦ ?_
      refine (inBlock_over (σ := σ.number) h₂ pos hs fun q hq ↦
        ihb (σ := σ.number.enter) hb (hσ.number.enter hb hgrows) hq hfitsb hpartsb).bind
        fun p₃ h₃ ↦ ?_
      exact (ih (σ := b.siteInside σ.number) hrest (hσ.number.inside hgrows) h₃ hfits hparts).bind
        fun p₄ h₄ ↦ Lower.goes_pure h₄ _

end Block

/-! ### Parameters -/

/-- The code of parameters does not look anything up. -/
theorem assembleParams_over (index : Nat) (ps : List Param) (σ : Site) (ρ : Nest Placed) :
    assembleParams index ps (σ.over ρ) = assembleParams index ps σ := by
  induction ps generalizing index σ ρ with
  | nil => rfl
  | cons q ps ih =>
    exact congrArg (argumentCode index q.ty (σ.slot q.ty) ++ ·)
      (ih (index + 1) (σ.declare q.name q.ty) (ρ.bind q.name ⟨σ.scope, q.name, q.ty, σ.slot q.ty⟩))

/-- Parameters are put where they are already. -/
theorem WellPassed.over_declareParams {σ ω : Site} {ρ : Nest Placed} {ps : List Param}
    (h : WellPassed σ.types ps) (hρ : ρ.here = ω.places.here)
    (hgrows : (σ.declareParams ps).Grows ω) :
    σ.Grows ω ∧ (σ.over ρ).declareParams ps = (σ.declareParams ps).over ρ := by
  induction ps generalizing σ with
  | nil => exact ⟨hgrows, rfl⟩
  | cons q ps ih =>
    cases h with
    | cons hty hnew hrest =>
      rw [← σ.types_declare] at hrest
      obtain ⟨hnext, hlater⟩ := ih hrest hgrows
      refine ⟨(Site.grows_declare hnew hty).trans hnext, ?_⟩
      show ((σ.over ρ).declare q.name q.ty).declareParams ps = _
      rw [σ.over_declare ω hρ hnext, hlater]
      rfl

theorem Site.isSome_here_declareParams (σ : Site) (ps : List Param) (x : String) :
    ((σ.declareParams ps).places.here x).isSome ↔
      (σ.places.here x).isSome ∨ x ∈ ps.map Param.name := by
  induction ps generalizing σ with
  | nil => simp [declareParams]
  | cons q ps ih =>
    show (((σ.declare q.name q.ty).declareParams ps).places.here x).isSome ↔ _
    rw [ih, List.map_cons, List.mem_cons]
    by_cases hx : x = q.name
    · subst hx
      simp [σ.here_declare_self]
    · simp [σ.here_declare_of_ne q.ty hx, hx]

/-! ### Global variables -/

/-- The site with cells for variables. -/
def Site.placeCells (σ : Site) (vs : List Variable) : Site :=
  vs.foldl (fun σ v ↦ σ.place v.name v.ty ⟨v.ty.width, .cell v.name⟩) σ

namespace Site

variable {σ σ' : Site}

theorem foldl_declareGlobals (σ : Site) (ds : List Declaration) :
    ds.foldl declareGlobals σ = σ.placeCells (ds.flatMap (Declaration.declared 0)) := by
  rw [placeCells, List.foldl_flatMap]
  refine congrArg (fun f ↦ ds.foldl f σ) (funext₂ fun σ d ↦ ?_)
  rw [Declaration.declared, List.foldl_map]
  rfl

theorem placeCells_eq (σ : Site) (vs : List Variable) :
    σ.placeCells vs = σ.over (σ.placeCells vs).places := by
  induction vs generalizing σ with
  | nil => rfl
  | cons v vs ih => exact ih (σ.place v.name v.ty ⟨v.ty.width, .cell v.name⟩)

theorem outer_placeCells (σ : Site) (vs : List Variable) :
    (σ.placeCells vs).places.outer = σ.places.outer := by
  induction vs generalizing σ with
  | nil => rfl
  | cons v vs ih => exact ih (σ.place v.name v.ty ⟨v.ty.width, .cell v.name⟩)

theorem here_placeCells_of_notMem {vs : List Variable} {x : String}
    (h : x ∉ vs.map Variable.name) : (σ.placeCells vs).places.here x = σ.places.here x := by
  induction vs generalizing σ with
  | nil => rfl
  | cons v vs ih =>
    rw [List.map_cons, List.mem_cons, not_or] at h
    exact (ih h.2).trans (Nest.bind_here_of_ne _ _ h.1)

/-- What is at the names of the variables before makes no difference. -/
theorem here_placeCells_congr {vs : List Variable} (hscope : σ'.scope = σ.scope)
    (h : ∀ x, x ∉ vs.map Variable.name → σ'.places.here x = σ.places.here x) :
    (σ'.placeCells vs).places.here = (σ.placeCells vs).places.here := by
  induction vs generalizing σ σ' with
  | nil => exact funext fun x ↦ h x List.not_mem_nil
  | cons v vs ih =>
    refine ih hscope fun x hx ↦ ?_
    by_cases hv : x = v.name
    · subst hv
      show (σ'.places.bind v.name _).here v.name = (σ.places.bind v.name _).here v.name
      rw [Nest.bind_here_self, Nest.bind_here_self, hscope]
    · show (σ'.places.bind v.name _).here x = (σ.places.bind v.name _).here x
      rw [Nest.bind_here_of_ne _ _ hv, Nest.bind_here_of_ne _ _ hv]
      exact h x (List.not_mem_cons_of_ne_of_not_mem hv hx)

/-- Global variables are put where they are already. -/
theorem placeCells_over (σ : Site) (vs : List Variable) :
    (σ.over (σ.placeCells vs).places).placeCells vs = σ.placeCells vs := by
  have hplaces : ((σ.over (σ.placeCells vs).places).placeCells vs).places =
      (σ.placeCells vs).places := by
    ext1
    · exact here_placeCells_congr rfl fun x hx ↦ here_placeCells_of_notMem hx
    · exact outer_placeCells _ vs
  rw [placeCells_eq, hplaces, σ.placeCells_eq vs]
  rfl

theorem Bounded.placeCells (h : σ.Bounded) (vs : List Variable) : (σ.placeCells vs).Bounded := by
  induction vs generalizing σ with
  | nil => exact h
  | cons v vs ih =>
    refine ih fun x q hq ↦ ?_
    by_cases hv : x = v.name
    · subst hv
      obtain rfl := Option.some.inj ((Nest.bind_here_self _ _ _).symm.trans hq)
      trivial
    · exact h x q ((Nest.bind_here_of_ne _ _ hv).symm.trans hq)

end Site

/-! ### Outlooks -/

theorem Outlook.here_pass (ν : Outlook) (xs : List String) (x : String) :
    (ν.pass xs).here x = if x ∈ xs then some true else ν.here x := by
  induction xs generalizing ν with
  | nil => rfl
  | cons y ys ih =>
    show (Outlook.pass (ν.bind y true) ys).here x = _
    rw [ih]
    by_cases hx : x = y
    · subst hx
      simp
    · rw [Nest.bind_here_of_ne _ _ hx]
      simp [hx]

theorem Outlook.outer_pass (ν : Outlook) (xs : List String) : (ν.pass xs).outer = ν.outer := by
  induction xs generalizing ν with
  | nil => rfl
  | cons y ys ih => exact ih (ν.bind y true)

namespace Program

/-- The places in the function when they are all known in advance. -/
def foreseen (p : Program) : Nest Placed := ⟨p.endSite.places.here, p.functionSite.places.scopes⟩

/-- The assembly program with all places known in advance. -/
def reassembled (o : Options) (p : Program) : Assembly :=
  { p.assembled o with
    code := prologue p.function.name (p.function.frameBytes o) ++
      assembleParams 0 p.function.params p.functionSite.enter ++
      p.function.body.reassemble o p.function.name p.startSite p.foreseen ++
      epilogue p.function.name p.function.body.alwaysReturns }

theorem functionSite_eq_placeCells (p : Program) :
    p.functionSite = Site.placeCells {} p.globalVariables :=
  Site.foldl_declareGlobals {} p.globals

theorem outer_functionSite (p : Program) : p.functionSite.places.outer = [] := by
  rw [p.functionSite_eq_placeCells, Site.outer_placeCells]

theorem map_name_globalVariables (p : Program) :
    p.globalVariables.map Variable.name = p.globalNames := by
  simp [globalVariables, globalNames, Declaration.declared, List.map_flatMap, Function.comp_def]

theorem isSome_here_functionSite (p : Program) (x : String) :
    (p.functionSite.places.here x).isSome ↔ x ∈ p.globalNames := by
  rw [← p.map_name_globalVariables]
  constructor
  · intro hx
    by_contra hmem
    rw [p.functionSite_eq_placeCells, Site.here_placeCells_of_notMem hmem] at hx
    cases hx
  · intro hx
    rw [p.map_name_globalVariables, ← p.map_name_dataCells] at hx
    obtain ⟨c, hc, rfl⟩ := List.mem_map.1 hx
    exact isSome_functionSite hc

/-- The places of the global variables are known when the function is entered. -/
theorem foresees_functionSite (p : Program) (lo hi : Nat) :
    Foresees lo hi p.functionSite.places.here p.functionSite.places.here
      (Outlook.pass {} p.globalNames).here := by
  refine ⟨fun x ↦ ?_, fun hq ↦ hq, fun {x q} hq ↦ ?_, fun {x q} hnone hq ↦ ?_⟩
  · rw [Outlook.here_pass]
    rcases hx : p.functionSite.places.here x with - | q
    · rw [if_neg fun hmem ↦ by simpa [hx] using (p.isSome_here_functionSite x).2 hmem]
      rfl
    · rw [if_pos ((p.isSome_here_functionSite x).1 (by simp [hx]))]
      rfl
  · have hbounded : p.functionSite.Bounded := by
      rw [p.functionSite_eq_placeCells]
      exact Site.Bounded.placeCells (fun x q hq ↦ by cases hq) _
    refine (hbounded x q hq).mono ?_
    rw [p.taken_functionSite]
    exact Nat.zero_le lo
  · rw [hnone] at hq
    cases hq

theorem WellFormed.body_startSite {entry : String} {p : Program} (h : p.WellFormed entry) :
    p.function.body.WellFormed p.function.returnTy p.startSite.types := by
  rw [startSite, Function.bodySite, Site.types_declareParams, Site.types_enter,
    p.types_functionSite]
  exact h.function.body

/-- A name of the function's scope is a parameter, which has been passed when the body starts, or
the body declares it. -/
theorem here_outlook (p : Program) (x : String) :
    p.outlook.here x =
      (p.endSite.places.here x).map fun _ ↦ (p.startSite.places.here x).isSome := by
  have hstart : (p.startSite.places.here x).isSome ↔ x ∈ p.function.params.map Param.name := by
    rw [startSite, Function.bodySite, Site.isSome_here_declareParams]
    exact or_iff_right (by rintro ⟨⟩)
  rw [outlook, Outlook.here_pass, endSite]
  by_cases hparam : x ∈ p.function.params.map Param.name
  · have hend := (p.function.body.isSome_here_siteAfter p.startSite x).2 (.inl (hstart.2 hparam))
    obtain ⟨q, hq⟩ := Option.isSome_iff_exists.1 hend
    rw [if_pos hparam, hq, hstart.2 hparam]
    rfl
  · have hnone : p.startSite.places.here x = none := by
      rwa [← Option.not_isSome_iff_eq_none, hstart]
    rw [if_neg hparam, hnone]
    exact Outlook.here_into _ hnone

theorem outer_outlook (p : Program) :
    p.outlook.outer = [(Outlook.pass {} p.globalNames).here] := by
  rw [outlook, Outlook.outer_pass]
  show (Outlook.pass {} p.globalNames).here :: (Outlook.pass {} p.globalNames).outer = _
  rw [Outlook.outer_pass]

theorem outer_foreseen (p : Program) : p.foreseen.outer = [p.functionSite.places.here] := by
  show p.functionSite.places.here :: p.functionSite.places.outer = _
  rw [p.outer_functionSite]

theorem outer_startSite (p : Program) :
    p.startSite.places.outer = [p.functionSite.places.here] := by
  rw [startSite, Function.bodySite, Site.outer_declareParams]
  exact p.outer_foreseen

/-- All places are known when the body of the function starts. -/
theorem WellFormed.foretold {entry : String} {p : Program} (h : p.WellFormed entry) :
    p.startSite.Foretold p.endSite p.foreseen p.outlook := by
  have hempty : p.functionSite.enter.Bounded := by rintro x q ⟨⟩
  refine ⟨h.body_startSite.grows, hempty.declareParams p.function.params, rfl, p.here_outlook, ?_⟩
  rw [p.outer_startSite, p.outer_foreseen, p.outer_outlook]
  exact .cons (p.foresees_functionSite _ _) .nil

/-- The assembly program with all places known in advance is the program's if and only if the
function captures nothing. -/
theorem WellFormed.reassembled_eq_iff {entry : String} {p : Program} (h : p.WellFormed entry)
    (o : Options) : p.reassembled o = p.assembled o ↔ p.captured = [] := by
  have hbody := h.body_startSite.echoes o p.function.name h.foretold
  have hcode := (hbody.same_append (prologue p.function.name (p.function.frameBytes o) ++
    assembleParams 0 p.function.params p.functionSite.enter)).append_same
      (epilogue p.function.name p.function.body.alwaysReturns)
  rw [captured, ← hcode.eq_iff]
  constructor
  · exact fun heq ↦ congrArg Assembly.code heq
  · exact fun heq ↦ congrArg (fun c ↦ { p.assembled o with code := c }) heq

/-! ### Programs -/

/-- The function of a well-formed program, all of whose variables have their places. -/
theorem WellFormed.goes_function_over (o : Options) {entry : String} {p : Program}
    (h : p.WellFormed entry) (hparts : ∀ e ∈ p.exprs, e.constantPartFaults = []) {t : ScopeTree}
    (ht : p.Revisited t) {q : Progress} (hq : q.At p.functionSite t.here.symbols t.inner) :
    (p.function.lower o).Goes q (p.reassembled o).code
      ((p.endSite.over p.foreseen).back p.functionSite) t.here.symbols .nil := by
  have hinner := ht.inner
  rcases hforest : t.inner with - | ⟨scope, F, rest⟩
  · rw [hforest] at hinner
    exact hinner.elim
  rw [hforest] at hinner hq
  obtain ⟨⟨hid, hvisited, hview⟩, ⟨hparams, hfits⟩, rfl⟩ := hinner
  have hpassed : WellPassed p.functionSite.enter.types p.function.params := by
    rw [Site.types_enter, p.types_functionSite]
    exact h.function.params
  obtain ⟨-, hstart⟩ := hpassed.over_declareParams (ρ := p.foreseen) (ω := p.endSite) rfl
    h.body_startSite.grows
  refine (Lower.goes_note hq _).bind fun q₁ h₁ ↦ ?_
  refine h₁.inScope p.function.pos (hid.trans p.next_functionSite.symm) hvisited fun q₂ h₂ ↦ ?_
  rw [hview] at h₂
  have hgoes := Lower.goes_params 0 (σ := p.functionSite.enter.over p.foreseen) h₂ hparams
  rw [assembleParams_over, hstart] at hgoes
  refine hgoes.bind fun q₃ h₃ ↦ ?_
  exact (h.body_startSite.goes_lower_over o p.function.name h.foretold h₃ hfits
    fun e he ↦ hparts e (List.mem_append_right _ he)).bind fun q₄ h₄ ↦ Lower.goes_pure h₄ _

/-- Code generation for a well-formed program, from scopes that it has been over before. -/
theorem WellFormed.lower_again (o : Options) {entry : String} {p : Program} (h : p.WellFormed entry)
    (hparts : ∀ e ∈ p.exprs, e.constantPartFaults = []) {s : Session}
    (hs : p.Revisited s.scopes.rewind) :
    ∃ q, p.lower o { session := s } = .ok (p.reassembled o) q ∧
      q.session.diagnostics = s.diagnostics := by
  have hstart : Progress.At { session := (s.note .generationStarted).rewind }
      (Site.over {} p.functionSite.places) s.scopes.rewind.here.symbols s.scopes.rewind.inner := by
    refine ⟨?_, hs.id, rfl, rfl, .refl _, .nil, rfl, hs.visited.symm⟩
    ext1
    · exact hs.view
    · exact p.outer_functionSite.symm
  have hsite : p.globals.foldl Site.declareGlobals (Site.over {} p.functionSite.places) =
      p.functionSite := by
    rw [Site.foldl_declareGlobals, p.functionSite_eq_placeCells]
    exact Site.placeCells_over {} p.globalVariables
  have hgoes : (p.lowerRewound o).Goes { session := (s.note .generationStarted).rewind }
      (p.reassembled o) ((p.endSite.over p.foreseen).back p.functionSite)
      s.scopes.rewind.here.symbols .nil := by
    refine (Lower.goes_dataSection hstart hs.globals h.globals.isConstant
      fun e he ↦ hparts e (List.mem_append_left _ he)).bind fun q hq ↦ ?_
    rw [hsite] at hq
    refine (h.goes_function_over o hparts hs hq).bind fun q₁ h₁ ↦ ?_
    refine Lower.Goes.get_bind ?_
    exact (Lower.goes_note h₁ _).bind fun q₂ h₂ ↦ Lower.goes_pure h₂ _
  obtain ⟨q, hq, -, hkeeps⟩ := hgoes
  exact ⟨q, hq, hkeeps.diagnostics⟩

/-- Two generations on one session that has analyzed the program without error. -/
theorem generate_again (o : Options) {entry : String} {p : Program}
    (h : (p.analyze entry {}).Clean) :
    ∃ s s', p.generate o (p.analyze entry {}) = (.ok (p.assembled o), s) ∧
      p.generate o s = (.ok (p.reassembled o), s') ∧ s'.scopes = s.scopes ∧
      s.diagnostics = (p.analyze entry {}).diagnostics ∧ s'.diagnostics = s.diagnostics := by
  obtain ⟨hwf, hparts⟩ := wellFormed_of_clean_analyze h
  obtain ⟨hrevisited, hreplay⟩ := hwf.analyzed.replay
  obtain ⟨q, hq, hdiag, -, -⟩ := hwf.lower_eq_ok o hparts hwf.analyzed
  have hscopes : q.session.scopes = p.replay (p.analyze entry {}).scopes := scopes_of_lower hq
  obtain ⟨q', hq', hdiag'⟩ := hwf.lower_again o hparts (s := q.session) (hscopes ▸ hrevisited)
  have hscopes' : q'.session.scopes = p.replay q.session.scopes := scopes_of_lower hq'
  have hrun : (p.lower o).run { session := p.analyze entry {} } = .ok (p.assembled o) q := hq
  have hrun' : (p.lower o).run { session := q.session } = .ok (p.reassembled o) q' := hq'
  refine ⟨q.session, q'.session, ?_, ?_, ?_, hdiag, hdiag'⟩
  · rw [generate, hrun]
  · rw [generate, hrun']
  · rw [hscopes', hscopes, hreplay]

/-- Code generation for a program that is analyzed without error can be repeated on the same
session. It completes both times without a diagnostic, and the second time leaves the scopes with
all their places as they were. The assembly program is the same if and only if no occurrence of a
variable in the function is captured by a declaration further down. -/
theorem generate_generate (o : Options) (entry : String) (p : Program)
    (h : (p.analyze entry {}).diagnostics.errors = []) :
    ∃ a s a' s', p.generate o (p.analyze entry {}) = (.ok a, s) ∧ p.generate o s = (.ok a', s') ∧
      s'.scopes = s.scopes ∧ s.diagnostics = (p.analyze entry {}).diagnostics ∧
      s'.diagnostics = s.diagnostics ∧ (a' = a ↔ p.captured = []) := by
  obtain ⟨hwf, -⟩ := wellFormed_of_clean_analyze h
  obtain ⟨s, s', hfirst, hsecond, hscopes, hdiag, hdiag'⟩ := generate_again o h
  exact ⟨p.assembled o, s, p.reassembled o, s', hfirst, hsecond, hscopes, hdiag, hdiag',
    hwf.reassembled_eq_iff o⟩

/-- A program that declares a shadowing variable before it uses it:
`int x = 1; int f(int n) { if (n > x) { int x = n; n = x; } return x; }`. -/
def declaredFirst : Program where
  globals := [⟨.int, [⟨"x", some (.num {} 1), {}⟩], {}⟩]
  function :=
    { returnTy := .int
      name := "f"
      params := [⟨.int, "n", {}⟩]
      body :=
        .ifThen {} (.binary {} .gt (.var {} "n") (.var {} "x"))
          (.simple (.declare ⟨.int, [⟨"x", some (.var {} "n"), {}⟩], {}⟩)
            (.simple (.assign {} "n" (.var {} "x")) .done))
          (.simple (.ret {} (some (.var {} "x"))) .done) }

theorem generate_generate_declaredFirst :
    (declaredFirst.analyze "_start" {}).diagnostics.errors = [] ∧ declaredFirst.captured = [] ∧
      ∃ a s s', declaredFirst.generate {} (declaredFirst.analyze "_start" {}) = (.ok a, s) ∧
        declaredFirst.generate {} s = (.ok a, s') ∧ s'.scopes = s.scopes := by
  have hclean : (declaredFirst.analyze "_start" {}).diagnostics.errors = [] := by decide +kernel
  have hcaptured : declaredFirst.captured = [] := by decide +kernel
  obtain ⟨a, s, a', s', hfirst, hsecond, hscopes, -, -, heq⟩ :=
    generate_generate {} "_start" declaredFirst hclean
  obtain rfl := heq.2 hcaptured
  exact ⟨hclean, hcaptured, a', s, s', hfirst, hsecond, hscopes⟩

/-- A program whose inner variable starts as the outer one of the same name:
`int f() { int x = 1; if (true) { int x = x; } return x; }`. -/
def selfShadowing : Program where
  function :=
    { returnTy := .int
      name := "f"
      body :=
        .simple (.declare ⟨.int, [⟨"x", some (.num ⟨2, 11⟩ 1), ⟨2, 7⟩⟩], ⟨2, 3⟩⟩)
          (.ifThen ⟨3, 3⟩ (.bool ⟨3, 7⟩ true)
            (.simple (.declare ⟨.int, [⟨"x", some (.var ⟨4, 13⟩ "x"), ⟨4, 9⟩⟩], ⟨4, 5⟩⟩) .done)
            (.simple (.ret ⟨6, 3⟩ (some (.var ⟨6, 10⟩ "x"))) .done))
      pos := ⟨1, 1⟩ }

theorem text_generate_selfShadowing :
    (selfShadowing.analyze "_start" {}).diagnostics.errors = [] ∧
      selfShadowing.captured = [(⟨4, 13⟩, "x")] ∧
      ∃ a s a' s', selfShadowing.generate {} (selfShadowing.analyze "_start" {}) = (.ok a, s) ∧
        selfShadowing.generate {} s = (.ok a', s') ∧ a'.text ≠ a.text := by
  have hclean : (selfShadowing.analyze "_start" {}).diagnostics.errors = [] := by decide +kernel
  obtain ⟨s, s', hfirst, hsecond, -⟩ := generate_again {} hclean
  exact ⟨hclean, by decide +kernel, _, s, _, s', hfirst, hsecond, by decide +kernel⟩

end Program

end BlockLang
