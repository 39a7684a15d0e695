import BlockLang.Proofs.Lowering.Replay
import BlockLang.Proofs.Relabeling.Analysis

/-!
# The code of a relabeled program

A program with other names and positions has the same code (`Program.assembled_relabel`), and code
generation leaves the same scopes, with the other names and positions
(`Program.replay_relabel`).

Both are read off the closed forms of code generation, which say what code belongs to a text at a
site. A site that binds the other names to the places of the names is as good as the site itself
(`Site.Relabels`). A name comes into the code in two ways: as the label of a cell, so the names of
global variables have to stay, and inside a remark, so that remarks must be off unless all names
stay.
-/

namespace BlockLang

variable {φ : Relabeling} {α : Type}

/-! ### Nests seen through other names -/

namespace Nest

/-- The nest that binds a name to what `n` binds its image to. -/
def comap (f : String → String) (n : Nest α) : Nest α where
  here := n.here ∘ f
  outer := n.outer.map (· ∘ f)

theorem find?_comap (f : String → String) (n : Nest α) (x : String) :
    (n.comap f).find? x = n.find? (f x) := by
  show ((n.here :: n.outer).map (· ∘ f)).findSome? (· x) = _
  rw [List.findSome?_map]
  rfl

theorem comap_bind {f : String → String} (hf : Function.Injective f) (n : Nest α) (x : String)
    (a : α) : (n.bind (f x) a).comap f = (n.comap f).bind x a := by
  ext1
  · exact Function.update_comp_eq_of_injective _ hf _ _
  · rfl

end Nest

/-! ### Sites -/

/-- The placed variable with another name. -/
def Placed.relabel (φ : Relabeling) (p : Placed) : Placed := { p with name := φ.name p.name }

/-- The site `σ'` is `σ`, with the places of variables under their other names. -/
structure Site.Relabels (φ : Relabeling) (σ σ' : Site) : Prop where
  /-- A variable has the same place under its other name. -/
  places : σ'.places.comap φ.name = σ.places.map (Placed.relabel φ)
  /-- The current scope is the same. -/
  scope : σ'.scope = σ.scope
  /-- The next scope is the same. -/
  next : σ'.next = σ.next
  /-- As many constructs have been numbered. -/
  labels : σ'.labels = σ.labels
  /-- As much of the frame is taken. -/
  taken : σ'.taken = σ.taken

namespace Site.Relabels

variable {σ σ' τ τ' : Site}

theorem find? (h : Relabels φ σ σ') (x : String) :
    σ'.places.find? (φ.name x) = (σ.places.find? x).map (Placed.relabel φ) := by
  rw [← Nest.find?_comap, h.places, Nest.find?_map]

theorem slot (h : Relabels φ σ σ') (ty : Ty) : σ'.slot ty = σ.slot ty := by
  rw [Site.slot, Site.slot, h.taken]

theorem place (h : Relabels φ σ σ') (x : String) (ty : Ty) (m : Mem) :
    Relabels φ (σ.place x ty m) (σ'.place (φ.name x) ty m) := by
  refine ⟨?_, h.scope, h.next, h.labels, h.taken⟩
  show (σ'.places.bind (φ.name x) ⟨σ'.scope, φ.name x, ty, m⟩).comap φ.name =
    (σ.places.bind x ⟨σ.scope, x, ty, m⟩).map (Placed.relabel φ)
  rw [Nest.comap_bind φ.injective, Nest.map_bind, h.places, h.scope]
  rfl

theorem declare (h : Relabels φ σ σ') (x : String) (ty : Ty) :
    Relabels φ (σ.declare x ty) (σ'.declare (φ.name x) ty) := by
  obtain ⟨hplaces, hscope, hnext, hlabels, -⟩ := h.place x ty (σ.slot ty)
  rw [Site.declare, Site.declare, h.slot]
  exact ⟨hplaces, hscope, hnext, hlabels, congrArg (· + ty.size) h.taken⟩

theorem declareAll (h : Relabels φ σ σ') (ty : Ty) (vs : List Declarator) :
    Relabels φ (σ.declareAll ty vs) (σ'.declareAll ty (vs.map (Declarator.relabel φ))) := by
  induction vs generalizing σ σ' with
  | nil => exact h
  | cons v vs ih => exact ih (h.declare v.name ty)

theorem declareParams (h : Relabels φ σ σ') (ps : List Param) :
    Relabels φ (σ.declareParams ps) (σ'.declareParams (ps.map (Param.relabel φ))) := by
  induction ps generalizing σ σ' with
  | nil => exact h
  | cons p ps ih => exact ih (h.declare p.name p.ty)

/-- The label of a cell is a name, so it has to stay. -/
theorem declareGlobals (h : Relabels φ σ σ') {d : Declaration}
    (hd : ∀ v ∈ d.vars, φ.name v.name = v.name) :
    Relabels φ (σ.declareGlobals d) (σ'.declareGlobals (d.relabel φ)) := by
  rw [Site.declareGlobals, Site.declareGlobals, Declaration.relabel]
  generalize d.vars = vs at hd
  induction vs generalizing σ σ' with
  | nil => exact h
  | cons v vs ih =>
    -- the cell is labeled with the other name, which is the name itself
    have hfirst := h.place v.name d.ty ⟨d.ty.width, .cell (φ.name v.name)⟩
    refine ih (σ := σ.place v.name d.ty ⟨d.ty.width, .cell v.name⟩) ?_
      fun w hw ↦ hd w (List.mem_cons_of_mem _ hw)
    rw [hd v List.mem_cons_self] at hfirst
    show Relabels φ _ (σ'.place (φ.name v.name) d.ty ⟨d.ty.width, .cell (φ.name v.name)⟩)
    rw [hd v List.mem_cons_self]
    exact hfirst

theorem number (h : Relabels φ σ σ') : Relabels φ σ.number σ'.number :=
  ⟨h.places, h.scope, h.next, congrArg (· + 1) h.labels, h.taken⟩

theorem enter (h : Relabels φ σ σ') : Relabels φ σ.enter σ'.enter := by
  refine ⟨?_, h.next, congrArg (· + 1) h.next, h.labels, h.taken⟩
  exact congrArg Nest.enter h.places

theorem back (h : Relabels φ τ τ') (h' : Relabels φ σ σ') : Relabels φ (τ.back σ) (τ'.back σ') :=
  ⟨h'.places, h'.scope, h.next, h.labels, h.taken⟩

theorem simple (h : Relabels φ σ σ') (a : Simple) :
    Relabels φ (a.siteAfter σ) ((a.relabel φ).siteAfter σ') := by
  rcases a with d | ⟨pos, x, e⟩ | ⟨pos, value⟩ | ⟨pos, e⟩
  · exact h.declareAll d.ty d.vars
  · exact h
  · exact h
  · exact h

theorem block (h : Relabels φ σ σ') (b : Block) :
    Relabels φ (b.siteAfter σ) ((b.relabel φ).siteAfter σ') := by
  induction b generalizing σ σ' with
  | done => exact h
  | simple a rest ih => exact ih (h.simple a)
  | ifThen pos c t rest iht ih => exact ih ((iht h.number.enter).back h.number)
  | ifElse pos c t e rest iht ihe ih =>
    have hthen := (iht h.number.enter).back h.number
    exact ih ((ihe hthen.enter).back hthen)
  | loop pos c b rest ihb ih => exact ih ((ihb h.number.enter).back h.number)

theorem inside (h : Relabels φ σ σ') (b : Block) :
    Relabels φ (b.siteInside σ) ((b.relabel φ).siteInside σ') :=
  (h.enter.block b).back h

end Site.Relabels

/-! ### Remarks -/

/-- Remarks are off, or all names stay. -/
def Relabeling.Unremarked (φ : Relabeling) (o : Options) : Prop :=
  o.emitComments = true → φ.name = id

theorem Relabeling.Unremarked.remark_eq {o : Options} (h : φ.Unremarked o) {t t' : String}
    (ht : φ.name = id → t' = t) : o.remark t' = o.remark t := by
  rw [Options.remark, Options.remark]
  split
  · rw [ht (h ‹_›)]
  · rfl

section Texts

variable (hφ : φ.name = id)

include hφ

theorem Expr.text_relabel (e : Expr) : (e.relabel φ).text = e.text := by
  induction e with
  | num pos v => rfl
  | bool pos b => rfl
  | var pos x => rw [relabel, text, text, hφ, id]
  | not pos e ih => rw [relabel, text, text, ih]
  | binary pos op l r ihl ihr => rw [relabel, text, text, ihl, ihr]

theorem Declaration.text_relabel (d : Declaration) : (d.relabel φ).text = d.text := by
  have hvar : ∀ v : Declarator, (v.relabel φ).text = v.text := by
    rintro ⟨x, init, pos⟩
    rcases init with - | e
    · exact congrFun hφ x
    · show φ.name x ++ " = " ++ (e.relabel φ).text = _
      rw [e.text_relabel hφ, hφ]
      rfl
  rw [text, text, relabel, List.map_map]
  refine congrArg (fun l ↦ d.ty.name ++ " " ++ ", ".intercalate l ++ ";") ?_
  exact List.map_congr_left fun v _ ↦ hvar v

theorem Simple.text_relabel (a : Simple) : (a.relabel φ).text = a.text := by
  rcases a with d | ⟨pos, x, e⟩ | ⟨pos, - | e⟩ | ⟨pos, e⟩
  · exact d.text_relabel hφ
  · rw [relabel, text, text, e.text_relabel hφ, hφ, id]
  · rfl
  · show "return " ++ (e.relabel φ).text ++ ";" = _
    rw [e.text_relabel hφ]
    rfl
  · rw [relabel, text, text, e.text_relabel hφ]

end Texts

/-! ### Code -/

variable {σ σ' : Site}

namespace Expr

@[simp] theorem foldedValue?_relabel (fold : Bool) (e : Expr) :
    (e.relabel φ).foldedValue? fold = e.foldedValue? fold := by
  rw [foldedValue?, foldedValue?, isFoldable, isFoldable, isLiteral_relabel, isConstant_relabel,
    constantValue_relabel]

theorem assemble_relabel (h : σ.Relabels φ σ') (fold : Bool) (e : Expr) :
    (e.relabel φ).assemble fold σ'.places.find? = e.assemble fold σ.places.find? := by
  induction e with
  | num pos v => rfl
  | bool pos b => rfl
  | var pos x =>
    rw [relabel, assemble, assemble, h.find?]
    rcases σ.places.find? x with - | p <;> rfl
  | not pos e ih =>
    have hfold := foldedValue?_relabel fold (.not pos e) (φ := φ)
    rw [relabel] at hfold ⊢
    rw [assemble, assemble, hfold, ih]
  | binary pos op l r ihl ihr =>
    have hfold := foldedValue?_relabel fold (.binary pos op l r) (φ := φ)
    rw [relabel] at hfold ⊢
    rw [assemble, assemble, hfold, ihl, ihr]

theorem lines_relabel (h : σ.Relabels φ σ') (fold : Bool) (e : Expr) :
    (e.relabel φ).lines fold σ' = e.lines fold σ := by
  rw [lines, lines, assemble_relabel h]

theorem startCode_relabel (h : σ.Relabels φ σ') (fold : Bool) (ty : Ty) (slot : Mem) (e : Expr) :
    (e.relabel φ).startCode fold σ' ty slot = e.startCode fold σ ty slot := by
  have himmediate : (e.relabel φ).immediate? = e.immediate? := by cases e <;> rfl
  rw [startCode, startCode, startWord?, startWord?, foldedValue?_relabel, himmediate,
    lines_relabel h]

end Expr

theorem assembleAll_relabel (h : σ.Relabels φ σ') (fold : Bool) (ty : Ty) (vs : List Declarator) :
    assembleAll fold ty (vs.map (Declarator.relabel φ)) σ' = assembleAll fold ty vs σ := by
  induction vs generalizing σ σ' with
  | nil => rfl
  | cons v vs ih =>
    have hfirst : (v.relabel φ).assemble fold σ' ty = v.assemble fold σ ty := by
      rw [Declarator.assemble, Declarator.assemble, h.slot, Declarator.relabel]
      rcases v.init with - | e
      · rfl
      · exact Expr.startCode_relabel h fold ty (σ.slot ty) e
    rw [List.map_cons, assembleAll, assembleAll, hfirst]
    exact congrArg _ (ih (h.declare v.name ty))

theorem Simple.assemble_relabel {o : Options} (ho : φ.Unremarked o) (f : String)
    (h : σ.Relabels φ σ') (a : Simple) : (a.relabel φ).assemble o f σ' = a.assemble o f σ := by
  have hbody : (a.relabel φ).body o.foldConstants f σ' = a.body o.foldConstants f σ := by
    rcases a with d | ⟨pos, x, e⟩ | ⟨pos, - | e⟩ | ⟨pos, e⟩
    · exact assembleAll_relabel h o.foldConstants d.ty d.vars
    · rw [relabel, body, body, e.lines_relabel h, Site.storeCode, Site.storeCode, h.find?]
      rcases σ.places.find? x with - | p <;> rfl
    · rfl
    · exact congrArg (· ++ _) (e.lines_relabel h o.foldConstants)
    · exact e.lines_relabel h o.foldConstants
  rw [assemble, assemble, hbody, ho.remark_eq fun hφ ↦ a.text_relabel hφ]

theorem Block.assemble_relabel {o : Options} (ho : φ.Unremarked o) (f : String)
    (h : σ.Relabels φ σ') (b : Block) : (b.relabel φ).assemble o f σ' = b.assemble o f σ := by
  have hguard : ∀ (k : Construct) (c : Expr),
      o.remark (guardText k (c.relabel φ)) = o.remark (guardText k c) := fun k c ↦
    ho.remark_eq fun hφ ↦ by rw [guardText, guardText, c.text_relabel hφ]
  -- the sites of both texts go on together, so each part has the same code
  induction b generalizing σ σ' with
  | done => rfl
  | simple a rest ih =>
    rw [relabel, assemble, assemble, a.assemble_relabel ho f h, ih (h.simple a)]
  | ifThen pos c t rest iht ih =>
    rw [relabel, assemble, assemble, hguard, c.lines_relabel h, h.labels, iht h.number.enter,
      ih (h.number.inside t)]
  | ifElse pos c t e rest iht ihe ih =>
    have hthen := h.number.inside t
    rw [relabel, assemble, assemble, hguard, c.lines_relabel h, h.labels, iht h.number.enter,
      ihe hthen.enter, ih (hthen.inside e)]
  | loop pos c b rest ihb ih =>
    rw [relabel, assemble, assemble, hguard, c.lines_relabel h, h.labels, ihb h.number.enter,
      ih (h.number.inside b)]

theorem assembleParams_relabel (h : σ.Relabels φ σ') (index : Nat) (ps : List Param) :
    assembleParams index (ps.map (Param.relabel φ)) σ' = assembleParams index ps σ := by
  induction ps generalizing index σ σ' with
  | nil => rfl
  | cons p ps ih =>
    show argumentCode index p.ty (σ'.slot p.ty) ++ assembleParams (index + 1) _
      (σ'.declare (φ.name p.name) p.ty) = _
    rw [h.slot, ih (h.declare p.name p.ty)]
    rfl

/-! ### Frames -/

namespace Block

theorem declarations_relabel (b : Block) :
    (b.relabel φ).declarations = b.declarations.map (Declaration.relabel φ) := by
  induction b with
  | done => rfl
  | simple a rest ih =>
    rcases a with d | ⟨pos, x, e⟩ | ⟨pos, value⟩ | ⟨pos, e⟩
    · exact congrArg (d.relabel φ :: ·) ih
    · exact ih
    · exact ih
    · exact ih
  | ifThen pos c t rest iht ih =>
    rw [relabel, declarations, declarations, iht, ih, List.map_append]
  | ifElse pos c t e rest iht ihe ih =>
    rw [relabel, declarations, declarations, iht, ihe, ih, List.map_append, List.map_append]
  | loop pos c b rest ihb ih =>
    rw [relabel, declarations, declarations, ihb, ih, List.map_append]

@[simp] theorem alwaysReturns_relabel (b : Block) :
    (b.relabel φ).alwaysReturns = b.alwaysReturns := by
  induction b with
  | done => rfl
  | simple a rest ih => rw [relabel, alwaysReturns, alwaysReturns, a.isReturn_relabel, ih]
  | ifThen pos c t rest iht ih => exact ih
  | ifElse pos c t e rest iht ihe ih => rw [relabel, alwaysReturns, alwaysReturns, iht, ihe, ih]
  | loop pos c b rest ihb ih => exact ih

end Block

theorem Function.frameBytes_relabel (o : Options) (f : Function) :
    (f.relabel φ).frameBytes o = f.frameBytes o := by
  have hbytes : ∀ d : Declaration, (d.relabel φ).bytes = d.bytes := fun d ↦ by
    rw [Declaration.bytes, Declaration.bytes, Declaration.relabel, List.length_map]
  have hvariables : (f.relabel φ).variableBytes = f.variableBytes := by
    rw [variableBytes, variableBytes, relabel, Block.declarations_relabel, List.foldr_map,
      List.foldr_map]
    simp only [hbytes]
    rfl
  rw [frameBytes, frameBytes, frameSize, frameSize, hvariables]

/-! ### Programs -/

theorem Function.assemble_relabel {o : Options} (ho : φ.Unremarked o) (h : σ.Relabels φ σ')
    (f : Function) : (f.relabel φ).assemble o σ' = f.assemble o σ := by
  have hbody : (f.body.relabel φ).assemble o f.name ((f.relabel φ).bodySite σ') =
      f.body.assemble o f.name (f.bodySite σ) :=
    f.body.assemble_relabel ho f.name (h.enter.declareParams f.params)
  show prologue f.name ((f.relabel φ).frameBytes o) ++
    assembleParams 0 (f.params.map (Param.relabel φ)) σ'.enter ++
    (f.body.relabel φ).assemble o f.name _ ++ epilogue f.name (f.body.relabel φ).alwaysReturns = _
  rw [f.frameBytes_relabel, assembleParams_relabel h.enter, hbody, Block.alwaysReturns_relabel]
  rfl

namespace Program

theorem relabels_functionSite {p : Program} (hp : φ.Fixes p.globals) :
    p.functionSite.Relabels φ (p.relabel φ).functionSite := by
  have hfold : ∀ (ds : List Declaration) {σ σ' : Site}, φ.Fixes ds → σ.Relabels φ σ' →
      Site.Relabels φ (ds.foldl Site.declareGlobals σ)
        ((ds.map (Declaration.relabel φ)).foldl Site.declareGlobals σ') := by
    intro ds
    induction ds with
    | nil => exact fun _ h ↦ h
    | cons d ds ih =>
      exact fun hds h ↦ ih (fun d' hd' ↦ hds d' (List.mem_cons_of_mem _ hd'))
        (h.declareGlobals (hds d List.mem_cons_self))
  exact hfold p.globals hp ⟨rfl, rfl, rfl, rfl, rfl⟩

theorem dataCells_relabel {p : Program} (hp : φ.Fixes p.globals) :
    (p.relabel φ).dataCells = p.dataCells := by
  rw [dataCells, dataCells, relabel, List.flatMap_map]
  refine List.flatMap_congr fun d hd ↦ ?_
  rw [Declaration.relabel, List.map_map]
  refine List.map_congr_left fun v hv ↦ ?_
  have hvalue : (v.init.map (Expr.relabel φ)).bind Expr.constantValue =
      v.init.bind Expr.constantValue := by
    rcases v.init with - | e
    · rfl
    · exact e.constantValue_relabel
  show Cell.mk (φ.name v.name) d.ty.width
    (((v.init.map (Expr.relabel φ)).bind Expr.constantValue).elim 0 Value.toWord) = _
  rw [hp d hd v hv, hvalue]
  rfl

/-- A program with other names and positions has the same code. -/
theorem assembled_relabel {o : Options} (ho : φ.Unremarked o) {p : Program}
    (hp : φ.Fixes p.globals) : (p.relabel φ).assembled o = p.assembled o := by
  rw [assembled, assembled, dataCells_relabel hp]
  exact congrArg (Assembly.mk o.entryLabel p.function.name p.dataCells)
    (p.function.assemble_relabel ho (relabels_functionSite hp))

end Program

/-! ### Scopes after code generation -/

/-- The layout with other names and positions. -/
def Layout.relabel (φ : Relabeling) (l : Layout) : Layout := ⟨l.scopes.relabel φ, l.taken⟩

namespace Layout

theorem place_relabel (x : String) (storage : Storage) (l : Layout) :
    (l.relabel φ).place (φ.name x) storage = (l.place x storage).relabel φ := by
  show Layout.mk (((l.scopes.relabel φ).place? (φ.name x) storage).getD (l.scopes.relabel φ)) _ = _
  rw [ScopeTree.place?_relabel, Option.getD_map]
  rfl

theorem declare_relabel (x : String) (ty : Ty) (l : Layout) :
    (l.relabel φ).declare (φ.name x) ty = (l.declare x ty).relabel φ :=
  congrArg (fun l' : Layout ↦ Layout.mk l'.scopes (l.taken + ty.size))
    (l.place_relabel x (.slot (l.taken + ty.size)))

theorem enter_relabel (l : Layout) : (l.relabel φ).enter = l.enter.relabel φ := by
  show Layout.mk ((l.scopes.relabel φ).descend?.getD (l.scopes.relabel φ)) _ = _
  rw [ScopeTree.descend?_relabel, Option.getD_map]
  rfl

theorem leave_relabel (l : Layout) : (l.relabel φ).leave = l.leave.relabel φ := by
  show Layout.mk ((l.scopes.relabel φ).exit?.getD (l.scopes.relabel φ)) _ = _
  rw [ScopeTree.exit?_relabel, Option.getD_map]
  rfl

theorem declareAll_relabel (ty : Ty) (vs : List Declarator) (l : Layout) :
    (l.relabel φ).declareAll ty (vs.map (Declarator.relabel φ)) =
      (l.declareAll ty vs).relabel φ := by
  rw [declareAll, declareAll, List.foldl_map]
  exact List.foldl_hom (relabel φ) fun l v ↦ l.declare_relabel v.name ty

theorem declareParams_relabel (ps : List Param) (l : Layout) :
    (l.relabel φ).declareParams (ps.map (Param.relabel φ)) = (l.declareParams ps).relabel φ := by
  rw [declareParams, declareParams, List.foldl_map]
  exact List.foldl_hom (relabel φ) fun l p ↦ l.declare_relabel p.name p.ty

theorem declareGlobals_relabel (l : Layout) (d : Declaration) :
    (l.relabel φ).declareGlobals (d.relabel φ) = (l.declareGlobals d).relabel φ := by
  rw [declareGlobals, declareGlobals, Declaration.relabel, List.foldl_map]
  exact List.foldl_hom (relabel φ) fun l v ↦ l.place_relabel v.name .cell

end Layout

theorem Block.replay_relabel (b : Block) (l : Layout) :
    (b.relabel φ).replay (l.relabel φ) = (b.replay l).relabel φ := by
  have hsimple : ∀ (a : Simple) (l : Layout),
      (a.relabel φ).replay (l.relabel φ) = (a.replay l).relabel φ := by
    intro a l
    rcases a with d | ⟨pos, x, e⟩ | ⟨pos, value⟩ | ⟨pos, e⟩
    · exact l.declareAll_relabel d.ty d.vars
    · rfl
    · rfl
    · rfl
  induction b generalizing l with
  | done => rfl
  | simple a rest ih => rw [relabel, replay, replay, hsimple, ih]
  | ifThen pos c t rest iht ih =>
    rw [relabel, replay, replay, l.enter_relabel, iht, Layout.leave_relabel, ih]
  | ifElse pos c t e rest iht ihe ih =>
    rw [relabel, replay, replay, l.enter_relabel, iht, Layout.leave_relabel, Layout.enter_relabel,
      ihe, Layout.leave_relabel, ih]
  | loop pos c b rest ihb ih =>
    rw [relabel, replay, replay, l.enter_relabel, ihb, Layout.leave_relabel, ih]

/-- Code generation for a program with other names and positions leaves the same scopes, with
them. -/
theorem Program.replay_relabel (p : Program) (t : ScopeTree) :
    (p.relabel φ).replay (t.relabel φ) = (p.replay t).relabel φ := by
  have hfunction : ∀ l : Layout,
      (p.function.relabel φ).replay (l.relabel φ) = (p.function.replay l).relabel φ := by
    intro l
    show ((p.function.body.relabel φ).replay ((l.relabel φ).enter.declareParams
      (p.function.params.map (Param.relabel φ)))).leave = _
    rw [l.enter_relabel, Layout.declareParams_relabel, Block.replay_relabel, Layout.leave_relabel]
    rfl
  have hglobals : (p.globals.map (Declaration.relabel φ)).foldl Layout.declareGlobals
      (Layout.relabel φ ⟨t.rewind, 0⟩) =
      (p.globals.foldl Layout.declareGlobals ⟨t.rewind, 0⟩).relabel φ := by
    rw [List.foldl_map]
    exact List.foldl_hom (Layout.relabel φ) fun l d ↦ l.declareGlobals_relabel d
  show ((p.function.relabel φ).replay ((p.globals.map (Declaration.relabel φ)).foldl
    Layout.declareGlobals ⟨(t.relabel φ).rewind, 0⟩)).scopes = _
  rw [t.rewind_relabel]
  show ((p.function.relabel φ).replay ((p.globals.map (Declaration.relabel φ)).foldl
    Layout.declareGlobals (Layout.relabel φ ⟨t.rewind, 0⟩))).scopes = _
  rw [hglobals, hfunction]
  rfl

end BlockLang
