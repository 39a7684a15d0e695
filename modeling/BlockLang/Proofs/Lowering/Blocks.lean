import BlockLang.Proofs.Lowering.Steps

/-!
# Code generation for expressions, statements and blocks

For well-formed text whose constant parts have values, code generation computes exactly the code of
`BlockLang.Proofs.Lowering.Layout`. The types that a site knows play the part of the context: an
expression that is typed there reads variables with places only, and an assignment has a target.

The induction for blocks is on the text. It carries the scopes still to be visited, so that the rest
of a block finds them where the blocks before it left them.
-/

namespace BlockLang

/-! ### Expressions -/

/-- A variable with a place has an operand. -/
theorem ScopeTree.operand_eq_ok {t : ScopeTree} {x : String} {q : Placed}
    (h : t.places.find? x = some q) (pos : Pos) :
    Env.operand t.lookupStored? pos x = .ok (q.ty, q.mem) := by
  rw [t.find?_places] at h
  obtain ⟨⟨i, sym⟩, hentry, hplaced⟩ := Option.bind_eq_some_iff.1 h
  obtain ⟨m, hm, rfl⟩ := Option.map_eq_some_iff.1 hplaced
  have hlookup : t.lookupStored? x = some sym := by
    rw [t.lookupStored?_eq_storedBinding?, hentry]
    rfl
  rw [Env.operand, hlookup]
  simp only [hm]

namespace Expr

variable {fold : Bool}

theorem constantPartFaults_of_not {pos : Pos} {e : Expr}
    (h : (not pos e).constantPartFaults = []) : e.constantPartFaults = [] := by
  by_cases hc : e.isConstant = true
  · have hnot : (not pos e).isConstant = true := hc
    rw [constantPartFaults_of_isConstant hnot, valueFaults] at h
    rw [constantPartFaults_of_isConstant hc]
    exact (List.append_eq_nil_iff.1 h).1
  · rw [constantPartFaults, if_neg hc] at h
    exact h

theorem constantPartFaults_of_binary {pos : Pos} {op : BinaryOp} {l r : Expr}
    (h : (binary pos op l r).constantPartFaults = []) :
    l.constantPartFaults = [] ∧ r.constantPartFaults = [] := by
  by_cases hc : (l.isConstant && r.isConstant) = true
  · obtain ⟨hl, hr⟩ := Bool.and_eq_true_iff.1 hc
    have hbinary : (binary pos op l r).isConstant = true := hc
    rw [constantPartFaults_of_isConstant hbinary, valueFaults] at h
    rw [constantPartFaults_of_isConstant hl, constantPartFaults_of_isConstant hr]
    exact List.append_eq_nil_iff.1 (List.append_eq_nil_iff.1 h).1
  · rw [constantPartFaults, if_neg hc] at h
    exact List.append_eq_nil_iff.1 h

/-- Folding meets no fault where the constant parts have values. -/
theorem foldingFaults_eq_nil {e : Expr} (h : e.constantPartFaults = []) :
    e.foldingFaults fold = [] := by
  rw [foldingFaults]
  split
  · rename_i hfoldable
    rw [isFoldable, Bool.and_eq_true_iff] at hfoldable
    rw [constantFaults_of_isConstant hfoldable.2, ← constantPartFaults_of_isConstant hfoldable.2, h]
  · rfl

theorem lowerFaults_eq_nil {env : Env} {e : Expr} (h : e.constantPartFaults = []) :
    e.lowerFaults fold env = [] := by
  induction e with
  | num p v => rfl
  | bool p b => rfl
  | var p x => rfl
  | not p e ih =>
    rw [lowerFaults, foldingFaults_eq_nil h, ih (constantPartFaults_of_not h)]
    split <;> rfl
  | binary p op l r ihl ihr =>
    obtain ⟨hl, hr⟩ := constantPartFaults_of_binary h
    rw [lowerFaults, foldingFaults_eq_nil h, ihl hl, ihr hr]
    split
    · rfl
    · split <;> rfl

/-- The code of a typed expression, where every typed variable has a place. -/
theorem HasType.lower_eq {env : Env} {Γ : String → Option Ty} {π : String → Option Placed}
    (hΓ : ∀ x t, Γ x = some t → ∃ q, π x = some q)
    (hπ : ∀ pos x q, π x = some q → env.operand pos x = .ok (q.ty, q.mem)) {e : Expr} {t : Ty}
    (h : e.HasType Γ t) : e.lower fold env = .ok (e.assemble fold π) := by
  induction h with
  | num p v => rfl
  | bool p b => rfl
  | @var p x t hx =>
    obtain ⟨q, hq⟩ := hΓ x t hx
    rw [lower, hπ p x q hq, assemble, hq]
    rfl
  | @not p e h ih =>
    rw [lower, assemble, ih]
    rcases (Expr.not p e).foldedValue? fold with - | v <;> rfl
  | @binary p op l r _ _ _ hop hl hr ihl ihr =>
    rw [lower, assemble, ihl, ihr]
    rcases (Expr.binary p op l r).foldedValue? fold with - | v <;> rfl

end Expr

/-- Every variable with a type in `Γ` has a place at the site, whatever its type there. -/
def Site.Covers (σ : Site) (Γ : Context) : Prop :=
  ∀ x t, Γ.find? x = some t → ∃ q, σ.places.find? x = some q

theorem Site.covers_types (σ : Site) : σ.Covers σ.types := by
  intro x t hx
  rw [σ.find?_types] at hx
  obtain ⟨q, hq, -⟩ := Option.map_eq_some_iff.1 hx
  exact ⟨q, hq⟩

namespace Lower

variable {p : Progress} {σ : Site} {T : SymbolTable} {L : Forest} {Γ : Context}

theorem goes_expr_of_covers (fold : Bool) (hp : p.At σ T L) (hσ : σ.Covers Γ) {e : Expr} {t : Ty}
    (he : e.HasType Γ.find? t) (hparts : e.constantPartFaults = []) :
    (expr fold e).Goes p (e.lines fold σ) σ T L := by
  have hfaults : e.lowerFaults fold p.session.scopes.lookupStored? = [] :=
    Expr.lowerFaults_eq_nil hparts
  have hcode : e.lower fold p.session.scopes.lookupStored? =
      .ok (e.assemble fold σ.places.find?) := by
    refine he.lower_eq hσ fun pos x q hq ↦ ?_
    rw [← hp.places] at hq
    exact ScopeTree.operand_eq_ok hq pos
  refine ⟨p, ?_, hp, .refl p⟩
  rw [expr, env_bind_apply, hfaults, hcode]
  rfl

theorem goes_expr (fold : Bool) (hp : p.At σ T L) {e : Expr} {t : Ty}
    (he : e.HasType σ.types.find? t) (hparts : e.constantPartFaults = []) :
    (expr fold e).Goes p (e.lines fold σ) σ T L :=
  goes_expr_of_covers fold hp σ.covers_types he hparts

theorem goes_store_of_covers (hp : p.At σ T L) (hσ : σ.Covers Γ) {x : String} {t : Ty}
    (hx : Γ.find? x = some t) (pos : Pos) : (store pos x).Goes p (σ.storeCode x) σ T L := by
  obtain ⟨q, hq⟩ := hσ x t hx
  have hoperand : Env.operand p.session.scopes.lookupStored? pos x = .ok (q.ty, q.mem) := by
    refine ScopeTree.operand_eq_ok ?_ pos
    rw [hp.places, hq]
  refine ⟨p, ?_, hp, .refl p⟩
  rw [store, env_bind_apply, hoperand, Site.storeCode, hq]
  rfl

theorem goes_store (hp : p.At σ T L) {x : String} {t : Ty} (hx : σ.types.find? x = some t)
    (pos : Pos) : (store pos x).Goes p (σ.storeCode x) σ T L :=
  goes_store_of_covers hp σ.covers_types hx pos

/-! ### Declarations -/

/-- What an initializer leaves for its variable at a site. -/
def startOf (fold : Bool) (σ : Site) : Option Expr → Initial
  | none => .immediate 0
  | some e =>
    match e.startWord? fold with
    | some w => .immediate w
    | none => .computed (e.lines fold σ)

theorem goes_initial (fold : Bool) (hp : p.At σ T L) (hσ : σ.Covers Γ) {ty : Ty}
    {init : Option Expr} (htyped : ∀ e, init = some e → e.HasType Γ.find? ty)
    (hparts : ∀ e, init = some e → e.constantPartFaults = []) :
    (initial fold init).Goes p (startOf fold σ init) σ T L := by
  rcases init with - | e
  · exact goes_pure hp _
  · rw [initial, Expr.foldingFaults_eq_nil (hparts e rfl)]
    refine (goes_reportAll_nil hp).bind fun q hq ↦ ?_
    rw [startOf, Expr.startWord?]
    rcases e.foldedValue? fold with - | v
    · rcases himm : e.immediate? with - | w
      · simp only
        exact (goes_expr_of_covers fold hq hσ (htyped e rfl) (hparts e rfl)).bind
          fun r hr ↦ goes_pure hr _
      · simp only
        exact goes_pure hq _
    · exact goes_pure hq _

theorem goes_declarator_of_covers (o : Options) (hp : p.At σ T L) (hσ : σ.Covers Γ) {ty : Ty}
    {v : Declarator} (hv : T.Declares v.name ty)
    (htyped : ∀ e, v.init = some e → e.HasType Γ.find? ty)
    (hparts : ∀ e, v.init = some e → e.constantPartFaults = []) :
    (declarator o ty v).Goes p (v.assemble o.foldConstants σ ty) (σ.declare v.name ty) T L := by
  refine (goes_initial o.foldConstants hp hσ htyped hparts).bind fun q hq ↦ ?_
  refine (goes_allocate hq ty).bind fun r hr ↦ ?_
  refine (goes_place hr hv _ v.pos).bind fun u hu ↦ ?_
  -- the variable now has its slot, and only the code is left to be put together
  rw [Declarator.assemble]
  rcases v.init with - | e
  · exact goes_pure hu _
  · unfold startOf Expr.startCode
    dsimp only
    rcases e.startWord? o.foldConstants with - | w
    · exact goes_pure hu _
    · exact goes_pure hu _

theorem goes_declarator (o : Options) (hp : p.At σ T L) {ty : Ty} {v : Declarator}
    (hv : T.Declares v.name ty) (htyped : ∀ e, v.init = some e → e.HasType σ.types.find? ty)
    (hparts : ∀ e, v.init = some e → e.constantPartFaults = []) :
    (declarator o ty v).Goes p (v.assemble o.foldConstants σ ty) (σ.declare v.name ty) T L :=
  goes_declarator_of_covers o hp σ.covers_types hv htyped hparts

theorem goes_declarators (o : Options) {ty : Ty} {vs : List Declarator} (hp : p.At σ T L)
    (hdeclared : ∀ v ∈ vs, T.Declares v.name ty) (h : WellDeclared false ty σ.types vs)
    (hparts : ∀ e ∈ vs.filterMap Declarator.init, e.constantPartFaults = []) :
    (declarators o ty vs).Goes p (assembleAll o.foldConstants ty vs σ) (σ.declareAll ty vs) T
      L := by
  induction vs generalizing p σ with
  | nil => exact goes_pure hp _
  | cons v vs ih =>
    cases h with
    | cons _ hinit hrest =>
      refine (goes_declarator o hp (hdeclared v List.mem_cons_self) (fun e he ↦ (hinit e he).1)
        fun e he ↦ hparts e (by rw [List.filterMap_cons_some he]; exact List.mem_cons_self)).bind
        fun q hq ↦ ?_
      rw [← σ.types_declare] at hrest
      refine (ih hq (fun w hw ↦ hdeclared w (List.mem_cons_of_mem _ hw)) hrest
        fun e he ↦ hparts e ?_).bind fun r hr ↦ goes_pure hr _
      rw [List.filterMap_cons]
      cases v.init <;> simp [he]

end Lower

/-! ### Scopes -/

theorem Forest.cut?_append (E : Forest) (s : Scope) (i L : Forest) :
    (E ++ .cons s i L).cut? E.length = some ⟨E, s, i, L⟩ := by
  induction E with
  | nil => rfl
  | cons s' i' l _ ih =>
    show ((l ++ .cons s i L).cut? l.length).map _ = _
    rw [ih]
    rfl

theorem Forest.length_append (F G : Forest) : (F ++ G).length = F.length + G.length := by
  induction F with
  | nil => exact (Nat.zero_add _).symm
  | cons s i l _ ih =>
    show (l ++ G).length + 1 = l.length + 1 + G.length
    omega

theorem Scope.Opened.view_placed? {n : Nat} {s : Scope} (h : s.Opened n) (x : String) :
    s.view Symbol.placed? x = none := by
  rw [view]
  rcases hx : s.symbols.get? x with - | sym
  · rfl
  · exact (sym.placed?_eq_none_iff s.id).2 (h.unplaced x sym hx)

theorem SymbolTable.Includes.refl (T : SymbolTable) : T.Includes T := fun _ _ h ↦ h

section

variable {α : Type} {p : Progress} {σ : Site} {T : SymbolTable} {L : Forest}

/-- The site at the start of the next scope, where the variables of that scope have the places
of `P`. -/
def Site.enterWith (σ : Site) (P : String → Option Placed) : Site :=
  { σ.enter with places := ⟨P, σ.places.scopes⟩ }

/-- The next scope is entered with the places of its variables, and the scopes around it are
kept. -/
theorem Progress.At.enterScope {s : Scope} {i : Forest} (hp : p.At σ T (.cons s i L)) (pos : Pos)
    (hid : s.id = σ.next) (hvisited : s.visited = 0) :
    ∃ E q, Lower.enterBlock pos p = .ok () q ∧
      q.At (σ.enterWith (s.view Symbol.placed?)) s.symbols i ∧
      q.session.diagnostics = p.session.diagnostics ∧
      E.length = p.session.scopes.here.visited ∧
      q.session.scopes.outer =
        ⟨{ p.session.scopes.here with visited := p.session.scopes.here.visited + 1 }, E, L⟩ ::
          p.session.scopes.outer := by
  obtain ⟨E, hinner, hlength⟩ := hp.pending
  have hcut : p.session.scopes.inner.cut? p.session.scopes.here.visited = some ⟨E, s, i, L⟩ := by
    rw [hinner, ← hlength, Forest.cut?_append]
  let t : ScopeTree :=
    ⟨s, i, ⟨{ p.session.scopes.here with visited := p.session.scopes.here.visited + 1 }, E, L⟩ ::
      p.session.scopes.outer, p.session.scopes.count⟩
  have hdescend : p.session.descend? =
      some (Session.note { p.session with scopes := t } (.replayedScope s.name)) := by
    rw [Session.descend?, ScopeTree.descend?, hcut]
    rfl
  refine ⟨E,
    { p with session := Session.note { p.session with scopes := t } (.replayedScope s.name) }, ?_,
    ⟨?_, hid, hp.labels, hp.taken, .refl _, .nil, rfl, hvisited.symm⟩, rfl, hlength, rfl⟩
  · rw [Lower.enterBlock, Lower.get_bind_apply, hdescend]
    rfl
  · ext1
    · rfl
    · exact congrArg Nest.scopes hp.places

/-- A scope that has only been opened is entered without places. -/
theorem Progress.At.enterBlock {s : Scope} {i : Forest} (hp : p.At σ T (.cons s i L)) (pos : Pos)
    (hopened : s.Opened σ.next) :
    ∃ E q, Lower.enterBlock pos p = .ok () q ∧ q.At σ.enter s.symbols i ∧
      q.session.diagnostics = p.session.diagnostics ∧
      E.length = p.session.scopes.here.visited ∧
      q.session.scopes.outer =
        ⟨{ p.session.scopes.here with visited := p.session.scopes.here.visited + 1 }, E, L⟩ ::
          p.session.scopes.outer := by
  have henter : σ.enterWith (s.view Symbol.placed?) = σ.enter := by
    rw [funext hopened.view_placed?]
    rfl
  rw [← henter]
  exact hp.enterScope pos hopened.id hopened.visited

/-- A step in the next scope. It is left with the scopes around it as they were. -/
theorem Progress.At.inScope {m : Lower α} {a : α} {σ' : Site} {s : Scope} {i : Forest}
    (hp : p.At σ T (.cons s i L)) (pos : Pos) (hid : s.id = σ.next) (hvisited : s.visited = 0)
    (hm : ∀ q, q.At (σ.enterWith (s.view Symbol.placed?)) s.symbols i →
      m.Goes q a σ' s.symbols .nil) :
    (Lower.inBlock pos m).Goes p a (σ'.back σ) T L := by
  obtain ⟨E, start, henter, hstart, hdiag, hlength, hstartOuter⟩ := hp.enterScope pos hid hvisited
  obtain ⟨⟨⟨⟨here, inner, outer, count⟩, diagnostics, log⟩, labels, taken⟩, hrun, hat, hkeeps⟩ :=
    hm start hstart
  have houter : outer = _ := hkeeps.outer.trans hstartOuter
  subst houter
  let back : Scope := { p.session.scopes.here with visited := p.session.scopes.here.visited + 1 }
  refine ⟨⟨⟨⟨back, E ++ .cons here inner L, p.session.scopes.outer, count⟩, diagnostics,
    log ++ [.exitedScope here.name]⟩, labels, taken⟩, ?_, ?_,
    ⟨hkeeps.diagnostics.trans hdiag, rfl⟩⟩
  · show EStateM.bind (Lower.enterBlock pos) _ _ = _
    rw [EStateM.bind, henter]
    show EStateM.bind m _ start = _
    rw [EStateM.bind, hrun]
    rfl
  · refine ⟨hp.places, hp.scope, hat.labels, hat.taken, hp.table, E ++ .cons here inner .nil, ?_,
      ?_⟩
    · rw [Forest.append_assoc]
      rfl
    · rw [Forest.length_append]
      exact congrArg (· + 1) hlength

theorem Progress.At.inBlock {m : Lower α} {a : α} {σ' : Site} {s : Scope} {i : Forest}
    (hp : p.At σ T (.cons s i L)) (pos : Pos) (hopened : s.Opened σ.next)
    (hm : ∀ q, q.At σ.enter s.symbols i → m.Goes q a σ' s.symbols .nil) :
    (Lower.inBlock pos m).Goes p a (σ'.back σ) T L := by
  refine hp.inScope pos hopened.id hopened.visited fun q hq ↦ hm q ?_
  rw [funext hopened.view_placed?] at hq
  exact hq

end

/-! ### Numbers -/

theorem Site.next_declareAll (σ : Site) (ty : Ty) (vs : List Declarator) :
    (σ.declareAll ty vs).next = σ.next := by
  induction vs generalizing σ with
  | nil => rfl
  | cons v vs ih => exact ih (σ.declare v.name ty)

theorem Site.types_declareAll (σ : Site) (ty : Ty) (vs : List Declarator) :
    (σ.declareAll ty vs).types = Context.declareAll σ.types ty vs := by
  induction vs generalizing σ with
  | nil => rfl
  | cons v vs ih =>
    show ((σ.declare v.name ty).declareAll ty vs).types = _
    rw [ih, σ.types_declare]
    rfl

theorem Simple.next_siteAfter (a : Simple) (σ : Site) : (a.siteAfter σ).next = σ.next := by
  cases a with
  | declare d => exact σ.next_declareAll d.ty d.vars
  | assign => rfl
  | ret => rfl
  | eval => rfl

/-- Scopes are numbered in the order of the text. -/
theorem Block.next_siteAfter (b : Block) (σ : Site) :
    (b.siteAfter σ).next = σ.next + b.scopeCount := by
  induction b generalizing σ with
  | done => rfl
  | simple a rest ih => rw [siteAfter, ih, a.next_siteAfter, scopeCount]
  | ifThen pos c t rest iht ih =>
    have ht : ((t.siteAfter σ.number.enter).back σ.number).next = σ.next + 1 + t.scopeCount :=
      iht σ.number.enter
    rw [siteAfter, ih, ht, scopeCount]
    omega
  | ifElse pos c t e rest iht ihe ih =>
    have ht : ((t.siteAfter σ.number.enter).back σ.number).next = σ.next + 1 + t.scopeCount :=
      iht σ.number.enter
    generalize hσ : (t.siteAfter σ.number.enter).back σ.number = σ₁ at ht
    have he : ((e.siteAfter σ₁.enter).back σ₁).next = σ₁.next + 1 + e.scopeCount := ihe σ₁.enter
    rw [siteAfter, hσ, ih, he, ht, scopeCount]
    omega
  | loop pos c b rest ihb ih =>
    have hb : ((b.siteAfter σ.number.enter).back σ.number).next = σ.next + 1 + b.scopeCount :=
      ihb σ.number.enter
    rw [siteAfter, ih, hb, scopeCount]
    omega

theorem Block.next_siteInside (b : Block) (σ : Site) :
    (b.siteInside σ).next = σ.next + (b.scopeCount + 1) := by
  have h : (b.siteInside σ).next = σ.next + 1 + b.scopeCount := b.next_siteAfter σ.enter
  omega

/-! ### Blocks -/

namespace Block

/-- What follows a statement is well formed with what the statement declares. -/
theorem WellFormed.rest {result : Ty} {a : Simple} {rest : Block} {σ : Site}
    (h : (simple a rest).WellFormed result σ.types) :
    rest.WellFormed result (a.siteAfter σ).types := by
  cases h with
  | @declare _ d _ _ hrest =>
    rw [Simple.siteAfter, σ.types_declareAll]
    exact hrest
  | assign _ _ hrest => exact hrest
  | ret _ hrest => exact hrest
  | retVoid _ hrest => exact hrest
  | eval _ hrest => exact hrest

/-- Code generation for the first statement of a well-formed block. -/
theorem WellFormed.goes_simple (o : Options) (f : String) {result : Ty} {a : Simple} {rest : Block}
    {p : Progress} {σ : Site} {T : SymbolTable} {L : Forest}
    (h : (simple a rest).WellFormed result σ.types) (hp : p.At σ T L) (hdeclared : a.DeclaredIn T)
    (hparts : ∀ e ∈ a.exprs, e.constantPartFaults = []) :
    (a.lower o f).Goes p (a.assemble o f σ) (a.siteAfter σ) T L := by
  have hcode : (a.code o f).Goes p (a.body o.foldConstants f σ) (a.siteAfter σ) T L := by
    cases h with
    | declare hd _ => exact Lower.goes_declarators o hp hdeclared hd.declared hparts
    | @assign _ pos x e _ _ hx he _ =>
      exact (Lower.goes_expr o.foldConstants hp he (hparts e List.mem_cons_self)).bind
        fun q hq ↦ (Lower.goes_store hq hx pos).bind fun r hr ↦ Lower.goes_pure hr _
    | @ret _ _ e _ he _ =>
      exact (Lower.goes_expr o.foldConstants hp he (hparts e List.mem_cons_self)).bind
        fun q hq ↦ Lower.goes_pure hq _
    | retVoid _ _ => exact Lower.goes_pure hp _
    | @eval _ _ e _ _ he _ =>
      exact Lower.goes_expr o.foldConstants hp he (hparts e List.mem_cons_self)
  exact hcode.bind fun q hq ↦ Lower.goes_pure hq _

/-- Code generation for a well-formed block yields the code of the block at the site where it
stands, and leaves no scope of the block unvisited. -/
theorem WellFormed.goes_lower (o : Options) (f : String) {result : Ty} {b : Block} {p : Progress}
    {σ : Site} {T : SymbolTable} {L : Forest} (h : b.WellFormed result σ.types) (hp : p.At σ T L)
    (hfits : b.Fits σ.next T L) (hparts : ∀ e ∈ b.exprs, e.constantPartFaults = []) :
    (b.lower o f).Goes p (b.assemble o f σ) (b.siteAfter σ) T .nil := by
  induction b generalizing p σ T L with
  | done =>
    obtain rfl : L = .nil := hfits
    exact Lower.goes_pure hp _
  | simple a rest ih =>
    obtain ⟨hpartsa, hparts⟩ := forall_mem_exprs_simple.1 hparts
    refine (h.goes_simple o f hp hfits.1 hpartsa).bind fun q hq ↦ ?_
    have hnext : (a.siteAfter σ).next = σ.next := a.next_siteAfter σ
    exact (ih h.rest hq (hnext.symm ▸ hfits.2) hparts).bind fun r hr ↦ Lower.goes_pure hr _
  | ifThen pos c t rest iht ih =>
    obtain ⟨hc, ht', hrest'⟩ := wellFormed_ifThen.1 h
    obtain ⟨hpartc, hpartst, hparts⟩ := forall_mem_exprs_ifThen.1 hparts
    cases L with
    | nil => exact hfits.elim
    | cons s i L =>
      obtain ⟨hopened, ht, hrest⟩ := hfits
      refine (Lower.goes_freshLabel hp).bind fun p₁ h₁ ↦ ?_
      refine (Lower.goes_expr o.foldConstants h₁ hc hpartc).bind fun p₂ h₂ ↦ ?_
      refine (h₂.inBlock pos hopened fun q hq ↦
        iht (σ := σ.number.enter) ht' hq ht hpartst).bind fun p₃ h₃ ↦ ?_
      exact (ih (σ := t.siteInside σ.number) hrest' h₃ ((next_siteInside t σ.number).symm ▸ hrest)
        hparts).bind fun p₄ h₄ ↦ Lower.goes_pure h₄ _
  | ifElse pos c t e rest iht ihe ih =>
    obtain ⟨hc, ht', he', hrest'⟩ := wellFormed_ifElse.1 h
    obtain ⟨hpartc, hpartst, hpartse, hparts⟩ := forall_mem_exprs_ifElse.1 hparts
    cases L with
    | nil => exact hfits.elim
    | cons s i L =>
      obtain ⟨hopened, ht, hlater⟩ := hfits
      cases L with
      | nil => exact hlater.elim
      | cons s' i' L =>
        obtain ⟨hopened', he, hrest⟩ := hlater
        have hnext : (t.siteInside σ.number).next = σ.next + (t.scopeCount + 1) :=
          next_siteInside t σ.number
        have hfits' : e.Fits ((t.siteInside σ.number).next + 1) s'.symbols i' := by rwa [hnext]
        refine (Lower.goes_freshLabel hp).bind fun p₁ h₁ ↦ ?_
        refine (Lower.goes_expr o.foldConstants h₁ hc hpartc).bind fun p₂ h₂ ↦ ?_
        refine (h₂.inBlock pos hopened fun q hq ↦
          iht (σ := σ.number.enter) ht' hq ht hpartst).bind fun p₃ h₃ ↦ ?_
        refine (Progress.At.inBlock h₃ pos (hnext.symm ▸ hopened') fun q hq ↦
          ihe (σ := (t.siteInside σ.number).enter) he' hq hfits' hpartse).bind fun p₄ h₄ ↦ ?_
        have hnext' : (e.siteInside (t.siteInside σ.number)).next =
            σ.next + (t.scopeCount + 1) + (e.scopeCount + 1) := by
          rw [next_siteInside, hnext]
        exact (ih (σ := e.siteInside (t.siteInside σ.number)) hrest' h₄ (hnext'.symm ▸ hrest)
          hparts).bind fun p₅ h₅ ↦ Lower.goes_pure h₅ _
  | loop pos c b rest ihb ih =>
    obtain ⟨hc, hb', hrest'⟩ := wellFormed_loop.1 h
    obtain ⟨hpartc, hpartsb, hparts⟩ := forall_mem_exprs_loop.1 hparts
    cases L with
    | nil => exact hfits.elim
    | cons s i L =>
      obtain ⟨hopened, hb, hrest⟩ := hfits
      refine (Lower.goes_freshLabel hp).bind fun p₁ h₁ ↦ ?_
      refine (Lower.goes_expr o.foldConstants h₁ hc hpartc).bind fun p₂ h₂ ↦ ?_
      refine (h₂.inBlock pos hopened fun q hq ↦
        ihb (σ := σ.number.enter) hb' hq hb hpartsb).bind fun p₃ h₃ ↦ ?_
      exact (ih (σ := b.siteInside σ.number) hrest' h₃ ((next_siteInside b σ.number).symm ▸ hrest)
        hparts).bind fun p₄ h₄ ↦ Lower.goes_pure h₄ _

end Block

end BlockLang
