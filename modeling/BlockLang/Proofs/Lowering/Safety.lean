import BlockLang.Proofs.Lowering.Totality
import BlockLang.Proofs.Scope.Map

/-!
# Code generation on scopes that need not fit

Code generation relies on an analysis of the same program, but nothing makes its callers run one.
Here it starts from any scopes at all: those of another program, of a failed run, or of no analysis.
It may then fail, in two ways only, and it never damages what an analysis knows.

Two facts carry this through every step (`Progress.Ends`), the early end by a failure included. What
the scopes are without the marks of code generation, `ScopeTree.bare`, stays the same; and a step
that succeeds ends at the level at which it began, so the scope of a block can always be left again.
That a variable found by code generation has a place needs no invariant: `ScopeTree.lookupStored?`
looks at no others.
-/

namespace BlockLang

/-! ### Scopes without the marks of code generation -/

/-- The symbol without a place. -/
def Symbol.bare (s : Symbol) : Symbol := { s with storage := none, size := 0 }

/-- The scope with no scope inside it visited and none of its symbols placed. -/
def Scope.bare (s : Scope) : Scope :=
  { s with visited := 0, symbols := ⟨s.symbols.entries.map fun e ↦ (e.1, e.2.bare)⟩ }

/-- The row of the bare scope. -/
def ScopeInfo.bare (r : ScopeInfo) : ScopeInfo := { r with scope := r.scope.bare }

/-- A symbol table does not show in bare form which of its symbols have places. -/
theorem Scope.bare_place (s : Scope) (x : String) (storage : Storage) :
    Scope.bare { s with symbols := s.symbols.modify x (Symbol.place storage) } = s.bare := by
  have hentries : (s.symbols.modify x (Symbol.place storage)).entries.map
      (fun e ↦ (e.1, e.2.bare)) = s.symbols.entries.map fun e ↦ (e.1, e.2.bare) := by
    rw [SymbolTable.modify, List.map_map]
    refine List.map_congr_left fun e _ ↦ ?_
    by_cases hx : e.1 = x
    · simp only [Function.comp_apply, if_pos hx]
      rfl
    · simp only [Function.comp_apply, if_neg hx]
  exact congrArg (fun es ↦ ({ s with visited := 0, symbols := ⟨es⟩ } : Scope)) hentries

namespace ScopeTree

variable {t t' : ScopeTree} {x : String}

/-- All scopes of the tree in bare form, and their number. -/
def bare (t : ScopeTree) : Forest × Nat := (t.whole.map Scope.bare, t.count)

theorem bare_exit? (h : t.exit? = some t') : t'.bare = t.bare := by
  obtain ⟨here, inner, outer, count⟩ := t
  rcases outer with - | ⟨e, es⟩
  · cases h
  · obtain rfl := Option.some.inj h
    rfl

/-- A scope that is not the outermost one can be left. -/
theorem exists_exit? {n : Nat} (h : t.level = n + 1) :
    ∃ t', t.exit? = some t' ∧ t'.level = n := by
  obtain ⟨here, inner, outer, count⟩ := t
  rcases outer with - | ⟨e, es⟩
  · cases h
  · exact ⟨_, rfl, Nat.succ.inj h⟩

theorem bare_rewind (t : ScopeTree) : t.rewind.bare = t.bare := by
  show ((t.whole.map Scope.unvisited).map Scope.bare, t.count) = _
  rw [Forest.map_map]
  rfl

/-- A change of the current scope that its bare form does not show. -/
theorem bare_here {s : Scope} (h : s.bare = t.here.bare) : bare { t with here := s } = t.bare := by
  rw [bare, bare, ← whole_map, ← whole_map, map, map, h]

theorem bare_descend? (h : t.descend? = some t') : t'.bare = t.bare ∧ t'.level = t.level + 1 := by
  constructor
  · rw [← bare_exit? (exit?_of_descend? h)]
    exact bare_here rfl
  · obtain ⟨c, -, rfl⟩ := Option.map_eq_some_iff.1 h
    rfl

theorem bare_place? {storage : Storage} (h : t.place? x storage = some t') :
    t'.bare = t.bare ∧ t'.level = t.level := by
  rw [place?] at h
  split at h
  · obtain rfl := Option.some.inj h
    exact ⟨bare_here (t.here.bare_place x storage), rfl⟩
  · cases h

/-- A symbol that was just given a place is found with it. -/
theorem lookupLocal?_of_place? {storage : Storage} (h : t.place? x storage = some t') :
    ∃ sym, t'.lookupLocal? x = some (Symbol.place storage sym) := by
  rw [place?] at h
  split at h
  · rename_i hx
    obtain rfl := Option.some.inj h
    obtain ⟨sym, hsym⟩ := Option.isSome_iff_exists.1 hx
    refine ⟨sym, ?_⟩
    show (t.here.symbols.modify x (Symbol.place storage)).get? x = _
    rw [SymbolTable.get?_modify, if_pos rfl, hsym]
    rfl
  · cases h

/-- Trees with the same bare form have the same rows, but for the marks of code generation. -/
theorem infos_eq_of_bare (h : t'.bare = t.bare) :
    t'.infos.map ScopeInfo.bare = t.infos.map ScopeInfo.bare := by
  have hrows : ∀ u : ScopeTree, u.infos.map ScopeInfo.bare = u.bare.1.infos none 0 :=
    fun u ↦ (Forest.infos_map (φ := Scope.bare) (fun _ ↦ rfl) none 0 u.whole).symm
  rw [hrows, hrows, h]

theorem listing_eq_of_bare (h : t'.bare = t.bare) :
    t'.listing.map ScopeInfo.bare = t.listing.map ScopeInfo.bare := by
  have hscope : ∀ (u : ScopeTree) (i : Nat), (u.scope? i).map ScopeInfo.bare =
      (u.infos.map ScopeInfo.bare).find? (·.scope.id = i) := by
    intro u i
    rw [scope?, List.find?_map]
    rfl
  have hcount : t'.count = t.count := congrArg Prod.snd h
  rw [listing, listing, List.map_filterMap, List.map_filterMap, hcount]
  refine congrArg (List.filterMap · _) (funext fun i ↦ ?_)
  rw [hscope, hscope, infos_eq_of_bare h]

end ScopeTree

/-! ### Steps -/

/-- The failure is one of the two that scopes which do not fit the program can cause. -/
inductive LoweringError.IsMisfit : LoweringError → Prop
  /-- A variable has no visible declaration with a place. -/
  | symbol (x : String) (pos : Pos) : IsMisfit (.unresolvedSymbol x pos)
  /-- No scope is left for a block. -/
  | scope (pos : Pos) : IsMisfit (.missingScope pos)

variable {α β : Type}

/-- How a step of code generation may end that starts at `p`. -/
def Progress.Ends (p : Progress) : EStateM.Result LoweringError Progress α → Prop
  | .ok _ q => q.session.scopes.bare = p.session.scopes.bare ∧
    q.session.scopes.level = p.session.scopes.level
  | .error e q => q.session.scopes.bare = p.session.scopes.bare ∧ e.IsMisfit

/-- A later part of a step ends as the whole step may, if what went before kept form and level. -/
theorem Progress.Ends.after {p q : Progress} {r : EStateM.Result LoweringError Progress α}
    (h : q.Ends r) (hq : q.session.scopes.bare = p.session.scopes.bare ∧
      q.session.scopes.level = p.session.scopes.level) : p.Ends r := by
  rcases r with ⟨a, q'⟩ | ⟨e, q'⟩
  · exact ⟨h.1.trans hq.1, h.2.trans hq.2⟩
  · exact ⟨h.1.trans hq.1, h.2⟩

namespace Lower

/-- Wherever the step starts, it ends well or by a misfit, and keeps the bare form of the scopes. -/
def Safe (m : Lower α) : Prop := ∀ p : Progress, p.Ends (m p)

theorem safe_pure (a : α) : Safe (pure a) := fun _ ↦ ⟨rfl, rfl⟩

theorem Safe.bind {m : Lower α} {k : α → Lower β} (hm : m.Safe) (hk : ∀ a, (k a).Safe) :
    (m >>= k).Safe := by
  intro p
  have hfirst := hm p
  show p.Ends (EStateM.bind m k p)
  rw [EStateM.bind]
  rcases hq : m p with ⟨a, q⟩ | ⟨e, q⟩
  · rw [hq] at hfirst
    exact (hk a q).after hfirst
  · rw [hq] at hfirst
    exact hfirst

/-- A step that changes no scopes. -/
theorem safe_modifyGet {f : Progress → α × Progress}
    (hf : ∀ p, (f p).2.session.scopes = p.session.scopes) : Safe (modifyGet f : Lower α) := by
  intro p
  have hscopes := hf p
  exact ⟨congrArg ScopeTree.bare hscopes, congrArg ScopeTree.level hscopes⟩

theorem safe_note (e : Event) : (note e).Safe := safe_modifyGet fun _ ↦ rfl

theorem safe_reportAll (ds : List Diagnostic) : (reportAll ds).Safe :=
  safe_modifyGet fun p ↦ p.session.scopes_reportAll ds

theorem safe_freshLabel : freshLabel.Safe := safe_modifyGet fun _ ↦ rfl

theorem safe_allocate (ty : Ty) : (allocate ty).Safe := safe_modifyGet fun _ ↦ rfl

theorem safe_get : Safe (get : Lower Progress) := fun _ ↦ ⟨rfl, rfl⟩

theorem safe_ofExcept {x : Except LoweringError α} (h : ∀ e, x = .error e → e.IsMisfit) :
    (ofExcept x).Safe := by
  intro p
  rcases x with e | a
  · exact ⟨rfl, h e rfl⟩
  · exact ⟨rfl, rfl⟩

end Lower

/-! ### Expressions -/

/-- Every variable of the environment has a place. -/
def Env.Stored (env : Env) : Prop := ∀ x s, env x = some s → s.storage.isSome = true

theorem ScopeTree.stored_lookupStored? (t : ScopeTree) : Env.Stored t.lookupStored? := by
  intro x sym h
  obtain ⟨s, -, hs⟩ := List.exists_of_findSome?_eq_some h
  exact (Option.filter_eq_some_iff.1 hs).2

theorem Env.Stored.isMisfit_of_operand {env : Env} (henv : env.Stored) {pos : Pos} {x : String}
    {e : LoweringError} (h : env.operand pos x = .error e) : e.IsMisfit := by
  rw [operand] at h
  rcases hx : env x with - | s
  · rw [hx] at h
    cases h
    exact .symbol x pos
  · obtain ⟨storage, hstorage⟩ := Option.isSome_iff_exists.1 (henv x s hx)
    rw [hx] at h
    simp only [Symbol.operand?, hstorage, Option.map_some] at h
    cases h

/-- Code for an expression fails on a variable that is not found, and in no other way. -/
theorem Expr.isMisfit_of_lower (fold : Bool) {env : Env} (henv : env.Stored) {e : Expr}
    {err : LoweringError} (h : e.lower fold env = .error err) : err.IsMisfit := by
  induction e with
  | num pos v => cases h
  | bool pos b => cases h
  | var pos x =>
    rw [lower] at h
    rcases hx : env.operand pos x with err' | r
    · rw [hx] at h
      cases h
      exact henv.isMisfit_of_operand hx
    · rw [hx] at h
      cases h
  | not pos e ih =>
    rw [lower] at h
    split at h
    · cases h
    · rcases he : e.lower fold env with err' | code
      · rw [he] at h
        cases h
        exact ih he
      · rw [he] at h
        cases h
  | binary pos op l r ihl ihr =>
    rw [lower] at h
    split at h
    · cases h
    · rcases hl : l.lower fold env with err' | lhs
      · rw [hl] at h
        cases h
        exact ihl hl
      · rcases hr : r.lower fold env with err' | rhs
        · rw [hl, hr] at h
          cases h
          exact ihr hr
        · rw [hl, hr] at h
          cases h

namespace Lower

/-- A step that first looks at the places of variables. -/
theorem safe_env_bind {k : Env → Lower β} (hk : ∀ env : Env, env.Stored → (k env).Safe) :
    (env >>= k).Safe :=
  fun p ↦ hk _ p.session.scopes.stored_lookupStored? p

theorem safe_expr (fold : Bool) (e : Expr) : (expr fold e).Safe :=
  safe_env_bind fun _ henv ↦ (safe_reportAll _).bind fun _ ↦
    (safe_ofExcept fun _ h ↦ e.isMisfit_of_lower fold henv h).bind fun _ ↦ safe_pure _

theorem safe_store (pos : Pos) (x : String) : (store pos x).Safe :=
  safe_env_bind fun _ henv ↦ (safe_ofExcept fun _ h ↦ henv.isMisfit_of_operand h).bind fun _ ↦
    safe_pure _

theorem safe_initial (fold : Bool) (init : Option Expr) : (initial fold init).Safe := by
  rcases init with - | e
  · exact safe_pure _
  · refine (safe_reportAll _).bind fun _ ↦ ?_
    split
    · exact safe_pure _
    · split
      · exact safe_pure _
      · exact (safe_expr fold e).bind fun _ ↦ safe_pure _

/-! ### Declarations -/

theorem safe_place (x : String) (storage : Storage) (pos : Pos) : (place x storage pos).Safe := by
  intro p
  rw [place, get_bind_apply]
  rcases ht : p.session.scopes.place? x storage with - | t
  · exact ⟨rfl, .symbol x pos⟩
  · obtain ⟨sym, hsym⟩ := ScopeTree.lookupLocal?_of_place? ht
    dsimp only
    rw [hsym]
    dsimp only
    rw [Symbol.operand?_place rfl rfl]
    exact ScopeTree.bare_place? ht

theorem safe_declarator (o : Options) (ty : Ty) (v : Declarator) : (declarator o ty v).Safe :=
  (safe_initial o.foldConstants v.init).bind fun start ↦ (safe_allocate ty).bind fun storage ↦
    (safe_place v.name storage v.pos).bind fun slot ↦ by
      rcases start with value | code <;> exact safe_pure _

theorem safe_declarators (o : Options) (ty : Ty) (vs : List Declarator) :
    (declarators o ty vs).Safe := by
  induction vs with
  | nil => exact safe_pure _
  | cons v vs ih => exact (safe_declarator o ty v).bind fun _ ↦ ih.bind fun _ ↦ safe_pure _

theorem safe_params (index : Nat) (ps : List Param) : (params index ps).Safe := by
  induction ps generalizing index with
  | nil => exact safe_pure _
  | cons q ps ih =>
    have hfirst : (param index q).Safe :=
      (safe_allocate q.ty).bind fun _ ↦ (safe_place q.name _ q.pos).bind fun _ ↦ safe_pure _
    exact hfirst.bind fun _ ↦ (ih (index + 1)).bind fun _ ↦ safe_pure _

theorem safe_cell (ty : Ty) (v : Declarator) : (cell ty v).Safe := by
  refine safe_get.bind fun _ ↦ ?_
  rcases v.init with - | e
  · exact (safe_pure _).bind fun _ ↦ (safe_place _ _ _).bind fun _ ↦ safe_pure _
  · exact ((safe_reportAll _).bind fun _ ↦ safe_pure _).bind fun _ ↦
      (safe_place _ _ _).bind fun _ ↦ safe_pure _

theorem safe_dataSection (ds : List Declaration) : (dataSection ds).Safe := by
  have hcells : ∀ (ty : Ty) (vs : List Declarator), (cells ty vs).Safe := by
    intro ty vs
    induction vs with
    | nil => exact safe_pure _
    | cons v vs ih => exact (safe_cell ty v).bind fun _ ↦ ih.bind fun _ ↦ safe_pure _
  induction ds with
  | nil => exact safe_pure _
  | cons d ds ih => exact (hcells d.ty d.vars).bind fun _ ↦ ih.bind fun _ ↦ safe_pure _

/-! ### Blocks -/

/-- The next scope is entered, or there is none. -/
theorem enterBlock_cases (pos : Pos) (p : Progress) :
    enterBlock pos p = .error (.missingScope pos) p ∨
      ∃ q, enterBlock pos p = .ok () q ∧ q.session.scopes.bare = p.session.scopes.bare ∧
        q.session.scopes.level = p.session.scopes.level + 1 := by
  rw [enterBlock, get_bind_apply, Session.descend?]
  rcases ht : p.session.scopes.descend? with - | t
  · exact .inl rfl
  · exact .inr ⟨_, rfl, ScopeTree.bare_descend? ht⟩

/-- A scope that is not the outermost one is left. -/
theorem leaveBlock_eq_ok (pos : Pos) {p : Progress} {n : Nat}
    (h : p.session.scopes.level = n + 1) :
    ∃ q, leaveBlock pos p = .ok () q ∧ q.session.scopes.bare = p.session.scopes.bare ∧
      q.session.scopes.level = n := by
  obtain ⟨t, ht, hlevel⟩ := ScopeTree.exists_exit? h
  rw [leaveBlock, get_bind_apply, Session.exit?, ht]
  exact ⟨_, rfl, ScopeTree.bare_exit? ht, hlevel⟩

/-- The scope of a block can be left again, since the step ends at the level of that scope. -/
theorem Safe.inBlock {m : Lower α} (hm : m.Safe) (pos : Pos) : (inBlock pos m).Safe := by
  intro p
  show p.Ends (EStateM.bind (enterBlock pos) _ p)
  obtain henter | ⟨q, henter, hbare, hlevel⟩ := enterBlock_cases pos p
  · rw [EStateM.bind, henter]
    exact ⟨rfl, .scope pos⟩
  · rw [EStateM.bind, henter]
    -- one level further in; the step ends there too, or fails on the way
    show p.Ends (EStateM.bind m _ q)
    have hbody := hm q
    rcases hr : m q with ⟨a, r⟩ | ⟨e, r⟩
    · rw [hr] at hbody
      obtain ⟨u, hleave, hbare', hlevel'⟩ := leaveBlock_eq_ok pos (hbody.2.trans hlevel)
      rw [EStateM.bind, hr]
      show p.Ends (EStateM.bind (leaveBlock pos) _ r)
      rw [EStateM.bind, hleave]
      exact ⟨hbare'.trans (hbody.1.trans hbare), hlevel'⟩
    · rw [hr] at hbody
      rw [EStateM.bind, hr]
      exact ⟨hbody.1.trans hbare, hbody.2⟩

end Lower

/-! ### Statements and programs -/

open Lower

theorem Simple.safe_lower (o : Options) (f : String) (a : Simple) : (a.lower o f).Safe := by
  have hcode : (a.code o f).Safe := by
    rcases a with d | ⟨pos, x, e⟩ | ⟨pos, - | e⟩ | ⟨pos, e⟩
    · exact safe_declarators o d.ty d.vars
    · exact (safe_expr _ e).bind fun _ ↦ (safe_store pos x).bind fun _ ↦ safe_pure _
    · exact safe_pure _
    · exact (safe_expr _ e).bind fun _ ↦ safe_pure _
    · exact safe_expr _ e
  exact hcode.bind fun _ ↦ safe_pure _

theorem Block.safe_lower (o : Options) (f : String) (b : Block) : (b.lower o f).Safe := by
  induction b with
  | done => exact safe_pure _
  | simple a rest ih => exact (a.safe_lower o f).bind fun _ ↦ ih.bind fun _ ↦ safe_pure _
  | ifThen pos c t rest iht ih =>
    exact safe_freshLabel.bind fun _ ↦ (safe_expr _ c).bind fun _ ↦ (iht.inBlock pos).bind fun _ ↦
      ih.bind fun _ ↦ safe_pure _
  | ifElse pos c t e rest iht ihe ih =>
    exact safe_freshLabel.bind fun _ ↦ (safe_expr _ c).bind fun _ ↦ (iht.inBlock pos).bind fun _ ↦
      (ihe.inBlock pos).bind fun _ ↦ ih.bind fun _ ↦ safe_pure _
  | loop pos c b rest ihb ih =>
    exact safe_freshLabel.bind fun _ ↦ (safe_expr _ c).bind fun _ ↦ (ihb.inBlock pos).bind fun _ ↦
      ih.bind fun _ ↦ safe_pure _

theorem Function.safe_lower (o : Options) (f : Function) : (f.lower o).Safe :=
  (safe_note _).bind fun _ ↦ Safe.inBlock
    ((safe_params 0 f.params).bind fun _ ↦ (f.body.safe_lower o f.name).bind fun _ ↦ safe_pure _)
    f.pos

namespace Program

theorem safe_lowerRewound (o : Options) (p : Program) : (p.lowerRewound o).Safe :=
  (safe_dataSection p.globals).bind fun _ ↦ (p.function.safe_lower o).bind fun _ ↦
    safe_get.bind fun _ ↦ (safe_note _).bind fun _ ↦ safe_pure _

/-- Code generation is safe for every program and whatever scopes it starts from. It succeeds, at
the outermost scope, or it fails because a variable or a scope is missing; and in each case the
scopes are those that it found, but for the current one, the counters of visits and the places of
variables. -/
theorem generate_safe (o : Options) (p : Program) (s : Session) :
    ((∃ a, (p.generate o s).1 = .ok a ∧ (p.generate o s).2.scopes.outer = []) ∨
      (∃ x pos, (p.generate o s).1 = .error (.unresolvedSymbol x pos)) ∨
      ∃ pos, (p.generate o s).1 = .error (.missingScope pos)) ∧
    (p.generate o s).2.scopes.count = s.scopes.count ∧
    (p.generate o s).2.scopes.infos.map ScopeInfo.bare = s.scopes.infos.map ScopeInfo.bare ∧
    (p.generate o s).2.scopes.listing.map ScopeInfo.bare =
      s.scopes.listing.map ScopeInfo.bare := by
  -- to rewind is no step of the kind above, since it changes the level
  have hends := p.safe_lowerRewound o { session := (s.note .generationStarted).rewind }
  have hrun : (p.lower o).run { session := s } =
    p.lowerRewound o { session := (s.note .generationStarted).rewind } := rfl
  have hstart : (s.note .generationStarted).rewind.scopes.bare = s.scopes.bare :=
    s.scopes.bare_rewind
  rw [generate, hrun]
  rcases hresult : p.lowerRewound o { session := (s.note .generationStarted).rewind } with
    ⟨a, q⟩ | ⟨e, q⟩
  · rw [hresult] at hends
    have hbare : q.session.scopes.bare = s.scopes.bare := hends.1.trans hstart
    exact ⟨.inl ⟨a, rfl, List.eq_nil_of_length_eq_zero hends.2⟩, congrArg Prod.snd hbare,
      ScopeTree.infos_eq_of_bare hbare, ScopeTree.listing_eq_of_bare hbare⟩
  · rw [hresult] at hends
    have hbare : q.session.scopes.bare = s.scopes.bare := hends.1.trans hstart
    refine ⟨.inr ?_, congrArg Prod.snd hbare, ScopeTree.infos_eq_of_bare hbare,
      ScopeTree.listing_eq_of_bare hbare⟩
    obtain ⟨x, pos⟩ | ⟨pos⟩ := hends.2
    · exact .inl ⟨x, pos, rfl⟩
    · exact .inr ⟨pos, rfl⟩

end Program

end BlockLang
