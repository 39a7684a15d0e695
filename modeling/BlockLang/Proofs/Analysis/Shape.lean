import BlockLang.Proofs.Analysis.Programs

/-!
# The scopes that an analysis leaves behind

Code generation walks over the scopes of the analysis a second time. What it needs of them is said
here once, as a relation between the text of a block and the scopes left for it:

* `Block.Fits b n T F`: the table `T` declares the variables of the block, and the forest `F` holds
  one scope for each block inside it, numbered from `n` on, not yet visited and without places;
* `ScopeTree.Grown`: what the analysis of statements does to a scope tree as a whole.

An analysis of a well-formed block grows the tree by a forest that fits the block
(`Block.WellFormed.grown_analyze`). After a whole program the tree is back at its outermost scope
with nothing visited, so that `rewind` finds nothing to do (`Program.WellFormed.analyzed`).
-/

namespace BlockLang

/-! ### Tables and forests that fit a block -/

/-- The table declares `x`, under that name and with the type `ty`. -/
def SymbolTable.Declares (T : SymbolTable) (x : String) (ty : Ty) : Prop :=
  ∃ sym, T.get? x = some sym ∧ sym.name = x ∧ sym.ty = ty

/-- Everything that `T` declares, `T'` declares too. -/
def SymbolTable.Includes (T' T : SymbolTable) : Prop := ∀ x ty, T.Declares x ty → T'.Declares x ty

/-- The scope bears the number `n`; none of the scopes inside it has been visited, and none of its
symbols has a place. -/
structure Scope.Opened (n : Nat) (s : Scope) : Prop where
  /-- The number. -/
  id : s.id = n
  /-- Nothing has been visited. -/
  visited : s.visited = 0
  /-- No symbol has a place. -/
  unplaced : ∀ x sym, s.symbols.get? x = some sym → sym.storage = none

/-- The forest starts with an opened scope of number `n`, which holds `body`, and goes on as
`later` says. -/
def Forest.Opens (n : Nat) (body : SymbolTable → Forest → Prop) (later : Forest → Prop) :
    Forest → Prop
  | nil => False
  | cons s inner rest => s.Opened n ∧ body s.symbols inner ∧ later rest

/-- The table declares the variables of a statement. -/
def Simple.DeclaredIn (T : SymbolTable) : Simple → Prop
  | declare d => ∀ v ∈ d.vars, T.Declares v.name d.ty
  | assign _ _ _ => True
  | ret _ _ => True
  | eval _ _ => True

namespace Block

/-- The number of scopes that a block opens. -/
def scopeCount : Block → Nat
  | done => 0
  | simple _ rest => rest.scopeCount
  | ifThen _ _ t rest => t.scopeCount + 1 + rest.scopeCount
  | ifElse _ _ t e rest => t.scopeCount + 1 + (e.scopeCount + 1 + rest.scopeCount)
  | loop _ _ b rest => b.scopeCount + 1 + rest.scopeCount

/-- The table declares the variables of the block, and the forest holds one opened scope for each
block inside it, the first of which has the number `n`. -/
def Fits : Block → Nat → SymbolTable → Forest → Prop
  | done, _, _, F => F = .nil
  | simple a rest, n, T, F => a.DeclaredIn T ∧ rest.Fits n T F
  | ifThen _ _ t rest, n, T, F =>
    F.Opens n (t.Fits (n + 1)) (rest.Fits (n + (t.scopeCount + 1)) T)
  | ifElse _ _ t e rest, n, T, F =>
    F.Opens n (t.Fits (n + 1)) (Forest.Opens (n + (t.scopeCount + 1))
      (e.Fits (n + (t.scopeCount + 1) + 1))
      (rest.Fits (n + (t.scopeCount + 1) + (e.scopeCount + 1)) T))
  | loop _ _ b rest, n, T, F =>
    F.Opens n (b.Fits (n + 1)) (rest.Fits (n + (b.scopeCount + 1)) T)

end Block

theorem Scope.Opened.unvisited_eq {n : Nat} {s : Scope} (h : s.Opened n) : s.unvisited = s := by
  obtain ⟨id, name, symbols, visited⟩ := s
  obtain rfl : visited = 0 := h.visited
  rfl

private theorem map_unvisited_opens {n : Nat} {body : SymbolTable → Forest → Prop}
    {later : Forest → Prop} (hbody : ∀ T F, body T F → F.map Scope.unvisited = F)
    (hlater : ∀ F, later F → F.map Scope.unvisited = F) {F : Forest} (h : F.Opens n body later) :
    F.map Scope.unvisited = F := by
  cases F with
  | nil => exact h.elim
  | cons s inner rest =>
    rw [Forest.map, h.1.unvisited_eq, hbody _ _ h.2.1, hlater _ h.2.2]

/-- There is nothing visited in a forest that fits a block. -/
theorem Block.Fits.map_unvisited {b : Block} {n : Nat} {T : SymbolTable} {F : Forest}
    (h : b.Fits n T F) : F.map Scope.unvisited = F := by
  induction b generalizing n T F with
  | done =>
    obtain rfl : F = .nil := h
    rfl
  | simple a rest ih => exact ih h.2
  | ifThen pos c t rest iht ih => exact map_unvisited_opens (fun _ _ h ↦ iht h) (fun _ h ↦ ih h) h
  | ifElse pos c t e rest iht ihe ih =>
    exact map_unvisited_opens (fun _ _ h ↦ iht h)
      (fun _ h ↦ map_unvisited_opens (fun _ _ h ↦ ihe h) (fun _ h ↦ ih h) h) h
  | loop pos c b rest ihb ih => exact map_unvisited_opens (fun _ _ h ↦ ihb h) (fun _ h ↦ ih h) h

/-! ### Growth of a scope tree -/

theorem Forest.append_nil (F : Forest) : F ++ .nil = F := by
  induction F with
  | nil => rfl
  | cons s i l _ ih => exact congrArg (Forest.cons s i) ih

theorem Forest.append_assoc (F G H : Forest) : F ++ G ++ H = F ++ (G ++ H) := by
  induction F with
  | nil => rfl
  | cons s i l _ ih => exact congrArg (Forest.cons s i) ih

/-- An enclosing scope without the values tracked in it. -/
def Enclosing.shape (e : Enclosing) : Scope × (String → Option Ty) × Forest × Forest :=
  (e.scope.blank, e.scope.view fun _ s ↦ some s.ty, e.earlier, e.later)

namespace ScopeTree

/-- A scope tree after statements that opened `n` scopes, of which the forest `F` is what is left
inside the current one. -/
structure Grown (t t' : ScopeTree) (n : Nat) (F : Forest) : Prop where
  /-- The current scope is the same one. -/
  here : t'.here.blank = t.here.blank
  /-- The scopes around it are the same, up to tracked values. -/
  outer : t'.outer.map Enclosing.shape = t.outer.map Enclosing.shape
  /-- The new scopes come after the old ones. -/
  inner : t'.inner = t.inner ++ F
  /-- Numbers are given in the order of opening. -/
  count : t'.count = t.count + n
  /-- Declarations stay. -/
  declared : ∀ x ty, t.types.here x = some ty → t'.types.here x = some ty

theorem Grown.refl (t : ScopeTree) : t.Grown t 0 .nil :=
  ⟨rfl, rfl, (Forest.append_nil _).symm, rfl, fun _ _ h ↦ h⟩

theorem Grown.trans {t t' t'' : ScopeTree} {n m : Nat} {F G : Forest} (h : t.Grown t' n F)
    (h' : t'.Grown t'' m G) : t.Grown t'' (n + m) (F ++ G) := by
  refine ⟨h'.here.trans h.here, h'.outer.trans h.outer, ?_, ?_, fun x ty hx ↦ ?_⟩
  · rw [h'.inner, h.inner, Forest.append_assoc]
  · rw [h'.count, h.count, Nat.add_assoc]
  · exact h'.declared x ty (h.declared x ty hx)

/-- Growth after a step that opens no scope. -/
theorem Grown.trans_zero {t t' t'' : ScopeTree} {n : Nat} {F : Forest} (h : t.Grown t' 0 .nil)
    (h' : t'.Grown t'' n F) : t.Grown t'' n F := by
  have htotal := h.trans h'
  rw [Nat.zero_add] at htotal
  exact htotal

/-- Leaving a scope that was entered keeps it, with what is inside it, as one more scope. -/
theorem Grown.exit {t t' : ScopeTree} {name : String} {n : Nat} {F : Forest}
    (h : (t.enter name).Grown t' n F) :
    ∃ t'', t'.exit? = some t'' ∧ t.Grown t'' (n + 1) (.cons t'.here F .nil) := by
  obtain ⟨here, inner, outer, count⟩ := t'
  have hinner : inner = F := h.inner
  have hcount : count = t.count + 1 + n := h.count
  have houter : outer.map Enclosing.shape =
      Enclosing.shape ⟨t.here, t.inner, .nil⟩ :: t.outer.map Enclosing.shape := h.outer
  cases outer with
  | nil => cases houter
  | cons e es =>
    rw [List.map_cons, List.cons.injEq] at houter
    obtain ⟨hshape, hes⟩ := houter
    simp only [Enclosing.shape, Prod.mk.injEq] at hshape
    obtain ⟨hblank, hview, hearlier, hlater⟩ := hshape
    refine ⟨_, rfl, hblank, hes, ?_, ?_, fun x ty hx ↦ ?_⟩
    · simp only [hearlier, hlater, hinner]
    · show count = _
      omega
    · show e.scope.view (fun _ s ↦ some s.ty) x = some ty
      rw [hview]
      exact hx

theorem grown_declare? {t t' : ScopeTree} {x : String} {ty : Ty} {value : Option Value} {pos : Pos}
    (h : t.declare? x ty value pos = some t') : t.Grown t' 0 .nil := by
  have hnew : t.containsLocal x = false := containsLocal_of_declare? h
  have htypes : t'.types = t.types.bind x ty := view_declare? _ h rfl
  rw [t.declare?_eq_some hnew, Option.some.injEq] at h
  refine ⟨by rw [← h]; rfl, by rw [← h], by rw [← h]; exact (Forest.append_nil _).symm,
    by rw [← h]; rfl, fun y ty' hy ↦ ?_⟩
  have hne : y ≠ x := by
    rintro rfl
    rw [(t.containsLocal_eq_false_iff y).1 hnew] at hy
    cases hy
  rw [htypes, Nest.bind_here_of_ne _ _ hne]
  exact hy

private theorem shape_modifyOuter {x : String} {value : Option Value} {es es' : List Enclosing}
    (h : modifyOuter x (Symbol.assign value) es = some es') :
    es'.map Enclosing.shape = es.map Enclosing.shape := by
  induction es generalizing es' with
  | nil => cases h
  | cons e es ih =>
    rw [modifyOuter] at h
    split at h
    · obtain rfl := Option.some.inj h
      have hview := e.scope.view_modify (fun _ s ↦ some s.ty) (g := Symbol.assign value)
        (fun _ _ ↦ rfl) x
      rw [List.map_cons, List.map_cons, Enclosing.shape, Enclosing.shape, hview]
      rfl
    · obtain ⟨es'', hes, rfl⟩ := Option.map_eq_some_iff.1 h
      rw [List.map_cons, List.map_cons, ih hes]

theorem grown_assign? {t t' : ScopeTree} {x : String} {value : Option Value}
    (h : t.assign? x value = some t') : t.Grown t' 0 .nil := by
  have htypes : t'.types = t.types := view_assign? blind_types h
  have hdeclared : ∀ y ty, t.types.here y = some ty → t'.types.here y = some ty := by
    intro y ty hy
    rw [htypes]
    exact hy
  rw [ScopeTree.assign?, modify?] at h
  split at h
  · obtain rfl := Option.some.inj h
    exact ⟨rfl, rfl, (Forest.append_nil _).symm, rfl, hdeclared⟩
  · obtain ⟨es, hes, rfl⟩ := Option.map_eq_some_iff.1 h
    exact ⟨rfl, shape_modifyOuter hes, (Forest.append_nil _).symm, rfl, hdeclared⟩

/-- What a sound tree has a type for, its current table declares. -/
theorem Sound.declares {t : ScopeTree} (h : t.Sound) {x : String} {ty : Ty}
    (hx : t.types.here x = some ty) : t.here.symbols.Declares x ty := by
  obtain ⟨sym, hsym, hty⟩ := Option.bind_eq_some_iff.1 hx
  exact ⟨sym, hsym, ((sound_iff.1 h).1 x sym hsym).name, Option.some.inj hty⟩

end ScopeTree

/-! ### Growth by statements -/

/-- A sessions' scopes have grown. -/
abbrev Session.Grown (s s' : Session) (n : Nat) (F : Forest) : Prop := s.scopes.Grown s'.scopes n F

theorem Session.Grown.of_eq {s s' : Session} (h : s'.scopes = s.scopes) : s.Grown s' 0 .nil := by
  show s.scopes.Grown s'.scopes 0 .nil
  rw [h]
  exact .refl _

theorem Declarator.grown_analyze (isGlobal : Bool) (ty : Ty) (v : Declarator) (s : Session) :
    s.Grown (v.analyze isGlobal ty s) 0 .nil := by
  rcases hnew : s.scopes.containsLocal v.name with - | -
  · obtain ⟨value, t, ht, -, heq | hassign⟩ := v.scopes_analyze isGlobal ty hnew
    · show s.scopes.Grown _ 0 .nil
      rw [heq]
      exact ScopeTree.grown_declare? ht
    · exact (ScopeTree.grown_declare? ht).trans (ScopeTree.grown_assign? hassign)
  · exact .of_eq (v.scopes_analyze_of_containsLocal isGlobal ty hnew)

theorem Declaration.grown_analyze (isGlobal : Bool) (d : Declaration) (s : Session) :
    s.Grown (d.analyze isGlobal s) 0 .nil := by
  rw [analyze]
  split
  · generalize d.vars = vs
    induction vs generalizing s with
    | nil => exact .refl _
    | cons v vs ih => exact (v.grown_analyze isGlobal d.ty s).trans (ih _)
  · exact .of_eq (s.scopes_reportAll _)

theorem Param.grown_analyze (p : Param) (s : Session) : s.Grown (p.analyze s) 0 .nil := by
  rw [analyze]
  split
  · split
    · exact .refl _
    · show s.scopes.Grown ((s.scopes.declare? _ _ _ _).getD s.scopes) 0 .nil
      rcases ht : s.scopes.declare? p.name p.ty p.ty.defaultValue p.pos with - | t
      · exact .refl _
      · exact ScopeTree.grown_declare? ht
  · exact .refl _

theorem grown_analyzeParams (ps : List Param) (s : Session) :
    s.Grown (analyzeParams ps s) 0 .nil := by
  induction ps generalizing s with
  | nil => exact .refl _
  | cons p ps ih => exact (p.grown_analyze s).trans (ih _)

theorem Session.grown_analyzeAssign (s : Session) (pos : Pos) (x : String) (e : Expr) :
    s.Grown (s.analyzeAssign pos x e) 0 .nil := by
  rw [analyzeAssign]
  rcases hx : s.scopes.lookup? x with - | target
  · exact .refl _
  · show s.scopes.Grown (((s.reportAll _).scopes.assign? _ _).getD (s.reportAll _).scopes) 0 .nil
    rw [scopes_reportAll]
    rcases ht : s.scopes.assign? x (e.storedValue s.env target.ty) with - | t
    · exact .refl _
    · exact ScopeTree.grown_assign? ht

theorem Simple.grown_analyze (result : Ty) (a : Simple) (s : Session) :
    s.Grown (a.analyze result s) 0 .nil := by
  cases a with
  | declare d => exact d.grown_analyze false s
  | assign pos x e => exact s.grown_analyzeAssign pos x e
  | ret pos value => exact .of_eq (s.scopes_analyzeReturn result pos value)
  | eval pos e => exact .of_eq (s.scopes_reportAll _)

/-! ### Growth by blocks -/

/-- A declared variable has the type of its declaration afterwards. -/
theorem Context.declareAll_here (Γ : Context) (ty : Ty) (vs : List Declarator) (x : String) :
    (Γ.declareAll ty vs).here x = if x ∈ vs.map Declarator.name then some ty else Γ.here x := by
  induction vs generalizing Γ with
  | nil => rfl
  | cons v vs ih =>
    show (Context.declareAll (Γ.bind v.name ty) ty vs).here x = _
    rw [ih]
    by_cases hx : x = v.name
    · subst hx
      simp
    · rw [Nest.bind_here_of_ne _ _ hx]
      simp [hx]

theorem Context.declare_here_of_mem {Γ : Context} {d : Declaration} {v : Declarator}
    (hv : v ∈ d.vars) : (Γ.declare d).here v.name = some d.ty := by
  rw [Context.declare, Context.declareAll_here, if_pos (List.mem_map_of_mem hv)]

/-- A scope that was entered and left is an opened one. -/
theorem Session.Grown.opened {s s' : Session} {name : String} {n : Nat} {F : Forest}
    (h : (s.enter name).Grown s' n F) (hs : s'.scopes.Sound) :
    s'.scopes.here.Opened s.scopes.count := by
  have hblank : s'.scopes.here.blank = (s.scopes.enter name).here.blank := h.here
  refine ⟨congrArg Scope.id hblank, congrArg Scope.visited hblank, fun x sym hx ↦ ?_⟩
  exact ((ScopeTree.sound_iff.1 hs).1 x sym hx).storage

theorem Session.Grown.exit {s s' : Session} {name : String} {n : Nat} {F : Forest}
    (h : (s.enter name).Grown s' n F) :
    s.Grown s'.exit (n + 1) (.cons s'.scopes.here F .nil) := by
  obtain ⟨t, ht, hgrown⟩ := ScopeTree.Grown.exit h
  show s.scopes.Grown s'.exit.scopes _ _
  rw [scopes_exit, ht]
  exact hgrown

namespace Block

/-- A statement without inner blocks grows the tree by nothing. -/
private theorem grown_analyze_simple {result : Ty} {a : Simple} {rest : Block} {s : Session}
    (ha : a.DeclaredIn (rest.analyze result (a.analyze result s)).scopes.here.symbols)
    (hrest : ∃ F,
      (a.analyze result s).Grown (rest.analyze result (a.analyze result s)) rest.scopeCount F ∧
      rest.Fits (a.analyze result s).scopes.count
        (rest.analyze result (a.analyze result s)).scopes.here.symbols F) :
    ∃ F, s.Grown ((simple a rest).analyze result s) (simple a rest).scopeCount F ∧
      (simple a rest).Fits s.scopes.count
        ((simple a rest).analyze result s).scopes.here.symbols F := by
  obtain ⟨F, hgrown, hfits⟩ := hrest
  have hstep : s.Grown (a.analyze result s) 0 .nil := a.grown_analyze result s
  have hcount : (a.analyze result s).scopes.count = s.scopes.count := hstep.count
  rw [hcount] at hfits
  exact ⟨F, hstep.trans_zero hgrown, ha, hfits⟩

/-- The block of a construct grows the tree by one opened scope that fits it. What follows grows it
by scopes with later numbers. -/
private theorem grown_analyzeInside {result : Ty} {name : String} {b : Block} {s s' : Session}
    {n : Nat} (later : Nat → Forest → Prop) (hs : s.scopes.Sound)
    (hb : ∃ F, (s.enter name).Grown (b.analyze result (s.enter name)) b.scopeCount F ∧
      b.Fits (s.scopes.count + 1) (b.analyze result (s.enter name)).scopes.here.symbols F)
    (hlater : ∃ G, (b.analyzeInside result name s).Grown s' n G ∧
      later (b.analyzeInside result name s).scopes.count G) :
    ∃ F, s.Grown s' (b.scopeCount + 1 + n) F ∧
      F.Opens s.scopes.count (b.Fits (s.scopes.count + 1))
        (later (s.scopes.count + (b.scopeCount + 1))) := by
  obtain ⟨F, hinside, hfits⟩ := hb
  obtain ⟨G, hgrown, hG⟩ := hlater
  have hsound := (b.extends_analyze result (s.enter name)).sound (hs.enter name)
  have hexit : s.Grown (b.analyzeInside result name s) (b.scopeCount + 1) _ := hinside.exit
  rw [hexit.count] at hG
  exact ⟨.cons _ F G, hexit.trans hgrown, hinside.opened hsound, hfits, hG⟩

/-- The analysis of a well-formed block grows the scope tree by a forest that fits the block. -/
theorem WellFormed.grown_analyze {result : Ty} {b : Block} {s : Session} (hs : s.scopes.Sound)
    (h : b.WellFormed result s.scopes.types) :
    ∃ F, s.Grown (b.analyze result s) b.scopeCount F ∧
      b.Fits s.scopes.count (b.analyze result s).scopes.here.symbols F := by
  generalize hΓ : s.scopes.types = Γ at h
  induction h generalizing s with
  | done => exact ⟨.nil, .refl _, rfl⟩
  | @declare Γ d rest hd _ ih =>
    subst hΓ
    have hs₁ := (d.extends_analyze false s).sound hs
    have hrest := ih hs₁ hd.types_analyze
    refine grown_analyze_simple (fun v hv ↦ ?_) hrest
    obtain ⟨F, hgrown, -⟩ := hrest
    have hsound := (rest.extends_analyze result (d.analyze false s)).sound hs₁
    have hdeclared : (d.analyze false s).scopes.types.here v.name = some d.ty := by
      rw [hd.types_analyze]
      exact Context.declare_here_of_mem hv
    exact hsound.declares (hgrown.declared _ _ hdeclared)
  | @assign Γ pos x e t rest hx he _ ih =>
    subst hΓ
    exact grown_analyze_simple trivial (ih ((s.extends_analyzeAssign pos x e).sound hs)
      (s.view_analyzeAssign blind_types pos x e))
  | @ret Γ pos e rest he _ ih =>
    subst hΓ
    have hscopes : (Simple.analyze result s (.ret pos (some e))).scopes = s.scopes :=
      s.scopes_analyzeReturn result pos _
    exact grown_analyze_simple trivial (ih (hscopes ▸ hs) (by rw [hscopes]))
  | @retVoid Γ pos rest hvoid _ ih =>
    subst hΓ
    have hscopes : (Simple.analyze result s (.ret pos none)).scopes = s.scopes :=
      s.scopes_analyzeReturn result pos _
    exact grown_analyze_simple trivial (ih (hscopes ▸ hs) (by rw [hscopes]))
  | @eval Γ pos e t rest he _ ih =>
    subst hΓ
    have hscopes : (Simple.analyze result s (.eval pos e)).scopes = s.scopes :=
      s.scopes_reportAll _
    exact grown_analyze_simple trivial (ih (hscopes ▸ hs) (by rw [hscopes]))
  | @ifThen Γ pos c t rest hc _ _ iht ih =>
    subst hΓ
    rw [analyze_ifThen]
    generalize hcond : s.checkCondition .cond c = s₁
    have hscopes : s₁.scopes = s.scopes := hcond ▸ s.scopes_checkCondition .cond c
    have hs₁ : s₁.scopes.Sound := hscopes ▸ hs
    have ht := iht (s := s₁.enter "if_then") (hs₁.enter _) (by rw [Session.types_enter, hscopes])
    have hrest := ih ((t.extends_analyzeInside result "if_then" s₁).sound hs₁)
      (by rw [types_analyzeInside, hscopes])
    obtain ⟨F, hgrown, hfits⟩ := grown_analyzeInside (fun m ↦ rest.Fits m _) hs₁ ht hrest
    rw [hscopes] at hfits
    exact ⟨F, (Session.Grown.of_eq hscopes).trans_zero hgrown, hfits⟩
  | @ifElse Γ pos c t e rest hc _ _ _ iht ihe ih =>
    subst hΓ
    rw [analyze_ifElse]
    generalize hcond : s.checkCondition .cond c = s₁
    have hscopes : s₁.scopes = s.scopes := hcond ▸ s.scopes_checkCondition .cond c
    have hs₁ : s₁.scopes.Sound := hscopes ▸ hs
    have hs₂ := (t.extends_analyzeInside result "if_then" s₁).sound hs₁
    have ht := iht (s := s₁.enter "if_then") (hs₁.enter _) (by rw [Session.types_enter, hscopes])
    have he := ihe (s := (t.analyzeInside result "if_then" s₁).enter "if_else") (hs₂.enter _)
      (by rw [Session.types_enter, types_analyzeInside, hscopes])
    have hrest := ih ((e.extends_analyzeInside result "if_else" _).sound hs₂)
      (by rw [types_analyzeInside, types_analyzeInside, hscopes])
    obtain ⟨F, hgrown, hfits⟩ := grown_analyzeInside
      (fun m G ↦ G.Opens m (e.Fits (m + 1)) (rest.Fits (m + (e.scopeCount + 1)) _)) hs₁ ht
      (grown_analyzeInside (fun m ↦ rest.Fits m _) hs₂ he hrest)
    rw [hscopes] at hfits
    exact ⟨F, (Session.Grown.of_eq hscopes).trans_zero hgrown, hfits⟩
  | @loop Γ pos c b rest hc _ _ ihb ih =>
    subst hΓ
    rw [analyze_loop]
    generalize hcond : s.checkCondition .loop c = s₁
    have hscopes : s₁.scopes = s.scopes := hcond ▸ s.scopes_checkCondition .loop c
    have hs₁ : s₁.scopes.Sound := hscopes ▸ hs
    have hb := ihb (s := s₁.enter "while_body") (hs₁.enter _)
      (by rw [Session.types_enter, hscopes])
    have hrest := ih ((b.extends_analyzeInside result "while_body" s₁).sound hs₁)
      (by rw [types_analyzeInside, hscopes])
    obtain ⟨F, hgrown, hfits⟩ := grown_analyzeInside (fun m ↦ rest.Fits m _) hs₁ hb hrest
    rw [hscopes] at hfits
    exact ⟨F, (Session.Grown.of_eq hscopes).trans_zero hgrown, hfits⟩

end Block

/-! ### The scopes of a program -/

/-- A declared parameter has its type afterwards. -/
theorem WellPassed.declareParams_here {Γ : Context} {ps : List Param} (h : WellPassed Γ ps) :
    ∀ q ∈ ps, (Context.declareParams Γ ps).here q.name = some q.ty := by
  -- a binding stays, since all later names are new
  have hkeep : ∀ {Γ : Context} {ps : List Param} {x : String} {ty : Ty}, WellPassed Γ ps →
      Γ.here x = some ty → (Context.declareParams Γ ps).here x = some ty := by
    intro Γ ps x ty h hx
    induction h with
    | nil => exact hx
    | @cons Γ p ps _ hnew _ ih =>
      refine ih ?_
      rw [Nest.bind_here_of_ne _ _ (fun heq ↦ ?_)]
      · exact hx
      · rw [heq, hnew] at hx
        cases hx
  induction h with
  | nil => exact fun q hq ↦ absurd hq List.not_mem_nil
  | @cons Γ p ps _ _ hrest ih =>
    intro q hq
    rcases List.mem_cons.1 hq with rfl | hq
    · exact hkeep (Γ := Γ.bind q.name q.ty) hrest (Γ.bind_here_self _ _)
    · exact ih q hq

theorem Declaration.grown_analyzeGlobal (function entry : String) (d : Declaration) (s : Session) :
    s.Grown (d.analyzeGlobal function entry s) 0 .nil :=
  (d.grown_analyze true s).trans (Session.Grown.of_eq (d.scopes_analyzeGlobal function entry s))

theorem grown_analyzeGlobals (function entry : String) (ds : List Declaration) (s : Session) :
    s.Grown (analyzeGlobals function entry ds s) 0 .nil := by
  induction ds generalizing s with
  | nil => exact .refl _
  | cons d ds ih => exact (d.grown_analyzeGlobal function entry s).trans (ih _)

/-- All global variables have their types after the global declarations. -/
theorem WellFormedGlobals.declared {function entry : String} {ds : List Declaration} {s : Session}
    (h : WellFormedGlobals function entry s.scopes.types ds) :
    ∀ d ∈ ds, ∀ v ∈ d.vars,
      (analyzeGlobals function entry ds s).scopes.types.here v.name = some d.ty := by
  generalize hΓ : s.scopes.types = Γ at h
  induction h generalizing s with
  | nil => exact fun d hd ↦ absurd hd List.not_mem_nil
  | @cons Γ d ds hd _ _ ih =>
    subst hΓ
    intro d' hd' v hv
    rcases List.mem_cons.1 hd' with rfl | hd'
    · refine (grown_analyzeGlobals function entry ds _).declared v.name _ ?_
      rw [hd.types_analyzeGlobal]
      exact Context.declare_here_of_mem hv
    · exact ih (hd.types_analyzeGlobal function entry) d' hd' v hv

namespace Program

/-- What code generation relies on: the scopes of the program are all there and untouched. -/
structure Analyzed (p : Program) (t : ScopeTree) : Prop where
  /-- The outermost scope is the current one. -/
  outer : t.outer = []
  /-- It is an opened scope like all others. -/
  opened : t.here.Opened 0
  /-- It declares the global variables. -/
  globals : ∀ d ∈ p.globals, ∀ v ∈ d.vars, t.here.symbols.Declares v.name d.ty
  /-- The scope of the function is the only one directly inside it. -/
  inner : t.inner.Opens 1
    (fun T F ↦ (∀ q ∈ p.function.params, T.Declares q.name q.ty) ∧ p.function.body.Fits 2 T F)
    (· = .nil)

/-- There is nothing to rewind after an analysis. -/
theorem Analyzed.rewind_eq {p : Program} {t : ScopeTree} (h : p.Analyzed t) : t.rewind = t := by
  obtain ⟨here, inner, outer, count⟩ := t
  obtain rfl : outer = [] := h.outer
  have hhere : here.unvisited = here := h.opened.unvisited_eq
  have hinner : inner.map Scope.unvisited = inner :=
    map_unvisited_opens (fun _ _ hF ↦ hF.2.map_unvisited)
      (fun F hF ↦ by obtain rfl : F = .nil := hF; rfl) h.inner
  show ScopeTree.mk here.unvisited (inner.map Scope.unvisited) [] count = _
  rw [hhere, hinner]

/-- The scopes after the analysis of a well-formed program. -/
theorem WellFormed.analyzed {entry : String} {p : Program} (h : p.WellFormed entry) :
    p.Analyzed (p.analyze entry {}).scopes := by
  have hglobal : ScopeTree.empty.Grown (p.globalEnd entry).scopes 0 .nil :=
    grown_analyzeGlobals p.function.name entry p.globals (Session.note {} .analysisStarted)
  have hsound : (p.globalEnd entry).scopes.Sound := p.sound_globalEnd entry
  -- the scope of the function, from its opening to its end
  generalize hs : p.globalEnd entry = s at hglobal hsound
  have htypes : s.scopes.types = Context.ofGlobals p.globals := hs ▸ h.types_globalEnd
  have hparams : WellPassed (p.function.opened s).scopes.types p.function.params := by
    rw [p.function.types_opened, htypes]
    exact h.function.params
  have hstart : (p.function.bodyStart s).scopes.Sound :=
    (p.function.extends_bodyStart s).sound (hsound.enter _)
  have hbody : p.function.body.WellFormed p.function.returnTy
      (p.function.bodyStart s).scopes.types := by
    rw [Function.bodyStart, hparams.types_analyzeParams, p.function.types_opened, htypes]
    exact h.function.body
  obtain ⟨F, hgrown, hfits⟩ := hbody.grown_analyze hstart
  have hend : (p.function.bodyEnd s).scopes.Sound :=
    (p.function.body.extends_analyze _ _).sound hstart
  have hinside : (p.function.opened s).Grown (p.function.bodyEnd s) p.function.body.scopeCount F :=
    (grown_analyzeParams p.function.params _).trans_zero hgrown
  have hscopes : (p.analyze entry {}).scopes = (p.function.bodyEnd s).exit.scopes := by
    rw [p.scopes_analyze, hs, Function.analyze_eq,
      Function.lacksReturn_eq_false_iff.2 h.function.returns]
    rfl
  -- and what leaving it makes of the outermost scope
  have hexit : s.Grown (p.function.bodyEnd s).exit (p.function.body.scopeCount + 1)
      (.cons (p.function.bodyEnd s).scopes.here F .nil) :=
    Session.Grown.exit (s := s.note (.analyzing p.function.name p.function.returnTy)) hinside
  have htotal : ScopeTree.empty.Grown (p.function.bodyEnd s).exit.scopes _ _ :=
    hglobal.trans_zero hexit
  have hfinal : (p.function.bodyEnd s).exit.scopes.Sound := by
    have hext : (s.note (.analyzing p.function.name p.function.returnTy)).Extends
        (p.function.bodyEnd s).exit :=
      ((p.function.extends_bodyStart s).trans (p.function.body.extends_analyze _ _)).exit
    exact hext.sound hsound
  rw [hscopes]
  have hblank := htotal.here
  refine ⟨List.map_eq_nil_iff.1 htotal.outer, ⟨congrArg Scope.id hblank,
    congrArg Scope.visited hblank, fun x sym hx ↦
      ((ScopeTree.sound_iff.1 hfinal).1 x sym hx).storage⟩, fun d hd v hv ↦ ?_, ?_⟩
  · refine hfinal.declares (hexit.declared _ _ ?_)
    rw [← hs]
    exact h.globals.declared d hd v hv
  · have hcount : s.scopes.count = 1 := hglobal.count
    have hstartCount : (p.function.bodyStart s).scopes.count = 2 := by
      rw [Function.bodyStart, (grown_analyzeParams p.function.params (p.function.opened s)).count]
      exact congrArg (· + 1) hcount
    have hopened : (p.function.bodyEnd s).scopes.here.Opened s.scopes.count :=
      Session.Grown.opened (s := s.note (.analyzing p.function.name p.function.returnTy)) hinside
        hend
    rw [htotal.inner]
    refine ⟨hcount ▸ hopened, ⟨fun q hq ↦ ?_, hstartCount ▸ hfits⟩, rfl⟩
    refine hend.declares (hgrown.declared _ _ ?_)
    rw [Function.bodyStart, hparams.types_analyzeParams]
    exact hparams.declareParams_here q hq

end Program

end BlockLang
