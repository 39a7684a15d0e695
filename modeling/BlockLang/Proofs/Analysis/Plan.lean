import BlockLang.Proofs.Analysis.Inventory
import BlockLang.Proofs.Scope.Numbering

/-!
# The scopes of any text

An analysis goes through the whole text of a program, whatever it finds wrong there. So the scopes
it opens can be read off the text alone, without types or values: one for the function, one for each
block inside it in the order of the text, each inside the scope of the block around it
(`Function.plan`). A scope holds the first declaration of each name that its block declares with a
storable type.

* `Block.analyze?`, `Program.analyze?`: the analysis with a failure where a scope cannot be left.
* `ScopeTree.Spans`: what statements do to a scope tree, with the plan that the new scopes follow.
  It is `ScopeTree.Grown` for the places of scopes and `ScopeTree.Records` for what they hold.
* `Program.listing_analyze`: an analysis in any scope of any tree never fails to leave a scope, ends
  where it started, and adds to the listing exactly what is planned.
-/

namespace BlockLang

/-! ### Signatures -/

/-- What a declaration says of a variable. -/
structure Signature where
  /-- The name. -/
  name : String
  /-- The type. -/
  ty : Ty
  /-- The position of the name. -/
  pos : Pos
deriving DecidableEq, Repr

/-- What its declaration says of a symbol. -/
def Symbol.signature (s : Symbol) : Signature := ⟨s.name, s.ty, s.pos⟩

/-- The signatures of the symbols of a table, each with the name it is stored under. -/
def SymbolTable.signatures (T : SymbolTable) : List (String × Signature) :=
  T.entries.map fun e ↦ (e.1, e.2.signature)

/-- A further declaration. Nothing comes of it if its name is taken. -/
def addSignature (L : List (String × Signature)) (d : Signature) : List (String × Signature) :=
  if d.name ∈ L.map Prod.fst then L else L ++ [(d.name, d)]

/-- The first declaration of each name, in order. -/
def firstOfEach : List Signature → List Signature
  | [] => []
  | d :: ds => d :: (firstOfEach ds).filter (·.name ≠ d.name)

/-- What comes of declarations one after the other is the first of each name that was not taken. -/
theorem foldl_addSignature (ds : List Signature) (L : List (String × Signature)) :
    ds.foldl addSignature L =
      L ++ ((firstOfEach ds).filter (·.name ∉ L.map Prod.fst)).map fun d ↦ (d.name, d) := by
  induction ds generalizing L with
  | nil => exact (List.append_nil L).symm
  | cons d ds ih =>
    rw [List.foldl_cons, addSignature, firstOfEach]
    by_cases hd : d.name ∈ L.map Prod.fst
    · -- nothing of that name comes through either way
      have hsame : (firstOfEach ds).filter (·.name ∉ L.map Prod.fst) =
          ((firstOfEach ds).filter (·.name ≠ d.name)).filter (·.name ∉ L.map Prod.fst) := by
        rw [List.filter_filter]
        refine List.filter_congr fun d' _ ↦ ?_
        by_cases hd' : d'.name = d.name
        · simp [hd', hd]
        · simp [hd']
      rw [if_pos hd, ih, List.filter_cons_of_neg (by simpa using hd), hsame]
    · have hsplit : (firstOfEach ds).filter (·.name ∉ (L ++ [(d.name, d)]).map Prod.fst) =
          ((firstOfEach ds).filter (·.name ≠ d.name)).filter (·.name ∉ L.map Prod.fst) := by
        rw [List.filter_filter]
        refine List.filter_congr fun d' _ ↦ ?_
        rw [List.map_append, List.map_singleton, Bool.eq_iff_iff]
        simp [not_or]
      rw [if_neg hd, ih, List.filter_cons_of_pos (by simpa using hd), hsplit, List.map_cons,
        List.append_assoc, List.singleton_append]

/-- The declarations of an empty table. -/
theorem foldl_addSignature_nil (ds : List Signature) :
    ds.foldl addSignature [] = (firstOfEach ds).map fun d ↦ (d.name, d) := by
  have hall : (firstOfEach ds).filter (·.name ∉ ([] : List (String × Signature)).map Prod.fst) =
      firstOfEach ds := List.filter_eq_self.2 fun _ _ ↦ by simp
  rw [foldl_addSignature, hall, List.nil_append]

theorem SymbolTable.map_fst_signatures (T : SymbolTable) :
    T.signatures.map Prod.fst = T.names := by
  rw [signatures, List.map_map]
  rfl

/-- A change of a symbol that its declaration says nothing about does not show. -/
theorem SymbolTable.signatures_modify (T : SymbolTable) (x : String) {f : Symbol → Symbol}
    (hf : ∀ s, (f s).signature = s.signature) : (T.modify x f).signatures = T.signatures := by
  rw [signatures, modify, List.map_map, signatures]
  refine List.map_congr_left fun e _ ↦ ?_
  by_cases hx : e.1 = x <;> simp [hx, hf]

/-! ### Plans -/

/-- The variables of a declaration, if they can be declared. -/
def Declaration.signatures (d : Declaration) : List Signature :=
  if d.ty.isStorable then d.vars.map fun v ↦ ⟨v.name, d.ty, v.pos⟩ else []

/-- A parameter, if it can be declared. -/
def Param.signatures (p : Param) : List Signature :=
  if p.ty.isStorable then [⟨p.name, p.ty, p.pos⟩] else []

/-- The variables that a statement declares. -/
def Simple.signatures : Simple → List Signature
  | declare d => d.signatures
  | assign _ _ _ => []
  | ret _ _ => []
  | eval _ _ => []

/-- The row of a scope without its symbols. -/
def ScopeInfo.frame (r : ScopeInfo) : ScopeInfo := { r with scope := r.scope.blank }

/-- The row with one more child, if it is that of the given parent. -/
def ScopeInfo.withChild (parent child : Nat) (r : ScopeInfo) : ScopeInfo :=
  if r.scope.id = parent then { r with children := r.children ++ [child] } else r

/-- A scope with its place and the declarations it holds, without values. -/
structure ScopePlan where
  /-- The row of the scope without its symbols. -/
  frame : ScopeInfo
  /-- The declarations, each with the name it is stored under. -/
  signatures : List (String × Signature)

/-- The scope of a row with its place and its declarations. -/
def ScopeInfo.plan (r : ScopeInfo) : ScopePlan := ⟨r.frame, r.scope.symbols.signatures⟩

/-- A scope of number `n` whose block declares `ds` and opens the scopes `children`. -/
def ScopePlan.ofBlock (name : String) (parent level n : Nat) (children : List Nat)
    (ds : List Signature) : ScopePlan where
  frame :=
    { scope := { id := n, name := name ++ "_" ++ toString n }
      parent := some parent
      children := children
      level := level }
  signatures := (firstOfEach ds).map fun d ↦ (d.name, d)

namespace Block

/-- The variables that a block declares itself, without the blocks inside it. -/
def signatures : Block → List Signature
  | done => []
  | simple a rest => a.signatures ++ rest.signatures
  | ifThen _ _ _ rest => rest.signatures
  | ifElse _ _ _ _ rest => rest.signatures
  | loop _ _ _ rest => rest.signatures

/-- The numbers of the scopes directly inside that of a block, if it opens scopes from `n` on. -/
def childIds (n : Nat) : Block → List Nat
  | done => []
  | simple _ rest => rest.childIds n
  | ifThen _ _ t rest => n :: rest.childIds (n + (t.scopeCount + 1))
  | ifElse _ _ t e rest =>
    n :: (n + (t.scopeCount + 1)) ::
      rest.childIds (n + (t.scopeCount + 1) + (e.scopeCount + 1))
  | loop _ _ b rest => n :: rest.childIds (n + (b.scopeCount + 1))

/-- The scopes that a block opens from number `n` on, in the order of the text, if the number of its
own scope is `parent` and the scopes directly inside it have the given level. -/
def plan (parent level n : Nat) : Block → List ScopePlan
  | done => []
  | simple _ rest => rest.plan parent level n
  | ifThen _ _ t rest =>
    .ofBlock "if_then" parent level n (t.childIds (n + 1)) t.signatures ::
        t.plan n (level + 1) (n + 1) ++
      rest.plan parent level (n + (t.scopeCount + 1))
  | ifElse _ _ t e rest =>
    let m := n + (t.scopeCount + 1)
    .ofBlock "if_then" parent level n (t.childIds (n + 1)) t.signatures ::
        t.plan n (level + 1) (n + 1) ++
      (.ofBlock "if_else" parent level m (e.childIds (m + 1)) e.signatures ::
          e.plan m (level + 1) (m + 1) ++
        rest.plan parent level (m + (e.scopeCount + 1)))
  | loop _ _ b rest =>
    .ofBlock "while_body" parent level n (b.childIds (n + 1)) b.signatures ::
        b.plan n (level + 1) (n + 1) ++
      rest.plan parent level (n + (b.scopeCount + 1))

end Block

/-- The scopes of a function from number `n` on. Its parameters share the scope of its outermost
block. -/
def Function.plan (parent level n : Nat) (f : Function) : List ScopePlan :=
  .ofBlock ("function_" ++ f.name) parent level n (f.body.childIds (n + 1))
      (f.params.flatMap Param.signatures ++ f.body.signatures) ::
    f.body.plan n (level + 1) (n + 1)

/-! ### Analysis that can fail -/

/-- The analysis of a block, which fails if there is no scope to go back to at the end of one. -/
def Block.analyze? (expected : Ty) : Block → Session → Option Session
  | done, s => some s
  | simple a rest, s => rest.analyze? expected (a.analyze expected s)
  | ifThen _ c t rest, s => do
    let s ← t.analyze? expected ((s.checkCondition .cond c).enter "if_then")
    let s ← s.exit?
    rest.analyze? expected s
  | ifElse _ c t e rest, s => do
    let s ← t.analyze? expected ((s.checkCondition .cond c).enter "if_then")
    let s ← s.exit?
    let s ← e.analyze? expected (s.enter "if_else")
    let s ← s.exit?
    rest.analyze? expected s
  | loop _ c b rest, s => do
    let s ← b.analyze? expected ((s.checkCondition .loop c).enter "while_body")
    let s ← s.exit?
    rest.analyze? expected s

/-- The analysis of a function, which fails if there is no scope to go back to. -/
def Function.analyze? (f : Function) (s : Session) : Option Session := do
  let s := (s.note (.analyzing f.name f.returnTy)).enter ("function_" ++ f.name)
  let s := f.params.foldl (fun s p ↦ p.analyze s) s
  let s ← f.body.analyze? f.returnTy s
  let s := if f.lacksReturn then s.report ⟨f.pos, .noReturn f.name f.returnTy⟩ else s
  s.exit?

/-- The analysis of a program, which fails if there is no scope to go back to at the end of one. -/
def Program.analyze? (entry : String) (p : Program) (s : Session) : Option Session := do
  let s := s.note .analysisStarted
  let s := p.globals.foldl (fun s d ↦ d.analyzeGlobal p.function.name entry s) s
  let s ← p.function.analyze? s
  some (s.note (.analysisFinished s.diagnostics.summary))

/-! ### What is recorded -/

namespace ScopeTree

variable {t t' t'' : ScopeTree} {x : String}

/-- The current scope has got the given declarations, in order, and the scopes around it none. -/
structure Records (t t' : ScopeTree) (ds : List Signature) : Prop where
  /-- The declarations come after the old ones, unless their names are taken. -/
  here : t'.here.symbols.signatures = ds.foldl addSignature t.here.symbols.signatures
  /-- The scopes around hold what they held. -/
  outer : t'.outer.map (·.scope.symbols.signatures) = t.outer.map (·.scope.symbols.signatures)

theorem Records.of_eq (h : t' = t) : t.Records t' [] := by
  subst h
  exact ⟨rfl, rfl⟩

theorem Records.trans {ds ds' : List Signature} (h : t.Records t' ds) (h' : t'.Records t'' ds') :
    t.Records t'' (ds ++ ds') := by
  refine ⟨?_, h'.outer.trans h.outer⟩
  rw [h'.here, h.here, List.foldl_append]

/-- What is recorded in a scope that was entered does not show outside it. -/
theorem Records.exit {name : String} {ds : List Signature} (h : (t.enter name).Records t' ds)
    (ht : t'.exit? = some t'') : t.Records t'' [] := by
  obtain ⟨here, inner, outer, count⟩ := t'
  cases outer with
  | nil => cases ht
  | cons e es =>
    obtain rfl := Option.some.inj ht
    have houter : e.scope.symbols.signatures :: es.map (·.scope.symbols.signatures) =
        t.here.symbols.signatures :: t.outer.map (·.scope.symbols.signatures) := h.outer
    rw [List.cons.injEq] at houter
    exact ⟨houter.1, houter.2⟩

theorem mem_names_iff_containsLocal (t : ScopeTree) (x : String) :
    x ∈ t.here.symbols.signatures.map Prod.fst ↔ t.containsLocal x = true := by
  rw [SymbolTable.map_fst_signatures, ← not_iff_not, Bool.not_eq_true, containsLocal,
    SymbolTable.contains_eq_false_iff, SymbolTable.get?_eq_none_iff]

/-- A declaration of a name that is taken. -/
theorem records_of_containsLocal {d : Signature} (h : t.containsLocal d.name = true) :
    t.Records t [d] := by
  refine ⟨?_, rfl⟩
  rw [List.foldl_cons, addSignature, if_pos ((t.mem_names_iff_containsLocal _).2 h), List.foldl_nil]

theorem records_declare? {ty : Ty} {value : Option Value} {pos : Pos}
    (h : t.declare? x ty value pos = some t') : t.Records t' [⟨x, ty, pos⟩] := by
  have hnew : t.containsLocal x = false := containsLocal_of_declare? h
  rw [t.declare?_eq_some hnew, Option.some.injEq] at h
  subst h
  refine ⟨?_, rfl⟩
  have hmem : x ∉ t.here.symbols.signatures.map Prod.fst := by
    rw [mem_names_iff_containsLocal, hnew]
    exact Bool.false_ne_true
  rw [List.foldl_cons, addSignature, if_neg hmem, List.foldl_nil]
  show (t.here.symbols.entries ++ [(x, _)]).map _ = _
  rw [List.map_append]
  rfl

private theorem signatures_modifyOuter {f : Symbol → Symbol}
    (hf : ∀ s, (f s).signature = s.signature) {es es' : List Enclosing}
    (h : modifyOuter x f es = some es') :
    es'.map (·.scope.symbols.signatures) = es.map (·.scope.symbols.signatures) := by
  induction es generalizing es' with
  | nil => cases h
  | cons e es ih =>
    rw [modifyOuter] at h
    split at h
    · obtain rfl := Option.some.inj h
      rw [List.map_cons, List.map_cons, SymbolTable.signatures_modify _ _ hf]
    · obtain ⟨es'', hes, rfl⟩ := Option.map_eq_some_iff.1 h
      rw [List.map_cons, List.map_cons, ih hes]

theorem records_assign? {value : Option Value} (h : t.assign? x value = some t') :
    t.Records t' [] := by
  have hassign : ∀ s, (Symbol.assign value s).signature = s.signature := fun _ ↦ rfl
  rw [assign?, modify?] at h
  split at h
  · obtain rfl := Option.some.inj h
    exact ⟨SymbolTable.signatures_modify _ _ hassign, rfl⟩
  · obtain ⟨es, hes, rfl⟩ := Option.map_eq_some_iff.1 h
    exact ⟨rfl, signatures_modifyOuter hassign hes⟩

end ScopeTree

theorem Declarator.records_analyze (isGlobal : Bool) (ty : Ty) (v : Declarator) (s : Session) :
    s.scopes.Records (v.analyze isGlobal ty s).scopes [⟨v.name, ty, v.pos⟩] := by
  rcases hnew : s.scopes.containsLocal v.name with - | -
  · obtain ⟨value, t, ht, -, heq | hassign⟩ := v.scopes_analyze isGlobal ty hnew
    · rw [heq]
      exact ScopeTree.records_declare? ht
    · exact (ScopeTree.records_declare? ht).trans (ScopeTree.records_assign? hassign)
  · rw [v.scopes_analyze_of_containsLocal isGlobal ty hnew]
    exact ScopeTree.records_of_containsLocal hnew

theorem Declaration.records_analyze (isGlobal : Bool) (d : Declaration) (s : Session) :
    s.scopes.Records (d.analyze isGlobal s).scopes d.signatures := by
  rw [analyze, signatures]
  split
  · generalize d.vars = vs
    induction vs generalizing s with
    | nil => exact .of_eq rfl
    | cons v vs ih => exact (v.records_analyze isGlobal d.ty s).trans (ih _)
  · exact .of_eq (s.scopes_reportAll _)

theorem Param.records_analyze (p : Param) (s : Session) :
    s.scopes.Records (p.analyze s).scopes p.signatures := by
  rw [analyze, signatures]
  split
  · rcases hnew : s.scopes.containsLocal p.name with - | -
    · show s.scopes.Records ((s.scopes.declare? _ _ _ _).getD s.scopes) _
      have ht := s.scopes.declare?_eq_some hnew p.ty p.ty.defaultValue p.pos
      rw [ht]
      exact ScopeTree.records_declare? ht
    · exact ScopeTree.records_of_containsLocal hnew
  · exact .of_eq rfl

theorem records_analyzeParams (ps : List Param) (s : Session) :
    s.scopes.Records (analyzeParams ps s).scopes (ps.flatMap Param.signatures) := by
  induction ps generalizing s with
  | nil => exact .of_eq rfl
  | cons p ps ih => exact (p.records_analyze s).trans (ih _)

theorem Session.records_analyzeAssign (s : Session) (pos : Pos) (x : String) (e : Expr) :
    s.scopes.Records (s.analyzeAssign pos x e).scopes [] := by
  rw [analyzeAssign]
  rcases hx : s.scopes.lookup? x with - | target
  · exact .of_eq rfl
  · show s.scopes.Records (((s.reportAll _).scopes.assign? _ _).getD (s.reportAll _).scopes) []
    rw [scopes_reportAll]
    rcases ht : s.scopes.assign? x (e.storedValue s.env target.ty) with - | t
    · exact .of_eq rfl
    · exact ScopeTree.records_assign? ht

theorem Simple.records_analyze (result : Ty) (a : Simple) (s : Session) :
    s.scopes.Records (a.analyze result s).scopes a.signatures := by
  cases a with
  | declare d => exact d.records_analyze false s
  | assign pos x e => exact s.records_analyzeAssign pos x e
  | ret pos value => exact .of_eq (s.scopes_analyzeReturn result pos value)
  | eval pos e => exact .of_eq (s.scopes_reportAll _)

/-! ### Trees that follow a plan -/

namespace ScopeTree

variable {t t' t'' : ScopeTree}

/-- The tree has grown by the forest `F` of `n` scopes, and the current scope has got the
declarations `ds`. The scopes of the forest have the given numbers, and with those inside them they
follow the plan, wherever the forest stands. -/
structure Spans (t t' : ScopeTree) (n : Nat) (ds : List Signature) (ids : List Nat)
    (plan : Nat → Nat → List ScopePlan) (F : Forest) : Prop where
  /-- The growth. -/
  grown : t.Grown t' n F
  /-- The declarations. -/
  records : t.Records t' ds
  /-- The numbers. -/
  ids : F.ids = ids
  /-- The plan. -/
  rows : ∀ parent level, (F.infos (some parent) level).map ScopeInfo.plan = plan parent level

/-- Nothing but declarations. -/
theorem Spans.of_records {ds : List Signature} (h : t.Grown t' 0 .nil) (hr : t.Records t' ds) :
    t.Spans t' 0 ds [] (fun _ _ ↦ []) .nil :=
  ⟨h, hr, rfl, fun _ _ ↦ rfl⟩

theorem Spans.trans {n m : Nat} {ds ds' : List Signature} {ids ids' : List Nat}
    {plan plan' : Nat → Nat → List ScopePlan} {F G : Forest} (h : t.Spans t' n ds ids plan F)
    (h' : t'.Spans t'' m ds' ids' plan' G) :
    t.Spans t'' (n + m) (ds ++ ds') (ids ++ ids')
      (fun parent level ↦ plan parent level ++ plan' parent level) (F ++ G) := by
  refine ⟨h.grown.trans h'.grown, h.records.trans h'.records, ?_, fun parent level ↦ ?_⟩
  · rw [Forest.ids_append, h.ids, h'.ids]
  · rw [Forest.infos_append, List.map_append, h.rows, h'.rows]

/-- A scope that was entered can be left, and then it stands after the others as planned. -/
theorem Spans.exit {name : String} {n : Nat} {ds : List Signature} {ids : List Nat}
    {plan : Nat → Nat → List ScopePlan} {F : Forest}
    (h : (t.enter name).Spans t' n ds ids plan F) :
    ∃ t'', t'.exit? = some t'' ∧
      t.Spans t'' (n + 1) [] [t.count]
        (fun parent level ↦
          .ofBlock name parent level t.count ids ds :: plan t.count (level + 1))
        (.cons t'.here F .nil) := by
  obtain ⟨t'', ht'', hgrown⟩ := h.grown.exit
  have hblank : t'.here.blank = (t.enter name).here := h.grown.here
  have hid : t'.here.id = t.count := congrArg Scope.id hblank
  have hsignatures : t'.here.symbols.signatures = (firstOfEach ds).map fun d ↦ (d.name, d) := by
    rw [h.records.here]
    exact foldl_addSignature_nil ds
  refine ⟨t'', ht'', hgrown, h.records.exit ht'', ?_, fun parent level ↦ ?_⟩
  · rw [Forest.ids, Forest.ids, hid]
  · rw [Forest.infos, Forest.infos, List.append_nil, List.map_cons, hid, h.rows]
    simp only [ScopeInfo.plan, ScopeInfo.frame, ScopePlan.ofBlock, hblank, hsignatures, h.ids]
    rfl

end ScopeTree

/-- The sessions' scopes have grown as planned. -/
abbrev Session.Spans (s s' : Session) (n : Nat) (ds : List Signature) (ids : List Nat)
    (plan : Nat → Nat → List ScopePlan) (F : Forest) : Prop :=
  s.scopes.Spans s'.scopes n ds ids plan F

theorem Session.Spans.exit {s r : Session} {name : String} {n : Nat} {ds : List Signature}
    {ids : List Nat} {plan : Nat → Nat → List ScopePlan} {F : Forest}
    (h : (s.enter name).Spans r n ds ids plan F) :
    r.exit? = some r.exit ∧
      s.Spans r.exit (n + 1) [] [s.scopes.count]
        (fun parent level ↦
          .ofBlock name parent level s.scopes.count ids ds :: plan s.scopes.count (level + 1))
        (.cons r.scopes.here F .nil) := by
  obtain ⟨t, ht, hspans⟩ := ScopeTree.Spans.exit h
  have hexit : r.exit? = some r.exit := by
    rw [Session.exit, Session.exit?, ht]
    rfl
  refine ⟨hexit, ?_⟩
  show s.scopes.Spans r.exit.scopes _ _ _ _ _
  rw [scopes_exit, ht]
  exact hspans

namespace Block

/-- The block of a construct adds its own scope and those planned for it. -/
private theorem spans_analyzeInside {result : Ty} {name : String} {b : Block} {s : Session}
    (h : ∃ F, (s.enter name).Spans (b.analyze result (s.enter name)) b.scopeCount b.signatures
      (b.childIds (s.scopes.count + 1))
      (fun parent level ↦ b.plan parent level (s.scopes.count + 1)) F) :
    ∃ F, s.Spans (b.analyzeInside result name s) (b.scopeCount + 1) [] [s.scopes.count]
      (fun parent level ↦
        .ofBlock name parent level s.scopes.count (b.childIds (s.scopes.count + 1)) b.signatures ::
          b.plan s.scopes.count (level + 1) (s.scopes.count + 1)) F := by
  obtain ⟨F, hF⟩ := h
  exact ⟨_, hF.exit.2⟩

/-- The analysis of any block adds the scopes that are planned for it. -/
theorem spans_analyze (result : Ty) (b : Block) (s : Session) :
    ∃ F, s.Spans (b.analyze result s) b.scopeCount b.signatures (b.childIds s.scopes.count)
      (fun parent level ↦ b.plan parent level s.scopes.count) F := by
  induction b generalizing s with
  | done => exact ⟨.nil, .of_records (.refl _) (.of_eq rfl)⟩
  | simple a rest ih =>
    have ha := ScopeTree.Spans.of_records (a.grown_analyze result s) (a.records_analyze result s)
    have hcount : (a.analyze result s).scopes.count = s.scopes.count := ha.grown.count
    obtain ⟨F, hrest⟩ := ih (a.analyze result s)
    rw [hcount] at hrest
    have htotal := ha.trans hrest
    rw [Nat.zero_add] at htotal
    exact ⟨F, htotal⟩
  | ifThen pos c t rest iht ih =>
    rw [analyze_ifThen]
    generalize hcond : s.checkCondition .cond c = s₁
    have hscopes : s₁.scopes = s.scopes := hcond ▸ s.scopes_checkCondition .cond c
    obtain ⟨F, hthen⟩ := spans_analyzeInside (iht (s₁.enter "if_then"))
    obtain ⟨G, hrest⟩ := ih (t.analyzeInside result "if_then" s₁)
    have htotal := hthen.trans hrest
    rw [hthen.grown.count, hscopes] at htotal
    exact ⟨_, htotal⟩
  | ifElse pos c t e rest iht ihe ih =>
    rw [analyze_ifElse]
    generalize hcond : s.checkCondition .cond c = s₁
    have hscopes : s₁.scopes = s.scopes := hcond ▸ s.scopes_checkCondition .cond c
    obtain ⟨F, hthen⟩ := spans_analyzeInside (iht (s₁.enter "if_then"))
    obtain ⟨G, helse⟩ := spans_analyzeInside
      (ihe ((t.analyzeInside result "if_then" s₁).enter "if_else"))
    obtain ⟨H, hrest⟩ := ih (e.analyzeInside result "if_else" (t.analyzeInside result "if_then" s₁))
    have htotal := hthen.trans (helse.trans hrest)
    rw [helse.grown.count, hthen.grown.count, hscopes] at htotal
    exact ⟨_, htotal⟩
  | loop pos c b rest ihb ih =>
    rw [analyze_loop]
    generalize hcond : s.checkCondition .loop c = s₁
    have hscopes : s₁.scopes = s.scopes := hcond ▸ s.scopes_checkCondition .loop c
    obtain ⟨F, hbody⟩ := spans_analyzeInside (ihb (s₁.enter "while_body"))
    obtain ⟨G, hrest⟩ := ih (b.analyzeInside result "while_body" s₁)
    have htotal := hbody.trans hrest
    rw [hbody.grown.count, hscopes] at htotal
    exact ⟨_, htotal⟩

/-- The scope of a block can always be left. -/
theorem exit?_analyze (result : Ty) (name : String) (b : Block) (s : Session) :
    (b.analyze result (s.enter name)).exit? = some (b.analyzeInside result name s) := by
  obtain ⟨F, hspans⟩ := b.spans_analyze result (s.enter name)
  exact hspans.exit.1

theorem analyze?_eq_some (result : Ty) (b : Block) (s : Session) :
    b.analyze? result s = some (b.analyze result s) := by
  induction b generalizing s with
  | done => rfl
  | simple a rest ih => exact ih _
  | ifThen pos c t rest iht ih =>
    rw [analyze?, iht, Option.bind_eq_bind, Option.bind_some, t.exit?_analyze]
    exact ih _
  | ifElse pos c t e rest iht ihe ih =>
    rw [analyze?, iht, Option.bind_eq_bind, Option.bind_some, t.exit?_analyze, Option.bind_some,
      ihe, Option.bind_some, e.exit?_analyze]
    exact ih _
  | loop pos c b rest ihb ih =>
    rw [analyze?, ihb, Option.bind_eq_bind, Option.bind_some, b.exit?_analyze]
    exact ih _

end Block

/-! ### Functions and programs -/

namespace Function

theorem spans_bodyEnd (f : Function) (s : Session) :
    ∃ F, (f.opened s).Spans (f.bodyEnd s) f.body.scopeCount
      (f.params.flatMap Param.signatures ++ f.body.signatures)
      (f.body.childIds (s.scopes.count + 1))
      (fun parent level ↦ f.body.plan parent level (s.scopes.count + 1)) F := by
  have hparams := ScopeTree.Spans.of_records (grown_analyzeParams f.params (f.opened s))
    (records_analyzeParams f.params (f.opened s))
  have hcount : (f.bodyStart s).scopes.count = s.scopes.count + 1 := hparams.grown.count
  obtain ⟨F, hbody⟩ := f.body.spans_analyze f.returnTy (f.bodyStart s)
  rw [hcount] at hbody
  have htotal := hparams.trans hbody
  rw [Nat.zero_add] at htotal
  exact ⟨F, htotal⟩

/-- The analysis of any function adds the scopes that are planned for it. -/
theorem spans_analyze (f : Function) (s : Session) :
    f.analyze? s = some (f.analyze s) ∧
      ∃ F, s.Spans (f.analyze s) (f.body.scopeCount + 1) [] [s.scopes.count]
        (fun parent level ↦ f.plan parent level s.scopes.count) F := by
  obtain ⟨F, hspans⟩ := f.spans_bodyEnd s
  -- the remark on a missing return does not show in the scopes
  generalize hend : (if f.lacksReturn then
    (f.bodyEnd s).report ⟨f.pos, .noReturn f.name f.returnTy⟩ else f.bodyEnd s) = r
  have hscopes : r.scopes = (f.bodyEnd s).scopes := by
    rw [← hend]
    split <;> rfl
  rw [Session.Spans, ← hscopes] at hspans
  obtain ⟨hexit, htotal⟩ := Session.Spans.exit
    (s := s.note (.analyzing f.name f.returnTy)) (r := r) hspans
  rw [f.analyze_eq, hend]
  refine ⟨?_, _, htotal⟩
  rw [analyze?, f.body.analyze?_eq_some, ← hexit, ← hend]
  rfl

end Function

theorem records_analyzeGlobals (function entry : String) (ds : List Declaration) (s : Session) :
    s.scopes.Records (analyzeGlobals function entry ds s).scopes
      (ds.flatMap Declaration.signatures) := by
  induction ds generalizing s with
  | nil => exact .of_eq rfl
  | cons d ds ih =>
    have hd : s.scopes.Records (d.analyzeGlobal function entry s).scopes d.signatures := by
      rw [d.scopes_analyzeGlobal]
      exact d.records_analyze true s
    exact hd.trans (ih _)

/-- The analysis of any program adds the scopes that are planned for its function. -/
theorem Program.spans_analyze (entry : String) (p : Program) (s : Session) :
    p.analyze? entry s = some (p.analyze entry s) ∧
      ∃ F, s.Spans (p.analyze entry s) (p.function.body.scopeCount + 1)
        (p.globals.flatMap Declaration.signatures) [s.scopes.count]
        (fun parent level ↦ p.function.plan parent level s.scopes.count) F := by
  generalize hstart : s.note .analysisStarted = s₁
  have hscopes : s₁.scopes = s.scopes := by rw [← hstart]; rfl
  have hglobals := ScopeTree.Spans.of_records
    (grown_analyzeGlobals p.function.name entry p.globals s₁)
    (records_analyzeGlobals p.function.name entry p.globals s₁)
  obtain ⟨hsome, F, hfunction⟩ :=
    p.function.spans_analyze (analyzeGlobals p.function.name entry p.globals s₁)
  have htotal := hglobals.trans hfunction
  rw [hglobals.grown.count, hscopes, Nat.zero_add, Nat.add_zero, List.append_nil] at htotal
  constructor
  · rw [analyze?, hstart]
    show (p.function.analyze? (analyzeGlobals p.function.name entry p.globals s₁)).bind _ = _
    rw [hsome, ← hstart]
    rfl
  · refine ⟨F, ?_⟩
    rw [← hstart] at htotal
    exact htotal

/-! ### Listings -/

namespace ScopeTree

variable {t t' : ScopeTree}

private theorem frame_outerInfos {es es' : List Enclosing}
    (h : es'.map Enclosing.shape = es.map Enclosing.shape) (id : Nat) :
    (outerInfos id es').map ScopeInfo.frame = (outerInfos id es).map ScopeInfo.frame ∧
      es'.head?.map (·.scope.id) = es.head?.map (·.scope.id) ∧ es'.length = es.length := by
  induction es generalizing es' id with
  | nil =>
    obtain rfl := List.map_eq_nil_iff.1 h
    exact ⟨rfl, rfl, rfl⟩
  | cons e es ih =>
    cases es' with
    | nil => cases h
    | cons e' es' =>
      rw [List.map_cons, List.map_cons, List.cons.injEq] at h
      obtain ⟨hrest, hhead, hlength⟩ := ih h.2 e.scope.id
      obtain ⟨scope', earlier', later'⟩ := e'
      have hshape := h.1
      simp only [Enclosing.shape, Prod.mk.injEq] at hshape
      obtain ⟨hblank, -, rfl, rfl⟩ := hshape
      have hid : scope'.blank.id = e.scope.blank.id := congrArg Scope.id hblank
      change scope'.id = e.scope.id at hid
      refine ⟨?_, congrArg some hid, congrArg (· + 1) hlength⟩
      simp only [outerInfos, Multiset.map_cons, Multiset.map_add, ScopeInfo.frame, hblank, hid,
        hhead, hlength]
      rw [hrest]

/-- The rows of a tree that has grown: the current scope has more children, the others are the same
but for their symbols, and there are the new ones. -/
theorem Grown.infos_eq {n : Nat} {F : Forest} (h : t.Grown t' n F) :
    ∃ rest : Multiset ScopeInfo,
      (t'.infos : Multiset ScopeInfo) = rest + ↑(F.infos (some t.here.id) (t.level + 1)) ∧
        rest.map ScopeInfo.frame =
          { t.current with children := t.current.children ++ F.ids }.frame ::ₘ
            t.others.map ScopeInfo.frame := by
  have hid : t'.here.id = t.here.id := h.id_eq
  obtain ⟨houter, hhead, hlength⟩ := frame_outerInfos h.outer t.here.id
  have hlevel : t'.level = t.level := hlength
  refine ⟨t'.current ::ₘ (↑(t.inner.infos (some t.here.id) (t.level + 1)) +
    outerInfos t.here.id t'.outer), ?_, ?_⟩
  · rw [coe_infos, others, h.inner, hid, hlevel, Forest.infos_append, ← Multiset.coe_add,
      Multiset.cons_add, add_right_comm]
  · have hcurrent : t'.current.frame =
        { t.current with children := t.current.children ++ F.ids }.frame := by
      simp only [current, ScopeInfo.frame, h.here, hhead, hlevel, h.inner, Forest.ids_append]
    rw [Multiset.map_cons, Multiset.map_add, houter, hcurrent, others, Multiset.map_add]

/-- The rows that a tree had, with one more child of the current scope, are among those of the tree
that has grown by one scope there. -/
theorem Grown.map_frame_infos {n : Nat} {F : Forest} (h : t.Grown t' n F) (hc : t.Counted)
    (hF : F.ids = [t.count]) :
    ∃ rest : Multiset ScopeInfo,
      (t'.infos : Multiset ScopeInfo) = rest + ↑(F.infos (some t.here.id) (t.level + 1)) ∧
        rest.map ScopeInfo.frame =
          (t.infos : Multiset ScopeInfo).map fun r ↦
            (r.withChild t.here.id t.count).frame := by
  obtain ⟨rest, hinfos, hrest⟩ := h.infos_eq
  refine ⟨rest, hinfos, ?_⟩
  have hnodup : (t.here.id ::ₘ t.others.map (·.scope.id)).Nodup := by
    have hids := hc
    rw [Counted, coe_infos, Multiset.map_cons] at hids
    exact hids ▸ Multiset.nodup_range t.count
  have hothers : ∀ r ∈ t.others, (r.withChild t.here.id t.count).frame = r.frame := by
    intro r hr
    rw [ScopeInfo.withChild, if_neg fun hid ↦ ?_]
    exact (Multiset.nodup_cons.1 hnodup).1 (hid ▸ Multiset.mem_map_of_mem _ hr)
  have hcurrent : t.current.withChild t.here.id t.count =
      { t.current with children := t.current.children ++ [t.count] } := if_pos rfl
  rw [hrest, hF, coe_infos, Multiset.map_cons, Multiset.map_congr rfl hothers, hcurrent]

/-- The listing of a tree that has grown as planned. -/
theorem Spans.listing_eq {n : Nat} {ds : List Signature} {plan : Nat → Nat → List ScopePlan}
    {F : Forest} (h : t.Spans t' n ds [t.count] plan F) (hc : t.Counted)
    (hplan : (plan t.here.id (t.level + 1)).map (·.frame.scope.id) = List.range' t.count n) :
    ∃ old new, t'.listing = old ++ new ∧
      old.map ScopeInfo.frame =
        t.listing.map (fun r ↦ (r.withChild t.here.id t.count).frame) ∧
      new.map ScopeInfo.plan = plan t.here.id (t.level + 1) := by
  obtain ⟨rest, hinfos, hrest⟩ := h.grown.map_frame_infos hc h.ids
  have hrows := h.rows t.here.id (t.level + 1)
  generalize hnew : F.infos (some t.here.id) (t.level + 1) = new at hinfos hrows
  have hids : new.map (·.scope.id) = List.range' t.count n := by
    rw [← hplan, ← hrows, List.map_map]
    rfl
  have hwithChild : ∀ r : ScopeInfo,
      (r.withChild t.here.id t.count).frame.scope.id = r.scope.id := by
    intro r
    rw [ScopeInfo.withChild]
    split <;> rfl
  -- every number below the new count is that of an old row or of a new one
  have hc' : t'.Counted := by
    have hold : rest.map (·.scope.id) = Multiset.range t.count := by
      have hframe := congrArg (Multiset.map fun r : ScopeInfo ↦ r.scope.id) hrest
      rw [Multiset.map_map, Multiset.map_map] at hframe
      rw [← hc]
      exact hframe.trans (Multiset.map_congr rfl fun r _ ↦ hwithChild r)
    rw [Counted, hinfos, Multiset.map_add, hold, Multiset.map_coe, hids, h.grown.count,
      ← Multiset.coe_range, ← Multiset.coe_range, Multiset.coe_add, List.range_eq_range',
      List.range_eq_range', ← List.range'_append_1, Nat.zero_add]
  have hmem : ∀ r, r ∈ t'.infos ↔ r ∈ rest ∨ r ∈ new := fun r ↦ by
    rw [← Multiset.mem_coe, hinfos, Multiset.mem_add, Multiset.mem_coe]
  refine ⟨(List.range t.count).filterMap t'.scope?, new, ?_, ?_, hrows⟩
  · have hrange : List.range (t.count + n) = List.range t.count ++ List.range' t.count n := by
      rw [List.range_eq_range', List.range_eq_range', ← List.range'_append_1, Nat.zero_add]
    have hlater : (List.range' t.count n).filterMap t'.scope? = new := by
      rw [← hids, List.filterMap_map]
      refine (List.filterMap_congr fun r hr ↦ ?_).trans List.filterMap_some
      exact hc'.scope?_eq_some_iff.2 ⟨(hmem r).2 (.inr hr), rfl⟩
    rw [listing, h.grown.count, hrange, List.filterMap_append, hlater]
  · rw [← hc.map_id_listing, List.filterMap_map, List.map_filterMap]
    refine (List.filterMap_congr fun r hr ↦ ?_).trans (congrFun List.filterMap_eq_map _)
    have hframe : (r.withChild t.here.id t.count).frame ∈ rest.map ScopeInfo.frame := by
      rw [hrest]
      exact Multiset.mem_map_of_mem _ (Multiset.mem_coe.2 (hc.mem_listing.1 hr))
    obtain ⟨r', hr', heq⟩ := Multiset.mem_map.1 hframe
    have hid : r'.scope.id = r.scope.id := by
      have hblank := congrArg (fun q : ScopeInfo ↦ q.scope.id) heq
      exact hblank.trans (hwithChild r)
    have hscope := hc'.scope?_eq_some_iff.2 ⟨(hmem r').2 (.inl hr'), hid⟩
    simp only [Function.comp_apply, hscope, Option.map_some, heq]

end ScopeTree

/-- Scopes are planned in the order of their numbers. -/
theorem Block.map_id_plan (b : Block) (parent level n : Nat) :
    (b.plan parent level n).map (·.frame.scope.id) = List.range' n b.scopeCount := by
  have hinside : ∀ (n k m : Nat) (ids ids' : List Nat), ids = List.range' (n + 1) k →
      ids' = List.range' (n + (k + 1)) m → n :: ids ++ ids' = List.range' n (k + 1 + m) := by
    rintro n k m _ _ rfl rfl
    rw [← List.range'_succ, List.range'_append_1]
  induction b generalizing parent level n with
  | done => rfl
  | simple a rest ih => exact ih parent level n
  | ifThen pos c t rest iht ih =>
    rw [plan, List.map_append, List.map_cons]
    exact hinside n _ _ _ _ (iht n _ _) (ih parent level _)
  | ifElse pos c t e rest iht ihe ih =>
    rw [plan, List.map_append, List.map_cons, List.map_append, List.map_cons]
    exact hinside n _ _ _ _ (iht n _ _) (hinside _ _ _ _ _ (ihe _ _ _) (ih parent level _))
  | loop pos c b rest ihb ih =>
    rw [plan, List.map_append, List.map_cons]
    exact hinside n _ _ _ _ (ihb n _ _) (ih parent level _)

namespace Program

/-- The analysis of any program, with or without errors and in any scope of any tree, never fails to
leave a scope and ends in the scope where it started. The scopes that were there stay as they were,
but for their symbols and for one more child of the current scope, and after them come those planned
for the function. -/
theorem listing_analyze (entry : String) (p : Program) (s : Session) (h : s.scopes.Reachable) :
    p.analyze? entry s = some (p.analyze entry s) ∧
      (p.analyze entry s).scopes.here.id = s.scopes.here.id ∧
      ∃ old new, (p.analyze entry s).scopes.listing = old ++ new ∧
        old.map ScopeInfo.frame =
          s.scopes.listing.map
            (fun r ↦ (r.withChild s.scopes.here.id s.scopes.count).frame) ∧
        new.map ScopeInfo.plan =
          p.function.plan s.scopes.here.id (s.scopes.level + 1) s.scopes.count := by
  obtain ⟨hsome, F, hspans⟩ := p.spans_analyze entry s
  refine ⟨hsome, hspans.grown.id_eq, hspans.listing_eq h.numbered.counted ?_⟩
  rw [Function.plan, List.map_cons, p.function.body.map_id_plan]
  rfl

/-- A program with a parameter and two variables declared twice, variables of no storable type, a
condition that is not a truth value and one that is not declared, and no result. -/
def muddled : Program where
  globals := [⟨.void, [{ name := "g" }], {}⟩]
  function :=
    { returnTy := .int
      name := "f"
      params := [⟨.int, "a", {}⟩, ⟨.void, "b", {}⟩, ⟨.bool, "a", {}⟩]
      body :=
        .ifElse {} (.num {} 1)
          (.simple (.declare ⟨.int, [{ name := "x" }, { name := "x" }], {}⟩) .done)
          (.loop {} (.var {} "y") (.simple (.declare ⟨.void, [{ name := "z" }], {}⟩) .done) .done)
          (.simple (.declare ⟨.bool, [{ name := "a" }, { name := "c" }], {}⟩) .done) }

theorem listing_analyze_muddled :
    let s : Session := { scopes := .run [.enter "module", .enter "part", .exit] }
    ¬(muddled.analyze "_start" s).Clean ∧
      ∃ old new, (muddled.analyze "_start" s).scopes.listing = old ++ new ∧
        old.map ScopeInfo.children = [[1], [2, 3], []] ∧
        new.map (fun r ↦ (r.scope.name, r.parent, r.level, r.scope.symbols.names)) =
          [("function_f_3", some 1, 2, ["a", "c"]), ("if_then_4", some 3, 3, ["x"]),
            ("if_else_5", some 3, 3, []), ("while_body_6", some 5, 4, [])] := by
  intro s
  obtain ⟨-, -, old, new, hlisting, hold, hnew⟩ :=
    listing_analyze "_start" muddled s (ScopeTree.reachable_run _)
  have hunclean : (muddled.analyze "_start" s).diagnostics.errors ≠ [] := by decide +kernel
  refine ⟨hunclean, old, new, hlisting, ?_, ?_⟩
  · have hchildren := congrArg (List.map ScopeInfo.children) hold
    rw [List.map_map] at hchildren
    exact hchildren.trans (by decide +kernel)
  · have hnames := congrArg (List.map fun q : ScopePlan ↦
      (q.frame.scope.name, q.frame.parent, q.frame.level, q.signatures.map Prod.fst)) hnew
    rw [List.map_map] at hnames
    simp only [Function.comp_def, ScopeInfo.plan, SymbolTable.map_fst_signatures] at hnames
    exact hnames.trans (by decide +kernel)

end Program

end BlockLang
