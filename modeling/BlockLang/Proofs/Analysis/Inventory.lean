import BlockLang.Proofs.Analysis.Shape
import BlockLang.Proofs.Scope.Inventory

/-!
# The variables that an analysis declares

The variables of a program in the order of its text, each with the number of the scope that declares
it (`Program.globalVariables`, `Function.locals`). An analysis of a well-formed program declares
exactly these and gives none of them a place (`Program.WellFormed.inventory_analyze`), and no two of
them agree in both scope and name (`Program.WellFormed.nodup_variables`).

Scopes are numbered as they are opened, so the numbers can be read off the text: a block inside a
construct takes the next number, and the blocks inside it take those that follow.
-/

namespace BlockLang

/-- A variable by the number of the scope that declares it. -/
structure Variable where
  /-- The number of the scope. -/
  scope : Nat
  /-- The name. -/
  name : String
  /-- The type. -/
  ty : Ty
deriving DecidableEq, Repr

/-- The variable before it has a place. -/
def Variable.unplaced (v : Variable) : Entry := ⟨v.scope, v.name, v.ty, none⟩

/-- Variables before they have a place. -/
def unplaced (vs : List Variable) : Multiset Entry := ↑(vs.map Variable.unplaced)

@[simp] theorem unplaced_nil : unplaced [] = 0 := rfl

@[simp] theorem unplaced_append (vs ws : List Variable) :
    unplaced (vs ++ ws) = unplaced vs + unplaced ws := by
  rw [unplaced, List.map_append, ← Multiset.coe_add]
  rfl

/-- The variables of a declaration in the scope of the given number. -/
def Declaration.declared (scope : Nat) (d : Declaration) : List Variable :=
  d.vars.map fun v ↦ ⟨scope, v.name, d.ty⟩

/-- The variables that a statement declares in the scope of the given number. -/
def Simple.declared (scope : Nat) : Simple → List Variable
  | declare d => d.declared scope
  | assign _ _ _ => []
  | ret _ _ => []
  | eval _ _ => []

/-- The variables of a block of the scope with the given number, and those of the blocks inside it,
whose scopes are numbered from `next` on. -/
def Block.declared : Block → (scope next : Nat) → List Variable
  | done, _, _ => []
  | simple a rest, scope, next => a.declared scope ++ rest.declared scope next
  | ifThen _ _ t rest, scope, next =>
    t.declared next (next + 1) ++ rest.declared scope (next + (t.scopeCount + 1))
  | ifElse _ _ t e rest, scope, next =>
    t.declared next (next + 1) ++
      (e.declared (next + (t.scopeCount + 1)) (next + (t.scopeCount + 1) + 1) ++
        rest.declared scope (next + (t.scopeCount + 1) + (e.scopeCount + 1)))
  | loop _ _ b rest, scope, next =>
    b.declared next (next + 1) ++ rest.declared scope (next + (b.scopeCount + 1))

/-- The parameters and variables of a function, in order. They share its scope, which has the number
one, with the variables of its outermost block. -/
def Function.locals (f : Function) : List Variable :=
  f.params.map (fun p ↦ ⟨1, p.name, p.ty⟩) ++ f.body.declared 1 2

/-- The global variables of a program, in order. -/
def Program.globalVariables (p : Program) : List Variable :=
  p.globals.flatMap (Declaration.declared 0)

/-- The variables of a block are those of its declarations. -/
theorem Block.map_declared (b : Block) (scope next : Nat) :
    (b.declared scope next).map (fun v ↦ (v.name, v.ty)) =
      b.declarations.flatMap fun d ↦ d.vars.map fun v ↦ (v.name, d.ty) := by
  induction b generalizing scope next with
  | done => rfl
  | simple a rest ih =>
    rw [declared, List.map_append, ih]
    cases a with
    | declare d => simp [Simple.declared, Declaration.declared, declarations, Function.comp_def]
    | assign => rfl
    | ret => rfl
    | eval => rfl
  | ifThen pos c t rest iht ih => simp [declared, declarations, iht, ih]
  | ifElse pos c t e rest iht ihe ih => simp [declared, declarations, iht, ihe, ih]
  | loop pos c b rest ihb ih => simp [declared, declarations, ihb, ih]

/-! ### Scopes and names -/

/-- What tells a variable from the others. -/
def Variable.key (v : Variable) : Nat × String := (v.scope, v.name)

/-- The variables have different scopes or names. Those of the scope with the given number are not
in the context, and the others are in `count` scopes numbered from `next` on. -/
structure Spread (Γ : Context) (scope next count : Nat) (vs : List Variable) : Prop where
  /-- No two agree in scope and name. -/
  nodup : (vs.map Variable.key).Nodup
  /-- Where they are. -/
  range : ∀ v ∈ vs, v.scope = scope ∧ Γ.here v.name = none ∨
    next ≤ v.scope ∧ v.scope < next + count

namespace Spread

variable {Γ Γ' : Context} {scope next n m : Nat} {vs ws : List Variable}

theorem nil : Spread Γ scope next n [] :=
  ⟨List.nodup_nil, fun _ hv ↦ absurd hv List.not_mem_nil⟩

/-- A new variable before those that can read it. -/
theorem cons {x : String} (hnew : Γ.here x = none) {ty : Ty} (hscope : scope < next)
    (h : Spread (Γ.bind x ty) scope next n vs) :
    Spread Γ scope next n (⟨scope, x, ty⟩ :: vs) := by
  have hbound : (Γ.bind x ty).here x ≠ none := by simp
  have hrange : ∀ v ∈ vs, v.scope = scope ∧ v.name ≠ x ∧ Γ.here v.name = none ∨
      next ≤ v.scope ∧ v.scope < next + n := by
    intro v hv
    rcases h.range v hv with ⟨hown, hnone⟩ | hinner
    · have hne : v.name ≠ x := fun heq ↦ hbound (heq ▸ hnone)
      rw [Nest.bind_here_of_ne _ _ hne] at hnone
      exact .inl ⟨hown, hne, hnone⟩
    · exact .inr hinner
  refine ⟨?_, List.forall_mem_cons.2 ⟨.inl ⟨rfl, hnew⟩, fun v hv ↦ ?_⟩⟩
  · rw [List.map_cons, List.nodup_cons]
    refine ⟨fun hmem ↦ ?_, h.nodup⟩
    obtain ⟨v, hv, heq⟩ := List.mem_map.1 hmem
    obtain ⟨hown, hname⟩ := Prod.mk.inj heq
    rcases hrange v hv with ⟨-, hne, -⟩ | ⟨hlow, -⟩
    · exact hne hname
    · have hlt : v.scope < next := hown ▸ hscope
      omega
  · rcases hrange v hv with ⟨hown, -, hnone⟩ | hinner
    · exact .inl ⟨hown, hnone⟩
    · exact .inr hinner

/-- The variables of an inner block before those that follow it. -/
theorem inside (hscope : scope < next) (h : Spread Γ' next (next + 1) n vs)
    (h' : Spread Γ scope (next + (n + 1)) m ws) :
    Spread Γ scope next (n + 1 + m) (vs ++ ws) := by
  have hinner : ∀ v ∈ vs, next ≤ v.scope ∧ v.scope < next + (n + 1) := by
    intro v hv
    rcases h.range v hv with ⟨hown, -⟩ | ⟨hlow, hhigh⟩
    · omega
    · omega
  constructor
  · rw [List.map_append, List.nodup_append]
    refine ⟨h.nodup, h'.nodup, ?_⟩
    intro _ hk _ hk' heq
    obtain ⟨v, hv, rfl⟩ := List.mem_map.1 hk
    obtain ⟨w, hw, rfl⟩ := List.mem_map.1 hk'
    have hsame : v.scope = w.scope := (Prod.mk.inj heq).1
    have hv := hinner v hv
    rcases h'.range w hw with ⟨hown, -⟩ | ⟨hlow, -⟩
    · omega
    · omega
  · refine List.forall_mem_append.2 ⟨fun v hv ↦ .inr ?_, fun w hw ↦ ?_⟩
    · have hv := hinner v hv
      omega
    · rcases h'.range w hw with hown | ⟨hlow, hhigh⟩
      · exact .inl hown
      · exact .inr ⟨by omega, by omega⟩

end Spread

section

variable {Γ : Context} {scope next n : Nat} {ws : List Variable}

theorem WellDeclared.spread {isGlobal : Bool} {ty : Ty} {vs : List Declarator}
    (h : WellDeclared isGlobal ty Γ vs) (hscope : scope < next)
    (hrest : Spread (Γ.declareAll ty vs) scope next n ws) :
    Spread Γ scope next n (vs.map (fun v ↦ ⟨scope, v.name, ty⟩) ++ ws) := by
  induction h with
  | nil => exact hrest
  | cons hnew _ _ ih => exact .cons hnew hscope (ih hrest)

theorem WellPassed.spread {ps : List Param} (h : WellPassed Γ ps) (hscope : scope < next)
    (hrest : Spread (Context.declareParams Γ ps) scope next n ws) :
    Spread Γ scope next n (ps.map (fun p ↦ ⟨scope, p.name, p.ty⟩) ++ ws) := by
  induction h with
  | nil => exact hrest
  | cons _ hnew _ ih => exact .cons hnew hscope (ih hrest)

theorem WellFormedGlobals.spread {function entry : String} {ds : List Declaration}
    (h : WellFormedGlobals function entry Γ ds) (hscope : scope < next)
    (hrest : Spread (ds.foldl Context.declare Γ) scope next n ws) :
    Spread Γ scope next n (ds.flatMap (Declaration.declared scope) ++ ws) := by
  induction h with
  | nil => exact hrest
  | cons hd _ _ ih =>
    rw [List.flatMap_cons, List.append_assoc]
    exact hd.declared.spread hscope (ih hrest)

end

theorem Block.WellFormed.spread_declared {result : Ty} {Γ : Context} {b : Block}
    (h : b.WellFormed result Γ) {scope next : Nat} (hscope : scope < next) :
    Spread Γ scope next b.scopeCount (b.declared scope next) := by
  induction h generalizing scope next with
  | done => exact .nil
  | declare hd _ ih => exact hd.declared.spread hscope (ih hscope)
  | assign _ _ _ ih => exact ih hscope
  | ret _ _ ih => exact ih hscope
  | retVoid _ _ ih => exact ih hscope
  | eval _ _ ih => exact ih hscope
  | ifThen _ _ _ iht ih => exact .inside hscope (iht (by omega)) (ih (by omega))
  | ifElse _ _ _ _ iht ihe ih =>
    exact .inside hscope (iht (by omega))
      (.inside (by omega) (ihe (by omega)) (ih (by omega)))
  | loop _ _ _ ihb ih => exact .inside hscope (ihb (by omega)) (ih (by omega))

/-- The variables of a well-formed function are in scopes of numbers from one on. -/
theorem Function.WellFormed.spread_locals {Γ : Context} {f : Function} (h : f.WellFormed Γ) :
    Spread Γ.enter 1 2 f.body.scopeCount f.locals :=
  h.params.spread (by omega) (h.body.spread_declared (by omega))

/-- No two variables of a well-formed program agree in both scope and name. -/
theorem Program.WellFormed.nodup_variables {entry : String} {p : Program}
    (h : p.WellFormed entry) :
    ((p.globalVariables ++ p.function.locals).map Variable.key).Nodup := by
  have hinside : Spread (Context.ofGlobals p.globals) 0 1 _ (p.function.locals ++ []) :=
    .inside (m := 0) (by omega) h.function.spread_locals .nil
  rw [List.append_nil] at hinside
  exact (h.globals.spread (by omega) hinside).nodup

/-! ### Declarations -/

theorem Declarator.inventory_analyze (isGlobal : Bool) (ty : Ty) (v : Declarator) {s : Session}
    (hnew : s.scopes.types.here v.name = none) :
    (v.analyze isGlobal ty s).scopes.inventory =
      s.scopes.inventory + unplaced [⟨s.scopes.here.id, v.name, ty⟩] := by
  rw [← s.scopes.containsLocal_eq_false_iff] at hnew
  obtain ⟨value, t, ht, -, heq | hassign⟩ := v.scopes_analyze isGlobal ty hnew
  · rw [heq, ScopeTree.inventory_declare? ht, ← Multiset.singleton_add, add_comm]
    rfl
  · rw [ScopeTree.inventory_assign? hassign, ScopeTree.inventory_declare? ht,
      ← Multiset.singleton_add, add_comm]
    rfl

/-- Statements in one scope do not change its number. -/
theorem ScopeTree.Grown.id_eq {t t' : ScopeTree} {n : Nat} {F : Forest} (h : t.Grown t' n F) :
    t'.here.id = t.here.id := by
  have hid := congrArg Scope.id h.here
  exact hid

theorem WellDeclared.inventory_analyzeDeclarators {isGlobal : Bool} {ty : Ty}
    {vs : List Declarator} {s : Session} (h : WellDeclared isGlobal ty s.scopes.types vs) :
    (analyzeDeclarators isGlobal ty vs s).scopes.inventory = s.scopes.inventory +
      unplaced (vs.map fun v ↦ ⟨s.scopes.here.id, v.name, ty⟩) := by
  generalize hΓ : s.scopes.types = Γ at h
  induction h generalizing s with
  | nil => exact (add_zero _).symm
  | @cons Γ v vs hnew _ _ ih =>
    subst hΓ
    have hid : (v.analyze isGlobal ty s).scopes.here.id = s.scopes.here.id :=
      (v.grown_analyze isGlobal ty s).id_eq
    have hrest := ih (v.types_analyze isGlobal ty hnew)
    rw [hid, v.inventory_analyze isGlobal ty hnew, add_assoc, ← unplaced_append] at hrest
    exact hrest

theorem Declaration.WellFormed.inventory_analyze {isGlobal : Bool} {d : Declaration} {s : Session}
    (h : d.WellFormed isGlobal s.scopes.types) :
    (d.analyze isGlobal s).scopes.inventory =
      s.scopes.inventory + unplaced (d.declared s.scopes.here.id) := by
  rw [analyze]
  split
  · exact h.declared.inventory_analyzeDeclarators
  · rename_i hty
    have hnil : d.vars = [] := by
      by_contra hne
      exact hty (h.storable hne)
    rw [Session.scopes_reportAll, Declaration.declared, hnil]
    exact (add_zero _).symm

/-! ### Blocks -/

theorem Session.inventory_exit (s : Session) : s.exit.scopes.inventory = s.scopes.inventory := by
  rw [scopes_exit]
  rcases hexit : s.scopes.exit? with - | t
  · rfl
  · exact ScopeTree.inventory_exit? hexit

theorem Session.inventory_analyzeAssign (s : Session) (pos : Pos) (x : String) (e : Expr) :
    (s.analyzeAssign pos x e).scopes.inventory = s.scopes.inventory := by
  rw [analyzeAssign]
  rcases s.scopes.lookup? x with - | target
  · rfl
  · show ScopeTree.inventory
      (((s.reportAll _).scopes.assign? _ _).getD (s.reportAll _).scopes) = _
    rw [scopes_reportAll]
    rcases ht : s.scopes.assign? x (e.storedValue s.env target.ty) with - | t
    · rfl
    · exact ScopeTree.inventory_assign? ht

namespace Block

theorem inventory_analyzeInside (result : Ty) (name : String) (b : Block) (s : Session) :
    (b.analyzeInside result name s).scopes.inventory =
      (b.analyze result (s.enter name)).scopes.inventory :=
  Session.inventory_exit _

/-- The block of a construct and what follows it. -/
private theorem inventory_inside {result : Ty} {name : String} {b : Block} {s s' : Session}
    (later : Nat → Nat → List Variable) (hs : s.scopes.Sound)
    (hb : b.WellFormed result (s.enter name).scopes.types)
    (hinside : (b.analyze result (s.enter name)).scopes.inventory =
      (s.enter name).scopes.inventory +
        unplaced (b.declared (s.enter name).scopes.here.id (s.enter name).scopes.count))
    (hlater : s'.scopes.inventory = (b.analyzeInside result name s).scopes.inventory +
      unplaced (later (b.analyzeInside result name s).scopes.here.id
        (b.analyzeInside result name s).scopes.count)) :
    s'.scopes.inventory = s.scopes.inventory +
      unplaced (b.declared s.scopes.count (s.scopes.count + 1) ++
        later s.scopes.here.id (s.scopes.count + (b.scopeCount + 1))) := by
  obtain ⟨F, hgrown, -⟩ := hb.grown_analyze (hs.enter name)
  have hexit : s.Grown (b.analyzeInside result name s) (b.scopeCount + 1) _ := hgrown.exit
  have henter : (s.enter name).scopes.inventory = s.scopes.inventory :=
    s.scopes.inventory_enter name
  rw [hlater, hexit.id_eq, hexit.count, inventory_analyzeInside, hinside, henter, unplaced_append,
    add_assoc]
  rfl

/-- The analysis of a well-formed block declares its variables. -/
theorem WellFormed.inventory_analyze {result : Ty} {b : Block} {s : Session} (hs : s.scopes.Sound)
    (h : b.WellFormed result s.scopes.types) :
    (b.analyze result s).scopes.inventory =
      s.scopes.inventory + unplaced (b.declared s.scopes.here.id s.scopes.count) := by
  generalize hΓ : s.scopes.types = Γ at h
  induction h generalizing s with
  | done => exact (add_zero _).symm
  | @declare Γ d rest hd _ ih =>
    subst hΓ
    have hgrown : s.Grown (d.analyze false s) 0 .nil := d.grown_analyze false s
    have hrest := ih ((d.extends_analyze false s).sound hs) hd.types_analyze
    rw [hgrown.id_eq, hgrown.count, hd.inventory_analyze, add_assoc, ← unplaced_append] at hrest
    exact hrest
  | @assign Γ pos x e t rest hx he _ ih =>
    subst hΓ
    have hgrown : s.Grown (s.analyzeAssign pos x e) 0 .nil := s.grown_analyzeAssign pos x e
    have hrest := ih ((s.extends_analyzeAssign pos x e).sound hs)
      (s.view_analyzeAssign blind_types pos x e)
    rw [hgrown.id_eq, hgrown.count, s.inventory_analyzeAssign] at hrest
    exact hrest
  | @ret Γ pos e rest he _ ih =>
    subst hΓ
    have hscopes : (s.analyzeReturn result pos (some e)).scopes = s.scopes :=
      s.scopes_analyzeReturn result pos _
    have hrest := ih (s := s.analyzeReturn result pos (some e)) (hscopes ▸ hs) (by rw [hscopes])
    rw [hscopes] at hrest
    exact hrest
  | @retVoid Γ pos rest hvoid _ ih =>
    subst hΓ
    have hscopes : (s.analyzeReturn result pos none).scopes = s.scopes :=
      s.scopes_analyzeReturn result pos _
    have hrest := ih (s := s.analyzeReturn result pos none) (hscopes ▸ hs) (by rw [hscopes])
    rw [hscopes] at hrest
    exact hrest
  | @eval Γ pos e t rest he _ ih =>
    subst hΓ
    have hscopes : (Simple.analyze result s (.eval pos e)).scopes = s.scopes :=
      s.scopes_reportAll _
    have hrest := ih (s := Simple.analyze result s (.eval pos e)) (hscopes ▸ hs) (by rw [hscopes])
    rw [hscopes] at hrest
    exact hrest
  | @ifThen Γ pos c t rest hc ht _ iht ih =>
    subst hΓ
    rw [analyze_ifThen]
    generalize hcond : s.checkCondition .cond c = s₁
    have hscopes : s₁.scopes = s.scopes := hcond ▸ s.scopes_checkCondition .cond c
    have hs₁ : s₁.scopes.Sound := hscopes ▸ hs
    have htypes : (s₁.enter "if_then").scopes.types = s.scopes.types.enter := by
      rw [Session.types_enter, hscopes]
    have hrest := ih ((t.extends_analyzeInside result "if_then" s₁).sound hs₁)
      (by rw [types_analyzeInside, hscopes])
    have hall := inventory_inside (rest.declared · ·) hs₁ (htypes ▸ ht)
      (iht (hs₁.enter "if_then") htypes) hrest
    rw [hscopes] at hall
    exact hall
  | @ifElse Γ pos c t e rest hc ht he _ iht ihe ih =>
    subst hΓ
    rw [analyze_ifElse]
    generalize hcond : s.checkCondition .cond c = s₁
    have hscopes : s₁.scopes = s.scopes := hcond ▸ s.scopes_checkCondition .cond c
    have hs₁ : s₁.scopes.Sound := hscopes ▸ hs
    have hs₂ := (t.extends_analyzeInside result "if_then" s₁).sound hs₁
    have htypes : (s₁.enter "if_then").scopes.types = s.scopes.types.enter := by
      rw [Session.types_enter, hscopes]
    have htypes' : ((t.analyzeInside result "if_then" s₁).enter "if_else").scopes.types =
        s.scopes.types.enter := by
      rw [Session.types_enter, types_analyzeInside, hscopes]
    have hrest := ih ((e.extends_analyzeInside result "if_else" _).sound hs₂)
      (by rw [types_analyzeInside, types_analyzeInside, hscopes])
    have helse := inventory_inside (rest.declared · ·) hs₂ (htypes' ▸ he)
      (ihe (hs₂.enter "if_else") htypes') hrest
    have hall := inventory_inside (fun scope next ↦ e.declared next (next + 1) ++
      rest.declared scope (next + (e.scopeCount + 1))) hs₁ (htypes ▸ ht)
      (iht (hs₁.enter "if_then") htypes) helse
    rw [hscopes] at hall
    exact hall
  | @loop Γ pos c b rest hc hb _ ihb ih =>
    subst hΓ
    rw [analyze_loop]
    generalize hcond : s.checkCondition .loop c = s₁
    have hscopes : s₁.scopes = s.scopes := hcond ▸ s.scopes_checkCondition .loop c
    have hs₁ : s₁.scopes.Sound := hscopes ▸ hs
    have htypes : (s₁.enter "while_body").scopes.types = s.scopes.types.enter := by
      rw [Session.types_enter, hscopes]
    have hrest := ih ((b.extends_analyzeInside result "while_body" s₁).sound hs₁)
      (by rw [types_analyzeInside, hscopes])
    have hall := inventory_inside (rest.declared · ·) hs₁ (htypes ▸ hb)
      (ihb (hs₁.enter "while_body") htypes) hrest
    rw [hscopes] at hall
    exact hall

end Block

/-! ### Programs -/

theorem WellPassed.inventory_analyzeParams {ps : List Param} {s : Session}
    (h : WellPassed s.scopes.types ps) :
    (analyzeParams ps s).scopes.inventory = s.scopes.inventory +
      unplaced (ps.map fun p ↦ ⟨s.scopes.here.id, p.name, p.ty⟩) := by
  generalize hΓ : s.scopes.types = Γ at h
  induction h generalizing s with
  | nil => exact (add_zero _).symm
  | @cons Γ p ps hty hnew _ ih =>
    subst hΓ
    have hdeclare := Param.declare?_scopes_analyze hty
      ((s.scopes.containsLocal_eq_false_iff p.name).2 hnew)
    have hfirst : (p.analyze s).scopes.inventory =
        s.scopes.inventory + unplaced [⟨s.scopes.here.id, p.name, p.ty⟩] := by
      rw [ScopeTree.inventory_declare? hdeclare, ← Multiset.singleton_add, add_comm]
      rfl
    have hrest := ih (Param.types_analyze hty hnew)
    rw [(p.grown_analyze s).id_eq, hfirst, add_assoc, ← unplaced_append] at hrest
    exact hrest

theorem WellFormedGlobals.inventory_analyzeGlobals {function entry : String}
    {ds : List Declaration} {s : Session}
    (h : WellFormedGlobals function entry s.scopes.types ds) :
    (analyzeGlobals function entry ds s).scopes.inventory = s.scopes.inventory +
      unplaced (ds.flatMap (Declaration.declared s.scopes.here.id)) := by
  generalize hΓ : s.scopes.types = Γ at h
  induction h generalizing s with
  | nil => exact (add_zero _).symm
  | @cons Γ d ds hd _ _ ih =>
    subst hΓ
    have hrest := ih (hd.types_analyzeGlobal function entry)
    rw [(d.grown_analyzeGlobal function entry s).id_eq, d.scopes_analyzeGlobal,
      hd.inventory_analyze, add_assoc, ← unplaced_append] at hrest
    exact hrest

namespace Program

/-- The analysis of a well-formed program declares its variables and nothing else. -/
theorem WellFormed.inventory_analyze {entry : String} {p : Program} (h : p.WellFormed entry) :
    (p.analyze entry {}).scopes.inventory =
      unplaced p.globalVariables + unplaced p.function.locals := by
  have hglobal : (p.globalEnd entry).scopes.inventory = unplaced p.globalVariables :=
    WellFormedGlobals.inventory_analyzeGlobals h.globals
  have hgrown : ScopeTree.empty.Grown (p.globalEnd entry).scopes 0 .nil :=
    grown_analyzeGlobals p.function.name entry p.globals (Session.note {} .analysisStarted)
  have hsound : (p.globalEnd entry).scopes.Sound := p.sound_globalEnd entry
  have hscopes : (p.analyze entry {}).scopes =
      (p.function.bodyEnd (p.globalEnd entry)).exit.scopes := by
    rw [p.scopes_analyze, Function.analyze_eq,
      Function.lacksReturn_eq_false_iff.2 h.function.returns]
    rfl
  have htypes := h.types_globalEnd
  generalize p.globalEnd entry = s at hglobal hgrown hsound hscopes htypes
  have hcount : s.scopes.count = 1 := hgrown.count
  have hparams : WellPassed (p.function.opened s).scopes.types p.function.params := by
    rw [p.function.types_opened, htypes]
    exact h.function.params
  have hstart : (p.function.bodyStart s).scopes.Sound :=
    (p.function.extends_bodyStart s).sound (hsound.enter _)
  have hbody : p.function.body.WellFormed p.function.returnTy
      (p.function.bodyStart s).scopes.types := by
    rw [Function.bodyStart, hparams.types_analyzeParams, p.function.types_opened, htypes]
    exact h.function.body
  -- the scope of the function bears the number one, and the next one is two
  have hid : (p.function.opened s).scopes.here.id = 1 := hcount
  have hnext : (p.function.opened s).scopes.count = 2 := congrArg (· + 1) hcount
  have hopened : (p.function.opened s).scopes.inventory = s.scopes.inventory :=
    s.scopes.inventory_enter _
  have hgrown' := grown_analyzeParams p.function.params (p.function.opened s)
  have hend := hbody.inventory_analyze hstart
  rw [Function.bodyStart, hgrown'.id_eq, hgrown'.count, hparams.inventory_analyzeParams, hid, hnext,
    hopened, hglobal] at hend
  rw [hscopes, Session.inventory_exit, Function.bodyEnd, Function.bodyStart, hend, add_assoc,
    Function.locals, unplaced_append]

end Program

end BlockLang
