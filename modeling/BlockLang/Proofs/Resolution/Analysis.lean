import BlockLang.Proofs.Lowering.Totality
import BlockLang.Proofs.Resolution.Walk

/-!
# How the analysis resolves names

The analysis stands at a site as soon as its scopes name what the site names (`Session.Mirrors`).
Every step of the analysis of well-formed text leads on to the site that follows, so the walk of the
analysis has the uses of the walk over sites. It finds them all, since well-formed text uses
declared variables only (`Session.Mirrors.blockUses_eq`).
-/

namespace BlockLang

/-- The declarations in view, by the number of their scope and their name. -/
def ScopeTree.owners (t : ScopeTree) : Nest (Nat × String) := t.view fun i s ↦ some (i, s.name)

theorem blind_owners : Blind fun i s ↦ some (i, s.name) := fun _ _ _ ↦ rfl

namespace Session

/-- The scopes of the analysis name what the site names. -/
structure Mirrors (s : Session) (σ : Site) : Prop where
  /-- The same declarations are in view. -/
  owners : s.scopes.owners = σ.places.map Placed.owner
  /-- With the same types. -/
  types : s.scopes.types = σ.types
  /-- The current scope has the same number. -/
  scope : s.scopes.here.id = σ.scope
  /-- And so has the next one. -/
  next : s.scopes.count = σ.next
  /-- The symbols are sound. -/
  sound : s.scopes.Sound

variable {s s' : Session} {σ : Site}

theorem Mirrors.find_eq (h : s.Mirrors σ) (result : Ty) :
    (analysisWalk result).find s = siteWalk.find σ := by
  funext x
  show (s.scopes.binding? x).map _ = (σ.places.find? x).map Placed.owner
  rw [← ScopeTree.find?_view_some (fun i sym ↦ (i, sym.name)), ← Nest.find?_map, ← h.owners]
  rfl

/-- A variable that is found at the site bears the name it is looked up by. -/
theorem Mirrors.found_var (h : s.Mirrors σ) {x : String} {t : Ty} (hx : σ.types.find? x = some t) :
    ∃ i, siteWalk.find σ x = some (i, x) := by
  rw [← h.types, ScopeTree.find?_types, ScopeTree.lookup?_eq_binding?, Option.map_map] at hx
  obtain ⟨⟨i, sym⟩, hentry, -⟩ := Option.map_eq_some_iff.1 hx
  have hlookup : s.scopes.lookup? x = some sym := by
    rw [ScopeTree.lookup?_eq_binding?, hentry]
    rfl
  refine ⟨i, ?_⟩
  rw [← h.find_eq .void]
  show (s.scopes.binding? x).map _ = _
  rw [hentry, Option.map_some, (h.sound.lookup? hlookup).name]

theorem Mirrors.found_expr (h : s.Mirrors σ) {e : Expr} {t : Ty}
    (he : e.HasType σ.types.find? t) : Found (e.uses (siteWalk.find σ)) := by
  induction he with
  | num => exact found_nil
  | bool => exact found_nil
  | var p hx =>
    intro u hu
    obtain rfl := List.mem_singleton.1 hu
    exact h.found_var hx
  | not p _ ih => exact ih
  | binary p _ _ _ ihl ihr => exact found_append.2 ⟨ihl, ihr⟩

theorem Mirrors.of_eq (h : s.Mirrors σ) (heq : s'.scopes = s.scopes) : s'.Mirrors σ := by
  obtain ⟨howners, htypes, hscope, hnext, hsound⟩ := h
  rw [← heq] at howners htypes hscope hnext hsound
  exact ⟨howners, htypes, hscope, hnext, hsound⟩

theorem Mirrors.number (h : s.Mirrors σ) : s.Mirrors σ.number :=
  ⟨h.owners, h.types, h.scope, h.next, h.sound⟩

theorem Mirrors.enter (h : s.Mirrors σ) (name : String) : (s.enter name).Mirrors σ.enter := by
  refine ⟨?_, ?_, h.next, congrArg (· + 1) h.next, h.sound.enter name⟩
  · exact congrArg Nest.enter h.owners
  · exact congrArg Nest.enter h.types

/-- A declaration of a variable, at whatever place. -/
theorem Mirrors.place (h : s.Mirrors σ) (hgrown : s.Grown s' 0 .nil) (hext : s.Extends s')
    {x : String} {ty : Ty}
    (howners : s'.scopes.owners = s.scopes.owners.bind x (s.scopes.here.id, x))
    (htypes : s'.scopes.types = s.scopes.types.bind x ty) (m : Mem) :
    s'.Mirrors (σ.place x ty m) := by
  refine ⟨?_, ?_, ?_, ?_, hext.sound h.sound⟩
  · rw [howners, h.owners, h.scope]
    exact (Nest.map_bind Placed.owner σ.places x ⟨σ.scope, x, ty, m⟩).symm
  · rw [htypes, h.types, σ.types_place]
  · exact (congrArg Scope.id hgrown.here).trans h.scope
  · exact hgrown.count.trans h.next

theorem Mirrors.declarator (h : s.Mirrors σ) (isGlobal : Bool) {ty : Ty} (hty : ty.isStorable)
    {v : Declarator} (hnew : σ.types.here v.name = none) (m : Mem) :
    (v.analyze isGlobal ty s).Mirrors (σ.place v.name ty m) := by
  rw [← h.types] at hnew
  exact h.place (v.grown_analyze isGlobal ty s) (v.extends_analyze isGlobal hty s)
    (v.view_analyze blind_owners isGlobal ty ((s.scopes.containsLocal_eq_false_iff _).2 hnew)
      fun _ ↦ rfl) (v.types_analyze isGlobal ty hnew) m

theorem Mirrors.param (h : s.Mirrors σ) {q : Param} (hty : q.ty.isStorable)
    (hnew : σ.types.here q.name = none) (m : Mem) :
    (q.analyze s).Mirrors (σ.place q.name q.ty m) := by
  rw [← h.types] at hnew
  exact h.place (q.grown_analyze s) (q.extends_analyze s)
    (Param.view_analyze _ hty ((s.scopes.containsLocal_eq_false_iff _).2 hnew) fun _ ↦ rfl)
    (Param.types_analyze hty hnew) m

/-- What is taken of the frame does not matter to the analysis. -/
theorem Mirrors.taken (h : s.Mirrors σ) (n : Nat) : s.Mirrors { σ with taken := n } :=
  ⟨h.owners, h.types, h.scope, h.next, h.sound⟩

theorem Mirrors.declarators (h : s.Mirrors σ) {ty : Ty} (hty : ty.isStorable)
    {vs : List Declarator} (hvs : WellDeclared false ty σ.types vs) (result : Ty) :
    (analyzeDeclarators false ty vs s).Mirrors (σ.declareAll ty vs) ∧
      (analysisWalk result).declaratorUses ty vs s = siteWalk.declaratorUses ty vs σ ∧
      Found (siteWalk.declaratorUses ty vs σ) := by
  induction vs generalizing s σ with
  | nil => exact ⟨h, rfl, found_nil⟩
  | cons v vs ih =>
    cases hvs with
    | cons hnew hinit hrest =>
      have hfirst : (v.analyze false ty s).Mirrors (σ.declare v.name ty) :=
        (h.declarator false hty hnew (σ.slot ty)).taken _
      rw [← σ.types_declare] at hrest
      obtain ⟨hlast, huses, hfound⟩ := ih hfirst hrest
      refine ⟨hlast, ?_, found_append.2 ⟨?_, hfound⟩⟩
      · rw [Walk.declaratorUses, Walk.declaratorUses, Walk.optionUses_congr (h.find_eq result)]
        exact congrArg _ huses
      · rcases hv : v.init with - | e
        · exact found_nil
        · exact h.found_expr (hinit e hv).1

/-- The first statement of a well-formed block. -/
theorem Mirrors.simple (h : s.Mirrors σ) {result : Ty} {a : Simple} {rest : Block}
    (hwf : (Block.simple a rest).WellFormed result σ.types) :
    (a.analyze result s).Mirrors (a.siteAfter σ) ∧
      (analysisWalk result).simpleUses s a = siteWalk.simpleUses σ a ∧
      Found (siteWalk.simpleUses σ a) := by
  have hfind := h.find_eq result
  cases hwf with
  | @declare _ d _ hd _ =>
    by_cases hnil : d.vars = []
    · have hscopes : (d.analyze false s).scopes = s.scopes := by
        rw [Declaration.analyze, hnil]
        split <;> rfl
      refine ⟨?_, ?_⟩
      · show (d.analyze false s).Mirrors (σ.declareAll d.ty d.vars)
        rw [hnil]
        exact h.of_eq hscopes
      · rw [Walk.simpleUses, Walk.simpleUses, hnil]
        exact ⟨rfl, found_nil⟩
    · have hty : d.ty.isStorable := hd.storable hnil
      obtain ⟨hlast, huses⟩ := h.declarators hty hd.declared result
      refine ⟨?_, huses⟩
      show (d.analyze false s).Mirrors _
      rw [Declaration.analyze, if_pos hty]
      exact hlast
  | @assign _ pos x e _ _ hx he _ =>
    refine ⟨⟨?_, ?_, ?_, ?_, ?_⟩, ?_, found_append.2 ⟨h.found_expr he, ?_⟩⟩
    · exact (s.view_analyzeAssign blind_owners pos x e).trans h.owners
    · exact (s.view_analyzeAssign blind_types pos x e).trans h.types
    · exact (congrArg Scope.id (s.grown_analyzeAssign pos x e).here).trans h.scope
    · exact (s.grown_analyzeAssign pos x e).count.trans h.next
    · exact (s.extends_analyzeAssign pos x e).sound h.sound
    · have hvalue : (analysisWalk result).value e s = s := rfl
      rw [Walk.simpleUses, Walk.simpleUses, hvalue, hfind]
      rfl
    · intro u hu
      obtain rfl := List.mem_singleton.1 hu
      exact h.found_var hx
  | @ret _ _ e _ he _ =>
    exact ⟨h.of_eq (s.scopes_analyzeReturn result _ _), Walk.optionUses_congr hfind (some e),
      h.found_expr he⟩
  | retVoid _ _ =>
    exact ⟨h.of_eq (s.scopes_analyzeReturn result _ _), Walk.optionUses_congr hfind none, found_nil⟩
  | eval he _ =>
    refine ⟨h.of_eq (s.scopes_reportAll _), ?_, h.found_expr he⟩
    rw [Walk.simpleUses, Walk.simpleUses, hfind]

/-- After the block of a construct. -/
theorem Mirrors.inside (h : s.Mirrors σ) {result : Ty} {b : Block}
    (hwf : b.WellFormed result σ.types.enter) (name : String) :
    (b.analyzeInside result name s).Mirrors (b.siteInside σ) := by
  have hext := b.extends_analyze result (s.enter name)
  have hwf' : b.WellFormed result (s.enter name).scopes.types := by
    rw [types_enter, h.types]
    exact hwf
  obtain ⟨F, hgrown, -⟩ := hwf'.grown_analyze (h.sound.enter name)
  have hexit : s.Grown (b.analyzeInside result name s) (b.scopeCount + 1) _ := hgrown.exit
  refine ⟨?_, ?_, ?_, ?_, hext.exit.sound h.sound⟩
  · exact (hext.view_exit blind_owners).trans h.owners
  · exact hext.types_exit.trans h.types
  · exact (congrArg Scope.id hexit.here).trans h.scope
  · rw [hexit.count, h.next, b.next_siteInside]

/-- The analysis of a well-formed block has the uses of the walk over sites, and finds them all. -/
theorem Mirrors.blockUses_eq (h : s.Mirrors σ) {result : Ty} {b : Block}
    (hwf : b.WellFormed result σ.types) :
    (analysisWalk result).blockUses b s = siteWalk.blockUses b σ ∧
      Found (siteWalk.blockUses b σ) := by
  induction b generalizing s σ with
  | done => exact ⟨rfl, found_nil⟩
  | simple a rest ih =>
    obtain ⟨hnext, huses, hfound⟩ := h.simple hwf
    obtain ⟨hlater, hfoundLater⟩ := ih hnext hwf.rest
    exact ⟨congrArg₂ (· ++ ·) huses hlater, found_append.2 ⟨hfound, hfoundLater⟩⟩
  | ifThen pos c t rest iht ih =>
    obtain ⟨hc, ht, hrest⟩ := Block.wellFormed_ifThen.1 hwf
    have h₁ : (s.checkCondition .cond c).Mirrors σ.number :=
      (h.of_eq (s.scopes_checkCondition .cond c)).number
    have hcond : c.uses ((analysisWalk result).find s) = c.uses (siteWalk.find σ.number) := by
      rw [h.number.find_eq]
    obtain ⟨hinner, hfoundt⟩ := iht (h₁.enter "if_then") ht
    obtain ⟨hafter, hfoundRest⟩ := ih (h₁.inside ht "if_then") hrest
    exact ⟨congrArg₂ (· ++ ·) (congrArg₂ (· ++ ·) hcond hinner) hafter,
      found_append.2 ⟨found_append.2 ⟨h.number.found_expr hc, hfoundt⟩, hfoundRest⟩⟩
  | ifElse pos c t e rest iht ihe ih =>
    obtain ⟨hc, ht, he, hrest⟩ := Block.wellFormed_ifElse.1 hwf
    have h₁ : (s.checkCondition .cond c).Mirrors σ.number :=
      (h.of_eq (s.scopes_checkCondition .cond c)).number
    have hcond : c.uses ((analysisWalk result).find s) = c.uses (siteWalk.find σ.number) := by
      rw [h.number.find_eq]
    have h₂ := h₁.inside ht "if_then"
    obtain ⟨hpositive, hfoundt⟩ := iht (h₁.enter "if_then") ht
    obtain ⟨hnegative, hfounde⟩ := ihe (h₂.enter "if_else") he
    obtain ⟨hafter, hfoundRest⟩ := ih (h₂.inside he "if_else") hrest
    exact ⟨congrArg₂ (· ++ ·)
        (congrArg₂ (· ++ ·) (congrArg₂ (· ++ ·) hcond hpositive) hnegative) hafter,
      found_append.2 ⟨found_append.2 ⟨found_append.2 ⟨h.number.found_expr hc, hfoundt⟩, hfounde⟩,
        hfoundRest⟩⟩
  | loop pos c b rest ihb ih =>
    obtain ⟨hc, hb, hrest⟩ := Block.wellFormed_loop.1 hwf
    have h₁ : (s.checkCondition .loop c).Mirrors σ.number :=
      (h.of_eq (s.scopes_checkCondition .loop c)).number
    have hcond : c.uses ((analysisWalk result).find s) = c.uses (siteWalk.find σ.number) := by
      rw [h.number.find_eq]
    obtain ⟨hinner, hfoundb⟩ := ihb (h₁.enter "while_body") hb
    obtain ⟨hafter, hfoundRest⟩ := ih (h₁.inside hb "while_body") hrest
    exact ⟨congrArg₂ (· ++ ·) (congrArg₂ (· ++ ·) hcond hinner) hafter,
      found_append.2 ⟨found_append.2 ⟨h.number.found_expr hc, hfoundb⟩, hfoundRest⟩⟩

/-! ### Parameters and global variables -/

theorem Mirrors.params (h : s.Mirrors σ) {ps : List Param} (hps : WellPassed σ.types ps) :
    (analyzeParams ps s).Mirrors (σ.declareParams ps) := by
  induction ps generalizing s σ with
  | nil => exact h
  | cons q ps ih =>
    cases hps with
    | cons hty hnew hrest =>
      rw [← σ.types_declare] at hrest
      exact ih ((h.param hty hnew (σ.slot q.ty)).taken _) hrest

theorem Mirrors.globalDeclaration (h : s.Mirrors σ) {d : Declaration}
    (hd : d.WellFormed true σ.types) : (d.analyze true s).Mirrors (σ.declareGlobals d) := by
  rw [Declaration.analyze, Site.declareGlobals]
  by_cases hty : d.ty.isStorable = true
  · rw [if_pos hty]
    have hdeclared := hd.declared
    clear hd
    generalize d.vars = vs at hdeclared
    induction vs generalizing s σ with
    | nil => exact h
    | cons v vs ih =>
      cases hdeclared with
      | cons hnew _ hrest =>
        have hfirst := h.declarator true hty hnew ⟨d.ty.width, .cell v.name⟩
        rw [← σ.types_place v.name d.ty ⟨d.ty.width, .cell v.name⟩] at hrest
        exact ih hfirst hrest
  · have hnil : d.vars = [] := by
      by_contra hne
      exact hty (hd.storable hne)
    rw [if_neg hty, hnil]
    exact h

theorem Mirrors.globals (h : s.Mirrors σ) {function entry : String} {ds : List Declaration}
    (hds : WellFormedGlobals function entry σ.types ds) :
    (analyzeGlobals function entry ds s).Mirrors (ds.foldl Site.declareGlobals σ) := by
  induction ds generalizing s σ with
  | nil => exact h
  | cons d ds ih =>
    cases hds with
    | cons hd _ hrest =>
      rw [← σ.types_declareGlobals] at hrest
      exact ih ((h.globalDeclaration hd).of_eq (d.scopes_analyzeGlobal function entry s)) hrest

end Session

end BlockLang
