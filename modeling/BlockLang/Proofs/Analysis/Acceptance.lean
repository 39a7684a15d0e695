import BlockLang.Proofs.Analysis.Statements

/-!
# The analysis accepts the well-formed programs

An analysis goes on after an error and skips work that an error has made pointless, so acceptance is
not a property of one step. Two inductions over the text settle it, in opposite directions:

* from the end to the start: if no error has been recorded at the end of a block, none had been at
  its start, and the block is well formed (`Block.wellFormed_of_clean_analyze`). In passing this
  also shows that all constant parts of its expressions have values, which code generation relies
  on;
* from the start to the end: a well-formed block without a division by a constant zero adds no error
  (`Block.WellFormed.clean_analyze`).

The hypothesis on divisions is on the second half only. Evaluation knows more than typing does: it
also reports a division of a known value by a constant zero.
-/

namespace BlockLang

/-! ### Declarations -/

/-- Variables are declared in the current scope; the scopes around it declare what they did. -/
theorem extends_analyzeDeclarators (isGlobal : Bool) {ty : Ty} (hty : ty.isStorable)
    (vs : List Declarator) (s : Session) : s.Extends (analyzeDeclarators isGlobal ty vs s) := by
  induction vs generalizing s with
  | nil => exact .refl s
  | cons v vs ih => exact (v.extends_analyze isGlobal hty s).trans (ih _)

/-- Well-declared variables are bound in order. -/
theorem WellDeclared.types_analyzeDeclarators {isGlobal : Bool} {ty : Ty} {vs : List Declarator}
    {s : Session} (h : WellDeclared isGlobal ty s.scopes.types vs) :
    (analyzeDeclarators isGlobal ty vs s).scopes.types =
      Context.declareAll s.scopes.types ty vs := by
  generalize hΓ : s.scopes.types = Γ at h
  induction h generalizing s with
  | nil => exact hΓ
  | @cons Γ v vs hnew hinit hrest ih =>
    subst hΓ
    exact ih (v.types_analyze isGlobal ty hnew)

/-- From the end to the start: no error at the last variable of a declaration, so none at the first.
-/
theorem wellDeclared_of_clean {isGlobal : Bool} {ty : Ty} (hty : ty.isStorable)
    {vs : List Declarator} {s : Session} (hs : s.scopes.Sound)
    (h : (analyzeDeclarators isGlobal ty vs s).Clean) :
    s.Clean ∧ WellDeclared isGlobal ty s.scopes.types vs ∧
      ∀ e ∈ vs.filterMap Declarator.init, e.constantPartFaults = [] := by
  induction vs generalizing s with
  | nil => exact ⟨h, .nil, fun e he ↦ absurd he List.not_mem_nil⟩
  | cons v vs ih =>
    have hext : s.Extends (v.analyze isGlobal ty s) := v.extends_analyze isGlobal hty s
    obtain ⟨hclean, hrest, hparts⟩ := ih (hext.sound hs) h
    obtain ⟨hclean, hnew, hinit⟩ := (Declarator.clean_analyze_iff hty hs).1 hclean
    rw [v.types_analyze isGlobal ty hnew] at hrest
    refine ⟨hclean, .cons hnew (fun e he ↦ (hinit e he).1) hrest, fun e he ↦ ?_⟩
    rcases hv : v.init with - | e'
    · exact hparts e (by simpa [hv] using he)
    · rw [List.filterMap_cons_some hv, List.mem_cons] at he
      obtain rfl | he := he
      · exact Expr.constantPartFaults_eq_nil_of_quiet_valueFaults (hinit e hv).2
      · exact hparts e he

/-- From the start to the end: each variable is declared in the context of those before it. -/
theorem WellDeclared.clean {isGlobal : Bool} {ty : Ty} (hty : ty.isStorable)
    {vs : List Declarator} {s : Session} (hs : s.scopes.Sound)
    (h : WellDeclared isGlobal ty s.scopes.types vs)
    (hz : ∀ e ∈ vs.filterMap Declarator.init, e.NoZeroDivisor) (hclean : s.Clean) :
    (analyzeDeclarators isGlobal ty vs s).Clean := by
  generalize hΓ : s.scopes.types = Γ at h
  induction h generalizing s with
  | nil => exact hclean
  | @cons Γ v vs hnew hinit hrest ih =>
    subst hΓ
    refine ih ((v.extends_analyze isGlobal hty s).sound hs) (fun e he ↦ hz e ?_) ?_
      (v.types_analyze isGlobal ty hnew)
    · rw [List.filterMap_cons]
      cases v.init <;> simp [he]
    · refine (Declarator.clean_analyze_iff hty hs).2 ⟨hclean, hnew, fun e he ↦ ⟨hinit e he, ?_⟩⟩
      have htyped : e.HasType s.env.types ty := by
        rw [s.env_types]
        exact (hinit e he).1
      refine htyped.quiet_valueFaults hs.env_wellTyped (hz e ?_)
      rw [List.filterMap_cons_some he]
      exact List.mem_cons_self

namespace Declaration

/-- Accepted or not, a declaration declares in the current scope only. -/
theorem extends_analyze (isGlobal : Bool) (d : Declaration) (s : Session) :
    s.Extends (d.analyze isGlobal s) := by
  rw [analyze]
  split
  · exact extends_analyzeDeclarators isGlobal ‹_› d.vars s
  · exact .of_eq (s.scopes_reportAll _)

/-- An accepted declaration binds its variables to its type. -/
theorem WellFormed.types_analyze {isGlobal : Bool} {d : Declaration} {s : Session}
    (h : d.WellFormed isGlobal s.scopes.types) :
    (d.analyze isGlobal s).scopes.types = Context.declare s.scopes.types d := by
  rw [analyze]
  split
  · exact h.declared.types_analyzeDeclarators
  · rename_i hty
    have hnil : d.vars = [] := by
      by_contra hne
      exact hty (h.storable hne)
    rw [s.scopes_reportAll, Context.declare, hnil]
    rfl

/-- Of a declaration without errors all variables are declared well. -/
theorem wellFormed_of_clean {isGlobal : Bool} {d : Declaration} {s : Session}
    (hs : s.scopes.Sound) (h : (d.analyze isGlobal s).Clean) :
    s.Clean ∧ d.WellFormed isGlobal s.scopes.types ∧
      ∀ e ∈ d.exprs, e.constantPartFaults = [] := by
  rw [analyze] at h
  split at h
  · rename_i hty
    obtain ⟨hclean, hdeclared, hparts⟩ := wellDeclared_of_clean hty hs h
    exact ⟨hclean, ⟨fun _ ↦ hty, hdeclared⟩, hparts⟩
  · -- a type that cannot be stored is reported once for each variable
    obtain ⟨hclean, hquiet⟩ := Session.clean_reportAll.1 h
    have hnil : d.vars = [] := by
      rcases hvars : d.vars with - | ⟨v, vs⟩
      · rfl
      · rw [hvars] at hquiet
        exact absurd (hquiet _ List.mem_cons_self) (by simp [Diagnostic.category, Problem.category])
    refine ⟨hclean, ⟨fun hne ↦ absurd hnil hne, hnil ▸ .nil⟩, fun e he ↦ ?_⟩
    rw [exprs, hnil] at he
    exact absurd he List.not_mem_nil

/-- The other direction, for a declaration at the session that it is reached in. -/
theorem WellFormed.clean {isGlobal : Bool} {d : Declaration} {s : Session}
    (hs : s.scopes.Sound) (h : d.WellFormed isGlobal s.scopes.types)
    (hz : ∀ e ∈ d.exprs, e.NoZeroDivisor) (hclean : s.Clean) : (d.analyze isGlobal s).Clean := by
  rw [analyze]
  split
  · exact h.declared.clean ‹_› hs hz hclean
  · rename_i hty
    have hnil : d.vars = [] := by
      by_contra hne
      exact hty (h.storable hne)
    rw [Session.clean_reportAll, hnil]
    exact ⟨hclean, quiet_nil⟩

end Declaration

/-! ### Statements -/

namespace Simple

theorem extends_analyze (result : Ty) (a : Simple) (s : Session) :
    s.Extends (a.analyze result s) := by
  cases a with
  | declare d => exact d.extends_analyze false s
  | assign pos x e => exact s.extends_analyzeAssign pos x e
  | ret pos value => exact .of_eq (s.scopes_analyzeReturn result pos value)
  | eval pos e => exact .of_eq (s.scopes_reportAll _)

end Simple

/-- The analysis of a block inside a construct, in a scope of its own. -/
def Block.analyzeInside (result : Ty) (name : String) (b : Block) (s : Session) : Session :=
  (b.analyze result (s.enter name)).exit

namespace Block

/-- The three constructs, each as a condition followed by its inner blocks. -/
theorem analyze_ifThen (result : Ty) (pos : Pos) (c : Expr) (t rest : Block) (s : Session) :
    (ifThen pos c t rest).analyze result s =
      rest.analyze result (t.analyzeInside result "if_then" (s.checkCondition .cond c)) := rfl

theorem analyze_ifElse (result : Ty) (pos : Pos) (c : Expr) (t e rest : Block) (s : Session) :
    (ifElse pos c t e rest).analyze result s =
      rest.analyze result (e.analyzeInside result "if_else"
        (t.analyzeInside result "if_then" (s.checkCondition .cond c))) := rfl

theorem analyze_loop (result : Ty) (pos : Pos) (c : Expr) (b rest : Block) (s : Session) :
    (loop pos c b rest).analyze result s =
      rest.analyze result (b.analyzeInside result "while_body" (s.checkCondition .loop c)) := rfl

theorem extends_analyze (result : Ty) (b : Block) (s : Session) :
    s.Extends (b.analyze result s) := by
  induction b generalizing s with
  | done => exact .refl s
  | simple a rest ih => exact (a.extends_analyze result s).trans (ih _)
  | ifThen pos c t rest iht ih =>
    have hcond : s.Extends (s.checkCondition .cond c) := .of_eq (s.scopes_checkCondition _ c)
    exact (hcond.trans (iht _).exit).trans (ih _)
  | ifElse pos c t e rest iht ihe ih =>
    have hcond : s.Extends (s.checkCondition .cond c) := .of_eq (s.scopes_checkCondition _ c)
    exact ((hcond.trans (iht _).exit).trans (ihe _).exit).trans (ih _)
  | loop pos c b rest ihb ih =>
    have hcond : s.Extends (s.checkCondition .loop c) := .of_eq (s.scopes_checkCondition _ c)
    exact (hcond.trans (ihb _).exit).trans (ih _)

theorem extends_analyzeInside (result : Ty) (name : String) (b : Block) (s : Session) :
    s.Extends (b.analyzeInside result name s) :=
  (b.extends_analyze result (s.enter name)).exit

/-- What an inner block declares is gone after it; types of variables around it do not change. -/
@[simp] theorem types_analyzeInside (result : Ty) (name : String) (b : Block) (s : Session) :
    (b.analyzeInside result name s).scopes.types = s.scopes.types :=
  (b.extends_analyze result (s.enter name)).types_exit

/-- Leaving the scope of an inner block is no error, so errors are those of the block. -/
theorem clean_analyzeInside {result : Ty} {name : String} {b : Block} {s : Session} :
    (b.analyzeInside result name s).Clean ↔ (b.analyze result (s.enter name)).Clean :=
  Session.clean_exit

/-- If no error has been recorded at the end of a block, none had been at its start, and the block
is well formed. -/
theorem wellFormed_of_clean_analyze {result : Ty} {b : Block} {s : Session} (hs : s.scopes.Sound)
    (h : (b.analyze result s).Clean) :
    s.Clean ∧ b.WellFormed result s.scopes.types ∧
      ∀ e ∈ b.exprs, e.constantPartFaults = [] := by
  induction b generalizing s with
  | done => exact ⟨h, .done, fun e he ↦ absurd he List.not_mem_nil⟩
  | simple a rest ih =>
    obtain ⟨hclean, hrest, hparts⟩ := ih ((a.extends_analyze result s).sound hs) h
    have hexprs : (∀ e ∈ a.exprs, e.constantPartFaults = []) →
        ∀ e ∈ (simple a rest).exprs, e.constantPartFaults = [] :=
      fun ha ↦ forall_mem_exprs_simple.2 ⟨ha, hparts⟩
    cases a with
    | declare d =>
      obtain ⟨hclean, hd, hdparts⟩ := Declaration.wellFormed_of_clean hs hclean
      have htypes : (d.analyze false s).scopes.types = _ := hd.types_analyze
      rw [Simple.analyze, htypes] at hrest
      exact ⟨hclean, .declare hd hrest, hexprs hdparts⟩
    | assign pos x e =>
      obtain ⟨hclean, t, hx, he, hquiet⟩ := (Session.clean_analyzeAssign_iff hs).1 hclean
      have htypes : (s.analyzeAssign pos x e).scopes.types = _ :=
        s.view_analyzeAssign blind_types pos x e
      rw [Simple.analyze, htypes] at hrest
      refine ⟨hclean, .assign hx he hrest, hexprs fun e' he' ↦ ?_⟩
      rw [List.mem_singleton.1 he']
      exact Expr.constantPartFaults_eq_nil_of_quiet_valueFaults hquiet
    | ret pos value =>
      rw [Simple.analyze, s.scopes_analyzeReturn] at hrest
      cases value with
      | none =>
        obtain ⟨hclean, hvoid⟩ := (Session.clean_analyzeReturn_none_iff pos).1 hclean
        exact ⟨hclean, .retVoid hvoid hrest, hexprs fun e he ↦ absurd he List.not_mem_nil⟩
      | some e =>
        obtain ⟨hclean, he, hquiet⟩ := (Session.clean_analyzeReturn_some_iff hs pos).1 hclean
        refine ⟨hclean, .ret he hrest, hexprs fun e' he' ↦ ?_⟩
        rw [List.mem_singleton.1 he']
        exact Expr.constantPartFaults_eq_nil_of_quiet_valueFaults hquiet
    | eval pos e =>
      obtain ⟨hclean, ⟨t, he⟩, hpart⟩ := (Simple.clean_analyze_eval_iff hs).1 hclean
      rw [Simple.analyze, s.scopes_reportAll] at hrest
      refine ⟨hclean, .eval he hrest, hexprs fun e' he' ↦ ?_⟩
      rw [List.mem_singleton.1 he']
      exact hpart
  | ifThen pos c t rest iht ih =>
    rw [analyze_ifThen] at h
    have hs₁ : (s.checkCondition .cond c).scopes.Sound := by rwa [s.scopes_checkCondition]
    obtain ⟨h₂, hrest, hparts⟩ := ih ((t.extends_analyzeInside result _ _).sound hs₁) h
    obtain ⟨h₁, ht, htparts⟩ := iht (hs₁.enter _) (clean_analyzeInside.1 h₂)
    obtain ⟨h₀, hc, hcpart⟩ := (Session.clean_checkCondition_iff hs).1 h₁
    rw [types_analyzeInside, s.scopes_checkCondition] at hrest
    rw [Session.types_enter, s.scopes_checkCondition] at ht
    exact ⟨h₀, .ifThen hc ht hrest, forall_mem_exprs_ifThen.2 ⟨hcpart, htparts, hparts⟩⟩
  | ifElse pos c t e rest iht ihe ih =>
    rw [analyze_ifElse] at h
    have hs₁ : (s.checkCondition .cond c).scopes.Sound := by rwa [s.scopes_checkCondition]
    have hs₂ := (t.extends_analyzeInside result "if_then" _).sound hs₁
    obtain ⟨h₃, hrest, hparts⟩ := ih ((e.extends_analyzeInside result _ _).sound hs₂) h
    obtain ⟨h₂, he, heparts⟩ := ihe (hs₂.enter _) (clean_analyzeInside.1 h₃)
    obtain ⟨h₁, ht, htparts⟩ := iht (hs₁.enter _) (clean_analyzeInside.1 h₂)
    obtain ⟨h₀, hc, hcpart⟩ := (Session.clean_checkCondition_iff hs).1 h₁
    rw [types_analyzeInside, types_analyzeInside, s.scopes_checkCondition] at hrest
    rw [Session.types_enter, types_analyzeInside, s.scopes_checkCondition] at he
    rw [Session.types_enter, s.scopes_checkCondition] at ht
    exact ⟨h₀, .ifElse hc ht he hrest,
      forall_mem_exprs_ifElse.2 ⟨hcpart, htparts, heparts, hparts⟩⟩
  | loop pos c b rest ihb ih =>
    rw [analyze_loop] at h
    have hs₁ : (s.checkCondition .loop c).scopes.Sound := by rwa [s.scopes_checkCondition]
    obtain ⟨h₂, hrest, hparts⟩ := ih ((b.extends_analyzeInside result _ _).sound hs₁) h
    obtain ⟨h₁, hb, hbparts⟩ := ihb (hs₁.enter _) (clean_analyzeInside.1 h₂)
    obtain ⟨h₀, hc, hcpart⟩ := (Session.clean_checkCondition_iff hs).1 h₁
    rw [types_analyzeInside, s.scopes_checkCondition] at hrest
    rw [Session.types_enter, s.scopes_checkCondition] at hb
    exact ⟨h₀, .loop hc hb hrest, forall_mem_exprs_loop.2 ⟨hcpart, hbparts, hparts⟩⟩

/-- A well-formed block without a division by a constant zero adds no error. -/
theorem WellFormed.clean_analyze {result : Ty} {b : Block} {s : Session} (hs : s.scopes.Sound)
    (h : b.WellFormed result s.scopes.types) (hz : ∀ e ∈ b.exprs, e.NoZeroDivisor)
    (hclean : s.Clean) : (b.analyze result s).Clean := by
  generalize hΓ : s.scopes.types = Γ at h
  -- a typed expression is quiet and its constant parts have values, at the session at hand
  have hquiet : ∀ {s : Session}, s.scopes.Sound → ∀ {e : Expr} {t : Ty},
      e.HasType s.scopes.types.find? t → e.NoZeroDivisor →
        Quiet (e.valueFaults s.env) ∧ e.constantPartFaults = [] := by
    intro s hs e t he hz
    rw [← s.env_types] at he
    exact ⟨he.quiet_valueFaults hs.env_wellTyped hz,
      he.constantPartFaults_eq_nil hs.env_wellTyped hz⟩
  induction h generalizing s with
  | done => exact hclean
  | @declare Γ d rest hd _ ih =>
    subst hΓ
    obtain ⟨hzd, hz⟩ := forall_mem_exprs_simple.1 hz
    exact ih ((d.extends_analyze false s).sound hs) hz (hd.clean hs hzd hclean) hd.types_analyze
  | @assign Γ pos x e t rest hx he _ ih =>
    subst hΓ
    obtain ⟨hze, hz⟩ := forall_mem_exprs_simple.1 hz
    refine ih ((s.extends_analyzeAssign pos x e).sound hs) hz ?_
      (s.view_analyzeAssign blind_types pos x e)
    exact (Session.clean_analyzeAssign_iff hs).2
      ⟨hclean, t, hx, he, (hquiet hs he (hze e List.mem_cons_self)).1⟩
  | @ret Γ pos e rest he _ ih =>
    subst hΓ
    have hscopes : (s.analyzeReturn result pos (some e)).scopes = s.scopes :=
      s.scopes_analyzeReturn result pos _
    obtain ⟨hze, hz⟩ := forall_mem_exprs_simple.1 hz
    refine ih (s := s.analyzeReturn result pos (some e)) (hscopes ▸ hs) hz ?_ (by rw [hscopes])
    exact (Session.clean_analyzeReturn_some_iff hs pos).2
      ⟨hclean, he, (hquiet hs he (hze e List.mem_cons_self)).1⟩
  | @retVoid Γ pos rest hvoid _ ih =>
    subst hΓ
    have hscopes : (s.analyzeReturn result pos none).scopes = s.scopes :=
      s.scopes_analyzeReturn result pos _
    exact ih (s := s.analyzeReturn result pos none) (hscopes ▸ hs) (forall_mem_exprs_simple.1 hz).2
      ((Session.clean_analyzeReturn_none_iff pos).2 ⟨hclean, hvoid⟩) (by rw [hscopes])
  | @eval Γ pos e t rest he _ ih =>
    subst hΓ
    have hscopes : (Simple.analyze result s (.eval pos e)).scopes = s.scopes :=
      s.scopes_reportAll _
    obtain ⟨hze, hz⟩ := forall_mem_exprs_simple.1 hz
    refine ih (s := Simple.analyze result s (.eval pos e)) (hscopes ▸ hs) hz ?_ (by rw [hscopes])
    exact (Simple.clean_analyze_eval_iff hs).2
      ⟨hclean, ⟨t, he⟩, (hquiet hs he (hze e List.mem_cons_self)).2⟩
  | @ifThen Γ pos c t rest hc _ _ iht ih =>
    subst hΓ
    obtain ⟨hzc, hzt, hz⟩ := forall_mem_exprs_ifThen.1 hz
    rw [analyze_ifThen]
    have hs₁ : (s.checkCondition .cond c).scopes.Sound := by rwa [s.scopes_checkCondition]
    have h₁ : (s.checkCondition .cond c).Clean := (Session.clean_checkCondition_iff hs).2
      ⟨hclean, hc, (hquiet hs hc hzc).2⟩
    have h₂ := clean_analyzeInside.2 (iht (hs₁.enter "if_then") hzt h₁
      (by rw [Session.types_enter, s.scopes_checkCondition]))
    exact ih ((t.extends_analyzeInside result _ _).sound hs₁) hz h₂
      (by rw [types_analyzeInside, s.scopes_checkCondition])
  | @ifElse Γ pos c t e rest hc _ _ _ iht ihe ih =>
    subst hΓ
    obtain ⟨hzc, hzt, hze, hz⟩ := forall_mem_exprs_ifElse.1 hz
    rw [analyze_ifElse]
    have hs₁ : (s.checkCondition .cond c).scopes.Sound := by rwa [s.scopes_checkCondition]
    have h₁ : (s.checkCondition .cond c).Clean := (Session.clean_checkCondition_iff hs).2
      ⟨hclean, hc, (hquiet hs hc hzc).2⟩
    have h₂ := clean_analyzeInside.2 (iht (hs₁.enter "if_then") hzt h₁
      (by rw [Session.types_enter, s.scopes_checkCondition]))
    have hs₂ := (t.extends_analyzeInside result "if_then" _).sound hs₁
    have h₃ := clean_analyzeInside.2 (ihe (hs₂.enter "if_else") hze h₂
      (by rw [Session.types_enter, types_analyzeInside, s.scopes_checkCondition]))
    exact ih ((e.extends_analyzeInside result _ _).sound hs₂) hz h₃
      (by rw [types_analyzeInside, types_analyzeInside, s.scopes_checkCondition])
  | @loop Γ pos c b rest hc _ _ ihb ih =>
    subst hΓ
    obtain ⟨hzc, hzb, hz⟩ := forall_mem_exprs_loop.1 hz
    rw [analyze_loop]
    have hs₁ : (s.checkCondition .loop c).scopes.Sound := by rwa [s.scopes_checkCondition]
    have h₁ : (s.checkCondition .loop c).Clean := (Session.clean_checkCondition_iff hs).2
      ⟨hclean, hc, (hquiet hs hc hzc).2⟩
    have h₂ := clean_analyzeInside.2 (ihb (hs₁.enter "while_body") hzb h₁
      (by rw [Session.types_enter, s.scopes_checkCondition]))
    exact ih ((b.extends_analyzeInside result _ _).sound hs₁) hz h₂
      (by rw [types_analyzeInside, s.scopes_checkCondition])

end Block

end BlockLang
