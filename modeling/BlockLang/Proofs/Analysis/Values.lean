import BlockLang.Proofs.Analysis.Marks
import BlockLang.Proofs.Analysis.Shape
import BlockLang.Proofs.Analysis.Tracking
import BlockLang.Proofs.Semantics.StraightLine

/-!
# Tracked values on straight-line code

On straight-line code the analysis meets the statements in the order in which they are executed, so
what it tracks for a variable can be compared with what the variable holds. Both are nests: the
symbols around a point of the analysis (`ScopeTree.symbols`), and the store. The invariant is that
they bind the same names in the same scopes, each symbol to a value that it allows
(`ScopeTree.Describes`): one of its type, and the one tracked for it if there is one.

A value that is not known allows all values of the type, so an expression keeps to the invariant
when evaluation gives up early, as it does on a division by a variable that is known to be zero.
Types alone keep an execution from getting stuck, so on a program without errors it divides by zero
or comes to its end (`Program.WellFormed.completes_execute`).
-/

namespace BlockLang

open Halt (Completes completes_ok)

/-! ### Nests that bind the same names -/

/-- An assignment to a name that has just been bound in the innermost scope binds it anew there. -/
theorem Nest.assign_bind {α : Type} (n : Nest α) (x : String) (a b : α) :
    (n.bind x a).assign x b = n.bind x b := by
  rw [assign, bind_here_self, if_pos Option.isSome_some]
  exact congrArg (Nest.mk · n.outer) (Function.update_idem ..)

/-- The nests have as many scopes, and these bind the same names, to things that are related. -/
structure Nest.Rel {α β : Type} (R : α → β → Prop) (n : Nest α) (m : Nest β) : Prop where
  /-- There are as many scopes. -/
  length : n.outer.length = m.outer.length
  /-- A name is bound in a scope of both or of none. -/
  bindings : ∀ i x, Option.Rel R (n.binding? i x) (m.binding? i x)

namespace Nest.Rel

variable {α β : Type} {R : α → β → Prop} {n : Nest α} {m : Nest β}

theorem empty : Nest.Rel R {} {} :=
  ⟨rfl, fun i _ ↦ by rcases i with - | i <;> exact .none⟩

theorem enter (h : n.Rel R m) : n.enter.Rel R m.enter := by
  refine ⟨congrArg (· + 1) h.length, fun i x ↦ ?_⟩
  rcases i with - | i
  · exact .none
  · exact h.bindings i x

theorem bind (h : n.Rel R m) (x : String) {a : α} {b : β} (hab : R a b) :
    (n.bind x a).Rel R (m.bind x b) := by
  refine ⟨h.length, fun i y ↦ ?_⟩
  rw [binding?_bind, binding?_bind]
  split
  · exact .some hab
  · exact h.bindings i y

/-- A name is found in the same scope of both. -/
theorem exists_level (h : n.Rel R m) {x : String} {a : α} (ha : n.find? x = some a) :
    ∃ i b, R a b ∧ n.binding? i x = some a ∧ m.binding? i x = some b ∧
      (∀ j < i, n.binding? j x = none) ∧ ∀ j < i, m.binding? j x = none := by
  obtain ⟨i, hi, hlt⟩ := (n.find?_eq_some_iff x a).1 ha
  have hrel := h.bindings i x
  rw [hi] at hrel
  generalize hm : m.binding? i x = o at hrel
  cases hrel with
  | some hab =>
    refine ⟨i, _, hab, hi, hm, hlt, fun j hj ↦ ?_⟩
    have hrel := h.bindings j x
    rw [hlt j hj] at hrel
    generalize m.binding? j x = o' at hrel
    cases hrel
    rfl

theorem find? (h : n.Rel R m) (x : String) : Option.Rel R (n.find? x) (m.find? x) := by
  rcases hn : n.find? x with - | a
  · rcases hm : m.find? x with - | b
    · exact .none
    · -- whatever is found in the second nest is found in the first
      have hswap : m.Rel (fun b a ↦ R a b) n := by
        refine ⟨h.length.symm, fun i x ↦ ?_⟩
        have hrel := h.bindings i x
        generalize n.binding? i x = o, m.binding? i x = o' at hrel
        cases hrel with
        | none => exact .none
        | some hab => exact .some hab
      obtain ⟨i, a, -, -, hi, -, hlt⟩ := hswap.exists_level hm
      cases hn.symm.trans ((n.find?_eq_some_iff x a).2 ⟨i, hi, hlt⟩)
  · obtain ⟨i, b, hab, -, hi, -, hlt⟩ := h.exists_level hn
    rw [(m.find?_eq_some_iff x b).2 ⟨i, hi, hlt⟩]
    exact .some hab

theorem assign (h : n.Rel R m) {x : String} {a a' : α} {b' : β} (ha : n.find? x = some a)
    (hab : R a' b') : (n.assign x a').Rel R (m.assign x b') := by
  obtain ⟨k, b, -, hn, hm, hnlt, hmlt⟩ := h.exists_level ha
  refine ⟨by rw [length_outer_assign, length_outer_assign, h.length], fun i y ↦ ?_⟩
  rw [n.binding?_assign hn hnlt, m.binding?_assign hm hmlt]
  split
  · exact .some hab
  · exact h.bindings i y

end Nest.Rel

/-! ### Symbols around a point -/

namespace ScopeTree

variable {t t' : ScopeTree} {x : String} {value : Option Value}

/-- The symbols of the current scope and of the scopes around it. -/
def symbols (t : ScopeTree) : Nest Symbol := t.view fun _ s ↦ some s

theorem find?_symbols (t : ScopeTree) (x : String) : t.symbols.find? x = t.lookup? x := by
  rw [symbols, find?_view_some, lookup?_eq_binding?]

theorem symbols_declare? {ty : Ty} {pos : Pos} (h : t.declare? x ty value pos = some t') :
    t'.symbols = t.symbols.bind x (t.newSymbol x ty value pos) :=
  view_declare? _ h rfl

private theorem here_modify {s : Scope} {sym : Symbol} {f : Symbol → Symbol}
    (hx : s.symbols.get? x = some sym) :
    Scope.view (fun _ s ↦ some s) { s with symbols := s.symbols.modify x f } =
      Function.update (s.view fun _ s ↦ some s) x (some (f sym)) := by
  funext y
  show ((s.symbols.modify x f).get? y).bind _ = _
  rw [SymbolTable.get?_modify, hx]
  by_cases hy : y = x
  · rw [if_pos hy, hy, Function.update_self]
    rfl
  · rw [if_neg hy, Function.update_of_ne hy]
    rfl

private theorem symbols_modifyOuter {es es' : List Enclosing} {sym : Symbol} {f : Symbol → Symbol}
    (h : modifyOuter x f es = some es')
    (hx : es.findSome? (·.scope.symbols.get? x) = some sym) :
    (es'.map fun e ↦ e.scope.view fun _ s ↦ some s) =
      Nest.assignIn x (f sym) (es.map fun e ↦ e.scope.view fun _ s ↦ some s) := by
  have hview : ∀ s : Scope, s.view (fun _ s ↦ some s) x = s.symbols.get? x :=
    fun s ↦ Option.bind_fun_some _
  induction es generalizing es' with
  | nil => cases h
  | cons e es ih =>
    rw [modifyOuter, SymbolTable.contains] at h
    rw [List.map_cons, Nest.assignIn, hview]
    rcases hget : e.scope.symbols.get? x with - | old
    · rw [hget, if_neg (by simp)] at h
      rw [List.findSome?_cons, hget] at hx
      obtain ⟨es'', hes, rfl⟩ := Option.map_eq_some_iff.1 h
      rw [if_neg (by simp), List.map_cons, ih hes hx]
    · rw [hget, if_pos Option.isSome_some] at h
      rw [List.findSome?_cons, hget] at hx
      obtain rfl := Option.some.inj hx
      obtain rfl := Option.some.inj h
      rw [if_pos Option.isSome_some, List.map_cons, here_modify hget]

/-- An assignment binds its name to the new symbol where the old one is found. -/
theorem symbols_assign? (h : t.assign? x value = some t') {sym : Symbol}
    (hx : t.lookup? x = some sym) : t'.symbols = t.symbols.assign x (sym.assign value) := by
  have hhere : t.symbols.here x = t.here.symbols.get? x := Option.bind_fun_some _
  rw [assign?, modify?, containsLocal, SymbolTable.contains] at h
  rw [lookup?, chain, List.findSome?_cons] at hx
  rw [Nest.assign, hhere]
  rcases hget : t.here.symbols.get? x with - | old
  · rw [hget, if_neg (by simp)] at h
    rw [hget, List.findSome?_map] at hx
    obtain ⟨es, hes, rfl⟩ := Option.map_eq_some_iff.1 h
    rw [if_neg (by simp)]
    exact congrArg (Nest.mk _) (symbols_modifyOuter hes hx)
  · rw [hget, if_pos Option.isSome_some] at h
    rw [hget] at hx
    obtain rfl := Option.some.inj hx
    obtain rfl := Option.some.inj h
    rw [if_pos Option.isSome_some]
    exact congrArg (Nest.mk · _) (here_modify hget)

end ScopeTree

/-! ### Symbols and what variables hold -/

/-- The variable of the symbol may hold `v`, by its type and by what is tracked for it. -/
structure Symbol.Allows (s : Symbol) (v : Value) : Prop where
  /-- The value has the type of the symbol. -/
  ty : v.ty = s.ty
  /-- The value is the one tracked for the symbol, if there is one. -/
  value : ∀ w, s.value = some w → v = w

/-- The symbols around a point of the analysis are those of the variables of the store, and these
hold values that the symbols allow. -/
def ScopeTree.Describes (t : ScopeTree) (σ : Store) : Prop := t.symbols.Rel Symbol.Allows σ

namespace ScopeTree.Describes

variable {t t' : ScopeTree} {σ : Store} {x : String} {value : Option Value} {v : Value}

theorem env (h : t.Describes σ) (x : String) : Option.Rel Symbol.Allows (t.lookup? x) (σ.find? x) :=
  t.find?_symbols x ▸ h.find? x

theorem declare? (h : t.Describes σ) {ty : Ty} {pos : Pos}
    (hd : t.declare? x ty value pos = some t') (hty : v.ty = ty)
    (hvalue : ∀ w, value = some w → v = w) : t'.Describes (σ.bind x v) := by
  rw [Describes, symbols_declare? hd]
  exact h.bind x ⟨hty, hvalue⟩

theorem assign? (h : t.Describes σ) (ha : t.assign? x value = some t') {sym : Symbol}
    (hx : t.lookup? x = some sym) (hty : v.ty = sym.ty) (hvalue : ∀ w, value = some w → v = w) :
    t'.Describes (σ.assign x v) := by
  rw [Describes, symbols_assign? ha hx]
  exact Nest.Rel.assign h ((t.find?_symbols x).trans hx) ⟨hty, hvalue⟩

end ScopeTree.Describes

/-! ### Expressions -/

/-- An operator on values of the types of a row divides by zero or has a result of its third type,
which evaluation finds if it knows the operands. -/
theorem BinaryOp.Takes.completes_compute {op : BinaryOp} {a b : Value} {t : Ty}
    (h : op.Takes a.ty b.ty t) :
    Completes (op.compute a b) fun v ↦ op.apply a b = some v ∧ v.ty = t := by
  rw [BinaryOp.compute]
  split
  · exact .inl rfl
  · obtain ⟨v, hv, hty⟩ := h.exists_apply
    rw [hv]
    exact completes_ok ⟨rfl, hty⟩

/-- A typed expression divides by zero or has a value of its type, the one that is known of it if
there is one. -/
theorem Expr.HasType.completes_compute {env : Env} {ρ : String → Option Value}
    (hρ : ∀ x, Option.Rel Symbol.Allows (env x) (ρ x)) {e : Expr} {t : Ty}
    (h : e.HasType env.types t) :
    Completes (e.compute ρ) fun v ↦ v.ty = t ∧ ∀ w, e.value env = some w → v = w := by
  induction h with
  | num p v => exact completes_ok ⟨rfl, fun w hw ↦ Option.some.inj hw⟩
  | bool p b => exact completes_ok ⟨rfl, fun w hw ↦ Option.some.inj hw⟩
  | @var p x t hx =>
    obtain ⟨sym, hsym, rfl⟩ := Option.map_eq_some_iff.1 hx
    have hrel := hρ x
    rw [hsym] at hrel
    rw [compute]
    generalize ρ x = o at hrel
    cases hrel with
    | some hallows =>
      refine completes_ok ⟨hallows.ty, fun w hw ↦ hallows.value w ?_⟩
      rwa [value, hsym] at hw
  | @not p e h ih =>
    rw [compute]
    refine ih.bind fun v hv ↦ ?_
    obtain ⟨hty, hvalue⟩ := hv
    cases v with
    | int v => cases hty
    | bool b =>
      refine completes_ok ⟨rfl, fun w hw ↦ ?_⟩
      obtain ⟨u, hu, hnot⟩ := Option.bind_eq_some_iff.1 hw
      obtain rfl := hvalue u hu
      exact Option.some.inj hnot
  | @binary p op l r a b t hop hl hr ihl ihr =>
    rw [compute]
    refine ihl.bind fun v hl ↦ ihr.bind fun w hr ↦ ?_
    obtain ⟨rfl, hv⟩ := hl
    obtain ⟨rfl, hw⟩ := hr
    rcases hop.completes_compute with hzero | ⟨u, hu, happly, hty⟩
    · exact .inl hzero
    · refine .inr ⟨u, hu, hty, fun u' hu' ↦ ?_⟩
      obtain ⟨v', w', hv', hw', happly'⟩ := BinaryOp.combine_eq_some hu'
      obtain rfl := hv v' hv'
      obtain rfl := hw w' hw'
      exact Option.some.inj (happly.symm.trans happly')

/-- What is tracked for a variable in which a value is stored is known of the value. -/
theorem Expr.value_of_storedValue {env : Env} {target : Ty} {e : Expr} {w : Value}
    (h : e.storedValue env target = some w) : e.value env = some w := by
  rw [storedValue] at h
  split at h
  · exact h
  · cases h

/-- The same at a point of an analysis. -/
theorem ScopeTree.Describes.completes_compute {s : Session} {σ : Store}
    (h : s.scopes.Describes σ) {e : Expr} {t : Ty} (he : e.HasType s.scopes.types.find? t) :
    Completes (e.compute σ.find?) fun v ↦ v.ty = t ∧ ∀ w, e.value s.env = some w → v = w := by
  rw [← s.env_types] at he
  exact he.completes_compute h.env

/-! ### Declarations -/

/-- A storable variable without initializer starts with a value of its type. -/
theorem Ty.exists_defaultValue {ty : Ty} (h : ty.isStorable) :
    ∃ v, ty.defaultValue = some v ∧ v.ty = ty := by
  cases ty with
  | int => exact ⟨.int 0, rfl, rfl⟩
  | bool => exact ⟨.bool false, rfl, rfl⟩
  | void => cases h
  | error => cases h

/-- A new variable is described by the symbol that the analysis declares for it. -/
theorem Declarator.completes_initial (isGlobal : Bool) {ty : Ty} (hty : ty.isStorable)
    {v : Declarator} {s : Session} {σ : Store} (hσ : s.scopes.Describes σ)
    (hnew : s.scopes.types.here v.name = none)
    (hinit : ∀ e, v.init = some e → e.HasType s.scopes.types.find? ty) :
    Completes (v.initial ty σ.find?) fun a ↦
      (v.analyze isGlobal ty s).scopes.Describes (σ.bind v.name a) := by
  obtain ⟨value, t, ht, hvalue, hstep⟩ :=
    v.scopes_analyze isGlobal ty ((s.scopes.containsLocal_eq_false_iff _).2 hnew)
  -- any value of the type that the tracked one does not contradict will do
  have hdescribes : ∀ a : Value, a.ty = ty → (∀ w, value = some w → a = w) →
      (v.analyze isGlobal ty s).scopes.Describes (σ.bind v.name a) := by
    intro a haty ha
    have hdeclared : t.Describes (σ.bind v.name a) := hσ.declare? ht haty ha
    rcases hstep with heq | hassign
    · rwa [heq]
    · have hfound : t.lookup? v.name = some (s.scopes.newSymbol v.name ty value v.pos) := by
        rw [← t.find?_symbols, ScopeTree.symbols_declare? ht, Nest.find?_eq_some_iff]
        refine ⟨0, ?_, fun j hj ↦ absurd hj (Nat.not_lt_zero j)⟩
        exact Nest.bind_here_self ..
      have hassigned := hdeclared.assign? hassign hfound haty (by simp)
      rwa [Nest.assign_bind] at hassigned
  rw [initial]
  rcases hv : v.init with - | e
  · obtain ⟨a, ha, haty⟩ := Ty.exists_defaultValue hty
    rw [ha]
    refine completes_ok (hdescribes a haty fun w hw ↦ ?_)
    obtain ⟨e, he, -⟩ := hvalue w hw
    cases hv.symm.trans he
  · rcases hσ.completes_compute (hinit e hv) with hzero | ⟨a, ha, haty, hknown⟩
    · exact .inl hzero
    · refine .inr ⟨a, ha, hdescribes a haty fun w hw ↦ ?_⟩
      obtain ⟨e', he', hstored⟩ := hvalue w hw
      obtain rfl := Option.some.inj (hv.symm.trans he')
      exact hknown w (Expr.value_of_storedValue hstored)

theorem WellDeclared.completes_execute {isGlobal : Bool} {ty : Ty} (hty : ty.isStorable)
    {vs : List Declarator} {s : Session} {σ : Store}
    (h : WellDeclared isGlobal ty s.scopes.types vs) (hσ : s.scopes.Describes σ) :
    Completes (executeDeclarators ty vs σ)
      (analyzeDeclarators isGlobal ty vs s).scopes.Describes := by
  generalize hΓ : s.scopes.types = Γ at h
  induction h generalizing s σ with
  | nil => exact completes_ok hσ
  | @cons Γ v vs hnew hinit _ ih =>
    subst hΓ
    refine (v.completes_initial isGlobal hty hσ hnew fun e he ↦ (hinit e he).1).bind fun a ha ↦ ?_
    exact ih ha (v.types_analyze isGlobal ty hnew)

theorem Declaration.WellFormed.completes_execute {isGlobal : Bool} {d : Declaration} {s : Session}
    {σ : Store} (h : d.WellFormed isGlobal s.scopes.types) (hσ : s.scopes.Describes σ) :
    Completes (executeDeclarators d.ty d.vars σ) (d.analyze isGlobal s).scopes.Describes := by
  rw [analyze]
  rcases hvars : d.vars with - | ⟨v, vs⟩
  · have hscopes : (if d.ty.isStorable then analyzeDeclarators isGlobal d.ty [] s
        else s.reportAll ([].map fun v : Declarator ↦ ⟨v.pos, .unstorable v.name d.ty⟩)) = s := by
      split <;> rfl
    rw [hscopes]
    exact completes_ok hσ
  · have hty : d.ty.isStorable := h.storable (by simp [hvars])
    rw [if_pos hty, ← hvars]
    exact h.declared.completes_execute hty hσ

/-! ### Statements -/

/-- A variable that is assigned to is described by its symbol afterwards. -/
theorem ScopeTree.Describes.analyzeAssign {s : Session} {σ : Store} (h : s.scopes.Describes σ)
    (pos : Pos) {x : String} {e : Expr} {t : Ty} (hx : s.scopes.types.find? x = some t) {v : Value}
    (hty : v.ty = t) (hvalue : ∀ w, e.value s.env = some w → v = w) :
    (s.analyzeAssign pos x e).scopes.Describes (σ.assign x v) := by
  rw [s.scopes.find?_types] at hx
  obtain ⟨target, htarget, rfl⟩ := Option.map_eq_some_iff.1 hx
  simp only [Session.analyzeAssign, htarget, Session.assign, Session.scopes_reportAll]
  rcases ht : s.scopes.assign? x (e.storedValue s.env target.ty) with - | t'
  · -- a visible variable can be assigned to
    rw [ScopeTree.lookup?_eq_binding?, ScopeTree.binding?_of_modify?_eq_none ht] at htarget
    cases htarget
  · exact h.assign? ht htarget hty fun w hw ↦ hvalue w (Expr.value_of_storedValue hw)

/-- A variable that is visible to the analysis has a value. -/
theorem ScopeTree.Describes.exists_find? {s : Session} {σ : Store} (h : s.scopes.Describes σ)
    {x : String} {t : Ty} (hx : s.scopes.types.find? x = some t) : ∃ w, σ.find? x = some w := by
  rw [s.scopes.find?_types] at hx
  obtain ⟨target, htarget, -⟩ := Option.map_eq_some_iff.1 hx
  have hrel := h.env x
  rw [htarget] at hrel
  generalize σ.find? x = o at hrel
  cases hrel with
  | some _ => exact ⟨_, rfl⟩

/-! ### Blocks -/

/-- A straight block that is well formed divides by zero or comes to its end, and the analysis of
the block ends with what the variables hold then. -/
theorem Block.WellFormed.completes_execute {result : Ty} {b : Block} {s : Session} {σ : Store}
    (h : b.WellFormed result s.scopes.types) (hstraight : b.isStraight = true)
    (hσ : s.scopes.Describes σ) :
    Completes (b.execute σ) (b.analyze result s).scopes.Describes := by
  generalize hΓ : s.scopes.types = Γ at h
  induction h generalizing s σ with
  | done => exact completes_ok hσ
  | @declare Γ d rest hd _ ih =>
    subst hΓ
    obtain ⟨-, hrest⟩ := isStraight_simple hstraight
    exact (hd.completes_execute hσ).bind fun σ' hσ' ↦ ih hrest hσ' hd.types_analyze
  | @assign Γ pos x e t rest hx he _ ih =>
    subst hΓ
    obtain ⟨-, hrest⟩ := isStraight_simple hstraight
    obtain ⟨w, hw⟩ := hσ.exists_find? hx
    rw [execute, Simple.execute, hw]
    refine ((hσ.completes_compute he).bind fun v hv ↦ ?_).bind
      (P := (s.analyzeAssign pos x e).scopes.Describes) fun σ' hσ' ↦ ?_
    · exact completes_ok (hσ.analyzeAssign pos hx hv.1 hv.2)
    · exact ih hrest hσ' (s.view_analyzeAssign blind_types pos x e)
  | @ret Γ pos e rest he _ ih =>
    subst hΓ
    obtain ⟨hlast, -⟩ := isStraight_simple hstraight
    obtain rfl := hlast rfl
    have hscopes :
        (Block.done.analyze result (Simple.analyze result s (.ret pos (some e)))).scopes =
          s.scopes := s.scopes_analyzeReturn result pos _
    rw [analyze, hscopes, execute, Simple.execute]
    exact ((hσ.completes_compute he).bind fun v _ ↦ completes_ok hσ).bind
      fun σ' hσ' ↦ completes_ok hσ'
  | @retVoid Γ pos rest hvoid _ ih =>
    subst hΓ
    obtain ⟨hlast, -⟩ := isStraight_simple hstraight
    obtain rfl := hlast rfl
    have hscopes : (Block.done.analyze result (Simple.analyze result s (.ret pos none))).scopes =
        s.scopes := s.scopes_analyzeReturn result pos _
    rw [analyze, hscopes]
    exact completes_ok hσ
  | @eval Γ pos e t rest he _ ih =>
    subst hΓ
    obtain ⟨-, hrest⟩ := isStraight_simple hstraight
    have hscopes : (Simple.analyze result s (.eval pos e)).scopes = s.scopes :=
      s.scopes_reportAll _
    rw [analyze, execute, Simple.execute]
    refine ((hσ.completes_compute he).bind fun v _ ↦ completes_ok hσ).bind fun σ' hσ' ↦ ?_
    exact ih hrest (hscopes ▸ hσ') (by rw [hscopes])
  | ifThen => cases hstraight
  | ifElse => cases hstraight
  | loop => cases hstraight

/-- A straight block opens no scopes. -/
theorem Block.grown_analyze_of_isStraight {result : Ty} {b : Block} (h : b.isStraight = true)
    (s : Session) : s.Grown (b.analyze result s) 0 .nil := by
  induction b generalizing s with
  | done => exact .refl _
  | simple a rest ih => exact (a.grown_analyze result s).trans (ih (isStraight_simple h).2 _)
  | ifThen => cases h
  | ifElse => cases h
  | loop => cases h

/-! ### Programs -/

theorem WellFormedGlobals.completes_execute {function entry : String} {ds : List Declaration}
    {s : Session} {σ : Store} (h : WellFormedGlobals function entry s.scopes.types ds)
    (hσ : s.scopes.Describes σ) :
    Completes (executeGlobals ds σ) (analyzeGlobals function entry ds s).scopes.Describes := by
  generalize hΓ : s.scopes.types = Γ at h
  induction h generalizing s σ with
  | nil => exact completes_ok hσ
  | @cons Γ d ds hd _ _ ih =>
    subst hΓ
    refine (hd.completes_execute hσ).bind fun σ' hσ' ↦ ih ?_ (hd.types_analyzeGlobal function entry)
    rwa [d.scopes_analyzeGlobal function entry]

namespace ScopeTree

private theorem mem_outerInfos_alone {es : List Enclosing}
    (h : ∀ e ∈ es, e.earlier = .nil ∧ e.later = .nil) (id : Nat) :
    ∀ r ∈ outerInfos id es, (es.map Enclosing.scope).reverse[r.level]? = some r.scope := by
  induction es generalizing id with
  | nil => exact fun r hr ↦ absurd hr (Multiset.notMem_zero r)
  | cons e es ih =>
    obtain ⟨⟨hearlier, hlater⟩, hes⟩ := List.forall_mem_cons.1 h
    intro r hr
    rw [List.map_cons, List.reverse_cons]
    rw [outerInfos, hearlier, hlater, Multiset.mem_cons] at hr
    rcases hr with rfl | hr
    · simp
    · have hrest : r ∈ outerInfos e.scope.id es := by simpa [Forest.infos] using hr
      have hget := ih hes _ r hrest
      rw [List.getElem?_append_left (List.getElem?_eq_some_iff.1 hget).1, hget]

/-- In a tree without scopes but the current one and those around it, a scope stands at its level,
counted from outside. -/
theorem get?_reverse_chain {t : ScopeTree} (hinner : t.inner = .nil)
    (houter : ∀ e ∈ t.outer, e.earlier = .nil ∧ e.later = .nil) :
    ∀ r ∈ t.infos, t.chain.reverse[r.level]? = some r.scope := by
  intro r hr
  rw [← Multiset.mem_coe, t.coe_infos, Multiset.mem_cons, others, hinner] at hr
  rw [chain, List.reverse_cons]
  rcases hr with rfl | hr
  · simp [current, level]
  · have houterInfo : r ∈ outerInfos t.here.id t.outer := by simpa [Forest.infos] using hr
    have hget := mem_outerInfos_alone houter _ r houterInfo
    rw [List.getElem?_append_left (List.getElem?_eq_some_iff.1 hget).1, hget]

/-- A variable of the scope at some level is in the cell of that level. -/
theorem Describes.cell? {t : ScopeTree} {σ : Store} (h : t.Describes σ) {level : Nat} {s : Scope}
    (hs : t.chain.reverse[level]? = some s) {x : String} {sym : Symbol}
    (hx : s.symbols.get? x = some sym) : ∃ v, σ.cell? level x = some v ∧ sym.Allows v := by
  have hlength : t.chain.length = σ.scopes.length := by
    have hscopes : t.symbols.outer.length + 1 = σ.outer.length + 1 := congrArg (· + 1) h.length
    simpa [symbols, view, chain, Nest.scopes] using hscopes
  have hlt : level < t.chain.length := by
    simpa using (List.getElem?_eq_some_iff.1 hs).1
  rw [List.getElem?_reverse hlt] at hs
  have hsymbols : t.symbols.binding? (t.chain.length - 1 - level) x = some sym := by
    rw [Nest.binding?, symbols, view_scopes, List.getElem?_map, hs]
    show (s.symbols.get? x).bind _ = _
    rw [hx]
    rfl
  have hrel := h.bindings (t.chain.length - 1 - level) x
  rw [hsymbols] at hrel
  rw [Store.cell?, List.getElem?_reverse (hlength ▸ hlt), ← hlength]
  rw [Nest.binding?] at hrel
  generalize σ.scopes[t.chain.length - 1 - level]?.bind (· x) = o at hrel
  cases hrel with
  | some hallows => exact ⟨_, rfl, hallows⟩

end ScopeTree

namespace Program

variable {entry : String} {p : Program}

theorem bodyStart_eq_opened (hparams : p.function.params = []) :
    p.function.bodyStart (p.globalEnd entry) = p.function.opened (p.globalEnd entry) := by
  rw [Function.bodyStart, hparams]
  rfl

/-- A well-formed program without parameters and with a straight body divides by zero or comes to
its end, and the analysis of the body ends with what the variables hold then. -/
theorem WellFormed.completes_execute (h : p.WellFormed entry) (hparams : p.function.params = [])
    (hstraight : p.function.body.isStraight = true) :
    Completes p.execute (p.function.bodyEnd (p.globalEnd entry)).scopes.Describes := by
  have hglobals : WellFormedGlobals p.function.name entry
      (Session.note {} .analysisStarted).scopes.types p.globals := h.globals
  refine (hglobals.completes_execute Nest.Rel.empty).bind fun σ hσ ↦ ?_
  have hbody : p.function.body.WellFormed p.function.returnTy
      (p.function.opened (p.globalEnd entry)).scopes.types := by
    have hwell := h.function.body
    rw [hparams] at hwell
    rw [p.function.types_opened, h.types_globalEnd]
    exact hwell
  rw [Function.bodyEnd, bodyStart_eq_opened hparams]
  exact hbody.completes_execute hstraight (Nest.Rel.enter hσ)

/-- There are no scopes but that of the function and the outermost one. -/
theorem get?_reverse_chain_bodyEnd (hparams : p.function.params = [])
    (hstraight : p.function.body.isStraight = true) :
    ∀ r ∈ (p.function.bodyEnd (p.globalEnd entry)).scopes.infos,
      (p.function.bodyEnd (p.globalEnd entry)).scopes.chain.reverse[r.level]? = some r.scope := by
  have hglobal : ScopeTree.empty.Grown (p.globalEnd entry).scopes 0 .nil :=
    grown_analyzeGlobals p.function.name entry p.globals (Session.note {} .analysisStarted)
  have hbody : (p.function.opened (p.globalEnd entry)).Grown
      (p.function.bodyEnd (p.globalEnd entry)) 0 .nil := by
    rw [Function.bodyEnd, bodyStart_eq_opened hparams]
    exact Block.grown_analyze_of_isStraight hstraight _
  refine ScopeTree.get?_reverse_chain hbody.inner fun e he ↦ ?_
  have houter : (p.function.bodyEnd (p.globalEnd entry)).scopes.outer.map Enclosing.shape =
      [Enclosing.shape
        ⟨(p.globalEnd entry).scopes.here, (p.globalEnd entry).scopes.inner, .nil⟩] := by
    rw [hbody.outer]
    show _ :: (p.globalEnd entry).scopes.outer.map Enclosing.shape = _
    rw [hglobal.outer]
    rfl
  have hshape := List.mem_singleton.1 (houter ▸ List.mem_map_of_mem he)
  simp only [Enclosing.shape, Prod.mk.injEq] at hshape
  exact ⟨hshape.2.2.1.trans hglobal.inner, hshape.2.2.2⟩

theorem infos_analyze (entry : String) (p : Program) :
    (p.analyze entry {}).scopes.infos =
      (p.function.bodyEnd (p.globalEnd entry)).scopes.infos := by
  rw [p.scopes_analyze, Function.analyze_eq, Session.scopes_exit]
  have hscopes : (if p.function.lacksReturn then (p.function.bodyEnd (p.globalEnd entry)).report
      ⟨p.function.pos, .noReturn p.function.name p.function.returnTy⟩
      else p.function.bodyEnd (p.globalEnd entry)).scopes =
        (p.function.bodyEnd (p.globalEnd entry)).scopes := by
    split <;> rfl
  rw [hscopes]
  rcases hexit : (p.function.bodyEnd (p.globalEnd entry)).scopes.exit? with - | t
  · rfl
  · exact (ScopeTree.infos_exit? hexit).1

/-- Tracked values are right on straight-line code. A program without parameters, whose function is
straight and which is analyzed without error, comes to its end unless it divides by zero. Each
variable then holds a value of its type, and the one that the analysis tracks for it at the end if
there is one. -/
theorem exists_execute_eq_ok (entry : String) (p : Program) (hparams : p.function.params = [])
    (hstraight : p.function.body.isStraight = true)
    (hclean : (p.analyze entry {}).diagnostics.errors = [])
    (hzero : p.execute ≠ .error .divisionByZero) :
    ∃ σ, p.execute = .ok σ ∧
      ∀ r ∈ (p.analyze entry {}).scopes.infos, ∀ sym ∈ r.scope.symbols.toList,
        ∃ v, σ.cell? r.level sym.name = some v ∧ v.ty = sym.ty ∧
          ∀ w, sym.value = some w → v = w := by
  have hwell : p.WellFormed entry := (wellFormed_of_clean_analyze hclean).1
  rcases hwell.completes_execute hparams hstraight with hhalt | ⟨σ, hσ, hdescribes⟩
  · exact absurd hhalt hzero
  refine ⟨σ, hσ, fun r hr sym hsym ↦ ?_⟩
  have htracked : (p.analyze entry {}).scopes.Tracked := by
    rw [← p.after_steps]
    exact (p.admits_steps entry).tracked_after ScopeTree.tracked_empty
  obtain ⟨e, he, rfl⟩ := List.mem_map.1 hsym
  have howned := (htracked r hr).owned
  rw [infos_analyze] at hr
  obtain ⟨v, hv, hty, hvalue⟩ := hdescribes.cell?
    (get?_reverse_chain_bodyEnd hparams hstraight r hr) (SymbolTable.get?_of_mem howned.nodup he)
  exact ⟨v, (howned.entries e he).1 ▸ hv, hty, hvalue⟩

/-- A program with a quotient that wraps around, a global variable that is hidden after it has been
changed, and a variable of which nothing is known, `int g = 7, m = -2147483648 / -1; int f() { int
q; g = g * 6; int g = q + 1; q = 5 - 2; return m / q; }`. -/
def eclipsing : Program where
  globals := [⟨.int, [⟨"g", some (.num {} 7), {}⟩,
    ⟨"m", some (.binary {} .div (.num {} (-2147483648)) (.num {} (-1))), {}⟩], {}⟩]
  function :=
    { returnTy := .int
      name := "f"
      body :=
        .simple (.declare ⟨.int, [{ name := "q" }], {}⟩)
          (.simple (.assign {} "g" (.binary {} .mul (.var {} "g") (.num {} 6)))
            (.simple (.declare ⟨.int,
                [⟨"g", some (.binary {} .add (.var {} "q") (.num {} 1)), {}⟩], {}⟩)
              (.simple (.assign {} "q" (.binary {} .sub (.num {} 5) (.num {} 2)))
                (.simple (.ret {} (some (.binary {} .div (.var {} "m") (.var {} "q")))) .done)))) }

theorem exists_execute_eq_ok_eclipsing :
    eclipsing.function.params = [] ∧ eclipsing.function.body.isStraight = true ∧
      (eclipsing.analyze "_start" {}).diagnostics.errors = [] ∧
      ∃ σ, eclipsing.execute = .ok σ ∧
        (∀ r ∈ (eclipsing.analyze "_start" {}).scopes.infos, ∀ sym ∈ r.scope.symbols.toList,
          ∃ v, σ.cell? r.level sym.name = some v ∧ v.ty = sym.ty ∧
            ∀ w, sym.value = some w → v = w) ∧
        (eclipsing.analyze "_start" {}).scopes.infos.map (fun r ↦
            (r.level, r.scope.symbols.toList.map fun sym ↦ (sym.name, sym.value))) =
          [(0, [("g", some (.int 42)), ("m", some (.int (-2147483648)))]),
            (1, [("q", some (.int 3)), ("g", none)])] ∧
        σ.cell? 0 "g" = some (.int 42) ∧ σ.cell? 1 "g" = some (.int 1) := by
  have hclean : (eclipsing.analyze "_start" {}).diagnostics.errors = [] := by decide +kernel
  have hends : eclipsing.execute.toOption.map
      (fun σ ↦ (σ.cell? 0 "g", σ.cell? 1 "g")) = some (some (.int 42), some (.int 1)) := by
    decide +kernel
  have hzero : eclipsing.execute ≠ .error .divisionByZero := by
    intro hhalt
    rw [hhalt] at hends
    cases hends
  obtain ⟨σ, hσ, hvalues⟩ := exists_execute_eq_ok "_start" eclipsing rfl (by decide) hclean hzero
  rw [hσ] at hends
  obtain ⟨hglobal, hlocal⟩ := Prod.mk.inj (Option.some.inj hends)
  exact ⟨rfl, by decide, hclean, σ, hσ, hvalues, by decide +kernel, hglobal, hlocal⟩

end Program

end BlockLang
