import BlockLang.Proofs.Correctness.Expressions
import BlockLang.Proofs.Lowering.Blocks

/-!
# Statements without inner blocks on the machine

Between two statements the top of the stack is at the end of the frame, and the variables hold their
values: the call is `Activation.Ready`. The code of an expression, a declaration or an assignment
leads from one such state to the next, with the store as the interpreter changes it.

A piece of a program and its code are compared as a whole by `Activation.Simulates`: whatever the
interpreter does with the piece, its code does. If the piece ends with a return, its code jumps to
the common end of the function, with the result in the accumulator; then only the variables of outer
scopes are still of interest, since the piece may have been left anywhere.
-/

namespace BlockLang

/-! ### How much of the frame is taken -/

theorem Site.taken_declareAll (σ : Site) (ty : Ty) (vs : List Declarator) :
    (σ.declareAll ty vs).taken = σ.taken + ty.size * vs.length := by
  induction vs generalizing σ with
  | nil => rfl
  | cons v vs ih =>
    have h : (σ.declareAll ty (v :: vs)).taken = σ.taken + ty.size + ty.size * vs.length :=
      ih (σ.declare v.name ty)
    rw [h, List.length_cons, Nat.mul_succ]
    omega

theorem Site.taken_le_declareAll (σ : Site) (ty : Ty) (vs : List Declarator) :
    σ.taken ≤ (σ.declareAll ty vs).taken := by
  rw [σ.taken_declareAll]
  omega

/-- The label at which code is left that ends in this way. -/
def Flow.out (f : String) : Flow → Option Label
  | .next => none
  | .ret _ => some (.exit f)

namespace Activation

variable (A : Activation)

/-- The state between two statements. -/
structure Ready (π : Nest Placed) (s : Store) (m : Machine) : Prop where
  /-- The base register is at the base of the frame. -/
  bp : (m.regs .bp).toNat = A.base
  /-- The top of the stack is at the end of the frame. -/
  sp : (m.regs .sp).toNat + A.frame = A.base
  /-- The variables hold their values. -/
  agrees : A.Agrees m.mem π s
  /-- Nothing else has been written. -/
  kept : A.Kept m.mem

variable {A} {π : Nest Placed} {s s' : Store} {m m' : Machine} {σ : Site} {v : Value}

/-- Code that restores the stack leads from one such state to another. -/
theorem Ready.of_restores (h : A.Ready π s m) {taken : Nat} (hπ : A.Admits π taken)
    (hrest : A.Restores m m') : A.Ready π s m' := by
  refine ⟨by rw [hrest.bp, h.bp], by rw [hrest.sp, h.sp], ?_, ?_⟩
  · exact h.agrees.of_sameOff hπ (Nat.le_of_eq h.sp) hrest.mem
  · exact h.kept.of_sameOff (by have := h.sp; omega) hrest.mem

/-- The types of the visible variables are those of their values. -/
theorem Agrees.ty_eq {M : Memory} (h : A.Agrees M σ.places s) {x : String} {t : Ty}
    (ht : σ.types.find? x = some t) (hv : s.find? x = some v) : v.ty = t := by
  obtain ⟨p, hp, hholds⟩ := h.find? hv
  rw [σ.find?_types, hp] at ht
  exact hholds.ty.trans (Option.some.inj ht)

/-- The code of an expression, between two statements. -/
theorem Ready.runs_lines (h : A.Ready σ.places s m) (hσ : A.AdmitsSite σ) (fold : Bool) {e : Expr}
    (heval : e.eval s.find? = some v) (hroom : 8 * e.depth ≤ A.room) :
    ∃ m', A.Runs (e.lines fold σ) m none m' ∧ m'.regs .ax = v.register ∧
      A.Ready σ.places s m' := by
  have hfits := A.fits
  have hsp := h.sp
  have hfloor : A.floor + 8 * e.depth ≤ (m.regs .sp).toNat := by
    rw [floor]
    omega
  obtain ⟨m', hm', hax, hrest⟩ := Expr.exec_assemble fold hσ heval h.bp (Nat.le_of_eq hsp) hfloor
    h.agrees
  exact ⟨m', Assembly.runs_execAll hm', hax, h.of_restores hσ hrest⟩

/-! ### Declarations -/

/-- A new variable gets a value. -/
theorem Ready.declare (h : A.Ready σ.places s m) (hσ : A.AdmitsSite σ) {ty : Ty}
    (hframe : σ.taken + ty.size ≤ A.frame) (hv : v.ty = ty) {n : Nat}
    (hn : n % 256 ^ ty.size = v.toWord.toBitVec.toNat) (x : String) :
    A.Ready (σ.declare x ty).places (s.bind x v)
      (m.poke (A.locate (σ.slot ty).address) ty.size n) := by
  have hlegal : A.Legal (σ.taken + ty.size) ⟨σ.scope, x, ty, σ.slot ty⟩ :=
    legal_slot (hv ▸ v.isStorable_ty) _ x σ
  refine ⟨h.bp, h.sp, ?_, h.kept.write hlegal hframe n⟩
  exact h.agrees.bind (p := ⟨σ.scope, x, ty, σ.slot ty⟩) hv hn x fun hq ↦
    hσ.disjoint_slot hframe rfl rfl hq

/-- The code of a variable gives it the value that its declaration says. -/
theorem Ready.runs_declarator (h : A.Ready σ.places s m) (hσ : A.AdmitsSite σ) (fold : Bool)
    {ty : Ty} (hframe : σ.taken + ty.size ≤ A.frame) {d : Declarator}
    (hstart : d.start ty s.find? = some v) (hv : v.ty = ty)
    (hroom : ∀ e, d.init = some e → 8 * e.depth ≤ A.room) :
    ∃ m', A.Runs (d.assemble fold σ ty) m none m' ∧
      A.Ready (σ.declare d.name ty).places (s.bind d.name v) m' := by
  have hlegal : A.Legal (σ.taken + ty.size) ⟨σ.scope, d.name, ty, σ.slot ty⟩ :=
    legal_slot (hv ▸ v.isStorable_ty) _ d.name σ
  -- a value known in advance is stored at once
  have himmediate : ∃ m', A.Runs [.instr (.storeImm (σ.slot ty) v.toWord)] m none m' ∧
      A.Ready (σ.declare d.name ty).places (s.bind d.name v) m' := by
    refine ⟨_, Assembly.runs_exec (hlegal.exec_storeImm hframe h.bp v.toWord), ?_⟩
    exact h.declare hσ hframe hv (hv ▸ v.signExtend_mod) d.name
  rw [Declarator.assemble]
  rw [Declarator.start] at hstart
  cases hinit : d.init with
  | none =>
    rw [hinit] at hstart
    rw [(Ty.defaultValue_eq_some hstart).2] at himmediate
    exact himmediate
  | some e =>
    rw [hinit] at hstart
    dsimp only at hstart ⊢
    rw [Expr.startCode]
    rcases hword : e.startWord? fold with - | w
    · obtain ⟨m₁, hrun₁, hax₁, hready₁⟩ := h.runs_lines hσ fold hstart (hroom e hinit)
      have hstore := hlegal.exec_store hframe hready₁.bp .ax
      refine ⟨_, hrun₁.append (Assembly.runs_exec hstore), ?_⟩
      refine hready₁.declare hσ hframe hv ?_ d.name
      rw [hax₁, v.toNat_register, ← hv]
      exact Nat.mod_eq_of_lt v.toNat_lt
    · have hw : w = v.toWord := Expr.startWord?_eq hstart hword
      rw [← hw] at himmediate
      exact himmediate

/-- A declaration gives its variable a value of its type. -/
theorem Agrees.ty_start {M : Memory} (h : A.Agrees M σ.places s) {ty : Ty} {d : Declarator}
    (hinit : ∀ e, d.init = some e → e.HasType σ.types.find? ty)
    (hstart : d.start ty s.find? = some v) : v.ty = ty := by
  rw [Declarator.start] at hstart
  cases hd : d.init with
  | none =>
    rw [hd] at hstart
    exact (Ty.defaultValue_eq_some hstart).1
  | some e =>
    rw [hd] at hstart
    exact (hinit e hd).ty_of_eval (fun x t w ht hw ↦ h.ty_eq ht hw) hstart

/-- The code of a declaration. -/
theorem Ready.runs_declareAll (h : A.Ready σ.places s m) (hσ : A.AdmitsSite σ) (fold : Bool)
    {ty : Ty} {vs : List Declarator} (hvs : WellDeclared false ty σ.types vs)
    (hframe : (σ.declareAll ty vs).taken ≤ A.frame) (hrun : Store.declareAll ty vs s = some s')
    (hroom : ∀ e ∈ vs.filterMap Declarator.init, 8 * e.depth ≤ A.room) :
    ∃ m', A.Runs (assembleAll fold ty vs σ) m none m' ∧
      A.Ready (σ.declareAll ty vs).places s' m' := by
  induction vs generalizing σ s m with
  | nil =>
    obtain rfl := Option.some.inj hrun
    exact ⟨m, Assembly.runs_nil m, h⟩
  | cons d vs ih =>
    obtain ⟨v, hstart, hrest⟩ := Option.bind_eq_some_iff.1 hrun
    obtain - | ⟨-, hinit, htail⟩ := hvs
    have hv : v.ty = ty := h.agrees.ty_start (fun e he ↦ (hinit e he).1) hstart
    have htaken : σ.taken + ty.size ≤ (σ.declareAll ty (d :: vs)).taken :=
      (σ.declare d.name ty).taken_le_declareAll ty vs
    have hframe₁ : σ.taken + ty.size ≤ A.frame := htaken.trans hframe
    obtain ⟨m₁, hrun₁, hready₁⟩ := h.runs_declarator hσ fold hframe₁ hstart hv fun e he ↦
      hroom e (List.mem_filterMap.2 ⟨d, List.mem_cons_self, he⟩)
    have hσ₁ : A.AdmitsSite (σ.declare d.name ty) :=
      hσ.declare (hv ▸ v.isStorable_ty) hframe₁ d.name
    rw [← σ.types_declare] at htail
    obtain ⟨m₂, hrun₂, hready₂⟩ := ih hready₁ hσ₁ htail hframe hrest fun e he ↦ by
      obtain ⟨d', hd', he'⟩ := List.mem_filterMap.1 he
      exact hroom e (List.mem_filterMap.2 ⟨d', List.mem_cons_of_mem _ hd', he'⟩)
    exact ⟨m₂, hrun₁.append hrun₂, hready₂⟩

/-- The places after a declaration. -/
theorem AdmitsSite.declareAll (hσ : A.AdmitsSite σ) {ty : Ty} {vs : List Declarator}
    (hty : vs ≠ [] → ty.isStorable) (hframe : (σ.declareAll ty vs).taken ≤ A.frame) :
    A.AdmitsSite (σ.declareAll ty vs) := by
  induction vs generalizing σ with
  | nil => exact hσ
  | cons d vs ih =>
    have htaken : σ.taken + ty.size ≤ (σ.declareAll ty (d :: vs)).taken :=
      (σ.declare d.name ty).taken_le_declareAll ty vs
    have hstorable := hty (List.cons_ne_nil d vs)
    exact ih (hσ.declare hstorable (htaken.trans hframe) d.name) (fun _ ↦ hstorable) hframe

/-- The code of a store gives the accumulator to the variable that the name means. -/
theorem Ready.runs_store (h : A.Ready σ.places s m) (hσ : A.AdmitsSite σ) {x : String} {w : Value}
    (hax : m.regs .ax = v.register) (hw : s.find? x = some w) (hty : v.ty = w.ty) :
    ∃ m', A.Runs (σ.storeCode x) m none m' ∧ A.Ready σ.places (s.assign x v) m' := by
  obtain ⟨p, hp, hholds⟩ := h.agrees.find? hw
  obtain ⟨i, hi, -⟩ := (σ.places.find?_eq_some_iff x p).1 hp
  have hlegal := hσ.legal hi
  have hvp : v.ty = p.ty := hty.trans hholds.ty
  have hn : (m.regs .ax).toNat % 256 ^ p.ty.size = v.toWord.toBitVec.toNat := by
    rw [hax, v.toNat_register, ← hvp]
    exact Nat.mod_eq_of_lt v.toNat_lt
  rw [Site.storeCode, hp]
  refine ⟨_, Assembly.runs_exec (hlegal.exec_store hσ.taken_le h.bp .ax), h.bp, h.sp, ?_, ?_⟩
  · exact h.agrees.assign hσ hp hvp hn
  · exact h.kept.write hlegal hσ.taken_le _

/-! ### Pieces of a program -/

variable (A) in
/-- The state after a piece of a program that ends in the given way. After a return, the result is
in the accumulator, and the innermost scope may hold anything. -/
def Ends (π : Nest Placed) (s : Store) (m : Machine) : Flow → Prop
  | .next => A.Ready π s m
  | .ret v => m.regs .ax = (Flow.ret v).word.toBitVec.setWidth 64 ∧
      ∃ π', π'.outer = π.outer ∧ A.Ready π' s m

variable (A) in
/-- The code does what a piece of a program does in the function `f`, with variables at the given
places before and after it. -/
def Simulates (f : String) (code : List Line) (π : Nest Placed) (run : Run) (π' : Nest Placed) :
    Prop :=
  ∀ s m o s', A.Ready π s m → run s = some (o, s') →
    ∃ m', A.Runs code m (o.out f) m' ∧ A.Ends π' s' m' o

/-- A statement without inner blocks. -/
theorem simulates_simple {result : Ty} {a : Simple} {rest : Block}
    (h : (Block.simple a rest).WellFormed result σ.types) (o : Options) (f : String)
    (hσ : A.AdmitsSite σ) (hframe : (a.siteAfter σ).taken ≤ A.frame)
    (hroom : ∀ e ∈ a.exprs, 8 * e.depth ≤ A.room) :
    A.Simulates f (a.body o.foldConstants f σ) σ.places a.run (a.siteAfter σ).places := by
  intro s m flow s' hready hrun
  cases h with
  | declare hd _ =>
    obtain ⟨s₁, hs₁, hr⟩ := Option.map_eq_some_iff.1 hrun
    obtain ⟨rfl, rfl⟩ := Prod.ext_iff.1 hr
    exact hready.runs_declareAll hσ o.foldConstants hd.declared hframe hs₁ hroom
  | @assign _ pos x e t _ hx he _ =>
    obtain ⟨v, hv, hr⟩ := Option.bind_eq_some_iff.1 hrun
    obtain ⟨w, hw, hr⟩ := Option.map_eq_some_iff.1 hr
    obtain ⟨rfl, rfl⟩ := Prod.ext_iff.1 hr
    obtain ⟨m₁, hrun₁, hax₁, hready₁⟩ := hready.runs_lines hσ o.foldConstants hv
      (hroom e List.mem_cons_self)
    have hty : v.ty = t := he.ty_of_eval (fun y u b hu hb ↦ hready.agrees.ty_eq hu hb) hv
    obtain ⟨m₂, hrun₂, hready₂⟩ := hready₁.runs_store hσ hax₁ hw
      (hty.trans (hready.agrees.ty_eq hx hw).symm)
    exact ⟨m₂, hrun₁.append hrun₂, hready₂⟩
  | @ret _ pos e _ he _ =>
    obtain ⟨v, hv, hr⟩ := Option.map_eq_some_iff.1 hrun
    obtain ⟨rfl, rfl⟩ := Prod.ext_iff.1 hr
    obtain ⟨m₁, hrun₁, hax₁, hready₁⟩ := hready.runs_lines hσ o.foldConstants hv
      (hroom e List.mem_cons_self)
    exact ⟨m₁, hrun₁.append (Assembly.runs_jump _ m₁), hax₁, σ.places, rfl, hready₁⟩
  | retVoid _ _ =>
    obtain ⟨rfl, rfl⟩ := Prod.ext_iff.1 (Option.some.inj hrun)
    have hzero : A.Runs [.instr (.moveImm .ax 0)] m none (m.setLow .ax (0 : Int32).toBitVec) :=
      Assembly.runs_exec rfl
    refine ⟨_, hzero.append (Assembly.runs_jump _ _), ?_, σ.places, rfl, ?_⟩
    · rw [Machine.regs_setLow, if_pos rfl]
      rfl
    · exact hready.of_restores hσ (restores_setLow _)
  | @eval _ pos e _ _ he _ =>
    obtain ⟨v, hv, hr⟩ := Option.map_eq_some_iff.1 hrun
    obtain ⟨rfl, rfl⟩ := Prod.ext_iff.1 hr
    obtain ⟨m₁, hrun₁, -, hready₁⟩ := hready.runs_lines hσ o.foldConstants hv
      (hroom e List.mem_cons_self)
    exact ⟨m₁, hrun₁, hready₁⟩

end Activation

/-- The places after a statement without inner blocks. -/
theorem Block.WellFormed.admits_siteAfter {A : Activation} {σ : Site} {result : Ty} {a : Simple}
    {rest : Block} (h : (Block.simple a rest).WellFormed result σ.types) (hσ : A.AdmitsSite σ)
    (hframe : (a.siteAfter σ).taken ≤ A.frame) : A.AdmitsSite (a.siteAfter σ) := by
  cases h with
  | declare hd _ => exact hσ.declareAll hd.storable hframe
  | assign => exact hσ
  | ret => exact hσ
  | retVoid => exact hσ
  | eval => exact hσ

end BlockLang
