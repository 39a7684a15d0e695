import BlockLang.Proofs.Correctness.Blocks
import BlockLang.Proofs.Correctness.Traps
import BlockLang.Proofs.Machine.Outcome
import BlockLang.Proofs.Semantics.Trial

/-!
# Statements without a result on the machine

`Activation.Simulates` compares a piece of a program that has a result with its code. Here is the
other half: where a trial of the piece fails, the code has no end either. If a division is without a
result the code comes to it and faults, and if a loop needs too many tests the code makes as many
steps at least (`Activation.Fails`). There is again one lemma for each operation by which trials are
put together, and a block is an induction over these (`Block.Stands.fails`).

The steps of a loop are counted at the label at its top, which is passed once in each turn. A run
from this label to itself is not enough, since a turn may leave the machine as it was.
-/

namespace BlockLang

/-! ### Runs that do not end in a result -/

namespace Assembly

variable {a : Assembly} {data n : Nat} {c d : Config} {x : Failure} {m m₁ : Machine}
  {code code' rest : List Line} {l : Label}

variable (a data) in
/-- What becomes of a run from a point on where a trial fails: it comes to a division that faults,
or it makes at least `n` steps. -/
def Stray (n : Nat) (c : Config) : Failure → Prop
  | .trap => ∃ d, a.Steps data c d ∧ a.Traps d
  | .bound => Lasts (a.step data) n c

theorem Stray.of_steps (h : a.Stray data n d x) (hsteps : a.Steps data c d) :
    a.Stray data n c x := by
  cases x with
  | trap =>
    obtain ⟨e, he, htraps⟩ := h
    exact ⟨e, hsteps.trans he, htraps⟩
  | bound => exact Lasts.of_leads h hsteps

theorem Stray.of_le (h : a.Stray data n c x) {k : Nat} (hle : k ≤ n) : a.Stray data k c x := by
  cases x with
  | trap => exact h
  | bound => exact Lasts.of_le h hle

/-- One more step. -/
theorem Stray.succ (h : a.Stray data n d x) (hstep : a.step data c = some d) :
    a.Stray data (n + 1) c x := by
  cases x with
  | trap => exact Stray.of_steps (n := n + 1) (x := .trap) h (.single hstep)
  | bound => exact lasts_succ.2 ⟨d, hstep, h⟩

variable (a data) in
/-- A run that enters the code at its first line in the state `m` goes astray. -/
def Strays (n : Nat) (code : List Line) (m : Machine) (x : Failure) : Prop :=
  ∀ pc, a.CodeAt pc code → a.Stray data n ⟨pc, m⟩ x

theorem Strays.append (h : a.Strays data n code m x) (code' : List Line) :
    a.Strays data n (code ++ code') m x :=
  fun pc hcode ↦ h pc hcode.left

theorem Strays.of_le (h : a.Strays data n code m x) {k : Nat} (hle : k ≤ n) :
    a.Strays data k code m x :=
  fun pc hcode ↦ (h pc hcode).of_le hle

/-- Straight code that faults. -/
theorem strays_of_faults {is : List Instr} (h : m.Faults (cellAddress data a.cells) is) :
    a.Strays data n (is.map .instr) m .trap := by
  obtain ⟨before, r, after, m', rfl, hrun, hdivide⟩ := h
  intro pc hcode
  rw [List.map_append] at hcode
  exact ⟨⟨_, m'⟩, runs_execAll hrun pc _ hcode.left rfl, r, hcode.right.getElem?, hdivide⟩

namespace Runs

/-- The second of two pieces goes astray. -/
theorem strays_append (h : a.Runs data code m none m₁) (h' : a.Strays data n code' m₁ x) :
    a.Strays data n (code ++ code') m x :=
  fun pc hcode ↦ (h' _ hcode.right).of_steps (h pc _ hcode.left rfl)

/-- What follows a label further down goes astray. -/
theorem strays_forward (hlabels : a.labels.Nodup) {skipped : List Line}
    (h : a.Runs data code m (some l) m₁) (h' : a.Strays data n (.label l :: rest) m₁ x) :
    a.Strays data n (code ++ (skipped ++ .label l :: rest)) m x := by
  intro pc hcode
  have hrest : a.CodeAt (pc + code.length + skipped.length) (.label l :: rest) := hcode.right.right
  exact (h' _ hrest).of_steps (h pc _ hcode.left (hrest.target hlabels))

/-- The code goes back to the label at its top and then goes astray. Its label is one step more. -/
theorem strays_again (hlabels : a.labels.Nodup) (h : a.Runs data rest m (some l) m₁)
    (h' : a.Strays data n (.label l :: rest) m₁ x) :
    a.Strays data (n + 1) (.label l :: rest) m x := by
  intro pc hcode
  have hstep : a.step data ⟨pc, m⟩ = some ⟨pc + 1, m⟩ := by rw [step, hcode.getElem?]
  have happend : a.CodeAt pc ([.label l] ++ rest) := hcode
  have hrest : a.CodeAt (pc + 1) rest := happend.right
  refine Stray.succ ((h' pc hcode).of_steps ?_) hstep
  exact h _ _ hrest (hcode.target hlabels)

end Runs

end Assembly

namespace Activation

variable {A : Activation} {f : String} {n : Nat} {x : Failure} {code code' : List Line}
  {π π₁ : Nest Placed} {t t' : Trial} {σ : Site} {s : Store} {m : Machine} {fold : Bool} {c : Expr}

variable (A) in
/-- Where a trial fails for the given reason, the code goes astray. -/
def Fails (n : Nat) (x : Failure) (code : List Line) (π : Nest Placed) (t : Trial) : Prop :=
  ∀ s m, A.Ready π s m → t s = .error x → A.assembly.Strays A.data n code m x

/-! ### Sequences and scopes -/

theorem fails_skip (n : Nat) (x : Failure) (code : List Line) (π : Nest Placed) :
    A.Fails n x code π .skip := by
  intro s m _ herror
  cases herror

/-- One piece after the other. -/
theorem Fails.andThen (h : A.Fails n x code π t) (hruns : A.Simulates f code π t.run π₁)
    (h' : A.Fails n x code' π₁ t') : A.Fails n x (code ++ code') π (t.andThen t') := by
  intro s m hready herror
  rcases Trial.andThen_eq_error.1 herror with herror | ⟨s₁, h₁, herror⟩
  · exact (h s m hready herror).append _
  · obtain ⟨m₁, hrun₁, hready₁⟩ := hruns s m .next s₁ hready (Trial.run_eq_some h₁)
    exact hrun₁.strays_append (h' s₁ m₁ hready₁ herror)

/-- A piece in a scope of its own. -/
theorem Fails.inside (h : A.Fails n x code π.enter t) : A.Fails n x code π t.inside := by
  intro s m hready herror
  exact h s.enter m ⟨hready.bp, hready.sp, hready.agrees.enter, hready.kept⟩
    (Trial.inside_eq_error.1 herror)

/-- A remark before a piece. -/
theorem Fails.remark (h : A.Fails n x code π t) (o : Options) (text : String) :
    A.Fails n x (o.remark text ++ code) π t := by
  intro s m hready herror
  exact (A.runs_remark o text m).strays_append (h s m hready herror)

/-! ### Expressions and declarations -/

/-- The code of an expression without a value, between two statements. -/
theorem Ready.strays_lines (h : A.Ready σ.places s m) (hσ : A.AdmitsSite σ) {e : Expr} {ty : Ty}
    (htyped : e.HasType σ.types.find? ty) (hfold : e.Faithful fold)
    (heval : e.eval s.find? = none) (hroom : 8 * e.depth ≤ A.room) :
    A.assembly.Strays A.data n (e.lines fold σ) m .trap := by
  have hfits := A.fits
  have hsp := h.sp
  refine Assembly.strays_of_faults (htyped.faults_assemble hσ hfold heval ?_)
  refine ⟨h.bp, Nat.le_of_eq hsp, ?_, h.agrees⟩
  rw [floor]
  omega

/-- The code of a variable whose initializer has no value. -/
theorem Ready.strays_declarator (h : A.Ready σ.places s m) (hσ : A.AdmitsSite σ) {ty : Ty}
    (hty : ty.isStorable) {d : Declarator}
    (htyped : ∀ e, d.init = some e → e.HasType σ.types.find? ty)
    (hfold : ∀ e, d.init = some e → e.Faithful fold) (hstart : d.start ty s.find? = none)
    (hroom : ∀ e, d.init = some e → 8 * e.depth ≤ A.room) :
    A.assembly.Strays A.data n (d.assemble fold σ ty) m .trap := by
  rw [Declarator.start] at hstart
  rw [Declarator.assemble]
  cases hinit : d.init with
  | none =>
    rw [hinit] at hstart
    cases ty with
    | int => cases hstart
    | bool => cases hstart
    | void => cases hty
    | error => cases hty
  | some e =>
    rw [hinit] at hstart
    dsimp only at hstart ⊢
    rw [Expr.startCode]
    rcases hword : e.startWord? fold with - | w
    · exact (h.strays_lines hσ (htyped e hinit) (hfold e hinit) hstart (hroom e hinit)).append _
    · exact absurd hstart ((hfold e hinit).eval_ne_none_of_startWord? hword _)

/-- The code of a declaration with an initializer without a value. -/
theorem Ready.strays_declareAll (h : A.Ready σ.places s m) (hσ : A.AdmitsSite σ) {ty : Ty}
    {vs : List Declarator} (hty : vs ≠ [] → ty.isStorable)
    (hvs : WellDeclared false ty σ.types vs) (hframe : (σ.declareAll ty vs).taken ≤ A.frame)
    (hfold : ∀ e ∈ vs.filterMap Declarator.init, e.Faithful fold)
    (hrun : Store.declareAll ty vs s = none)
    (hroom : ∀ e ∈ vs.filterMap Declarator.init, 8 * e.depth ≤ A.room) :
    A.assembly.Strays A.data n (assembleAll fold ty vs σ) m .trap := by
  induction vs generalizing σ s m with
  | nil => cases hrun
  | cons d vs ih =>
    obtain - | ⟨-, hinit, htail⟩ := hvs
    have hstorable := hty (List.cons_ne_nil d vs)
    have hmem : ∀ e, d.init = some e → e ∈ (d :: vs).filterMap Declarator.init :=
      fun e he ↦ List.mem_filterMap.2 ⟨d, List.mem_cons_self, he⟩
    have hmem' : ∀ e ∈ vs.filterMap Declarator.init, e ∈ (d :: vs).filterMap Declarator.init := by
      intro e he
      obtain ⟨d', hd', he'⟩ := List.mem_filterMap.1 he
      exact List.mem_filterMap.2 ⟨d', List.mem_cons_of_mem _ hd', he'⟩
    rcases hstart : d.start ty s.find? with - | v
    · exact (h.strays_declarator hσ hstorable (fun e he ↦ (hinit e he).1)
        (fun e he ↦ hfold e (hmem e he)) hstart fun e he ↦ hroom e (hmem e he)).append _
    · have hv : v.ty = ty := h.agrees.ty_start (fun e he ↦ (hinit e he).1) hstart
      have htaken : σ.taken + ty.size ≤ (σ.declareAll ty (d :: vs)).taken :=
        (σ.declare d.name ty).taken_le_declareAll ty vs
      have hframe₁ : σ.taken + ty.size ≤ A.frame := htaken.trans hframe
      obtain ⟨m₁, hrun₁, hready₁⟩ := h.runs_declarator hσ fold hframe₁ hstart hv fun e he ↦
        hroom e (hmem e he)
      rw [← σ.types_declare] at htail
      rw [Store.declareAll, hstart] at hrun
      exact hrun₁.strays_append (ih hready₁ (hσ.declare hstorable hframe₁ d.name)
        (fun _ ↦ hstorable) htail hframe (fun e he ↦ hfold e (hmem' e he)) hrun
        fun e he ↦ hroom e (hmem' e he))

/-- A statement without inner blocks fails where one of its expressions has no value. -/
theorem fails_simple (n : Nat) {result : Ty} {b : Simple} {rest : Block}
    (h : (Block.simple b rest).WellFormed result σ.types) (f : String) (hσ : A.AdmitsSite σ)
    (hframe : (b.siteAfter σ).taken ≤ A.frame) (hroom : ∀ e ∈ b.exprs, 8 * e.depth ≤ A.room)
    (hfold : x = .trap → ∀ e ∈ b.exprs, e.Faithful fold) :
    A.Fails n x (b.body fold f σ) σ.places (.ofRun b.run) := by
  intro s m hready herror
  obtain ⟨hnone, rfl⟩ := Trial.ofRun_eq_error.1 herror
  replace hfold := hfold rfl
  cases h with
  | declare hd _ =>
    exact hready.strays_declareAll hσ hd.storable hd.declared hframe hfold
      (Option.map_eq_none_iff.1 hnone) hroom
  | @assign _ pos y e ty _ hy he _ =>
    rcases heval : e.eval s.find? with - | v
    · exact (hready.strays_lines hσ he (hfold e List.mem_cons_self) heval
        (hroom e List.mem_cons_self)).append _
    · -- the target of an assignment has a value
      rw [σ.find?_types] at hy
      obtain ⟨p, hp, -⟩ := Option.map_eq_some_iff.1 hy
      obtain ⟨w, hw⟩ := hready.agrees.exists_find? hp
      rw [Simple.run, heval, Option.bind_some, hw] at hnone
      cases hnone
  | @ret _ pos e _ he _ =>
    exact (hready.strays_lines hσ he (hfold e List.mem_cons_self) (Option.map_eq_none_iff.1 hnone)
      (hroom e List.mem_cons_self)).append _
  | retVoid _ _ => cases hnone
  | @eval _ pos e _ _ he _ =>
    exact hready.strays_lines hσ he (hfold e List.mem_cons_self) (Option.map_eq_none_iff.1 hnone)
      (hroom e List.mem_cons_self)

/-! ### Conditionals -/

/-- The test of a condition without a truth value. -/
theorem Ready.strays_test (h : A.Ready σ.places s m) (hσ : A.AdmitsSite σ)
    (htyped : c.HasType σ.types.find? .bool) (hfold : c.Faithful fold)
    (hc : ∀ b, c.eval s.find? ≠ some (.bool b)) (hroom : 8 * c.depth ≤ A.room) (l : Label) :
    A.assembly.Strays A.data n (Block.testCode (c.lines fold σ) l) m .trap := by
  refine (h.strays_lines hσ htyped hfold ?_ hroom).append _
  rcases hv : c.eval s.find? with - | v
  · rfl
  · have hty : v.ty = .bool := htyped.ty_of_eval (fun y u w hu hw ↦ h.agrees.ty_eq hu hw) hv
    cases v with
    | int w => cases hty
    | bool b => exact absurd hv (hc b)

section

variable (hσ : A.AdmitsSite σ) (hroom : 8 * c.depth ≤ A.room)
  (htyped : c.HasType σ.types.find? .bool) (hfold : x = .trap → c.Faithful fold)
include hσ hroom htyped hfold

/-- An `if` without `else`. -/
theorem Fails.ifThen (h : A.Fails n x code σ.places t) (l : Label) :
    A.Fails n x (Block.testCode (c.lines fold σ) l ++ code ++ [Line.label l]) σ.places
      (.branch c t .skip) := by
  intro s m hready herror
  rcases Trial.branch_eq_error.1 herror with ⟨b, hc, herror⟩ | ⟨rfl, hc⟩
  · cases b with
    | false => cases herror
    | true =>
      obtain ⟨m₁, hrun₁, hready₁⟩ := hready.runs_test hσ fold hc hroom l
      exact (hrun₁.strays_append (h s m₁ hready₁ herror)).append _
  · exact ((hready.strays_test hσ htyped (hfold rfl) hc hroom l).append _).append _

/-- An `if` with `else`. -/
theorem Fails.ifElse (h : A.Fails n x code σ.places t) (h' : A.Fails n x code' σ.places t')
    (l l' : Label) :
    A.Fails n x (Block.testCode (c.lines fold σ) l ++ code ++
      [Line.instr (.jump l'), Line.label l] ++ code' ++ [Line.label l']) σ.places
      (.branch c t t') := by
  intro s m hready herror
  rcases Trial.branch_eq_error.1 herror with ⟨b, hc, herror⟩ | ⟨rfl, hc⟩
  · obtain ⟨m₁, hrun₁, hready₁⟩ := hready.runs_test hσ fold hc hroom l
    cases b with
    | true => exact (((hrun₁.strays_append (h s m₁ hready₁ herror)).append _).append _).append _
    | false =>
      have hlabel : A.assembly.Strays A.data n (Line.label l :: code') m₁ x :=
        (Assembly.runs_label l m₁).strays_append (h' s m₁ hready₁ herror)
      have hskip : A.assembly.Strays A.data n (Block.testCode (c.lines fold σ) l ++
          ((code ++ [Line.instr (.jump l')]) ++ Line.label l :: code')) m x :=
        hrun₁.strays_forward A.labels hlabel
      simpa using hskip.append [Line.label l']
  · simpa using (hready.strays_test hσ htyped (hfold rfl) hc hroom l).append
      (code ++ [Line.instr (.jump l'), Line.label l] ++ code' ++ [Line.label l'])

/-! ### Loops -/

/-- A `while`, by induction on its turns: with each, the label at the top is passed once more. -/
theorem Fails.loop (h : A.Fails n x code σ.places t) (hruns : A.Simulates f code σ.places t.run
      σ.places) (l l' : Label) {turns : Nat} (hturns : turns ≤ n) :
    A.Fails turns x ([Line.label l] ++ Block.testCode (c.lines fold σ) l' ++ code ++
      [Line.instr (.jump l), Line.label l']) σ.places (.loop c t turns) := by
  have hcode : [Line.label l] ++ Block.testCode (c.lines fold σ) l' ++ code ++
      [Line.instr (.jump l), Line.label l'] = Line.label l :: (Block.testCode (c.lines fold σ) l' ++
        (code ++ ([Line.instr (.jump l)] ++ [Line.label l']))) := by
    simp
  rw [hcode]
  induction turns with
  | zero =>
    intro s m _ herror pc _
    cases x with
    | trap => cases herror
    | bound => exact lasts_zero _ _
  | succ turns ih =>
    intro s m hready herror
    rcases Trial.branch_eq_error.1 herror with ⟨b, hc, herror⟩ | ⟨rfl, hc⟩
    · cases b with
      | false => cases herror
      | true =>
        obtain ⟨m₁, hrun₁, hready₁⟩ := hready.runs_test hσ fold hc hroom l'
        rcases Trial.andThen_eq_error.1 herror with herror | ⟨s₂, h₂, herror⟩
        · have hbody := (h s m₁ hready₁ herror).of_le hturns
          exact (Assembly.runs_label l m).strays_append (hrun₁.strays_append (hbody.append _))
        · obtain ⟨m₂, hrun₂, hready₂⟩ := hruns s m₁ .next s₂ hready₁ (Trial.run_eq_some h₂)
          have hback : A.Runs (Block.testCode (c.lines fold σ) l' ++
              (code ++ ([Line.instr (.jump l)] ++ [Line.label l']))) m (some l) m₂ :=
            hrun₁.append (hrun₂.append ((Assembly.runs_jump l m₂).append_jump _))
          exact hback.strays_again A.labels (ih (Nat.le_of_succ_le hturns) s₂ m₂ hready₂ herror)
    · exact (Assembly.runs_label l m).strays_append
        ((hready.strays_test hσ htyped (hfold rfl) hc hroom l').append _)

end

end Activation

/-! ### Blocks -/

/-- Where a trial of a block fails, its code goes astray. -/
theorem Block.Stands.fails {A : Activation} (o : Options) (f : String) (bound : Nat) {x : Failure}
    {result : Ty} {b : Block} {σ : Site} (h : b.Stands A result σ)
    (hfold : x = .trap → ∀ e ∈ b.exprs, e.Faithful o.foldConstants) :
    A.Fails bound x (b.assemble o f σ) σ.places (b.trial bound) := by
  -- a block in a scope of its own has the results of its run
  have hinside : ∀ {t : Block} {σ : Site}, t.Stands A result σ.enter →
      A.Simulates f (t.assemble o f σ.enter) σ.places (t.trial bound).inside.run σ.places := by
    intro t σ ht
    rw [Trial.run_inside, run_trial]
    exact (ht.simulates o f bound).inside (t.outer_siteAfter σ.enter)
  induction b generalizing σ with
  | done => exact Activation.fails_skip bound x _ _
  | simple a rest ih =>
    obtain ⟨hframe, hroom, hrest⟩ := h.of_simple
    have hfirst := Activation.fails_simple bound h.wellFormed f h.admits hframe hroom
      fun hx ↦ (forall_mem_exprs_simple.1 (hfold hx)).1
    have hruns := Activation.simulates_simple h.wellFormed o f h.admits hframe hroom
    rw [← Trial.run_ofRun a.run] at hruns
    exact (hfirst.remark o a.text).andThen (hruns.remark o a.text)
      (ih hrest fun hx ↦ (forall_mem_exprs_simple.1 (hfold hx)).2)
  | ifThen pos c t rest iht ih =>
    obtain ⟨⟨hc, hroom⟩, ht, hrest⟩ := h.of_ifThen
    have hbody := (iht ht fun hx ↦ (forall_mem_exprs_ifThen.1 (hfold hx)).2.1).inside
    have hfirst := (hbody.ifThen (σ := σ) h.admits hroom hc
      (fun hx ↦ (forall_mem_exprs_ifThen.1 (hfold hx)).1) (.construct .endIf σ.labels)).remark o
        (guardText .cond c)
    have hruns := ((hinside (σ := σ.number) ht).ifThen (σ := σ) h.admits hroom o.foldConstants
      (.construct .endIf σ.labels)).remark o (guardText .cond c)
    rw [← Trial.run_skip, ← Trial.run_branch] at hruns
    rw [assemble_ifThen]
    exact hfirst.andThen hruns (ih hrest fun hx ↦ (forall_mem_exprs_ifThen.1 (hfold hx)).2.2)
  | ifElse pos c t e rest iht ihe ih =>
    obtain ⟨⟨hc, hroom⟩, ht, he, hrest⟩ := h.of_ifElse
    have hthen := (iht ht fun hx ↦ (forall_mem_exprs_ifElse.1 (hfold hx)).2.1).inside
    have helse := (ihe he fun hx ↦ (forall_mem_exprs_ifElse.1 (hfold hx)).2.2.1).inside
    have hfirst := (hthen.ifElse (σ := σ) h.admits hroom hc
      (fun hx ↦ (forall_mem_exprs_ifElse.1 (hfold hx)).1) helse (.construct .otherwise σ.labels)
      (.construct .endIf σ.labels)).remark o (guardText .cond c)
    have hruns := ((hinside (σ := σ.number) ht).ifElse (σ := σ)
      (hinside (σ := t.siteInside σ.number) he) h.admits hroom o.foldConstants
      (.construct .otherwise σ.labels) (.construct .endIf σ.labels)).remark o (guardText .cond c)
    rw [← Trial.run_branch] at hruns
    rw [assemble_ifElse]
    exact hfirst.andThen hruns (ih hrest fun hx ↦ (forall_mem_exprs_ifElse.1 (hfold hx)).2.2.2)
  | loop pos c b rest ihb ih =>
    obtain ⟨⟨hc, hroom⟩, hb, hrest⟩ := h.of_loop
    have hbody := (ihb hb fun hx ↦ (forall_mem_exprs_loop.1 (hfold hx)).2.1).inside
    have hfirst := (hbody.loop (σ := σ) h.admits hroom hc
      (fun hx ↦ (forall_mem_exprs_loop.1 (hfold hx)).1) (hinside (σ := σ.number) hb)
      (.construct .loopStart σ.labels) (.construct .loopEnd σ.labels) (Nat.le_refl bound)).remark o
        (guardText .loop c)
    have hruns := ((hinside (σ := σ.number) hb).loop (σ := σ) h.admits hroom o.foldConstants
      (.construct .loopStart σ.labels) (.construct .loopEnd σ.labels) bound).remark o
        (guardText .loop c)
    rw [← Trial.run_loop] at hruns
    rw [assemble_loop]
    exact hfirst.andThen hruns (ih hrest fun hx ↦ (forall_mem_exprs_loop.1 (hfold hx)).2.2)

end BlockLang
