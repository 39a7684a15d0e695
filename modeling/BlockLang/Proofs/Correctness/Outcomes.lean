import BlockLang.Proofs.Correctness.Failures
import BlockLang.Proofs.Correctness.Programs
import BlockLang.Proofs.Lowering.Labels

/-!
# Compiled programs end as they mean to

`Program.compile_correct` is about calls that have a result. Trials say how all others end, and so
does the machine. `Function.Yields` is the outcome of a function according to its trials: the result
that one of them has, a fault if one of them meets a division without a result, and no end if all of
them need more tests for a loop. There is always such an outcome (`Function.exists_yields`), and a
call of the compiled function ends in it (`Program.WellFormed.callEnds`).

A program starts with the values that its data section is loaded with. These are known in advance,
also where the machine would have no value for an initializer.
-/

namespace BlockLang

/-! ### The values that a program is loaded with -/

namespace Declarator

variable {Γ : Context} {ty : Ty} {d : Declarator}

/-- The value that a global variable is loaded with has its type, and is that of its cell. -/
theorem preset_eq_some {v : Value} (h : d.preset ty = some v)
    (hinit : ∀ e, d.init = some e → e.HasType Γ.find? ty) :
    v.ty = ty ∧ (d.toCell ty).value = v.toWord := by
  rw [preset] at h
  rw [toCell]
  cases hd : d.init with
  | none =>
    rw [hd] at h
    exact ⟨(Ty.defaultValue_eq_some h).1, (Ty.defaultValue_eq_some h).2.symm⟩
  | some e =>
    rw [hd] at h
    obtain ⟨hconst, hvalue⟩ := Expr.constantValue_eq_some_iff.1 h
    have htyped : e.HasType (Env.types .empty) ty := (hinit e hd).of_isConstant hconst
    refine ⟨htyped.ty_of_value Env.wellTyped_empty hvalue, ?_⟩
    simp [show e.constantValue = some v from h]

theorem exists_preset (hty : ty.isStorable)
    (hconst : ∀ e, d.init = some e → e.isConstant = true)
    (hparts : ∀ e, d.init = some e → e.constantPartFaults = []) : ∃ v, d.preset ty = some v := by
  rw [preset]
  cases hd : d.init with
  | none =>
    cases ty with
    | int => exact ⟨_, rfl⟩
    | bool => exact ⟨_, rfl⟩
    | void => cases hty
    | error => cases hty
  | some e =>
    have hfaults := hparts e hd
    rw [Expr.constantPartFaults_of_isConstant (hconst e hd)] at hfaults
    obtain ⟨v, hv⟩ := Expr.exists_value_of_valueFaults_eq_nil (hconst e hd) hfaults
    exact ⟨v, Expr.constantValue_eq_some_iff.2 ⟨hconst e hd, hv⟩⟩

end Declarator

theorem WellDeclared.exists_presetAll {Γ : Context} {ty : Ty} {vs : List Declarator}
    (h : WellDeclared true ty Γ vs) (hty : vs ≠ [] → ty.isStorable)
    (hparts : ∀ e ∈ vs.filterMap Declarator.init, e.constantPartFaults = []) (s : Store) :
    ∃ s', Store.presetAll ty vs s = some s' := by
  induction h generalizing s with
  | nil => exact ⟨s, rfl⟩
  | @cons Γ d vs hnew hinit hrest ih =>
    obtain ⟨v, hv⟩ := Declarator.exists_preset (hty (List.cons_ne_nil d vs))
      (fun e he ↦ (hinit e he).2 rfl)
      fun e he ↦ hparts e (List.mem_filterMap.2 ⟨d, List.mem_cons_self, he⟩)
    obtain ⟨s', hs'⟩ := ih (fun _ ↦ hty (List.cons_ne_nil d vs)) (fun e he ↦ by
      obtain ⟨d', hd', he'⟩ := List.mem_filterMap.1 he
      exact hparts e (List.mem_filterMap.2 ⟨d', List.mem_cons_of_mem _ hd', he'⟩))
      (s.bind d.name v)
    exact ⟨s', by rw [Store.presetAll, hv]; exact hs'⟩

/-- Every program whose global variables are well formed and whose constants have values can be
loaded. -/
theorem WellFormedGlobals.exists_presets {function entry : String} {Γ : Context}
    {ds : List Declaration} (h : WellFormedGlobals function entry Γ ds)
    (hparts : ∀ e ∈ ds.flatMap Declaration.exprs, e.constantPartFaults = []) (s : Store) :
    ∃ s', ds.foldlM (fun s d ↦ Store.presetAll d.ty d.vars s) s = some s' := by
  induction h generalizing s with
  | nil => exact ⟨s, rfl⟩
  | @cons Γ d ds hd _ _ ih =>
    rw [List.flatMap_cons, List.forall_mem_append] at hparts
    obtain ⟨s₁, hs₁⟩ := hd.declared.exists_presetAll hd.storable hparts.1 s
    obtain ⟨s₂, hs₂⟩ := ih hparts.2 s₁
    exact ⟨s₂, by rw [List.foldlM_cons, hs₁]; exact hs₂⟩

namespace Activation

variable {A : Activation} {M : Memory} {σ : Site} {s s' : Store}

/-- Global variables of one type are in their cells. -/
theorem Globals.presetAll (h : A.Globals M σ s) (hloaded : M.Loaded A.data A.cells) {ty : Ty}
    {vs : List Declarator} (hvs : WellDeclared true ty σ.types vs)
    (hcells : ∀ d ∈ vs, d.toCell ty ∈ A.cells) (hload : Store.presetAll ty vs s = some s') :
    A.Globals M (vs.foldl (fun σ v ↦ σ.place v.name ty ⟨ty.width, .cell v.name⟩) σ) s' := by
  induction vs generalizing σ s with
  | nil =>
    obtain rfl := Option.some.inj hload
    exact h
  | cons d vs ih =>
    obtain ⟨v, hpreset, hrest⟩ := Option.bind_eq_some_iff.1 hload
    obtain - | ⟨hnew, hinit, htail⟩ := hvs
    rw [← σ.types_place d.name ty ⟨ty.width, .cell d.name⟩] at htail
    obtain ⟨hv, hword⟩ := Declarator.preset_eq_some hpreset fun e he ↦ (hinit e he).1
    exact ih (h.place hloaded (hcells d List.mem_cons_self) hnew hv hword) htail
      (fun d' hd' ↦ hcells d' (List.mem_cons_of_mem _ hd')) hrest

/-- All global variables are in their cells. -/
theorem Globals.presets (h : A.Globals M σ s) (hloaded : M.Loaded A.data A.cells)
    {function entry : String} {ds : List Declaration}
    (hds : WellFormedGlobals function entry σ.types ds)
    (hcells : ∀ d ∈ ds, ∀ v ∈ d.vars, v.toCell d.ty ∈ A.cells)
    (hload : ds.foldlM (fun s d ↦ Store.presetAll d.ty d.vars s) s = some s') :
    A.Globals M (ds.foldl Site.declareGlobals σ) s' := by
  induction ds generalizing σ s with
  | nil =>
    obtain rfl := Option.some.inj hload
    exact h
  | cons d ds ih =>
    obtain ⟨s₁, hs₁, hrest⟩ := Option.bind_eq_some_iff.1 hload
    obtain - | ⟨hd, -, htail⟩ := hds
    rw [← σ.types_declareGlobals d] at htail
    exact ih (h.presetAll hloaded hd.declared (hcells d List.mem_cons_self) hs₁) htail
      (fun d' hd' ↦ hcells d' (List.mem_cons_of_mem _ hd')) hrest

end Activation

/-! ### Outcomes -/

/-- Arguments of the types of the parameters are accepted. -/
theorem Store.exists_pass {ps : List Param} {args : List Value}
    (h : args.map Value.ty = ps.map Param.ty) (s : Store) :
    ∃ s', Store.pass ps args s = some s' := by
  induction ps generalizing args s with
  | nil =>
    obtain rfl : args = [] := List.map_eq_nil_iff.1 h
    exact ⟨s, rfl⟩
  | cons q ps ih =>
    cases args with
    | nil => cases h
    | cons v vs =>
      rw [List.map_cons, List.map_cons, List.cons.injEq] at h
      rw [pass, if_pos h.1]
      exact ih h.2 _

/-- What a store holds for data cells, in their order. -/
def Store.contents (cells : List Cell) (s : Store) : List (Option Nat) :=
  cells.map fun c ↦ (s.find? c.name).map fun v ↦ v.toWord.toBitVec.toNat

/-- How a function ends according to its trials, with the given store for its body and around data
cells. -/
def Function.Yields (f : Function) (cells : List Cell) (s : Store) : Outcome → Prop
  | .returned word contents =>
    ∃ bound flow s', f.body.trial bound s = .ok (flow, s') ∧ flow.word.toBitVec = word ∧
      Store.contents cells s'.leave = contents
  | .fault => ∃ bound, f.body.trial bound s = .error .trap
  | .forever => ∀ bound, f.body.trial bound s = .error .bound

/-- Trials always say how a function ends. -/
theorem Function.exists_yields (f : Function) (cells : List Cell) (s : Store) :
    ∃ out, f.Yields cells s out := by
  by_cases h : ∀ bound, f.body.trial bound s = .error .bound
  · exact ⟨.forever, h⟩
  · obtain ⟨bound, hbound⟩ := not_forall.1 h
    rcases htrial : f.body.trial bound s with (- | -) | ⟨flow, s'⟩
    · exact ⟨.fault, bound, htrial⟩
    · exact absurd htrial hbound
    · exact ⟨.returned flow.word.toBitVec (Store.contents cells s'.leave), bound, flow, s', htrial,
        rfl, rfl⟩

/-! ### Calls -/

/-- Where a trial of its body fails, the code of a function goes astray. -/
theorem Function.Entered.strays_call {A : Activation} {o : Options} {f : Function} {σ : Site}
    {s s₁ : Store} {args : List Value} {m : Machine} (h : f.Entered A o σ s args m)
    (hpass : Store.pass f.params args s.enter = some s₁) {bound : Nat} {x : Failure}
    (htrial : f.body.trial bound s₁ = .error x)
    (hfold : x = .trap → ∀ e ∈ f.body.exprs, e.Faithful o.foldConstants) :
    A.assembly.Strays A.data bound (f.callCode o σ) m x := by
  obtain ⟨m₁, hrun₁, hready₁, hstands⟩ := h.runs_start hpass
  have hbody := hstands.fails o f.name bound hfold s₁ m₁ hready₁ htrial
  exact (hrun₁.strays_append hbody).append _

/-- A function returns at its end only. -/
theorem Function.ne_ret_of_mem_callCode {o : Options} {f : Function} {σ : Site} :
    ∀ line ∈ f.callCode o σ, line ≠ .instr .ret := by
  have hprologue : ∀ line ∈ prologue f.name (f.frameBytes o), line ≠ .instr .ret := by
    rw [prologue]
    split <;> simp
  have hbody : ∀ line ∈ f.body.assemble o f.name (f.bodySite σ), line ≠ .instr .ret :=
    Block.forall_mem_assemble (fun _ hline ↦ hline.returns) (by simp) (by simp) (by simp)
  simp only [callCode, List.forall_mem_append]
  refine ⟨⟨⟨hprologue, fun line hline ↦ ?_⟩, hbody⟩, ?_, ?_⟩
  · exact (plain_assembleParams f.name 0 f.params σ.enter line hline).returns
  · split <;> simp
  · simp [Activation.leaveCode]

namespace Program

variable {o : Options} {p : Program} {data : Nat} {args : List Value} {m : Machine}

/-- The code of the function stands after the start of the program, followed by its return. -/
theorem codeAt_callCode (o : Options) (p : Program) :
    (p.assembled o).CodeAt (p.assembled o).stub.length
      (p.function.callCode o p.functionSite ++ [.instr .ret, .blank]) := by
  refine ⟨(p.assembled o).stub, [], ?_, rfl⟩
  rw [← p.function.assemble_eq_callCode, List.append_nil]
  rfl

/-- A call of a compiled function ends as its trials say. For a fault, folding must agree with the
machine. -/
theorem WellFormed.callEnds {entry : String} (hwf : p.WellFormed entry)
    (hlabels : (p.assembled o).labels.Nodup) (hframe : p.function.IsReachable o)
    (hcalled : p.function.Called o (p.assembled o).cells data args m) {s s₁ : Store}
    (hload : p.loadedStore = some s) (hpass : Store.pass p.function.params args s.enter = some s₁)
    {out : Outcome} (hyields : p.function.Yields p.dataCells s₁ out)
    (hfold : out = .fault → ∀ e ∈ p.function.body.exprs, e.Faithful o.foldConstants) :
    (p.assembled o).CallEnds data m out := by
  have hcode := p.codeAt_callCode o
  refine ⟨_, hcode.left.target hlabels, ?_⟩
  -- the call is a run of the program without returns
  have hsealed := hcode.left.sealed Function.ne_ret_of_mem_callCode
  rw [← (p.assembled o).labels_sealed] at hlabels
  have hcalled' : p.function.Called o (p.assembled o).sealed.cells data args m := hcalled
  have hglobals : (hcalled'.activation hlabels hframe.frame).Globals
      (hcalled'.activation hlabels hframe.frame).before p.functionSite s :=
    (Activation.globals_empty _).presets (hcalled'.loaded_before hlabels hframe.frame) hwf.globals
      (fun d hd v hv ↦ toCell_mem hd hv) hload
  have hentered := hwf.entered hcalled' hlabels hframe hglobals
  have hstrays : ∀ {bound x}, p.function.body.trial bound s₁ = .error x →
      (x = .trap → ∀ e ∈ p.function.body.exprs, e.Faithful o.foldConstants) →
      (p.assembled o).sealed.Stray data bound ⟨(p.assembled o).stub.length, m⟩ x :=
    fun htrial hfold ↦ hentered.strays_call hpass htrial hfold _ hsealed
  rw [Assembly.Ends, ← Assembly.step_sealed]
  cases out with
  | returned word contents =>
    obtain ⟨bound, flow, s₂, htrial, rfl, rfl⟩ := hyields
    have hrun : p.function.run bound args s = some (flow.word, s₂.leave) := by
      have hbody : p.function.body.run bound s₁ = some (flow, s₂) := by
        rw [← Block.run_trial]
        exact Trial.run_eq_some htrial
      rw [Function.run, hpass, Option.bind_some, hbody]
      rfl
    obtain ⟨m', hruns, hax, -, -, hagrees, -⟩ := hentered.runs_call hrun
    refine .inl ⟨⟨_, m'⟩, hruns _ _ hsealed rfl, hcode.right.getElem?, ?_, ?_⟩
    · rw [Machine.low, hax, BitVec.setWidth_setWidth_of_le _ (by omega), BitVec.setWidth_eq]
    · refine List.map_congr_left fun c hc ↦ ?_
      obtain ⟨v, address, hv, haddress, hread⟩ :=
        hglobals.read_cell hagrees hc (isSome_functionSite hc)
      have haddress' : cellAddress data (p.assembled o).cells c.name = some address := haddress
      rw [haddress', hv, Option.map_some, Option.map_some, hread]
  | fault =>
    obtain ⟨bound, htrial⟩ := hyields
    obtain ⟨d, hsteps, htraps⟩ := hstrays htrial fun _ ↦ hfold rfl
    exact .inl ⟨d, hsteps, htraps.of_sealed⟩
  | forever => exact .inr ⟨rfl, fun bound ↦ hstrays (hyields bound) fun h ↦ by cases h⟩

end Program

end BlockLang
