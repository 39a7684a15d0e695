import BlockLang.Proofs.Correctness.Outcomes
import BlockLang.Proofs.Lowering.Replay

/-!
# Folding and the behaviour of programs

Whether constants are folded does not matter to the analysis, so the diagnostics, the scopes and
the labels of a compilation are the same with and without it. It matters to the code, and there the
main result is `Program.compile_folding`: with and without folding a call ends in the same way, with
a result, with a fault or never, unless the program divides the least integer by minus one and both
are constants.

In that case the two may differ (`Program.compile_leastQuotient`). Folding computes the quotient by
arithmetic that wraps around, while the division of the machine faults on a quotient that does not
fit. It is the only operator and the only pair of operands on which a value known in advance is not
the one that the machine computes (`Activation.Ready.runs_constant`).
-/

namespace BlockLang

/-- With and without folding, the code of a constant computes the value that is known in advance,
unless it overflows. -/
theorem Activation.Ready.runs_constant {A : Activation} {σ : Site} {s : Store} {m : Machine}
    (h : A.Ready σ.places s m) (hσ : A.AdmitsSite σ) (fold : Bool) {e : Expr} {v : Value}
    (hv : e.constantValue = some v) (hparts : e.constantPartFaults = []) (hfits : ¬e.Overflows)
    (hroom : 8 * e.depth ≤ A.room) :
    ∃ m', A.Runs (e.lines fold σ) m none m' ∧ m'.regs .ax = v.register ∧
      A.Ready σ.places s m' := by
  obtain ⟨hconst, hvalue⟩ := Expr.constantValue_eq_some_iff.1 hv
  exact h.runs_lines hσ fold ((Expr.eval_eq_value hconst hparts hfits _).trans hvalue) hroom

/-- The settings with constants folded or not. -/
def Options.folding (o : Options) (fold : Bool) : Options := { o with foldConstants := fold }

/-! ### What does not depend on the settings -/

/-- The labels in the code of a block depend on its text only. -/
theorem Block.filterMap_labelText?_assemble (o o' : Options) (f : String) (b : Block) (σ : Site) :
    (b.assemble o f σ).filterMap Line.labelText? =
      (b.assemble o' f σ).filterMap Line.labelText? := by
  have hplain : ∀ {code : List Line}, (∀ line ∈ code, line.Plain f) →
      code.filterMap Line.labelText? = [] :=
    fun h ↦ List.filterMap_eq_nil_iff.2 fun line hline ↦ (h line hline).label
  have hremark : ∀ o text, (Options.remark o text).filterMap Line.labelText? = [] :=
    fun o text ↦ hplain (plain_remark f o text)
  have htest : ∀ fold (c : Expr) (σ : Site) (l : Label),
      (testCode (c.lines fold σ) l).filterMap Line.labelText? = [] := by
    intro fold c σ l
    rw [testCode, List.filterMap_append, hplain (c.plain_lines f fold σ)]
    rfl
  induction b generalizing σ with
  | done => rfl
  | simple a rest ih =>
    rw [assemble, assemble, List.filterMap_append, List.filterMap_append,
      hplain (a.plain_assemble o f σ), hplain (a.plain_assemble o' f σ), ih]
  | ifThen pos c t rest iht ih =>
    simp only [assemble, List.filterMap_append, hremark, htest, iht σ.number.enter,
      ih (t.siteInside σ.number)]
  | ifElse pos c t e rest iht ihe ih =>
    simp only [assemble, List.filterMap_append, hremark, htest, iht σ.number.enter,
      ihe (t.siteInside σ.number).enter, ih (e.siteInside (t.siteInside σ.number))]
  | loop pos c b rest ihb ih =>
    simp only [assemble, List.filterMap_append, hremark, htest, ihb σ.number.enter,
      ih (b.siteInside σ.number)]

namespace Program

variable {o : Options} {p : Program}

theorem labels_assembled_folding (o : Options) (p : Program) (fold fold' : Bool) :
    (p.assembled (o.folding fold)).labels = (p.assembled (o.folding fold')).labels := by
  have hbody := p.function.body.filterMap_labelText?_assemble (o.folding fold) (o.folding fold')
    p.function.name (p.function.bodySite p.functionSite)
  simp only [Assembly.labels, Assembly.lines, assembled, Function.assemble, List.filterMap_append,
    hbody]
  rfl

theorem scopes_compile_folding (o : Options) (p : Program) (fold fold' : Bool) :
    (p.compile (o.folding fold)).session.scopes = (p.compile (o.folding fold')).session.scopes :=
  p.scopes_compile_congr rfl

/-! ### Behaviour -/

/-- Folding constants is not seen in diagnostics, scopes or labels, and not in how a call ends: with
the same result and contents of the data cells, with a fault, or never. The exception are programs
with a constant division of the least integer by minus one, whose calls may fault without folding
and not with it. -/
theorem compile_folding (o : Options) (p : Program) :
    (p.compile (o.folding true)).session.diagnostics =
        (p.compile (o.folding false)).session.diagnostics ∧
      (p.compile (o.folding true)).session.scopes = (p.compile (o.folding false)).session.scopes ∧
      (p.compile (o.folding true)).assembly.isSome =
        (p.compile (o.folding false)).assembly.isSome ∧
      ∀ folded plain, (p.compile (o.folding true)).assembly = some folded →
        (p.compile (o.folding false)).assembly = some plain →
        folded.cells = plain.cells ∧ folded.labels = plain.labels ∧
          (plain.labels.Nodup → p.function.IsReachable o →
            ∀ args, args.map Value.ty = p.function.params.map Param.ty →
              ∃ out,
                (∀ data m, p.function.Called o plain.cells data args m →
                  plain.CallEnds data m out) ∧
                ((∀ data m, p.function.Called o plain.cells data args m →
                    folded.CallEnds data m out) ∨
                  out = .fault ∧ ∃ e ∈ p.function.body.exprs, e.Overflows)) := by
  obtain ⟨hdiag, hcases⟩ := p.compile_cases (o.folding true)
  obtain ⟨hdiag', hcases'⟩ := p.compile_cases (o.folding false)
  refine ⟨hdiag.trans hdiag'.symm, p.scopes_compile_folding o true false, ?_, ?_⟩
  · rcases hcases with ⟨hnot, hnone⟩ | ⟨hclean, hsome⟩
    · rcases hcases' with ⟨-, hnone'⟩ | ⟨hclean, -⟩
      · rw [hnone, hnone']
      · exact absurd hclean hnot
    · rcases hcases' with ⟨hnot, -⟩ | ⟨-, hsome'⟩
      · exact absurd hclean hnot
      · rw [hsome, hsome']
        rfl
  intro folded plain hfolded hplain
  obtain ⟨hclean, rfl⟩ := clean_of_compile hfolded
  obtain ⟨-, rfl⟩ := clean_of_compile hplain
  have hlabelsEq := p.labels_assembled_folding o true false
  refine ⟨rfl, hlabelsEq, fun hlabels hframe args hargs ↦ ?_⟩
  obtain ⟨hwf, hparts⟩ := wellFormed_of_clean_analyze hclean
  obtain ⟨s, hload⟩ := hwf.globals.exists_presets
    (fun e he ↦ hparts e (List.mem_append_left _ he)) {}
  obtain ⟨s₁, hpass⟩ := Store.exists_pass hargs s.enter
  obtain ⟨out, hyields⟩ := p.function.exists_yields p.dataCells s₁
  -- a call does not see the setting either
  have hends : ∀ fold, (out = .fault → ∀ e ∈ p.function.body.exprs, e.Faithful fold) →
      ∀ data m, p.function.Called o p.dataCells data args m →
        (p.assembled (o.folding fold)).CallEnds data m out := by
    intro fold hfold data m hcalled
    have hcalled' : p.function.Called (o.folding fold) p.dataCells data args m :=
      ⟨hcalled.room, hcalled.apart, hcalled.slots, hcalled.loaded, hcalled.passed⟩
    refine hwf.callEnds (o := o.folding fold) ?_ ⟨⟨hframe.align, hframe.bytes⟩, hframe.frame,
      hframe.arguments⟩ hcalled' hload hpass hyields hfold
    rw [p.labels_assembled_folding o fold false]
    exact hlabels
  refine ⟨out, hends false fun _ e _ ↦ nofun, ?_⟩
  by_cases hexception : out = .fault ∧ ∃ e ∈ p.function.body.exprs, e.Overflows
  · exact .inr hexception
  · refine .inl (hends true fun hfault e he _ ↦ ?_)
    exact ⟨hparts e (List.mem_append_right _ he), fun hover ↦ hexception ⟨hfault, e, he, hover⟩⟩

/-- A program with constants in a condition, an assignment and a quotient, `int f(int n) {
while (n < 2 * 5) { n = n + 10 / 5; } return 100 / (n - 2 * 5); }`. -/
def stride : Program where
  function := {
    returnTy := .int
    name := "f"
    params := [{ ty := .int, name := "n" }]
    body :=
      .loop {} (.binary {} .lt (.var {} "n") (.binary {} .mul (.num {} 2) (.num {} 5)))
        (.simple (.assign {} "n" (.binary {} .add (.var {} "n")
          (.binary {} .div (.num {} 10) (.num {} 5)))) .done)
        (.simple (.ret {} (some (.binary {} .div (.num {} 100)
          (.binary {} .sub (.var {} "n") (.binary {} .mul (.num {} 2) (.num {} 5)))))) .done) }

/-- Its calls end in the same way with and without folding. -/
theorem callEnds_stride :
    ∃ folded plain out, (stride.compile (Options.folding {} true)).assembly = some folded ∧
      (stride.compile (Options.folding {} false)).assembly = some plain ∧ folded ≠ plain ∧
      plain.labels.Nodup ∧ stride.function.IsReachable {} ∧
      stride.function.Called {} plain.cells 8192 [.int 3] squaresCall ∧
      plain.CallEnds 8192 squaresCall out ∧ folded.CallEnds 8192 squaresCall out := by
  have hfolded : (stride.compile (Options.folding {} true)).assembly =
      some (stride.assembled (Options.folding {} true)) := by decide +kernel
  have hplain : (stride.compile (Options.folding {} false)).assembly =
      some (stride.assembled (Options.folding {} false)) := by decide +kernel
  have hlabels : (stride.assembled (Options.folding {} false)).labels.Nodup := by decide +kernel
  have hframe : stride.function.IsReachable {} :=
    ⟨⟨by decide, by decide +kernel⟩, by decide +kernel, by decide⟩
  have hcalled : stride.function.Called {} (stride.assembled (Options.folding {} false)).cells 8192
      [.int 3] squaresCall := by
    refine ⟨by decide +kernel, by decide +kernel, by decide +kernel, trivial, ?_⟩
    intro i v hv
    match i with
    | 0 => obtain rfl := Option.some.inj hv; decide +kernel
    | i + 1 => cases hv
  obtain ⟨-, -, -, hends⟩ := compile_folding {} stride
  obtain ⟨-, -, hends⟩ := hends _ _ hfolded hplain
  obtain ⟨out, hout, hout' | ⟨-, hover⟩⟩ := hends hlabels hframe [.int 3] rfl
  · exact ⟨_, _, out, hfolded, hplain, by decide +kernel, hlabels, hframe, hcalled,
      hout 8192 _ hcalled, hout' 8192 _ hcalled⟩
  · exact absurd hover (by decide +kernel)

/-- A program that divides the least integer by minus one. -/
def leastQuotient : Program where
  function := {
    returnTy := .int
    name := "f"
    body :=
      .simple (.ret {} (some (.binary {} .div (.num {} Int32.minValue) (.num {} (-1))))) .done }

/-- Without folding its calls fault, and with folding they return the least integer. -/
theorem compile_leastQuotient :
    ∃ folded plain, (leastQuotient.compile (Options.folding {} true)).assembly = some folded ∧
      (leastQuotient.compile (Options.folding {} false)).assembly = some plain ∧
      leastQuotient.function.Called {} plain.cells 8192 [] squaresCall ∧
      plain.CallEnds 8192 squaresCall .fault ∧
      folded.CallEnds 8192 squaresCall (.returned Int32.minValue.toBitVec []) ∧
      ¬∃ out, plain.CallEnds 8192 squaresCall out ∧ folded.CallEnds 8192 squaresCall out := by
  have hfolded : (leastQuotient.compile (Options.folding {} true)).assembly =
      some (leastQuotient.assembled (Options.folding {} true)) := by decide +kernel
  have hplain : (leastQuotient.compile (Options.folding {} false)).assembly =
      some (leastQuotient.assembled (Options.folding {} false)) := by decide +kernel
  have hcalled : leastQuotient.function.Called {}
      (leastQuotient.assembled (Options.folding {} false)).cells 8192 [] squaresCall :=
    ⟨by decide +kernel, by decide +kernel, by decide +kernel, trivial, fun i v hv ↦ by cases hv⟩
  have hfault : (leastQuotient.assembled (Options.folding {} false)).CallEnds 8192 squaresCall
      .fault := by
    obtain ⟨hwf, -⟩ := wellFormed_of_clean_analyze (clean_of_compile hplain).1
    have hyields : leastQuotient.function.Yields leastQuotient.dataCells ({} : Store).enter
      .fault := ⟨0, rfl⟩
    exact hwf.callEnds (o := Options.folding {} false) (by decide +kernel)
      ⟨⟨by decide, by decide +kernel⟩, by decide +kernel, by decide⟩
      ⟨hcalled.room, hcalled.apart, hcalled.slots, hcalled.loaded, hcalled.passed⟩ rfl rfl hyields
      fun _ e _ ↦ nofun
  have hreturned : (leastQuotient.assembled (Options.folding {} true)).CallEnds 8192 squaresCall
      (.returned Int32.minValue.toBitVec []) := by
    have hrun : (after ((leastQuotient.assembled (Options.folding {} true)).callStep 8192) 8
        ⟨6, squaresCall⟩).map (fun d ↦
          ((leastQuotient.assembled (Options.folding {} true)).lines[d.pc]?, d.machine.low .ax)) =
        some (some (.instr .ret), Int32.minValue.toBitVec) := by decide +kernel
    obtain ⟨d, hd, hstop⟩ := Option.map_eq_some_iff.1 hrun
    obtain ⟨hret, hax⟩ := Prod.mk.inj hstop
    exact ⟨6, by decide +kernel, .inl ⟨d, leads_of_after hd, hret, hax, rfl⟩⟩
  refine ⟨_, _, hfolded, hplain, hcalled, hfault, hreturned, ?_⟩
  rintro ⟨out, hout, hout'⟩
  cases (hout.unique hfault).symm.trans (hout'.unique hreturned)

end Program

end BlockLang
