import BlockLang.Proofs.Analysis.Visits

/-!
# Reports of divisions by zero

Which divisions by zero an analysis reports. It evaluates an expression in one of two ways. A
condition and an expression statement are searched for constant parts, and each of these is
evaluated by itself; a value that is to be stored or returned is evaluated as a whole, with what is
known of variables. Either way both operands of an operator are evaluated, and evaluation goes on
after a division by zero as if the quotient were zero.

So there is one report for each division node by a constant that evaluates to zero, in the order in
which the nodes are left, as long as its dividend is known: by being a constant in the first way,
and by having a value in the second (`Purpose.Fits.zeroDivisions_faults`). Evaluation stays within
types, so no report is lost to an operand that the operator refuses. The main result,
`Program.zeroDivisions_visits`, says this for every visit of an analysis, in the session in which
the visit is made.
-/

namespace BlockLang

/-! ### Reports -/

/-- The divisions by zero among diagnostics. -/
def zeroDivisions (ds : List Diagnostic) : List Diagnostic :=
  ds.filter (·.problem = .divisionByZero)

@[simp] theorem zeroDivisions_append (ds es : List Diagnostic) :
    zeroDivisions (ds ++ es) = zeroDivisions ds ++ zeroDivisions es :=
  List.filter_append _ _

theorem zeroDivisions_eq_nil {ds : List Diagnostic} (h : ∀ d ∈ ds, d.Plain) :
    zeroDivisions ds = [] := by
  refine List.filter_eq_nil_iff.2 fun d hd hzero ↦ ?_
  have hplain := h d hd
  rw [Diagnostic.Plain, of_decide_eq_true hzero] at hplain
  exact hplain

/-- The divisions by zero that have been recorded. -/
def Session.zeroDivisions (s : Session) : List Diagnostic :=
  BlockLang.zeroDivisions s.diagnostics.errors

theorem Session.zeroDivisions_reportAll (s : Session) (ds : List Diagnostic) :
    (s.reportAll ds).zeroDivisions = s.zeroDivisions ++ BlockLang.zeroDivisions ds := by
  rw [zeroDivisions, errors_reportAll, zeroDivisions_append, BlockLang.zeroDivisions,
    BlockLang.zeroDivisions, List.filter_filter]
  refine congrArg _ (List.filter_congr fun d _ ↦ ?_)
  -- a division by zero is no warning
  by_cases hd : d.problem = .divisionByZero
  · simp [hd, Diagnostic.category, Problem.category]
  · simp [hd]

/-! ### Divisions by zero in an expression -/

namespace Expr

variable {e : Expr}

/-- Whether the outermost node is a division of a known dividend by a constant that evaluates to
zero. -/
def isZeroQuotient (known : Expr → Bool) : Expr → Bool
  | binary _ op l r => op = .div && r.constantValue = some (.int 0) && known l
  | num _ _ => false
  | bool _ _ => false
  | var _ _ => false
  | not _ _ => false

/-- The diagnostics on the divisions of known dividends by zero, from left to right and an operator
after its operands. -/
def zeroQuotients (known : Expr → Bool) (e : Expr) : List Diagnostic :=
  (e.nodes.filter (isZeroQuotient known)).map fun n ↦ ⟨n.pos, .divisionByZero⟩

@[simp] theorem zeroQuotients_not (known : Expr → Bool) (p : Pos) (e : Expr) :
    (not p e).zeroQuotients known = e.zeroQuotients known := by
  simp [zeroQuotients, nodes, isZeroQuotient]

theorem zeroQuotients_binary (known : Expr → Bool) (p : Pos) (op : BinaryOp) (l r : Expr) :
    (binary p op l r).zeroQuotients known =
      l.zeroQuotients known ++ r.zeroQuotients known ++
        if op = .div ∧ r.constantValue = some (.int 0) ∧ known l = true then
          [⟨p, .divisionByZero⟩]
        else [] := by
  have hnode : isZeroQuotient known (binary p op l r) =
      decide (op = .div ∧ r.constantValue = some (.int 0) ∧ known l = true) := by
    simp [isZeroQuotient, Bool.and_assoc]
  rw [zeroQuotients, nodes, List.filter_append, List.filter_append, List.map_append,
    List.map_append, List.filter_singleton, hnode]
  by_cases h : op = .div ∧ r.constantValue = some (.int 0) ∧ known l = true
  · rw [if_pos h, decide_eq_true h]
    rfl
  · rw [if_neg h, decide_eq_false h]
    rfl

/-- Inference reports no division by zero. -/
theorem zeroDivisions_typeFaults (env : Env) (e : Expr) :
    zeroDivisions (e.typeFaults env) = [] := by
  induction e with
  | num p v => rfl
  | bool p b => rfl
  | var p x =>
    rw [typeFaults]
    rcases env x with - | s
    · rfl
    · dsimp only
      split <;> rfl
  | not p e ih =>
    rw [typeFaults, zeroDivisions_append, ih]
    split <;> rfl
  | binary p op l r ihl ihr =>
    rw [typeFaults, zeroDivisions_append, zeroDivisions_append, ihl, ihr]
    split <;> rfl

/-! ### Evaluation with what is known of variables -/

/-- The evaluation of a typed expression reports the divisions by zero whose dividends have
values. -/
theorem HasType.zeroDivisions_valueFaults {env : Env} (henv : env.WellTyped) {t : Ty}
    (h : HasType env.types e t) :
    zeroDivisions (e.valueFaults env) = e.zeroQuotients fun l ↦ (l.value env).isSome := by
  induction h with
  | num p v => rfl
  | bool p b => rfl
  | @var p x t hx =>
    rw [valueFaults]
    rcases env x with - | s
    · rfl
    · dsimp only
      split <;> rfl
  | @not p e h ih =>
    rw [valueFaults, zeroDivisions_append, ih, zeroQuotients_not]
    rcases hv : e.value env with - | v
    · exact List.append_nil _
    · -- a negation in a typed expression is of a truth value
      rcases v with w | b
      · exact absurd (h.ty_of_value henv hv) (by simp [Value.ty])
      · exact List.append_nil _
  | @binary p op l r a b t hop hl hr ihl ihr =>
    rw [valueFaults, zeroDivisions_append, zeroDivisions_append, ihl, ihr, zeroQuotients_binary,
      hop.combineFaults_eq p _ (fun v hv ↦ hl.ty_of_value henv hv)
        (fun v hv ↦ hr.ty_of_value henv hv)]
    have hzero : op = .div ∧ r.isConstant = true ∧ (l.value env).isSome = true ∧
        r.value env = some (.int 0) ↔
        op = .div ∧ r.constantValue = some (.int 0) ∧ (l.value env).isSome = true := by
      rw [constantValue_eq_some_iff]
      constructor
      · rintro ⟨hdiv, hconst, hknown, hvalue⟩
        exact ⟨hdiv, ⟨hconst, value_of_isConstant hconst env ▸ hvalue⟩, hknown⟩
      · rintro ⟨hdiv, ⟨hconst, hvalue⟩, hknown⟩
        exact ⟨hdiv, hconst, hknown, value_of_isConstant hconst env ▸ hvalue⟩
    simp only [hzero]
    split <;> rfl

/-! ### Evaluation of constant parts -/

/-- A typed constant has a value, also after a division by zero. -/
theorem HasType.exists_value {Γ : String → Option Ty} {t : Ty} (h : HasType Γ e t)
    (hconst : e.isConstant = true) : ∃ v, e.value .empty = some v := by
  induction h with
  | num p v => exact ⟨_, rfl⟩
  | bool p b => exact ⟨_, rfl⟩
  | var p hx => exact absurd hconst Bool.false_ne_true
  | @not p e h ih =>
    obtain ⟨v, hv⟩ := ih hconst
    have hty := (h.of_isConstant hconst).ty_of_value Env.wellTyped_empty hv
    rcases v with w | b
    · exact absurd hty (by simp [Value.ty])
    · exact ⟨.bool !b, by rw [value, hv]; rfl⟩
  | @binary p op l r a b t hop hl hr ihl ihr =>
    obtain ⟨hlconst, hrconst⟩ := Bool.and_eq_true_iff.1 hconst
    obtain ⟨v, hv⟩ := ihl hlconst
    obtain ⟨w, hw⟩ := ihr hrconst
    have hvty := (hl.of_isConstant hlconst).ty_of_value Env.wellTyped_empty hv
    have hwty := (hr.of_isConstant hrconst).ty_of_value Env.wellTyped_empty hw
    obtain ⟨z, hz, -⟩ := BinaryOp.Takes.exists_apply (hvty.symm ▸ hwty.symm ▸ hop)
    exact ⟨z, by rw [value, hv, hw]; simpa [BinaryOp.combine, BinaryOp.isOpenQuotient, hrconst]⟩

/-- In a typed constant all dividends are constants and have values. -/
theorem HasType.zeroQuotients_of_isConstant {Γ : String → Option Ty} {t : Ty} (h : HasType Γ e t)
    (hconst : e.isConstant = true) :
    (e.zeroQuotients fun l ↦ (l.value .empty).isSome) = e.zeroQuotients isConstant := by
  induction h with
  | num p v => rfl
  | bool p b => rfl
  | var p hx => rfl
  | not p h ih => rw [zeroQuotients_not, zeroQuotients_not, ih hconst]
  | @binary p op l r a b t hop hl hr ihl ihr =>
    obtain ⟨hlconst, hrconst⟩ := Bool.and_eq_true_iff.1 hconst
    obtain ⟨v, hv⟩ := hl.exists_value hlconst
    rw [zeroQuotients_binary, zeroQuotients_binary, ihl hlconst, ihr hrconst, hv, hlconst]
    rfl

/-- The evaluation of the constant parts of a typed expression reports the divisions of constants by
zero. -/
theorem HasType.zeroDivisions_constantPartFaults {Γ : String → Option Ty} {t : Ty}
    (h : HasType Γ e t) : zeroDivisions e.constantPartFaults = e.zeroQuotients isConstant := by
  have hwhole : ∀ {d : Expr} {t : Ty}, HasType Γ d t → d.isConstant = true →
      zeroDivisions d.constantPartFaults = d.zeroQuotients isConstant := by
    intro d t hd hconst
    rw [constantPartFaults_of_isConstant hconst,
      (hd.of_isConstant hconst).zeroDivisions_valueFaults Env.wellTyped_empty,
      hd.zeroQuotients_of_isConstant hconst]
  induction h with
  | num p v => rfl
  | bool p b => rfl
  | var p hx => rfl
  | @not p e h ih =>
    by_cases hc : e.isConstant = true
    · exact hwhole (.not p h) hc
    · rw [constantPartFaults, if_neg hc, zeroQuotients_not, ih]
  | @binary p op l r a b t hop hl hr ihl ihr =>
    by_cases hc : (l.isConstant && r.isConstant) = true
    · exact hwhole (.binary p hop hl hr) hc
    · -- one of the operands is no constant, so the division itself is not looked at
      rw [constantPartFaults, if_neg hc, zeroDivisions_append, ihl, ihr, zeroQuotients_binary,
        if_neg, List.append_nil]
      rintro ⟨-, hzero, hlconst⟩
      exact hc (Bool.and_eq_true_iff.2 ⟨hlconst, (constantValue_eq_some_iff.1 hzero).1⟩)

end Expr

/-! ### Visits -/

namespace Purpose

/-- Whether the evaluation for the purpose knows the value of a dividend. -/
def knows (env : Env) : Purpose → Expr → Bool
  | test => Expr.isConstant
  | discard => Expr.isConstant
  | yield _ => fun l ↦ (l.value env).isSome

/-- An expression that fits its purpose is reported for its divisions by zero. -/
theorem Fits.zeroDivisions_faults {u : Purpose} {env : Env} (henv : env.WellTyped) {e : Expr}
    (h : u.Fits env e) : zeroDivisions (u.faults env e) = e.zeroQuotients (u.knows env) := by
  obtain ⟨t, ht, -⟩ := h
  rcases u with - | - | ty
  · exact ht.zeroDivisions_constantPartFaults
  · exact ht.zeroDivisions_constantPartFaults
  · exact ht.zeroDivisions_valueFaults henv

end Purpose

namespace Visit

variable {s : Session} {a : Visit} {u : Purpose} {e : Expr}

/-- A visit records the divisions by zero that evaluation finds. -/
theorem zeroDivisions_run (hu : a.purpose? s = some u) (he : a.expr? = some e) :
    (a.run s).zeroDivisions = s.zeroDivisions ++
      zeroDivisions (if u.accepts (e.type s.env) then u.faults s.env e else []) := by
  obtain ⟨others, hplain, hdiagnostics⟩ := exists_reports hu he
  rw [Session.zeroDivisions, hdiagnostics, ← Session.zeroDivisions, Session.zeroDivisions_reportAll,
    zeroDivisions_append, zeroDivisions_append, e.zeroDivisions_typeFaults,
    zeroDivisions_eq_nil hplain]
  rfl

theorem zeroDivisions_run_of_none (h : a.purpose? s = none ∨ a.expr? = none) :
    (a.run s).zeroDivisions = s.zeroDivisions := by
  obtain ⟨others, hplain, hdiagnostics⟩ := exists_reports_of_none h
  rw [Session.zeroDivisions, hdiagnostics, ← Session.zeroDivisions, Session.zeroDivisions_reportAll,
    zeroDivisions_eq_nil hplain, List.append_nil]

end Visit

namespace Program

/-- The reports of divisions by zero are exact. The visits of a program make up its analysis and
take up its expressions in order. A visit that looks at an expression which fits its purpose records
one report for each division node by a constant that evaluates to zero, in the order of the nodes,
as long as the dividend is a constant, for a condition or an expression statement, or has a value in
the session, for a value to be stored or returned. No other visit records any. -/
theorem zeroDivisions_visits (entry : String) (p : Program) :
    Problem.message .divisionByZero = "division by zero in constant expression" ∧
      (Session.follow {} (p.visits entry)).diagnostics = (p.analyze entry {}).diagnostics ∧
      (p.visits entry).filterMap Visit.expr? = p.exprs ∧
      ∀ before a s, before ++ [a] <+: p.visits entry → Session.follow {} before = s →
        (∀ u e, a.purpose? s = some u → a.expr? = some e →
          (u.Fits s.env e → (a.run s).zeroDivisions = s.zeroDivisions ++
            (e.nodes.filter (Expr.isZeroQuotient (u.knows s.env))).map
              fun n ↦ ⟨n.pos, .divisionByZero⟩) ∧
          (¬u.Fits s.env e → (a.run s).zeroDivisions = s.zeroDivisions)) ∧
        (a.purpose? s = none ∨ a.expr? = none → (a.run s).zeroDivisions = s.zeroDivisions) := by
  refine ⟨rfl, p.diagnostics_follow_visits entry, p.filterMap_expr?_visits entry, ?_⟩
  rintro before a s - rfl
  have hsound := Session.sound_follow (s := {}) ScopeTree.sound_empty before
  refine ⟨fun u e hu he ↦ ⟨fun hfits ↦ ?_, fun hfits ↦ ?_⟩, Visit.zeroDivisions_run_of_none⟩
  · rw [Visit.zeroDivisions_run hu he, if_pos ((u.accepts_iff hsound.env_unmarked).2 hfits),
      hfits.zeroDivisions_faults hsound.env_wellTyped]
    rfl
  · rw [Visit.zeroDivisions_run hu he, if_neg (hfits ∘ (u.accepts_iff hsound.env_unmarked).1)]
    exact List.append_nil _

/-- The expression `(k / (1 / 0)) / (3 - 3)`. -/
def quotients : Expr :=
  .binary ⟨1, 15⟩ .div
    (.binary ⟨1, 4⟩ .div (.var ⟨1, 2⟩ "k")
      (.binary ⟨1, 9⟩ .div (.num ⟨1, 7⟩ 1) (.num ⟨1, 11⟩ 0)))
    (.binary ⟨1, 20⟩ .sub (.num ⟨1, 18⟩ 3) (.num ⟨1, 22⟩ 3))

/-- A program that stores the quotients and tests them, `int f() { int k = 6; int m = q; if (q == k)
{ } return m; }` with `quotients` as `q`. -/
def perilous : Program where
  function :=
    { returnTy := .int
      name := "f"
      body :=
        .simple (.declare ⟨.int, [⟨"k", some (.num {} 6), {}⟩], {}⟩)
          (.simple (.declare ⟨.int, [⟨"m", some quotients, {}⟩], {}⟩)
            (.ifThen {} (.binary {} .eq quotients (.var {} "k")) .done
              (.simple (.ret {} (some (.var {} "m"))) .done))) }

/-- As an initializer the expression is reported for all its divisions, since `k` has a value; as a
condition only for the one that has no variable below it. -/
theorem zeroDivisions_perilous :
    (perilous.visits "_start").take 4 ++ [.declarator false .int ⟨"m", some quotients, {}⟩] <+:
        perilous.visits "_start" ∧
      (Session.follow {} ((perilous.visits "_start").take 5)).zeroDivisions =
        [⟨⟨1, 9⟩, .divisionByZero⟩, ⟨⟨1, 4⟩, .divisionByZero⟩, ⟨⟨1, 15⟩, .divisionByZero⟩] ∧
      (perilous.visits "_start").take 5 ++
          [.test .cond (.binary {} .eq quotients (.var {} "k"))] <+: perilous.visits "_start" ∧
      (Session.follow {} ((perilous.visits "_start").take 6)).zeroDivisions =
        [⟨⟨1, 9⟩, .divisionByZero⟩, ⟨⟨1, 4⟩, .divisionByZero⟩, ⟨⟨1, 15⟩, .divisionByZero⟩,
          ⟨⟨1, 9⟩, .divisionByZero⟩] := by
  obtain ⟨-, -, -, hvisits⟩ := zeroDivisions_visits "_start" perilous
  have hstore : (perilous.visits "_start").take 4 ++
      [.declarator false .int ⟨"m", some quotients, {}⟩] <+: perilous.visits "_start" := by
    decide +kernel
  have htest : (perilous.visits "_start").take 5 ++
      [.test .cond (.binary {} .eq quotients (.var {} "k"))] <+: perilous.visits "_start" := by
    decide +kernel
  have hfits (u : Purpose) (e : Expr) (n : Nat) (h : u.accepts (e.type
      (Session.follow {} ((perilous.visits "_start").take n)).env) = true) :
      u.Fits (Session.follow {} ((perilous.visits "_start").take n)).env e :=
    (Purpose.accepts_iff (Session.sound_follow (s := {}) ScopeTree.sound_empty _).env_unmarked).1 h
  refine ⟨hstore, ?_, htest, ?_⟩
  · exact (((hvisits _ _ _ hstore rfl).1 (.yield .int) quotients (by decide +kernel) rfl).1
      (hfits _ _ 4 (by decide +kernel))).trans (by decide +kernel)
  · exact (((hvisits _ _ _ htest rfl).1 .test _ (by decide +kernel) rfl).1
      (hfits _ _ 5 (by decide +kernel))).trans (by decide +kernel)

end Program

end BlockLang
