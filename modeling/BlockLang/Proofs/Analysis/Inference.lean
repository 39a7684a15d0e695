import BlockLang.Proofs.Analysis.Programs

/-!
# The reports of type inference

Inference goes on after a mistake and marks what it cannot give a type. Which mistakes it reports is
said here without the mark. A node of an expression is at fault (`Expr.Fault`) if it reads a
variable that is not visible, or if it is an operator whose operands all have types, and these types
are in no row of the table. An operand without a type excuses the operators above it and no other
node, so there is one report for each node at fault, in the order in which inference leaves the
nodes (`Session.infer_eq`).
-/

namespace BlockLang

/-! ### Nodes -/

namespace Expr

/-- The nodes of an expression, each as the expression that it is the root of: from left to right,
and an operator after its operands. -/
def nodes : Expr → List Expr
  | num p v => [num p v]
  | bool p b => [bool p b]
  | var p x => [var p x]
  | not p e => e.nodes ++ [not p e]
  | binary p op l r => l.nodes ++ r.nodes ++ [binary p op l r]

/-- Whether the outermost node reads a variable. -/
def isRead : Expr → Bool
  | var _ _ => true
  | num _ _ => false
  | bool _ _ => false
  | not _ _ => false
  | binary _ _ _ _ => false

/-- The outermost node of an expression is at fault, and the diagnostic says so. -/
inductive Fault (env : Env) : Expr → Diagnostic → Prop
  /-- The variable is not visible. -/
  | undeclared {p : Pos} {x : String} (h : env x = none) : Fault env (.var p x) ⟨p, .undeclared x⟩
  /-- The operand has a type, and it is not that of truth values. -/
  | negation {p : Pos} {e : Expr} {t : Ty} (he : e.HasType env.types t) (ht : t ≠ .bool) :
    Fault env (.not p e) ⟨p, .notOperand .oneBool t⟩
  /-- Both operands have types, and no row of the table takes the two. -/
  | operands {p : Pos} {op : BinaryOp} {l r : Expr} {a b : Ty} (hl : l.HasType env.types a)
    (hr : r.HasType env.types b) (hop : ∀ t, ¬op.Takes a b t) :
    Fault env (.binary p op l r) ⟨p, .operands op op.family.requirement a b⟩

/-- The diagnostic on the outermost node, if the node is at fault. -/
def fault? (env : Env) : Expr → Option Diagnostic
  | num _ _ => none
  | bool _ _ => none
  | var p x =>
    match env x with
    | none => some ⟨p, .undeclared x⟩
    | some _ => none
  | not p e =>
    match (e.type env).typeOfNot with
    | .ok _ => none
    | .error q => some ⟨p, .notOperand q (e.type env)⟩
  | binary p op l r =>
    match op.typeOf (l.type env) (r.type env) with
    | .ok _ => none
    | .error q => some ⟨p, .operands op q (l.type env) (r.type env)⟩

end Expr

/-! ### Nodes at fault -/

theorem Ty.typeOfNot_eq_error_iff {t : Ty} {q : Requirement} :
    t.typeOfNot = .error q ↔ t ≠ .error ∧ t ≠ .bool ∧ q = .oneBool := by
  cases t <;> simp [typeOfNot, eq_comm]

/-- An application is refused if neither operand bears the mark and no row takes the two. -/
theorem BinaryOp.typeOf_eq_error_iff {op : BinaryOp} {l r : Ty} {q : Requirement} :
    op.typeOf l r = .error q ↔
      l ≠ .error ∧ r ≠ .error ∧ (∀ t, ¬op.Takes l r t) ∧ q = op.family.requirement := by
  constructor
  · intro h
    have hrow : ∀ t, ¬op.Takes l r t := fun t ht ↦ by
      rw [ht.typeOf_eq] at h
      cases h
    rw [typeOf] at h
    split at h
    · cases h
    · rename_i hmark
      split at h
      · cases h
      · simp only [Ty.isError, Bool.or_eq_true, decide_eq_true_eq, not_or] at hmark
        exact ⟨hmark.1, hmark.2, hrow, (Except.error.inj h).symm⟩
  · rintro ⟨hl, hr, hrow, rfl⟩
    rcases htype : op.typeOf l r with q | t
    · rw [typeOf, if_neg (by simp [Ty.isError, hl, hr])] at htype
      split at htype
      · cases htype
      · exact htype.symm
    · -- what has a type without a mark among its operands stands in the table
      have ht : t ≠ .error := by
        rintro rfl
        rw [typeOf, if_neg (by simp [Ty.isError, hl, hr])] at htype
        split at htype
        · cases op <;> simp [family, Family.result] at htype
        · cases htype
      exact absurd ((typeOf_eq_ok_iff ht).1 htype) (hrow t)

namespace Expr

variable {env : Env}

/-- The diagnostic on a node is computed as the relation says. -/
theorem fault?_eq_some_iff (henv : env.Unmarked) {n : Expr} {d : Diagnostic} :
    n.fault? env = some d ↔ n.Fault env d := by
  constructor
  · intro h
    cases n with
    | num p v => cases h
    | bool p b => cases h
    | var p x =>
      rw [fault?] at h
      rcases hx : env x with - | s
      · rw [hx] at h
        obtain ⟨⟩ := h
        exact .undeclared hx
      · rw [hx] at h
        cases h
    | not p e =>
      rw [fault?] at h
      rcases htype : (e.type env).typeOfNot with q | t
      · rw [htype] at h
        obtain ⟨⟩ := h
        obtain ⟨hne, hbool, rfl⟩ := Ty.typeOfNot_eq_error_iff.1 htype
        exact .negation ((hasType_iff henv).2 ⟨rfl, hne⟩) hbool
      · rw [htype] at h
        cases h
    | binary p op l r =>
      rw [fault?] at h
      rcases htype : op.typeOf (l.type env) (r.type env) with q | t
      · rw [htype] at h
        obtain ⟨⟩ := h
        obtain ⟨hl, hr, hrow, rfl⟩ := BinaryOp.typeOf_eq_error_iff.1 htype
        exact .operands ((hasType_iff henv).2 ⟨rfl, hl⟩) ((hasType_iff henv).2 ⟨rfl, hr⟩) hrow
      · rw [htype] at h
        cases h
  · intro h
    cases h with
    | undeclared h => rw [fault?, h]
    | negation he ht =>
      obtain ⟨rfl, hne⟩ := (hasType_iff henv).1 he
      rw [fault?, Ty.typeOfNot_eq_error_iff.2 ⟨hne, ht, rfl⟩]
    | operands hl hr hrow =>
      obtain ⟨rfl, hne⟩ := (hasType_iff henv).1 hl
      obtain ⟨rfl, hne'⟩ := (hasType_iff henv).1 hr
      rw [fault?, BinaryOp.typeOf_eq_error_iff.2 ⟨hne, hne', hrow, rfl⟩]

/-- A fault is reported where its node stands. It is one of names if the node reads a variable, and
one of types otherwise. -/
theorem Fault.pos_category {n : Expr} {d : Diagnostic} (h : n.Fault env d) :
    d.pos = n.pos ∧ d.category = if n.isRead then .semantic else .typing := by
  cases h <;> exact ⟨rfl, rfl⟩

/-! ### Reports -/

/-- The errors among the reports of inference are those on the nodes at fault. -/
theorem filter_typeFaults (env : Env) (e : Expr) :
    (e.typeFaults env).filter (·.category ≠ .warning) = e.nodes.filterMap (fault? env) := by
  induction e with
  | num p v => rfl
  | bool p b => rfl
  | var p x =>
    rw [typeFaults, nodes, List.filterMap_cons, fault?]
    rcases env x with - | s
    · rfl
    · -- a read before a store is worth a warning only
      dsimp only
      cases s.initialized <;> rfl
  | not p e ih =>
    rw [typeFaults, nodes, List.filter_append, List.filterMap_append, ih, List.filterMap_cons,
      fault?]
    rcases (e.type env).typeOfNot with q | t <;> rfl
  | binary p op l r ihl ihr =>
    rw [typeFaults, nodes, List.filter_append, List.filter_append, List.filterMap_append,
      List.filterMap_append, ihl, ihr, List.filterMap_cons, fault?]
    rcases op.typeOf (l.type env) (r.type env) with q | t <;> rfl

end Expr

namespace Session

/-- Of reported diagnostics those that are no warnings join the errors, in order. -/
theorem errors_reportAll (s : Session) (ds : List Diagnostic) :
    (s.reportAll ds).diagnostics.errors =
      s.diagnostics.errors ++ ds.filter (·.category ≠ .warning) := by
  induction ds generalizing s with
  | nil => exact (List.append_nil _).symm
  | cons d ds ih =>
    have hhead : (s.report d).diagnostics.errors =
        s.diagnostics.errors ++ [d].filter (·.category ≠ .warning) := by
      show (s.diagnostics.report d).errors = _
      rw [Diagnostics.report]
      by_cases hd : d.category = .warning
      · simp [hd, Diagnostics.addWarning]
      · simp [hd, Diagnostics.addError]
    have hrest : (s.reportAll (d :: ds)).diagnostics.errors = _ := ih (s.report d)
    rw [hrest, hhead, List.append_assoc, ← List.filter_append]
    rfl

/-- The inference of the type of an expression, as a step of an analysis: the type, and the session
after the reports. -/
def infer (s : Session) (e : Expr) : Ty × Session :=
  (e.type s.env, s.reportAll (e.typeFaults s.env))

/-- Faults of types do not spread and none is lost. If no visible variable bears the mark, inference
adds one error for each node at fault, from left to right and an operator after its operands, at the
position of the node. It gives the mark exactly if it adds an error, and otherwise the type of the
expression. -/
theorem infer_eq (s : Session) (henv : s.env.Unmarked) (e : Expr) :
    (s.infer e).2.diagnostics.errors =
        s.diagnostics.errors ++ e.nodes.filterMap (·.fault? s.env) ∧
      (∀ n d, Expr.fault? s.env n = some d ↔ n.Fault s.env d) ∧
      (∀ (n : Expr) (d : Diagnostic), n.Fault s.env d →
        d.pos = n.pos ∧ d.category = if n.isRead then .semantic else .typing) ∧
      ((s.infer e).1 = .error ↔ (s.infer e).2.diagnostics.errors ≠ s.diagnostics.errors) ∧
      ∀ (n : Expr) (t : Ty), n.HasType s.env.types t ↔ (s.infer n).1 = t ∧ t ≠ .error := by
  have herrors : (s.infer e).2.diagnostics.errors =
      s.diagnostics.errors ++ (e.typeFaults s.env).filter (·.category ≠ .warning) :=
    s.errors_reportAll _
  refine ⟨?_, fun n d ↦ Expr.fault?_eq_some_iff henv, fun n d h ↦ h.pos_category, ?_,
    fun n t ↦ Expr.hasType_iff henv⟩
  · rw [herrors, Expr.filter_typeFaults]
  · have hquiet : (e.typeFaults s.env).filter (·.category ≠ .warning) = [] ↔
        Quiet (e.typeFaults s.env) := by
      simp [Quiet, List.filter_eq_nil_iff]
    rw [herrors, ne_eq, List.append_right_eq_self, hquiet, Expr.quiet_typeFaults_iff henv, not_not]
    rfl

/-- In `((n + b) && !m) || (n == (b < n))`, with an integer `n` and a truth value `b`, three nodes
are at fault, and the four operators above them pass the mark on in silence. -/
def tangled : Expr :=
  .binary ⟨1, 17⟩ .or
    (.binary ⟨1, 10⟩ .and (.binary ⟨1, 5⟩ .add (.var ⟨1, 3⟩ "n") (.var ⟨1, 7⟩ "b"))
      (.not ⟨1, 13⟩ (.var ⟨1, 14⟩ "m")))
    (.binary ⟨1, 23⟩ .eq (.var ⟨1, 21⟩ "n")
      (.binary ⟨1, 29⟩ .lt (.var ⟨1, 27⟩ "b") (.var ⟨1, 31⟩ "n")))

theorem infer_tangled :
    (analyzeParams [⟨.int, "n", {}⟩, ⟨.bool, "b", {}⟩] {}).env.Unmarked ∧
      ((analyzeParams [⟨.int, "n", {}⟩, ⟨.bool, "b", {}⟩] {}).infer tangled).2.diagnostics.errors =
        [⟨⟨1, 5⟩, .operands .add .bothInt .int .bool⟩, ⟨⟨1, 14⟩, .undeclared "m"⟩,
          ⟨⟨1, 29⟩, .operands .lt .bothInt .bool .int⟩] ∧
      ((analyzeParams [⟨.int, "n", {}⟩, ⟨.bool, "b", {}⟩] {}).infer tangled).1 = .error := by
  have henv : (analyzeParams [⟨.int, "n", {}⟩, ⟨.bool, "b", {}⟩] {}).env.Unmarked :=
    ((extends_analyzeParams _ _).sound ScopeTree.sound_empty).env_unmarked
  obtain ⟨herrors, -, -, hmark, -⟩ := infer_eq _ henv tangled
  refine ⟨henv, herrors.trans (by decide +kernel), hmark.2 ?_⟩
  rw [herrors]
  decide +kernel

end Session

end BlockLang
