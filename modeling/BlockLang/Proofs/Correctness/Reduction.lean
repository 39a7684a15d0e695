import BlockLang.Proofs.Analysis.Inference
import BlockLang.Proofs.Correctness.Folding
import BlockLang.Proofs.Lowering.Division

/-!
# Folding as a change of the text

Folding works on the fly: it is tried at every operator that code generation comes to, and once more
at an initializer, where it decides between a store of an immediate value and a store of the
accumulator. The same code comes from another text without any folding. `Program.reduced` is the
program with each largest constant part in the function body replaced by the literal of its value,
and `Program.generate_reduced` says that code generation without folding does with it what code
generation with folding does with the program.

Everything rests on `Expr.lower_reduced`, which needs no types and no places: where the constant
parts of an expression have no faults, folding succeeds on each of them. From there on the two runs
of code generation are the same computation, so the equations for declarations, statements and
blocks hold in every state, and the scopes that the program leaves behind do for both.
-/

namespace BlockLang

namespace Expr

variable {e : Expr}

/-- The expression with each largest constant part as the literal of its value. -/
def reduced : Expr → Expr
  | num p v => num p v
  | bool p b => bool p b
  | var p x => var p x
  | not p e => if e.isConstant then (not p e).fold else not p e.reduced
  | binary p op l r =>
    if l.isConstant && r.isConstant then (binary p op l r).fold
    else binary p op l.reduced r.reduced

/-! ### The reduced expression -/

/-- A constant without faults is reduced to the literal of its value. -/
theorem reduced_of_isConstant (hconst : e.isConstant = true) (h : e.constantPartFaults = []) :
    ∃ v, e.constantValue = some v ∧ e.reduced = v.toLiteral e.pos := by
  rw [constantPartFaults_of_isConstant hconst] at h
  obtain ⟨v, hv⟩ := exists_value_of_valueFaults_eq_nil hconst h
  have hvalue : e.constantValue = some v := constantValue_eq_some_iff.2 ⟨hconst, hv⟩
  have hfold : e.fold = v.toLiteral e.pos := by rw [fold, hvalue]
  refine ⟨v, hvalue, ?_⟩
  cases e with
  | num p w => exact hfold
  | bool p b => exact hfold
  | var p x => exact absurd hconst Bool.false_ne_true
  | not p e => exact (if_pos hconst).trans hfold
  | binary p op l r => exact (if_pos hconst).trans hfold

/-- The constants inside an expression without faults in its constant parts have no faults. -/
theorem constantPartFaults_of_mem_nodes (h : e.constantPartFaults = []) {n : Expr}
    (hn : n ∈ e.nodes) : n.constantPartFaults = [] := by
  induction e with
  | num p v => exact List.mem_singleton.1 hn ▸ h
  | bool p b => exact List.mem_singleton.1 hn ▸ h
  | var p x => exact List.mem_singleton.1 hn ▸ h
  | not p e ih =>
    rcases List.mem_append.1 hn with hn | hn
    · exact ih (constantPartFaults_of_not h) hn
    · exact List.mem_singleton.1 hn ▸ h
  | binary p op l r ihl ihr =>
    obtain ⟨hl, hr⟩ := constantPartFaults_of_binary h
    rw [nodes, List.mem_append, List.mem_append, List.mem_singleton] at hn
    rcases hn with (hn | hn) | rfl
    · exact ihl hl hn
    · exact ihr hr hn
    · exact h

theorem reduced_not {p : Pos} (h : e.isConstant = false) :
    (not p e).reduced = not p e.reduced := by
  rw [reduced, h, if_neg Bool.false_ne_true]

theorem reduced_binary {p : Pos} {op : BinaryOp} {l r : Expr}
    (h : (l.isConstant && r.isConstant) = false) :
    (binary p op l r).reduced = binary p op l.reduced r.reduced := by
  rw [reduced, h, if_neg Bool.false_ne_true]

/-- What is no constant does not become one. -/
theorem isConstant_reduced (h : e.isConstant = false) : e.reduced.isConstant = false := by
  induction e with
  | num p v => exact absurd h.symm Bool.false_ne_true
  | bool p b => exact absurd h.symm Bool.false_ne_true
  | var p x => rfl
  | not p e ih =>
    have hopen : e.isConstant = false := h
    rw [reduced_not hopen]
    exact ih hopen
  | binary p op l r ihl ihr =>
    rw [reduced_binary h, isConstant, Bool.and_eq_false_iff]
    exact (Bool.and_eq_false_iff.1 h).imp ihl ihr

theorem isLiteral_of_mem_nodes_toLiteral {v : Value} {p : Pos} {n : Expr}
    (hn : n ∈ (v.toLiteral p).nodes) : n.isLiteral = true := by
  rcases v with v | b <;> exact List.mem_singleton.1 hn ▸ rfl

/-- In a reduced expression no operator applies to constants only. -/
theorem isLiteral_of_mem_nodes_reduced (h : e.constantPartFaults = []) {n : Expr}
    (hn : n ∈ e.reduced.nodes) (hconst : n.isConstant = true) : n.isLiteral = true := by
  induction e with
  | num p v => exact List.mem_singleton.1 hn ▸ rfl
  | bool p b => exact List.mem_singleton.1 hn ▸ rfl
  | var p x =>
    rw [List.mem_singleton.1 hn] at hconst
    exact absurd hconst Bool.false_ne_true
  | not p e ih =>
    rcases hc : e.isConstant
    · rw [reduced_not hc, nodes, List.mem_append, List.mem_singleton] at hn
      rcases hn with hn | rfl
      · exact ih (constantPartFaults_of_not h) hn
      · exact absurd ((isConstant_reduced hc).symm.trans hconst) Bool.false_ne_true
    · obtain ⟨v, -, hv⟩ := reduced_of_isConstant (e := not p e) hc h
      exact isLiteral_of_mem_nodes_toLiteral (hv ▸ hn)
  | binary p op l r ihl ihr =>
    obtain ⟨hl, hr⟩ := constantPartFaults_of_binary h
    rcases hc : l.isConstant && r.isConstant
    · have hopen := isConstant_reduced (e := binary p op l r) hc
      rw [reduced_binary hc] at hn hopen
      rw [nodes, List.mem_append, List.mem_append, List.mem_singleton] at hn
      rcases hn with (hn | hn) | rfl
      · exact ihl hl hn
      · exact ihr hr hn
      · exact absurd (hopen.symm.trans hconst) Bool.false_ne_true
    · obtain ⟨v, -, hv⟩ := reduced_of_isConstant (e := binary p op l r) hc h
      exact isLiteral_of_mem_nodes_toLiteral (hv ▸ hn)

/-! ### Code of expressions -/

theorem foldedValue?_true (h : e.isLiteral = false) : e.foldedValue? true = e.constantValue := by
  rw [foldedValue?, isFoldable, h, constantValue]
  cases e.isConstant <;> rfl

theorem foldedValue?_eq_none (fold : Bool) (h : e.isConstant = false) :
    e.foldedValue? fold = none := by
  rw [foldedValue?, isFoldable, h, Bool.and_false, if_neg Bool.false_ne_true]

theorem foldedValue?_of_isLiteral (fold : Bool) (h : e.isLiteral = true) :
    e.foldedValue? fold = none := by
  rw [foldedValue?, isFoldable, h, Bool.not_true, Bool.and_false, Bool.false_and,
    if_neg Bool.false_ne_true]

theorem immediate?_eq_none (h : e.isConstant = false) : e.immediate? = none := by
  cases e with
  | num p v => exact absurd h.symm Bool.false_ne_true
  | bool p b => exact absurd h.symm Bool.false_ne_true
  | var p x => rfl
  | not p e => rfl
  | binary p op l r => rfl

theorem immediate?_toLiteral (v : Value) (p : Pos) :
    (v.toLiteral p).immediate? = some v.toWord := by
  rcases v with v | b <;> rfl

theorem immediate?_of_isLiteral {v : Value} (h : e.isLiteral = true)
    (hv : e.constantValue = some v) : e.immediate? = some v.toWord := by
  cases e with
  | num p w => exact Option.some.inj hv ▸ rfl
  | bool p b => exact Option.some.inj hv ▸ rfl
  | var p x => exact absurd h Bool.false_ne_true
  | not p e => exact absurd h Bool.false_ne_true
  | binary p op l r => exact absurd h Bool.false_ne_true

theorem lower_toLiteral (fold : Bool) (env : Env) (v : Value) (p : Pos) :
    (v.toLiteral p).lower fold env = .ok [.moveImm .ax v.toWord] := by
  rcases v with v | b <;> rfl

/-- The code of an expression with folding is that of the reduced expression without it. -/
theorem lower_reduced (h : e.constantPartFaults = []) (env : Env) :
    e.lower true env = e.reduced.lower false env := by
  induction e with
  | num p v => rfl
  | bool p b => rfl
  | var p x => rfl
  | not p e ih =>
    rcases hc : e.isConstant
    · have hnone : (not p e).foldedValue? true = none := foldedValue?_eq_none true hc
      rw [reduced_not hc, lower, lower, hnone, ih (constantPartFaults_of_not h)]
      rfl
    · obtain ⟨v, hv, hreduced⟩ := reduced_of_isConstant (e := not p e) hc h
      rw [hreduced, lower_toLiteral, lower, foldedValue?_true rfl, hv]
  | binary p op l r ihl ihr =>
    obtain ⟨hl, hr⟩ := constantPartFaults_of_binary h
    rcases hc : l.isConstant && r.isConstant
    · have hnone : (binary p op l r).foldedValue? true = none := foldedValue?_eq_none true hc
      rw [reduced_binary hc, lower, lower, hnone, ihl hl, ihr hr]
      rfl
    · obtain ⟨v, hv, hreduced⟩ := reduced_of_isConstant (e := binary p op l r) hc h
      rw [hreduced, lower_toLiteral, lower, foldedValue?_true rfl, hv]

/-- Without folding nothing is evaluated, so nothing is reported. -/
theorem lowerFaults_false (env : Env) (e : Expr) : e.lowerFaults false env = [] := by
  induction e with
  | num p v => rfl
  | bool p b => rfl
  | var p x => rfl
  | not p e ih => exact ih
  | binary p op l r ihl ihr =>
    have hfaults : (binary p op l r).foldingFaults false = [] := rfl
    have hvalue : (binary p op l r).foldedValue? false = none := rfl
    rw [lowerFaults, hfaults, hvalue, Option.isSome_none, if_neg Bool.false_ne_true, ihl, ihr]
    rcases l.lower false env with err | code <;> rfl

end Expr

/-- Whether the instruction belongs to an operator: the left operand of each is saved on the stack,
and a negation flips the accumulator. Nothing else in the code of an expression does either. -/
def Instr.isOperation (i : Instr) : Bool := i = .push .ax || i = .xorImm .ax 1

theorem BinaryOp.countP_code (op : BinaryOp) : op.code.countP Instr.isOperation = 0 := by
  cases op <;> rfl

namespace Expr

variable {e : Expr}

/-- The operator nodes that have a variable below them. -/
def isOpenOperator (e : Expr) : Bool := !e.isConstant && !e.isRead

/-- A constant has no operator node with a variable below it. -/
theorem countP_isOpenOperator (h : e.isConstant = true) : e.nodes.countP isOpenOperator = 0 := by
  induction e with
  | num p v => rfl
  | bool p b => rfl
  | var p x => exact absurd h Bool.false_ne_true
  | not p e ih =>
    rw [nodes, List.countP_append, ih h, List.countP_singleton, isOpenOperator, h]
    rfl
  | binary p op l r ihl ihr =>
    obtain ⟨hl, hr⟩ := Bool.and_eq_true_iff.1 h
    rw [nodes, List.countP_append, List.countP_append, ihl hl, ihr hr, List.countP_singleton,
      isOpenOperator, h]
    rfl

/-- With folding, a constant without faults becomes one immediate value, wherever it stands. -/
theorem lower_of_isConstant (hconst : e.isConstant = true) (h : e.constantPartFaults = []) :
    ∃ v, e.constantValue = some v ∧ ∀ env, e.lower true env = .ok [.moveImm .ax v.toWord] := by
  obtain ⟨v, hv, hreduced⟩ := reduced_of_isConstant hconst h
  refine ⟨v, hv, fun env ↦ ?_⟩
  rw [lower_reduced h, hreduced, lower_toLiteral]

private theorem countP_lower_of_isConstant (hconst : e.isConstant = true)
    (h : e.constantPartFaults = []) {env : Env} {code : List Instr}
    (hcode : e.lower true env = .ok code) :
    code.countP Instr.isOperation = e.nodes.countP isOpenOperator := by
  obtain ⟨v, -, hlower⟩ := lower_of_isConstant hconst h
  obtain rfl := Except.ok.inj ((hlower env).symm.trans hcode)
  rw [countP_isOpenOperator hconst]
  rfl

/-- With folding there is code for the operator nodes that have a variable below them, and for no
other. -/
theorem countP_isOperation_lower (h : e.constantPartFaults = []) {env : Env} {code : List Instr}
    (hcode : e.lower true env = .ok code) :
    code.countP Instr.isOperation = e.nodes.countP isOpenOperator := by
  induction e generalizing code with
  | num p v => exact countP_lower_of_isConstant rfl h hcode
  | bool p b => exact countP_lower_of_isConstant rfl h hcode
  | var p x =>
    rw [lower] at hcode
    rcases hx : env.operand p x with err | ⟨ty, m⟩
    · rw [hx] at hcode
      exact absurd hcode (by simp)
    · rw [hx] at hcode
      obtain rfl := Except.ok.inj hcode
      rw [loadAcc]
      split <;> rfl
  | not p e ih =>
    rcases hc : e.isConstant
    · have hnone : (not p e).foldedValue? true = none := foldedValue?_eq_none true hc
      rw [lower, hnone] at hcode
      rcases he : e.lower true env with err | operand
      · rw [he] at hcode
        exact absurd hcode (by simp)
      · rw [he] at hcode
        obtain rfl := Except.ok.inj hcode
        rw [nodes, List.countP_append, List.countP_append, ih (constantPartFaults_of_not h) he,
          List.countP_singleton, isOpenOperator, isConstant, hc]
        rfl
    · exact countP_lower_of_isConstant (e := not p e) hc h hcode
  | binary p op l r ihl ihr =>
    obtain ⟨hl, hr⟩ := constantPartFaults_of_binary h
    rcases hc : l.isConstant && r.isConstant
    · have hnone : (binary p op l r).foldedValue? true = none := foldedValue?_eq_none true hc
      rw [lower, hnone] at hcode
      rcases hlhs : l.lower true env with err | lhs
      · rw [hlhs] at hcode
        exact absurd hcode (by simp [bind, Except.bind])
      rcases hrhs : r.lower true env with err | rhs
      · rw [hlhs, hrhs] at hcode
        exact absurd hcode (by simp [bind, Except.bind])
      · rw [hlhs, hrhs] at hcode
        obtain rfl := Except.ok.inj hcode
        have hopen : isOpenOperator (binary p op l r) = true := by
          rw [isOpenOperator, isConstant, hc]
          rfl
        have hpush : Instr.isOperation (.push .ax) = true := rfl
        have hpop : Instr.isOperation (.pop .cx) = false := rfl
        simp only [nodes, List.countP_append, ihl hl hlhs, ihr hr hrhs, op.countP_code,
          List.countP_singleton, hopen, hpush, hpop]
        simp only [if_true, if_false, Bool.false_eq_true]
        omega
    · exact countP_lower_of_isConstant (e := binary p op l r) hc h hcode

end Expr

/-! ### Code of statements -/

/-- The variable with its initializer reduced. -/
def Declarator.reduced (v : Declarator) : Declarator := { v with init := v.init.map Expr.reduced }

/-- The declaration with its initializers reduced. -/
def Declaration.reduced (d : Declaration) : Declaration :=
  { d with vars := d.vars.map Declarator.reduced }

/-- The statement with its expressions reduced. -/
def Simple.reduced : Simple → Simple
  | declare d => declare d.reduced
  | assign p x e => assign p x e.reduced
  | ret p value => ret p (value.map Expr.reduced)
  | eval p e => eval p e.reduced

/-- The block with its expressions reduced. -/
def Block.reduced : Block → Block
  | done => done
  | simple a rest => simple a.reduced rest.reduced
  | ifThen p c t rest => ifThen p c.reduced t.reduced rest.reduced
  | ifElse p c t e rest => ifElse p c.reduced t.reduced e.reduced rest.reduced
  | loop p c b rest => loop p c.reduced b.reduced rest.reduced

/-- The program with the expressions of its function reduced. The initializers of global variables
are evaluated with and without folding, so they stay. -/
def Program.reduced (p : Program) : Program :=
  { p with function := { p.function with body := p.function.body.reduced } }

namespace Lower

theorem expr_reduced {e : Expr} (h : e.constantPartFaults = []) :
    expr true e = expr false e.reduced := by
  simp only [expr, Expr.lowerFaults_eq_nil h, Expr.lowerFaults_false, Expr.lower_reduced h]

/-- An initializer is stored as an immediate value with folding exactly if it is one after
reduction. -/
theorem initial_reduced {init : Option Expr}
    (h : ∀ e, init = some e → e.constantPartFaults = []) :
    initial true init = initial false (init.map Expr.reduced) := by
  rcases init with - | e
  · rfl
  have hparts := h e rfl
  have hfaults : e.reduced.foldingFaults false = [] := rfl
  have hvalue : e.reduced.foldedValue? false = none := rfl
  rw [Option.map_some, initial, initial, Expr.foldingFaults_eq_nil hparts, hfaults, hvalue]
  rcases hc : e.isConstant
  · rw [Expr.foldedValue?_eq_none true hc, Expr.immediate?_eq_none hc,
      Expr.immediate?_eq_none (Expr.isConstant_reduced hc), expr_reduced hparts]
  · obtain ⟨v, hv, hreduced⟩ := Expr.reduced_of_isConstant hc hparts
    rw [hreduced, Expr.immediate?_toLiteral]
    rcases hl : e.isLiteral
    · rw [Expr.foldedValue?_true hl, hv]
    · rw [Expr.foldedValue?_of_isLiteral true hl, Expr.immediate?_of_isLiteral hl hv]

theorem declarator_reduced (o : Options) (ty : Ty) {v : Declarator}
    (h : ∀ e, v.init = some e → e.constantPartFaults = []) :
    declarator (o.folding true) ty v = declarator (o.folding false) ty v.reduced := by
  rw [declarator, declarator]
  simp only [Options.folding, initial_reduced h]
  rfl

theorem declarators_reduced (o : Options) (ty : Ty) {vs : List Declarator}
    (h : ∀ e ∈ vs.filterMap Declarator.init, e.constantPartFaults = []) :
    declarators (o.folding true) ty vs =
      declarators (o.folding false) ty (vs.map Declarator.reduced) := by
  induction vs with
  | nil => rfl
  | cons v vs ih =>
    have hfirst : ∀ e, v.init = some e → e.constantPartFaults = [] :=
      fun e he ↦ h e (List.mem_filterMap.2 ⟨v, List.mem_cons_self, he⟩)
    have hothers : ∀ e ∈ vs.filterMap Declarator.init, e.constantPartFaults = [] := by
      intro e he
      obtain ⟨w, hw, hinit⟩ := List.mem_filterMap.1 he
      exact h e (List.mem_filterMap.2 ⟨w, List.mem_cons_of_mem _ hw, hinit⟩)
    rw [List.map_cons, declarators, declarators, declarator_reduced o ty hfirst, ih hothers]

end Lower

variable {o : Options}

theorem Options.remark_folding (h : o.emitComments = false) (fold : Bool) (text : String) :
    (o.folding fold).remark text = [] :=
  if_neg (by simp [folding, h])

theorem Simple.lower_reduced (h : o.emitComments = false) (f : String) {a : Simple}
    (hparts : ∀ e ∈ a.exprs, e.constantPartFaults = []) :
    a.lower (o.folding true) f = a.reduced.lower (o.folding false) f := by
  have hcode : a.code (o.folding true) f = a.reduced.code (o.folding false) f := by
    rcases a with d | ⟨p, x, e⟩ | ⟨p, - | e⟩ | ⟨p, e⟩
    · exact Lower.declarators_reduced o d.ty hparts
    · have he := Lower.expr_reduced (hparts e List.mem_cons_self)
      simp only [code, reduced, Options.folding, he]
    · rfl
    · have he := Lower.expr_reduced (hparts e List.mem_cons_self)
      simp only [code, reduced, Options.folding, he, Option.map_some]
    · exact Lower.expr_reduced (hparts e List.mem_cons_self)
  rw [lower, lower, hcode, Options.remark_folding h, Options.remark_folding h]

theorem Block.lower_reduced (h : o.emitComments = false) (f : String) {b : Block}
    (hparts : ∀ e ∈ b.exprs, e.constantPartFaults = []) :
    b.lower (o.folding true) f = b.reduced.lower (o.folding false) f := by
  have hfold : ∀ fold, (o.folding fold).foldConstants = fold := fun fold ↦ rfl
  induction b with
  | done => rfl
  | simple a rest ih =>
    obtain ⟨ha, hrest⟩ := forall_mem_exprs_simple.1 hparts
    rw [reduced, lower, lower, Simple.lower_reduced h f ha, ih hrest]
  | ifThen p c t rest iht ih =>
    obtain ⟨hc, ht, hrest⟩ := forall_mem_exprs_ifThen.1 hparts
    simp only [reduced, lower, hfold, Lower.expr_reduced hc, iht ht, ih hrest,
      Options.remark_folding h]
  | ifElse p c t e rest iht ihe ih =>
    obtain ⟨hc, ht, he, hrest⟩ := forall_mem_exprs_ifElse.1 hparts
    simp only [reduced, lower, hfold, Lower.expr_reduced hc, iht ht, ihe he, ih hrest,
      Options.remark_folding h]
  | loop p c b rest ihb ih =>
    obtain ⟨hc, hb, hrest⟩ := forall_mem_exprs_loop.1 hparts
    simp only [reduced, lower, hfold, Lower.expr_reduced hc, ihb hb, ih hrest,
      Options.remark_folding h]

/-! ### Programs -/

namespace Block

/-- Reduction leaves returns where they are. -/
theorem alwaysReturns_reduced (b : Block) : b.reduced.alwaysReturns = b.alwaysReturns := by
  have hsimple : ∀ a : Simple, a.reduced.isReturn = a.isReturn := by rintro (_ | _ | _ | _) <;> rfl
  induction b with
  | done => rfl
  | simple a rest ih => rw [reduced, alwaysReturns, alwaysReturns, ih, hsimple]
  | ifThen p c t rest iht ih => exact ih
  | ifElse p c t e rest iht ihe ih => rw [reduced, alwaysReturns, alwaysReturns, iht, ihe, ih]
  | loop p c b rest ihb ih => exact ih

theorem declarations_reduced (b : Block) :
    b.reduced.declarations = b.declarations.map Declaration.reduced := by
  induction b with
  | done => rfl
  | simple a rest ih =>
    rcases a with d | _ | _ | _
    · exact congrArg (d.reduced :: ·) ih
    · exact ih
    · exact ih
    · exact ih
  | ifThen p c t rest iht ih =>
    rw [reduced, declarations, declarations, iht, ih, List.map_append]
  | ifElse p c t e rest iht ihe ih =>
    rw [reduced, declarations, declarations, iht, ihe, ih, List.map_append, List.map_append]
  | loop p c b rest ihb ih =>
    rw [reduced, declarations, declarations, ihb, ih, List.map_append]

/-- The expressions of a reduced block are those of the block, reduced. -/
theorem exprs_reduced (b : Block) : b.reduced.exprs = b.exprs.map Expr.reduced := by
  have hsimple : ∀ a : Simple, a.reduced.exprs = a.exprs.map Expr.reduced := by
    rintro (d | _ | ⟨p, - | e⟩ | _)
    · show (d.vars.map Declarator.reduced).filterMap Declarator.init = _
      rw [List.filterMap_map]
      exact List.map_filterMap.symm
    · rfl
    · rfl
    · rfl
    · rfl
  induction b with
  | done => rfl
  | simple a rest ih => rw [reduced, exprs, exprs, hsimple, ih, List.map_append]
  | ifThen p c t rest iht ih => simp only [reduced, exprs, iht, ih, List.map_append, List.map_cons]
  | ifElse p c t e rest iht ihe ih =>
    simp only [reduced, exprs, iht, ihe, ih, List.map_append, List.map_cons]
  | loop p c b rest ihb ih => simp only [reduced, exprs, ihb, ih, List.map_append, List.map_cons]

end Block

namespace Program

/-- Reduced initializers take as much of the frame. -/
theorem frameSize_reduced (p : Program) (align : UInt32) :
    p.reduced.function.frameSize align = p.function.frameSize align := by
  have hbytes : ∀ d : Declaration, d.reduced.bytes = d.bytes := by
    intro d
    rw [Declaration.bytes, Declaration.bytes, Declaration.reduced, List.length_map]
  have hbody : p.reduced.function.body.declarations =
      p.function.body.declarations.map Declaration.reduced := p.function.body.declarations_reduced
  rw [Function.frameSize, Function.frameSize, Function.variableBytes, Function.variableBytes, hbody,
    List.foldr_map]
  simp only [hbytes]
  rfl

/-- Code generation with folding is code generation without it for the reduced program, from any
state. -/
theorem lower_reduced (h : o.emitComments = false) {p : Program}
    (hparts : ∀ e ∈ p.function.body.exprs, e.constantPartFaults = []) :
    p.lower (o.folding true) = p.reduced.lower (o.folding false) := by
  have hfunction : p.function.lower (o.folding true) =
      p.reduced.function.lower (o.folding false) := by
    have hbody : p.function.body.lower (o.folding true) p.function.name =
        p.reduced.function.body.lower (o.folding false) p.reduced.function.name :=
      Block.lower_reduced h p.function.name hparts
    have hreturns : p.reduced.function.body.alwaysReturns = p.function.body.alwaysReturns :=
      p.function.body.alwaysReturns_reduced
    rw [Function.lower, Function.lower, hbody, hreturns, p.frameSize_reduced]
    rfl
  rw [lower, lower, hfunction]
  rfl

/-- Folding is replacement in the text. For a program that is analyzed without error, with remarks
off, code generation with folding succeeds, and code generation without folding does the same with
the reduced program, from the same session. Each constant in the function has a value and is reduced
to its literal, so that no operator of the reduced program applies to constants only; and the folded
code of an expression has as many operations as the expression has operators with a variable below
them. -/
theorem generate_reduced (o : Options) (hremarks : o.emitComments = false) {entry : String}
    {p : Program} (h : (p.analyze entry {}).Clean) :
    (∃ a s, p.generate (o.folding true) (p.analyze entry {}) = (.ok a, s) ∧
        p.reduced.generate (o.folding false) (p.analyze entry {}) = (.ok a, s)) ∧
      (∀ e ∈ p.reduced.function.body.exprs, ∀ n ∈ e.nodes, n.isConstant = true →
        n.isLiteral = true) ∧
      ∀ e ∈ p.function.body.exprs,
        (∀ n ∈ e.nodes, n.isConstant = true →
          ∃ v, n.constantValue = some v ∧ n.reduced = v.toLiteral n.pos) ∧
        ∀ env code, e.lower true env = .ok code →
          code.countP Instr.isOperation = e.nodes.countP Expr.isOpenOperator := by
  obtain ⟨-, hparts⟩ := wellFormed_of_clean_analyze h
  have hbody : ∀ e ∈ p.function.body.exprs, e.constantPartFaults = [] :=
    fun e he ↦ hparts e (List.mem_append_right _ he)
  refine ⟨?_, ?_, fun e he ↦ ⟨fun n hn hconst ↦ ?_, fun env code hcode ↦ ?_⟩⟩
  · obtain ⟨s, hs, -⟩ := generate_eq_ok (o.folding true) h
    refine ⟨_, s, hs, ?_⟩
    rw [← hs, generate, generate, lower_reduced hremarks hbody]
  · intro e he n hn hconst
    have hexprs : p.reduced.function.body.exprs = p.function.body.exprs.map Expr.reduced :=
      p.function.body.exprs_reduced
    rw [hexprs, List.mem_map] at he
    obtain ⟨d, hd, rfl⟩ := he
    exact Expr.isLiteral_of_mem_nodes_reduced (hbody d hd) hn hconst
  · exact Expr.reduced_of_isConstant hconst (Expr.constantPartFaults_of_mem_nodes (hbody e he) hn)
  · exact Expr.countP_isOperation_lower (hbody e he) hcode

/-- A program with constants in initializers, below variables and below a negation, `int f(int n) {
int k = 2 * 3; bool b = !(1 < 2); while (!(n < 10 / (7 - 2)) || b) { n = n - (1 + 1); } return
(k + n) / (4 - 1); }`. -/
def mosaic : Program where
  function := {
    returnTy := .int
    name := "f"
    params := [{ ty := .int, name := "n" }]
    body :=
      .simple (.declare ⟨.int, [⟨"k", some (.binary {} .mul (.num {} 2) (.num {} 3)), {}⟩], {}⟩)
        (.simple (.declare ⟨.bool,
            [⟨"b", some (.not {} (.binary {} .lt (.num {} 1) (.num {} 2))), {}⟩], {}⟩)
          (.loop {}
            (.binary {} .or
              (.not {} (.binary {} .lt (.var {} "n")
                (.binary {} .div (.num {} 10) (.binary {} .sub (.num {} 7) (.num {} 2)))))
              (.var {} "b"))
            (.simple (.assign {} "n"
              (.binary {} .sub (.var {} "n") (.binary {} .add (.num {} 1) (.num {} 1)))) .done)
            (.simple (.ret {} (some (.binary {} .div
              (.binary {} .add (.var {} "k") (.var {} "n"))
              (.binary {} .sub (.num {} 4) (.num {} 1))))) .done))) }

/-- Its code with folding is that of the program with its five largest constants written out. -/
theorem generate_reduced_mosaic :
    (mosaic.analyze "_start" {}).Clean ∧
      mosaic.reduced.function.body.texts =
        ["int k = 6;", "bool b = false;",
          "while ((!(n < 2) || b)) \x7b n = (n - 2); \x7d", "return ((k + n) / 3);"] ∧
      ∃ a s, mosaic.generate (Options.folding {} true) (mosaic.analyze "_start" {}) = (.ok a, s) ∧
        mosaic.reduced.generate (Options.folding {} false) (mosaic.analyze "_start" {}) =
          (.ok a, s) := by
  have hclean : (mosaic.analyze "_start" {}).diagnostics.errors = [] := by decide +kernel
  exact ⟨hclean, by decide +kernel, (generate_reduced {} rfl hclean).1⟩

end Program

end BlockLang
