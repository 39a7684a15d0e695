import BlockLang.Proofs.Semantics.Interpreter

/-!
# Straight-line programs

A program whose function has no branches, no loops and no return but at its end is executed from the
top to the bottom. Such an execution needs no bound, and it can tell a division by zero from all
else that may go wrong. A division of the least integer by minus one is no failure here; it wraps
around, as the other operations do.

The execution ends inside the scope of the function, so the values of its variables can still be
looked at, and `Completes` is the form in which it is reasoned about: it divides by zero, or it has
a result of which something is known. The interpreter, which fails in more cases, agrees with it
where it has a result (`Program.execute_of_run`).
-/

namespace BlockLang

/-! ### Results -/

/-- Why an execution stops before the end. -/
inductive Halt where
  /-- A division by zero. -/
  | divisionByZero
  /-- A name without a variable, an operand of the wrong type, or a statement that is not part of
  straight-line programs. -/
  | stuck
deriving DecidableEq, Repr

namespace Halt

variable {α β : Type}

/-- The value, if there is one. -/
def orStuck : Option α → Except Halt α
  | some a => .ok a
  | none => .error .stuck

/-- The execution divides by zero, or it has a result with the property. -/
def Completes (r : Except Halt α) (P : α → Prop) : Prop :=
  r = .error .divisionByZero ∨ ∃ a, r = .ok a ∧ P a

theorem completes_ok {P : α → Prop} {a : α} (h : P a) : Completes (.ok a) P := .inr ⟨a, rfl, h⟩

theorem Completes.bind {r : Except Halt α} {f : α → Except Halt β} {P : α → Prop} {Q : β → Prop}
    (h : Completes r P) (hf : ∀ a, P a → Completes (f a) Q) : Completes (r >>= f) Q := by
  rcases h with rfl | ⟨a, rfl, ha⟩
  · exact .inl rfl
  · exact hf a ha

end Halt

open Halt (orStuck)

/-! ### Expressions -/

/-- The result of an operator during an execution. -/
def BinaryOp.compute (op : BinaryOp) (a b : Value) : Except Halt Value :=
  if op = .div ∧ b = .int 0 then .error .divisionByZero else orStuck (op.apply a b)

/-- The value of an expression, given the values of the visible variables. Both operands of an
operator are always evaluated. -/
def Expr.compute (ρ : String → Option Value) : Expr → Except Halt Value
  | num _ v => .ok (.int v)
  | bool _ b => .ok (.bool b)
  | var _ x => orStuck (ρ x)
  | not _ e => e.compute ρ >>= fun v ↦ orStuck v.not
  | binary _ op l r => l.compute ρ >>= fun a ↦ r.compute ρ >>= fun b ↦ op.compute a b

/-! ### Statements -/

/-- The value that a variable of type `ty` is given by its declaration, zero or false if it has no
initializer. -/
def Declarator.initial (ty : Ty) (ρ : String → Option Value) (v : Declarator) : Except Halt Value :=
  match v.init with
  | none => orStuck ty.defaultValue
  | some e => e.compute ρ

/-- The store after the declaration of variables of type `ty`. -/
def executeDeclarators (ty : Ty) : List Declarator → Store → Except Halt Store
  | [], s => .ok s
  | v :: vs, s => v.initial ty s.find? >>= fun a ↦ executeDeclarators ty vs (s.bind v.name a)

/-- The store after a statement without inner blocks. -/
def Simple.execute : Simple → Store → Except Halt Store
  | declare d, s => executeDeclarators d.ty d.vars s
  | assign _ x e, s =>
    e.compute s.find? >>= fun v ↦ orStuck (s.find? x) >>= fun _ ↦ .ok (s.assign x v)
  | ret _ none, s => .ok s
  | ret _ (some e), s => e.compute s.find? >>= fun _ ↦ .ok s
  | eval _ e, s => e.compute s.find? >>= fun _ ↦ .ok s

namespace Block

/-- Whether the block has neither inner blocks nor a return before its end. -/
def isStraight : Block → Bool
  | done => true
  | simple a rest => (!a.isReturn || decide (rest = done)) && rest.isStraight
  | ifThen _ _ _ _ | ifElse _ _ _ _ _ | loop _ _ _ _ => false

/-- The store after a straight block. Nothing follows a return. -/
def execute : Block → Store → Except Halt Store
  | done, s => .ok s
  | simple a rest, s => a.execute s >>= fun s ↦ if a.isReturn then .ok s else rest.execute s
  | ifThen _ _ _ _, _ | ifElse _ _ _ _ _, _ | loop _ _ _ _, _ => .error .stuck

theorem isStraight_simple {a : Simple} {rest : Block} (h : (simple a rest).isStraight = true) :
    (a.isReturn = true → rest = done) ∧ rest.isStraight = true := by
  obtain ⟨hreturn, hrest⟩ := Bool.and_eq_true_iff.1 h
  refine ⟨fun ha ↦ ?_, hrest⟩
  simpa [ha] using hreturn

end Block

/-! ### Programs -/

/-- The store after global declarations. -/
def executeGlobals : List Declaration → Store → Except Halt Store
  | [], s => .ok s
  | d :: ds, s => executeDeclarators d.ty d.vars s >>= executeGlobals ds

/-- The store at the end of a program without parameters, before the scope of the function is
left. -/
def Program.execute (p : Program) : Except Halt Store :=
  executeGlobals p.globals {} >>= fun s ↦ p.function.body.execute s.enter

/-- What the scope at the given level binds `x` to, where level zero is the outermost scope. -/
def Store.cell? (s : Store) (level : Nat) (x : String) : Option Value :=
  s.scopes.reverse[level]?.bind (· x)

/-! ### Agreement with the interpreter -/

theorem BinaryOp.compute_of_eval {op : BinaryOp} {a b v : Value} (h : op.eval a b = some v) :
    op.compute a b = .ok v := by
  rw [eval] at h
  split at h
  · cases h
  · rename_i htraps
    have hzero : ¬(op = .div ∧ b = .int 0) := by
      rintro ⟨rfl, rfl⟩
      exact htraps (by simp [traps])
    rw [compute, if_neg hzero, h]
    rfl

theorem Expr.compute_of_eval {ρ : String → Option Value} {e : Expr} {v : Value}
    (h : e.eval ρ = some v) : e.compute ρ = .ok v := by
  induction e generalizing v with
  | num p w => exact congrArg orStuck h
  | bool p b => exact congrArg orStuck h
  | var p x => exact congrArg orStuck h
  | not p e ih =>
    obtain ⟨w, hw, hnot⟩ := Option.bind_eq_some_iff.1 h
    rw [compute, ih hw]
    exact congrArg orStuck hnot
  | binary p op l r ihl ihr =>
    obtain ⟨a, ha, hb⟩ := Option.bind_eq_some_iff.1 h
    obtain ⟨b, hb, hop⟩ := Option.bind_eq_some_iff.1 hb
    rw [compute, ihl ha, ihr hb]
    exact BinaryOp.compute_of_eval hop

theorem executeDeclarators_of_declareAll {ty : Ty} {vs : List Declarator} {s s' : Store}
    (h : Store.declareAll ty vs s = some s') : executeDeclarators ty vs s = .ok s' := by
  induction vs generalizing s with
  | nil => exact congrArg orStuck h
  | cons v vs ih =>
    obtain ⟨a, ha, hvs⟩ := Option.bind_eq_some_iff.1 h
    have hinitial : v.initial ty s.find? = .ok a := by
      rw [Declarator.start] at ha
      rw [Declarator.initial]
      rcases hinit : v.init with - | e
      · rw [hinit] at ha
        exact congrArg orStuck ha
      · rw [hinit] at ha
        exact Expr.compute_of_eval ha
    rw [executeDeclarators, hinitial]
    exact ih hvs

theorem Simple.execute_of_run {a : Simple} {s : Store} {r : Flow × Store} (h : a.run s = some r) :
    a.execute s = .ok r.2 ∧ (a.isReturn = false → r.1 = .next) := by
  cases a with
  | declare d =>
    obtain ⟨s', hs', rfl⟩ := Option.map_eq_some_iff.1 h
    exact ⟨executeDeclarators_of_declareAll hs', fun _ ↦ rfl⟩
  | assign pos x e =>
    obtain ⟨v, hv, hx⟩ := Option.bind_eq_some_iff.1 h
    obtain ⟨w, hw, rfl⟩ := Option.map_eq_some_iff.1 hx
    rw [execute, Expr.compute_of_eval hv, hw]
    exact ⟨rfl, fun _ ↦ rfl⟩
  | ret pos value =>
    refine ⟨?_, fun hreturn ↦ by cases hreturn⟩
    rcases value with - | e
    · obtain rfl := Option.some.inj h
      rfl
    · obtain ⟨v, hv, rfl⟩ := Option.map_eq_some_iff.1 h
      rw [execute, Expr.compute_of_eval hv]
      rfl
  | eval pos e =>
    obtain ⟨v, hv, rfl⟩ := Option.map_eq_some_iff.1 h
    rw [execute, Expr.compute_of_eval hv]
    exact ⟨rfl, fun _ ↦ rfl⟩

theorem Block.execute_of_run {b : Block} (hstraight : b.isStraight = true) {bound : Nat} {s : Store}
    {r : Flow × Store} (h : b.run bound s = some r) : b.execute s = .ok r.2 := by
  induction b generalizing s with
  | done =>
    obtain rfl := Option.some.inj h
    rfl
  | simple a rest ih =>
    obtain ⟨-, hrest⟩ := isStraight_simple hstraight
    rcases Run.andThen_eq_some.1 h with ⟨s₁, ha, hr⟩ | ⟨v, s₁, ha, rfl⟩
    · have hreturn : a.isReturn = false := by
        by_contra hreturn
        exact Simple.returns_run (by simpa using hreturn) _ _ _ ha rfl
      rw [execute, (Simple.execute_of_run ha).1, hreturn]
      exact ih hrest hr
    · have hreturn : a.isReturn = true := by
        by_contra hreturn
        cases (Simple.execute_of_run ha).2 (by simpa using hreturn)
      rw [execute, (Simple.execute_of_run ha).1, hreturn]
      rfl
  | ifThen pos c t rest => cases hstraight
  | ifElse pos c t e rest => cases hstraight
  | loop pos c b rest => cases hstraight

theorem executeGlobals_of_foldlM {ds : List Declaration} {s s' : Store}
    (h : ds.foldlM (fun s d ↦ Store.declareAll d.ty d.vars s) s = some s') :
    executeGlobals ds s = .ok s' := by
  induction ds generalizing s with
  | nil => exact congrArg orStuck h
  | cons d ds ih =>
    rw [List.foldlM_cons] at h
    obtain ⟨s₁, hs₁, hds⟩ := Option.bind_eq_some_iff.1 h
    rw [executeGlobals, executeDeclarators_of_declareAll hs₁]
    exact ih hds

/-- Where the interpreter has a result, the execution ends with the same global variables. -/
theorem Program.execute_of_run {p : Program} (hparams : p.function.params = [])
    (hstraight : p.function.body.isStraight = true) {bound : Nat} {r : Int32 × Store}
    (h : p.run bound [] = some r) : ∃ s, p.execute = .ok s ∧ s.leave = r.2 := by
  obtain ⟨g, hg, hfunction⟩ := Option.bind_eq_some_iff.1 h
  rw [Function.run, hparams] at hfunction
  obtain ⟨s, hs, hbody⟩ := Option.bind_eq_some_iff.1 hfunction
  obtain rfl := Option.some.inj hs
  obtain ⟨end', hend, rfl⟩ := Option.map_eq_some_iff.1 hbody
  rw [execute, executeGlobals_of_foldlM hg]
  exact ⟨end'.2, Block.execute_of_run hstraight hend, rfl⟩

end BlockLang
