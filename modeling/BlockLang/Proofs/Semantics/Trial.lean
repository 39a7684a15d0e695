import BlockLang.Expr.Constant
import BlockLang.Proofs.Semantics.Interpreter

/-!
# Why a program has no result

The interpreter says nothing of a program without a result within some bound on its loops. Here it
is run once more, and now says why: a division was without a result, or a loop needed more tests
than the bound. A program that fails in the first way with some bound stops there, and one that
fails in the second way with every bound does not end.

A `Trial` is put together by the same operations as a `Run`. Each has a lemma that says when it
fails, and one that says that nothing else has changed: where a trial has a result, the run has the
same, and where it fails, the run has none (`Block.run_trial`).
-/

namespace BlockLang

/-- Why a piece of a program has no result. -/
inductive Failure where
  /-- A division has none. -/
  | trap
  /-- A loop needs more tests than it may have. -/
  | bound
deriving DecidableEq, Repr

/-- What a piece of a program does to the store and how it ends, or why it does not. -/
abbrev Trial := Store → Except Failure (Flow × Store)

namespace Trial

/-- What can only fail for want of a value. -/
def ofRun (run : Run) : Trial := fun s ↦
  match run s with
  | some r => .ok r
  | none => .error .trap

/-- Nothing happens. -/
def skip : Trial := fun s ↦ .ok (.next, s)

/-- One piece after the other; a return skips the second. -/
def andThen (first second : Trial) : Trial := fun s ↦
  match first s with
  | .ok (.next, s) => second s
  | .ok (.ret v, s) => .ok (.ret v, s)
  | .error x => .error x

/-- A piece in a scope of its own, which is left however the piece ends. -/
def inside (body : Trial) : Trial := fun s ↦ (body s.enter).map fun r ↦ (r.1, r.2.leave)

/-- One of two pieces, as a condition says. -/
def branch (c : Expr) (yes no : Trial) : Trial := fun s ↦
  match c.eval s.find? with
  | some (.bool true) => yes s
  | some (.bool false) => no s
  | some (.int _) => .error .trap
  | none => .error .trap

/-- A piece again and again while a condition holds, for at most the given number of tests. -/
def loop (c : Expr) (body : Trial) : Nat → Trial
  | 0 => fun _ ↦ .error .bound
  | turns + 1 => branch c (body.andThen (loop c body turns)) skip

/-- The results of a trial. -/
def run (t : Trial) : Run := fun s ↦ (t s).toOption

end Trial

/-- What a block does with the given bound for its loops, or why it fails. -/
def Block.trial (bound : Nat) : Block → Trial
  | done => .skip
  | simple a rest => .andThen (.ofRun a.run) (rest.trial bound)
  | ifThen _ c t rest => .andThen (.branch c (.inside (t.trial bound)) .skip) (rest.trial bound)
  | ifElse _ c t e rest =>
    .andThen (.branch c (.inside (t.trial bound)) (.inside (e.trial bound))) (rest.trial bound)
  | loop _ c b rest => .andThen (.loop c (.inside (b.trial bound)) bound) (rest.trial bound)

namespace Trial

variable {first second body yes no : Trial} {c : Expr} {s : Store} {x : Failure}

/-! ### Results -/

theorem run_eq_some {t : Trial} {r : Flow × Store} (h : t s = .ok r) : t.run s = some r := by
  rw [run, h]
  rfl

@[simp] theorem run_ofRun (r : Run) : (ofRun r).run = r := by
  funext s
  rw [run, ofRun]
  rcases r s with - | r <;> rfl

@[simp] theorem run_skip : skip.run = .skip := rfl

@[simp] theorem run_andThen (first second : Trial) :
    (first.andThen second).run = first.run.andThen second.run := by
  funext s
  rw [run, andThen, Run.andThen, run]
  rcases first s with x | ⟨- | v, s₁⟩ <;> rfl

@[simp] theorem run_inside (body : Trial) : body.inside.run = body.run.inside := by
  funext s
  rw [run, inside, Run.inside, run]
  rcases body s.enter with x | r <;> rfl

@[simp] theorem run_branch (c : Expr) (yes no : Trial) :
    (branch c yes no).run = .branch c yes.run no.run := by
  funext s
  rw [run, branch, Run.branch]
  rcases c.eval s.find? with - | (v | b)
  · rfl
  · rfl
  · cases b <;> rfl

@[simp] theorem run_loop (c : Expr) (body : Trial) (turns : Nat) :
    (loop c body turns).run = .loop c body.run turns := by
  induction turns with
  | zero => rfl
  | succ turns ih => rw [loop, run_branch, run_andThen, run_skip, ih, Run.loop]

/-! ### Failures -/

theorem ofRun_eq_error {r : Run} : ofRun r s = .error x ↔ r s = none ∧ x = .trap := by
  rw [ofRun]
  rcases r s with - | r <;> simp [eq_comm]

theorem andThen_eq_error :
    first.andThen second s = .error x ↔
      first s = .error x ∨ ∃ s₁, first s = .ok (.next, s₁) ∧ second s₁ = .error x := by
  rw [andThen]
  rcases first s with y | ⟨- | v, s₁⟩ <;> simp

theorem inside_eq_error : body.inside s = .error x ↔ body s.enter = .error x := by
  rw [inside]
  rcases body s.enter with y | r <;> simp [Except.map]

/-- A branch fails like the piece that its condition chooses, or because the condition has no truth
value. -/
theorem branch_eq_error :
    branch c yes no s = .error x ↔
      (∃ b, c.eval s.find? = some (.bool b) ∧ (if b then yes else no) s = .error x) ∨
        x = .trap ∧ ∀ b, c.eval s.find? ≠ some (.bool b) := by
  rw [branch]
  rcases c.eval s.find? with - | (v | b)
  · simp [eq_comm]
  · simp [eq_comm]
  · cases b <;> simp

end Trial

/-- Trials of a block have the results of its runs. -/
@[simp] theorem Block.run_trial (bound : Nat) (b : Block) : (b.trial bound).run = b.run bound := by
  induction b with
  | done => rfl
  | simple a rest ih => simp [trial, Block.run, ih]
  | ifThen pos c t rest iht ih => simp [trial, Block.run, iht, ih]
  | ifElse pos c t e rest iht ihe ih => simp [trial, Block.run, iht, ihe, ih]
  | loop pos c b rest ihb ih => simp [trial, Block.run, ihb, ih]

/-! ### The values that a program is loaded with -/

/-- The value that a global variable of type `ty` has before the program runs. -/
def Declarator.preset (ty : Ty) (v : Declarator) : Option Value :=
  match v.init with
  | none => ty.defaultValue
  | some e => e.constantValue

/-- The store after global variables of type `ty`. -/
def Store.presetAll (ty : Ty) : List Declarator → Store → Option Store
  | [], s => some s
  | v :: vs, s => (v.preset ty).bind fun a ↦ presetAll ty vs (s.bind v.name a)

/-- The store that a program is loaded with. -/
def Program.loadedStore (p : Program) : Option Store :=
  p.globals.foldlM (fun s d ↦ Store.presetAll d.ty d.vars s) {}

end BlockLang
