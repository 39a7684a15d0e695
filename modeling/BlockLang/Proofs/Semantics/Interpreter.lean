import BlockLang.Program.Flow
import BlockLang.Proofs.Scope.Nest
import BlockLang.Value

/-!
# What a program means

A reference interpreter on program text. A `Store` holds the values of the variables, scope by
scope; a name means the nearest enclosing variable, and a declaration gives its variable a value
whenever it is executed, zero or false if it has no initializer. Integers are of 32 bits and wrap
around, division is toward zero, and both operands of an operator are always evaluated. A function
that returns nothing, or runs out of statements, has the result zero.

The interpreter has no result where a division does: by zero, or of the least integer by minus one.
It also has none on a program that is not well formed. A loop runs as many turns as it takes, up to
a bound that the interpreter is given; a larger bound never changes a result (`Program.run_mono`),
so the results for all bounds are one result.

Statements are functions on stores, `Run`s. They are put together by four operations, one for each
way in which the language does so, and everything that is proved of blocks goes through the lemmas
on these.
-/

namespace BlockLang

/-- The values of the variables, scope by scope. -/
abbrev Store := Nest Value

/-! ### Expressions -/

namespace BinaryOp

/-- Whether the operator is a division without a result. -/
def traps (op : BinaryOp) (a b : Value) : Bool :=
  op = .div && (b = .int 0 || a = .int Int32.minValue && b = .int (-1))

/-- The result of an operator during a run. -/
def eval (op : BinaryOp) (a b : Value) : Option Value := if op.traps a b then none else op.apply a b

end BinaryOp

/-- The value of an expression, given the values of the visible variables. -/
def Expr.eval (ρ : String → Option Value) : Expr → Option Value
  | num _ v => some (.int v)
  | bool _ b => some (.bool b)
  | var _ x => ρ x
  | not _ e => (e.eval ρ).bind Value.not
  | binary _ op l r => (l.eval ρ).bind fun a ↦ (r.eval ρ).bind fun b ↦ op.eval a b

/-! ### Statements -/

/-- How a statement ends. -/
inductive Flow where
  /-- What follows is executed. -/
  | next
  /-- The function returns, with a value if there is one. -/
  | ret (value : Option Value)
deriving DecidableEq, Repr

/-- The result of a function that ends in this way. -/
def Flow.word : Flow → Int32
  | next => 0
  | ret value => value.elim 0 Value.toWord

/-- What a piece of a program does to the store, and how it ends. -/
abbrev Run := Store → Option (Flow × Store)

namespace Run

/-- Nothing happens. -/
def skip : Run := fun s ↦ some (.next, s)

/-- One piece after the other; a return skips the second. -/
def andThen (first second : Run) : Run := fun s ↦
  (first s).bind fun
    | (.next, s) => second s
    | (.ret v, s) => some (.ret v, s)

/-- A piece in a scope of its own, which is left however the piece ends. -/
def inside (body : Run) : Run := fun s ↦ (body s.enter).map fun r ↦ (r.1, r.2.leave)

/-- One of two pieces, as a condition says. -/
def branch (c : Expr) (yes no : Run) : Run := fun s ↦
  match c.eval s.find? with
  | some (.bool true) => yes s
  | some (.bool false) => no s
  | some (.int _) => none
  | none => none

/-- A piece again and again while a condition holds, for at most the given number of tests. -/
def loop (c : Expr) (body : Run) : Nat → Run
  | 0 => fun _ ↦ none
  | turns + 1 => branch c (body.andThen (loop c body turns)) skip

end Run

/-- The value that a variable of type `ty` is given by its declaration. -/
def Declarator.start (ty : Ty) (ρ : String → Option Value) (v : Declarator) : Option Value :=
  match v.init with
  | none => ty.defaultValue
  | some e => e.eval ρ

/-- The store after the declaration of variables of type `ty`. -/
def Store.declareAll (ty : Ty) : List Declarator → Store → Option Store
  | [], s => some s
  | v :: vs, s => (v.start ty s.find?).bind fun a ↦ declareAll ty vs (s.bind v.name a)

namespace Simple

/-- What a statement without inner blocks does. -/
def run : Simple → Run
  | declare d, s => (Store.declareAll d.ty d.vars s).map fun s ↦ (.next, s)
  | assign _ x e, s =>
    (e.eval s.find?).bind fun v ↦ (s.find? x).map fun _ ↦ (.next, s.assign x v)
  | ret _ none, s => some (.ret none, s)
  | ret _ (some e), s => (e.eval s.find?).map fun v ↦ (.ret (some v), s)
  | eval _ e, s => (e.eval s.find?).map fun _ ↦ (.next, s)

end Simple

/-- What a block does, if no loop in it needs more tests than the bound. -/
def Block.run (bound : Nat) : Block → Run
  | done => .skip
  | simple a rest => .andThen a.run (rest.run bound)
  | ifThen _ c t rest => .andThen (.branch c (.inside (t.run bound)) .skip) (rest.run bound)
  | ifElse _ c t e rest =>
    .andThen (.branch c (.inside (t.run bound)) (.inside (e.run bound))) (rest.run bound)
  | loop _ c b rest => .andThen (.loop c (.inside (b.run bound)) bound) (rest.run bound)

/-! ### Programs -/

/-- The store with arguments for parameters. Each argument has the type of its parameter. -/
def Store.pass : List Param → List Value → Store → Option Store
  | [], [], s => some s
  | p :: ps, v :: vs, s => if v.ty = p.ty then pass ps vs (s.bind p.name v) else none
  | [], _ :: _, _ => none
  | _ :: _, [], _ => none

/-- The result of a function on arguments, and the store around it afterwards. -/
def Function.run (bound : Nat) (f : Function) (args : List Value) (s : Store) :
    Option (Int32 × Store) :=
  (Store.pass f.params args s.enter).bind fun s ↦
    (f.body.run bound s).map fun r ↦ (r.1.word, r.2.leave)

/-- The store with all global variables. -/
def Program.globalStore (p : Program) : Option Store :=
  p.globals.foldlM (fun s d ↦ Store.declareAll d.ty d.vars s) {}

/-- The result of the function of a program on arguments, and the values of the global variables
afterwards. -/
def Program.run (bound : Nat) (p : Program) (args : List Value) : Option (Int32 × Store) :=
  p.globalStore.bind fun s ↦ p.function.run bound args s

/-! ### Runs that have a result -/

namespace Run

variable {first second body yes no : Run} {c : Expr} {s : Store} {r : Flow × Store}

theorem andThen_eq_some :
    first.andThen second s = some r ↔
      (∃ s₁, first s = some (.next, s₁) ∧ second s₁ = some r) ∨
        ∃ v s₁, first s = some (.ret v, s₁) ∧ r = (.ret v, s₁) := by
  rw [andThen]
  rcases hfirst : first s with - | ⟨- | v, s₁⟩
  · simp
  · simp
  · constructor
    · intro h
      exact .inr ⟨v, s₁, rfl, (Option.some.inj h).symm⟩
    · rintro (⟨s₂, h, -⟩ | ⟨w, s₂, h, rfl⟩)
      · cases h
      · exact h

theorem inside_eq_some {o : Flow} {s' : Store} :
    body.inside s = some (o, s') ↔ ∃ s₁, body s.enter = some (o, s₁) ∧ s₁.leave = s' := by
  rw [inside, Option.map_eq_some_iff]
  constructor
  · rintro ⟨⟨o₁, s₁⟩, h, hr⟩
    obtain ⟨rfl, rfl⟩ := Prod.ext_iff.1 hr
    exact ⟨s₁, h, rfl⟩
  · rintro ⟨s₁, h, rfl⟩
    exact ⟨(o, s₁), h, rfl⟩

theorem branch_eq_some :
    branch c yes no s = some r ↔
      c.eval s.find? = some (.bool true) ∧ yes s = some r ∨
        c.eval s.find? = some (.bool false) ∧ no s = some r := by
  rw [branch]
  rcases hc : c.eval s.find? with - | (v | b)
  · simp
  · simp
  · cases b <;> simp

end Run

/-! ### The bound does not matter -/

/-- Wherever the first run has a result, the second has the same. -/
def Run.Le (first second : Run) : Prop := ∀ s r, first s = some r → second s = some r

namespace Run

variable {first first' second second' body body' yes yes' no no' : Run}

theorem Le.refl (run : Run) : run.Le run := fun _ _ h ↦ h

theorem Le.andThen (h : first.Le first') (h' : second.Le second') :
    (first.andThen second).Le (first'.andThen second') := by
  intro s r hr
  rcases andThen_eq_some.1 hr with ⟨s₁, h₁, h₂⟩ | ⟨v, s₁, h₁, hret⟩
  · exact andThen_eq_some.2 (.inl ⟨s₁, h _ _ h₁, h' _ _ h₂⟩)
  · exact andThen_eq_some.2 (.inr ⟨v, s₁, h _ _ h₁, hret⟩)

theorem Le.inside (h : body.Le body') : body.inside.Le body'.inside := by
  rintro s ⟨o, s'⟩ hr
  obtain ⟨s₁, h₁, hleave⟩ := inside_eq_some.1 hr
  exact inside_eq_some.2 ⟨s₁, h _ _ h₁, hleave⟩

theorem Le.branch (c : Expr) (hyes : yes.Le yes') (hno : no.Le no') :
    (branch c yes no).Le (branch c yes' no') := by
  intro s r hr
  rcases branch_eq_some.1 hr with ⟨hc, h⟩ | ⟨hc, h⟩
  · exact branch_eq_some.2 (.inl ⟨hc, hyes _ _ h⟩)
  · exact branch_eq_some.2 (.inr ⟨hc, hno _ _ h⟩)

theorem Le.loop (c : Expr) (h : body.Le body') {turns turns' : Nat} (hle : turns ≤ turns') :
    (loop c body turns).Le (loop c body' turns') := by
  induction turns generalizing turns' with
  | zero =>
    intro s r hr
    cases hr
  | succ turns ih =>
    obtain ⟨k, rfl⟩ : ∃ k, turns' = k + 1 := ⟨turns' - 1, by omega⟩
    exact .branch c (h.andThen (ih (by omega))) (.refl skip)

end Run

theorem Block.le_run (b : Block) {bound bound' : Nat} (h : bound ≤ bound') :
    (b.run bound).Le (b.run bound') := by
  induction b with
  | done => exact .refl _
  | simple a rest ih => exact .andThen (.refl _) ih
  | ifThen pos c t rest iht ih => exact .andThen (.branch c iht.inside (.refl _)) ih
  | ifElse pos c t e rest iht ihe ih => exact .andThen (.branch c iht.inside ihe.inside) ih
  | loop pos c b rest ihb ih => exact .andThen (.loop c ihb.inside h) ih

/-- A program that has a result with some bound has the same one with every larger bound. -/
theorem Program.run_mono {p : Program} {args : List Value} {bound bound' : Nat} {r : Int32 × Store}
    (h : p.run bound args = some r) (hle : bound ≤ bound') : p.run bound' args = some r := by
  obtain ⟨s, hs, hfun⟩ := Option.bind_eq_some_iff.1 h
  obtain ⟨s₁, hs₁, hbody⟩ := Option.bind_eq_some_iff.1 hfun
  obtain ⟨r₁, hr₁, rfl⟩ := Option.map_eq_some_iff.1 hbody
  rw [run, hs, Option.bind_some, Function.run, hs₁, Option.bind_some,
    p.function.body.le_run hle _ _ hr₁]
  rfl

/-! ### Returns -/

/-- Whatever the run does, it ends in a return. -/
def Run.Returns (run : Run) : Prop := ∀ s o s', run s = some (o, s') → o ≠ .next

namespace Run

variable {first second body yes no : Run}

theorem Returns.andThen (h : first.Returns) (second : Run) : (first.andThen second).Returns := by
  intro s o s' hr
  rcases andThen_eq_some.1 hr with ⟨s₁, h₁, -⟩ | ⟨v, s₁, -, hret⟩
  · exact absurd rfl (h _ _ _ h₁)
  · cases hret
    exact Flow.noConfusion

theorem Returns.andThen_right (first : Run) (h : second.Returns) :
    (first.andThen second).Returns := by
  intro s o s' hr
  rcases andThen_eq_some.1 hr with ⟨s₁, -, h₂⟩ | ⟨v, s₁, -, hret⟩
  · exact h _ _ _ h₂
  · cases hret
    exact Flow.noConfusion

theorem Returns.inside (h : body.Returns) : body.inside.Returns := by
  intro s o s' hr
  obtain ⟨s₁, h₁, -⟩ := inside_eq_some.1 hr
  exact h _ _ _ h₁

theorem Returns.branch (c : Expr) (hyes : yes.Returns) (hno : no.Returns) :
    (branch c yes no).Returns := by
  intro s o s' hr
  rcases branch_eq_some.1 hr with ⟨-, h⟩ | ⟨-, h⟩
  · exact hyes _ _ _ h
  · exact hno _ _ _ h

end Run

theorem Simple.returns_run {a : Simple} (h : a.isReturn = true) : a.run.Returns := by
  intro s o s' hr
  cases a with
  | ret pos value =>
    cases value with
    | none =>
      cases hr
      exact Flow.noConfusion
    | some e =>
      obtain ⟨v, -, hv⟩ := Option.map_eq_some_iff.1 hr
      cases hv
      exact Flow.noConfusion
  | declare d => cases h
  | assign pos x e => cases h
  | eval pos e => cases h

/-- A block in which every way meets a return does not run out of statements. -/
theorem Block.returns_run {b : Block} (h : b.alwaysReturns = true) (bound : Nat) :
    (b.run bound).Returns := by
  induction b with
  | done => cases h
  | simple a rest ih =>
    rcases Bool.or_eq_true_iff.1 h with ha | hrest
    · exact (Simple.returns_run ha).andThen _
    · exact .andThen_right _ (ih hrest)
  | ifThen pos c t rest iht ih => exact .andThen_right _ (ih h)
  | ifElse pos c t e rest iht ihe ih =>
    rcases Bool.or_eq_true_iff.1 h with hboth | hrest
    · obtain ⟨ht, he⟩ := Bool.and_eq_true_iff.1 hboth
      exact (Run.Returns.branch c (iht ht).inside (ihe he).inside).andThen _
    · exact .andThen_right _ (ih hrest)
  | loop pos c b rest ihb ih => exact .andThen_right _ (ih h)

end BlockLang
