import BlockLang.Proofs.Analysis.Acceptance
import BlockLang.Proofs.Lowering.Layout

/-!
# Uses of variables

Where variables occur in a block, and what a pass over the block finds them as. A pass is reduced to
a `Walk`: the state it is in at each point of the text and what a name is found as in that state.
The uses of a block (`Walk.blockUses`) are then one definition for both passes, and every walk has a
use for each occurrence in the text (`Walk.map_occurrence_blockUses`).

The states of the two walks are those of the passes: the walk of the analysis ends a block where the
analysis of the block does (`blockEnd_analysisWalk`), and the walk of code generation ends it where
code generation does (`blockEnd_loweringWalk`). A third walk is over sites. It knows neither scope
trees nor values, and the other two are compared with it.
-/

namespace BlockLang

variable {S : Type}

/-! ### Uses -/

/-- An occurrence of a variable and what it was found as: the number of the declaring scope and the
name of the declared variable. -/
structure Use where
  /-- Where the variable occurs. -/
  pos : Pos
  /-- The name that is looked up. -/
  name : String
  /-- The declaration that is found. -/
  entry : Option (Nat × String)
deriving DecidableEq, Repr

/-- Every occurrence is found, as a variable of the name that was looked up. -/
def Found (us : List Use) : Prop := ∀ u ∈ us, ∃ i, u.entry = some (i, u.name)

@[simp] theorem found_nil : Found [] := fun _ h ↦ absurd h List.not_mem_nil

@[simp] theorem found_append {us vs : List Use} : Found (us ++ vs) ↔ Found us ∧ Found vs := by
  simp [Found, or_imp, forall_and]

/-- The reads of an expression, from left to right. -/
def Expr.uses (find : String → Option (Nat × String)) : Expr → List Use
  | num _ _ => []
  | bool _ _ => []
  | var pos x => [⟨pos, x, find x⟩]
  | not _ e => e.uses find
  | binary _ _ l r => l.uses find ++ r.uses find

/-- The block of a construct. -/
inductive Arm where
  /-- What an `if` does when its condition holds. -/
  | positive
  /-- What an `if` does otherwise. -/
  | negative
  /-- What a `while` repeats. -/
  | body

/-- What the analysis calls the scope of such a block. -/
def Arm.scopeName : Arm → String
  | positive => "if_then"
  | negative => "if_else"
  | body => "while_body"

/-- A pass over the text of a block, as far as it matters to names. -/
structure Walk (S : Type) where
  /-- What a name is found as. -/
  find : S → String → Option (Nat × String)
  /-- The state after one variable of a declaration. -/
  declarator : Ty → Declarator → S → S
  /-- The state after a statement without inner blocks. -/
  simple : Simple → S → S
  /-- The state after the value of an assignment. -/
  value : Expr → S → S
  /-- The state in which a condition is looked at. -/
  test : Construct → S → S
  /-- The state after a condition. -/
  condition : Construct → Expr → S → S
  /-- The state at the start of the block of a construct. -/
  enter : Pos → Arm → S → S
  /-- The state after the block of a construct, from the state before it. -/
  inside : Pos → Arm → Block → S → S

namespace Walk

variable (w : Walk S)

/-- The uses in an initializer or a returned value, if there is one. -/
def optionUses (s : S) : Option Expr → List Use
  | none => []
  | some e => e.uses (w.find s)

theorem optionUses_congr {S' : Type} {w : Walk S} {w' : Walk S'} {s : S} {s' : S'}
    (h : w.find s = w'.find s') (value : Option Expr) :
    w.optionUses s value = w'.optionUses s' value := by
  cases value with
  | none => rfl
  | some e =>
    show e.uses _ = e.uses _
    rw [h]

/-- The uses in the variables of a declaration. -/
def declaratorUses (ty : Ty) : List Declarator → S → List Use
  | [], _ => []
  | v :: vs, s => w.optionUses s v.init ++ declaratorUses ty vs (w.declarator ty v s)

/-- The uses in a statement without inner blocks. The target of an assignment is looked up after its
value. -/
def simpleUses (s : S) : Simple → List Use
  | .declare d => w.declaratorUses d.ty d.vars s
  | .assign pos x e => e.uses (w.find s) ++ [⟨pos, x, w.find (w.value e s) x⟩]
  | .ret _ value => w.optionUses s value
  | .eval _ e => e.uses (w.find s)

/-- The state at the start of the first block of a construct. -/
def tested (k : Construct) (c : Expr) (s : S) : S := w.condition k c (w.test k s)

/-- The uses in a block and in the blocks inside it, in the order of the walk. -/
def blockUses : Block → S → List Use
  | .done, _ => []
  | .simple a rest, s => w.simpleUses s a ++ blockUses rest (w.simple a s)
  | .ifThen pos c t rest, s =>
    let s₁ := w.tested .cond c s
    c.uses (w.find (w.test .cond s)) ++ blockUses t (w.enter pos .positive s₁) ++
      blockUses rest (w.inside pos .positive t s₁)
  | .ifElse pos c t e rest, s =>
    let s₁ := w.tested .cond c s
    let s₂ := w.inside pos .positive t s₁
    c.uses (w.find (w.test .cond s)) ++ blockUses t (w.enter pos .positive s₁) ++
      blockUses e (w.enter pos .negative s₂) ++ blockUses rest (w.inside pos .negative e s₂)
  | .loop pos c b rest, s =>
    let s₁ := w.tested .loop c s
    c.uses (w.find (w.test .loop s)) ++ blockUses b (w.enter pos .body s₁) ++
      blockUses rest (w.inside pos .body b s₁)

/-- The state after a block. -/
def blockEnd : Block → S → S
  | .done, s => s
  | .simple a rest, s => blockEnd rest (w.simple a s)
  | .ifThen pos c t rest, s => blockEnd rest (w.inside pos .positive t (w.tested .cond c s))
  | .ifElse pos c t e rest, s =>
    blockEnd rest (w.inside pos .negative e (w.inside pos .positive t (w.tested .cond c s)))
  | .loop pos c b rest, s => blockEnd rest (w.inside pos .body b (w.tested .loop c s))

end Walk

/-! ### Occurrences -/

/-- The occurrences of variables in an expression. -/
def Expr.occurrences : Expr → List (Pos × String)
  | num _ _ => []
  | bool _ _ => []
  | var pos x => [(pos, x)]
  | not _ e => e.occurrences
  | binary _ _ l r => l.occurrences ++ r.occurrences

/-- The occurrences of variables in a statement: reads and the targets of assignments. -/
def Simple.occurrences : Simple → List (Pos × String)
  | declare d => d.exprs.flatMap Expr.occurrences
  | assign pos x e => e.occurrences ++ [(pos, x)]
  | ret _ value => value.toList.flatMap Expr.occurrences
  | eval _ e => e.occurrences

/-- The occurrences of variables in a block and in the blocks inside it. -/
def Block.occurrences : Block → List (Pos × String)
  | done => []
  | simple a rest => a.occurrences ++ rest.occurrences
  | ifThen _ c t rest => c.occurrences ++ t.occurrences ++ rest.occurrences
  | ifElse _ c t e rest => c.occurrences ++ t.occurrences ++ e.occurrences ++ rest.occurrences
  | loop _ c b rest => c.occurrences ++ b.occurrences ++ rest.occurrences

/-- Where a variable occurs, and under which name. -/
def Use.occurrence (u : Use) : Pos × String := (u.pos, u.name)

theorem Expr.map_occurrence_uses (find : String → Option (Nat × String)) (e : Expr) :
    (e.uses find).map Use.occurrence = e.occurrences := by
  induction e with
  | num p v => rfl
  | bool p b => rfl
  | var p x => rfl
  | not p e ih => exact ih
  | binary p op l r ihl ihr => rw [uses, List.map_append, ihl, ihr, occurrences]

namespace Walk

variable (w : Walk S)

theorem map_occurrence_optionUses (value : Option Expr) (s : S) :
    (w.optionUses s value).map Use.occurrence = value.toList.flatMap Expr.occurrences := by
  cases value with
  | none => rfl
  | some e => simp [optionUses, e.map_occurrence_uses]

theorem map_occurrence_declaratorUses (ty : Ty) (vs : List Declarator) (s : S) :
    (w.declaratorUses ty vs s).map Use.occurrence =
      (vs.filterMap Declarator.init).flatMap Expr.occurrences := by
  induction vs generalizing s with
  | nil => rfl
  | cons v vs ih =>
    rw [declaratorUses, List.map_append, w.map_occurrence_optionUses, ih]
    cases hv : v.init <;> simp [hv]

theorem map_occurrence_simpleUses (a : Simple) (s : S) :
    (w.simpleUses s a).map Use.occurrence = a.occurrences := by
  cases a with
  | declare d => exact w.map_occurrence_declaratorUses d.ty d.vars s
  | assign pos x e =>
    rw [simpleUses, List.map_append, e.map_occurrence_uses]
    rfl
  | ret pos value => exact w.map_occurrence_optionUses value s
  | eval pos e => exact e.map_occurrence_uses _

/-- A walk leaves no occurrence out. -/
theorem map_occurrence_blockUses (b : Block) (s : S) :
    (w.blockUses b s).map Use.occurrence = b.occurrences := by
  induction b generalizing s with
  | done => rfl
  | simple a rest ih =>
    rw [blockUses, List.map_append, w.map_occurrence_simpleUses, ih, Block.occurrences]
  | ifThen pos c t rest iht ih =>
    rw [blockUses, List.map_append, List.map_append, c.map_occurrence_uses, iht, ih,
      Block.occurrences]
  | ifElse pos c t e rest iht ihe ih =>
    rw [blockUses, List.map_append, List.map_append, List.map_append, c.map_occurrence_uses, iht,
      ihe, ih, Block.occurrences]
  | loop pos c b rest ihb ih =>
    rw [blockUses, List.map_append, List.map_append, c.map_occurrence_uses, ihb, ih,
      Block.occurrences]

end Walk

/-! ### The passes as walks -/

/-- The nearest declaration of `x`, by the number of its scope and its name. -/
def ScopeTree.resolve (t : ScopeTree) (x : String) : Option (Nat × String) :=
  (t.binding? x).map fun e ↦ (e.1, e.2.name)

/-- The nearest declaration of `x` that has a place, by the number of its scope and its name. -/
def ScopeTree.resolveStored (t : ScopeTree) (x : String) : Option (Nat × String) :=
  (t.storedBinding? x).map fun e ↦ (e.1, e.2.name)

/-- The analysis of a block in a function with result type `result`. -/
def analysisWalk (result : Ty) : Walk Session where
  find s x := s.scopes.resolve x
  declarator ty v s := v.analyze false ty s
  simple a s := a.analyze result s
  value _ s := s
  test _ s := s
  condition k c s := s.checkCondition k c
  enter _ arm s := s.enter arm.scopeName
  inside _ arm b s := b.analyzeInside result arm.scopeName s

/-- The state that a step of code generation ends in. -/
def Lower.after {α : Type} (m : Lower α) (p : Progress) : Progress :=
  match m p with
  | .ok _ q => q
  | .error _ q => q

/-- Code generation for a block of the function `f`. -/
def loweringWalk (o : Options) (f : String) : Walk Progress where
  find p x := p.session.scopes.resolveStored x
  declarator ty v p := (Lower.declarator o ty v).after p
  simple a p := (a.lower o f).after p
  value e p := (Lower.expr o.foldConstants e).after p
  test _ p := Lower.freshLabel.after p
  condition _ c p := (Lower.expr o.foldConstants c).after p
  enter pos _ p := (Lower.enterBlock pos).after p
  inside pos _ b p := (Lower.inBlock pos (b.lower o f)).after p

/-- The declaration that a site has for a variable. -/
def Placed.owner (q : Placed) : Nat × String := (q.scope, q.name)

/-- The walk over sites. -/
def siteWalk : Walk Site where
  find σ x := (σ.places.find? x).map Placed.owner
  declarator ty v σ := σ.declare v.name ty
  simple a σ := a.siteAfter σ
  value _ σ := σ
  test _ σ := σ.number
  condition _ _ σ := σ
  enter _ _ σ := σ.enter
  inside _ _ b σ := b.siteInside σ

/-! ### The states of the walks -/

/-- The walk of the analysis ends where the analysis does. -/
theorem blockEnd_analysisWalk (result : Ty) (b : Block) (s : Session) :
    (analysisWalk result).blockEnd b s = b.analyze result s := by
  induction b generalizing s with
  | done => rfl
  | simple a rest ih => exact ih _
  | ifThen pos c t rest _ ih => exact ih _
  | ifElse pos c t e rest _ _ ih => exact ih _
  | loop pos c b rest _ ih => exact ih _

namespace Lower

variable {α β : Type}

theorem after_eq {m : Lower α} {p q : Progress} {a : α} (h : m p = .ok a q) : m.after p = q := by
  rw [after, h]

/-- A sequence that succeeds does so step by step. -/
theorem bind_eq_ok {m : Lower α} {k : α → Lower β} {p q : Progress} {b : β}
    (h : (m >>= k) p = .ok b q) : ∃ a, m p = .ok a (m.after p) ∧ k a (m.after p) = .ok b q := by
  change EStateM.bind m k p = .ok b q at h
  rw [EStateM.bind] at h
  rcases hm : m p with ⟨a, p₁⟩ | ⟨e, p₁⟩
  · rw [hm] at h
    rw [after_eq hm]
    exact ⟨a, rfl, h⟩
  · rw [hm] at h
    cases h

end Lower

/-- The walk of code generation ends where code generation does. -/
theorem blockEnd_loweringWalk {o : Options} {f : String} {b : Block} {ls : List Line}
    {p q : Progress} (h : b.lower o f p = .ok ls q) : (loweringWalk o f).blockEnd b p = q := by
  induction b generalizing p ls with
  | done =>
    cases h
    rfl
  | simple a rest ih =>
    obtain ⟨_, -, h⟩ := Lower.bind_eq_ok h
    obtain ⟨_, hrest, h⟩ := Lower.bind_eq_ok h
    cases h
    exact ih hrest
  | ifThen pos c t rest _ ih =>
    obtain ⟨_, -, h⟩ := Lower.bind_eq_ok h
    obtain ⟨_, -, h⟩ := Lower.bind_eq_ok h
    obtain ⟨_, -, h⟩ := Lower.bind_eq_ok h
    obtain ⟨_, hrest, h⟩ := Lower.bind_eq_ok h
    cases h
    exact ih hrest
  | ifElse pos c t e rest _ _ ih =>
    obtain ⟨_, -, h⟩ := Lower.bind_eq_ok h
    obtain ⟨_, -, h⟩ := Lower.bind_eq_ok h
    obtain ⟨_, -, h⟩ := Lower.bind_eq_ok h
    obtain ⟨_, -, h⟩ := Lower.bind_eq_ok h
    obtain ⟨_, hrest, h⟩ := Lower.bind_eq_ok h
    cases h
    exact ih hrest
  | loop pos c b rest _ ih =>
    obtain ⟨_, -, h⟩ := Lower.bind_eq_ok h
    obtain ⟨_, -, h⟩ := Lower.bind_eq_ok h
    obtain ⟨_, -, h⟩ := Lower.bind_eq_ok h
    obtain ⟨_, hrest, h⟩ := Lower.bind_eq_ok h
    cases h
    exact ih hrest

end BlockLang
