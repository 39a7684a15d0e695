import BlockLang.Proofs.Resolution.Programs

/-!
# Ways through a block

A way through a block takes either arm of an `if`, or passes by one without `else`, and runs the
body of a `while` any number of turns, none included. Conditions play no part. It ends at the first
return that it meets, or past the last statement of the block.

Both questions that the passes ask about returns are questions about ways: a block holds a return
exactly if some way ends in one (`Block.containsReturn_iff_way`), and every way ends in one exactly
if `Block.alwaysReturns` says so (`Block.alwaysReturns_iff_way`). In the second the work is to find
a way past the end. It also serves the first, where statements that only a falling way reaches hold
the return.

Code generation returns zero on its own account exactly for the ways past the end of the function
(`Program.fallback_iff_way`).
-/

namespace BlockLang

/-- How a way through a block ends. -/
inductive Ending where
  /-- At a return. -/
  | returned
  /-- Past the last statement. -/
  | fell
deriving DecidableEq, Repr

/-- `b.Way t e`: some way through `b` executes the statements `t`, in order, and ends as `e`
says. -/
inductive Block.Way : Block → List Simple → Ending → Prop
  /-- The end of a block. -/
  | done : Way .done [] .fell
  /-- A return, whatever follows it. -/
  | ret {pos : Pos} {value : Option Expr} {rest : Block} :
    Way (.simple (.ret pos value) rest) [.ret pos value] .returned
  /-- Another statement, and a way through what follows it. -/
  | simple {a : Simple} {rest : Block} {t : List Simple} {e : Ending} (ha : a.isReturn = false)
      (h : Way rest t e) : Way (.simple a rest) (a :: t) e
  /-- An `if` without `else` is passed by. -/
  | pass {pos : Pos} {c : Expr} {b rest : Block} {t : List Simple} {e : Ending}
      (h : Way rest t e) : Way (.ifThen pos c b rest) t e
  /-- The only arm of an `if`, with a return in it. -/
  | onlyReturned {pos : Pos} {c : Expr} {b rest : Block} {t : List Simple}
      (hb : Way b t .returned) : Way (.ifThen pos c b rest) t .returned
  /-- The only arm of an `if`, and what follows. -/
  | onlyFell {pos : Pos} {c : Expr} {b rest : Block} {t t' : List Simple} {e : Ending}
      (hb : Way b t .fell) (h : Way rest t' e) : Way (.ifThen pos c b rest) (t ++ t') e
  /-- The first arm of an `if`, with a return in it. -/
  | thenReturned {pos : Pos} {c : Expr} {b b' rest : Block} {t : List Simple}
      (hb : Way b t .returned) : Way (.ifElse pos c b b' rest) t .returned
  /-- The first arm of an `if`, and what follows. -/
  | thenFell {pos : Pos} {c : Expr} {b b' rest : Block} {t t' : List Simple} {e : Ending}
      (hb : Way b t .fell) (h : Way rest t' e) : Way (.ifElse pos c b b' rest) (t ++ t') e
  /-- The second arm of an `if`, with a return in it. -/
  | elseReturned {pos : Pos} {c : Expr} {b b' rest : Block} {t : List Simple}
      (hb : Way b' t .returned) : Way (.ifElse pos c b b' rest) t .returned
  /-- The second arm of an `if`, and what follows. -/
  | elseFell {pos : Pos} {c : Expr} {b b' rest : Block} {t t' : List Simple} {e : Ending}
      (hb : Way b' t .fell) (h : Way rest t' e) : Way (.ifElse pos c b b' rest) (t ++ t') e
  /-- A `while` is left. -/
  | leave {pos : Pos} {c : Expr} {b rest : Block} {t : List Simple} {e : Ending}
      (h : Way rest t e) : Way (.loop pos c b rest) t e
  /-- A last turn of a `while`, with a return in it. -/
  | turnReturned {pos : Pos} {c : Expr} {b rest : Block} {t : List Simple}
      (hb : Way b t .returned) : Way (.loop pos c b rest) t .returned
  /-- A turn of a `while`, and the same loop again. -/
  | turnFell {pos : Pos} {c : Expr} {b rest : Block} {t t' : List Simple} {e : Ending}
      (hb : Way b t .fell) (h : Way (.loop pos c b rest) t' e) :
      Way (.loop pos c b rest) (t ++ t') e

theorem Simple.exists_of_isReturn {a : Simple} (h : a.isReturn = true) :
    ∃ pos value, a = .ret pos value := by
  cases a with
  | ret pos value => exact ⟨pos, value, rfl⟩
  | declare d => exact absurd h Bool.false_ne_true
  | assign pos x e => exact absurd h Bool.false_ne_true
  | eval pos e => exact absurd h Bool.false_ne_true

namespace Block

variable {b : Block} {t : List Simple} {e : Ending}

/-! ### From ways to the text -/

/-- A way that ends in a return found it in the text. -/
theorem Way.containsReturn (h : b.Way t e) (he : e = .returned) : b.containsReturn = true := by
  induction h with
  | done => exact absurd he (by simp)
  | ret => rfl
  | simple _ _ ih => exact Bool.or_eq_true_iff.2 (.inr (ih he))
  | pass _ ih => exact Bool.or_eq_true_iff.2 (.inr (ih he))
  | onlyReturned _ ih => exact Bool.or_eq_true_iff.2 (.inl (ih rfl))
  | onlyFell _ _ _ ih => exact Bool.or_eq_true_iff.2 (.inr (ih he))
  | thenReturned _ ih => simp [Block.containsReturn, ih]
  | thenFell _ _ _ ih => exact Bool.or_eq_true_iff.2 (.inr (ih he))
  | elseReturned _ ih => simp [Block.containsReturn, ih]
  | elseFell _ _ _ ih => exact Bool.or_eq_true_iff.2 (.inr (ih he))
  | leave _ ih => exact Bool.or_eq_true_iff.2 (.inr (ih he))
  | turnReturned _ ih => exact Bool.or_eq_true_iff.2 (.inl (ih rfl))
  | turnFell _ _ _ ih => exact ih he

/-- A way past the end shows that not every way returns. A turn of a loop is no obstacle: the rest
of the way is one through the same block. -/
theorem Way.alwaysReturns (h : b.Way t e) (he : e = .fell) : b.alwaysReturns = false := by
  induction h with
  | done => rfl
  | ret => exact absurd he (by simp)
  | simple ha _ ih => rw [Block.alwaysReturns, ha, ih he, Bool.or_false]
  | pass _ ih => exact ih he
  | onlyReturned => exact absurd he (by simp)
  | onlyFell _ _ _ ih => exact ih he
  | thenReturned => exact absurd he (by simp)
  | thenFell _ _ ihb ih => rw [Block.alwaysReturns, ihb rfl, ih he, Bool.false_and, Bool.or_false]
  | elseReturned => exact absurd he (by simp)
  | elseFell _ _ ihb ih => rw [Block.alwaysReturns, ihb rfl, ih he, Bool.and_false, Bool.or_false]
  | leave _ ih => exact ih he
  | turnReturned => exact absurd he (by simp)
  | turnFell _ _ _ ih => exact ih he

/-! ### From the text to ways -/

/-- A way past the end, if some way does not return. -/
theorem exists_way_fell (h : b.alwaysReturns = false) : ∃ t, b.Way t .fell := by
  induction b with
  | done => exact ⟨[], .done⟩
  | simple a rest ih =>
    obtain ⟨ha, hrest⟩ := Bool.or_eq_false_iff.1 h
    obtain ⟨t, ht⟩ := ih hrest
    exact ⟨a :: t, .simple ha ht⟩
  | ifThen pos c b rest ihb ih =>
    obtain ⟨t, ht⟩ := ih h
    exact ⟨t, .pass ht⟩
  | ifElse pos c b b' rest ihb ihb' ih =>
    obtain ⟨harms, hrest⟩ := Bool.or_eq_false_iff.1 h
    obtain ⟨t', ht'⟩ := ih hrest
    -- one of the arms can be left at its end
    rcases Bool.and_eq_false_iff.1 harms with harm | harm
    · obtain ⟨t, ht⟩ := ihb harm
      exact ⟨t ++ t', .thenFell ht ht'⟩
    · obtain ⟨t, ht⟩ := ihb' harm
      exact ⟨t ++ t', .elseFell ht ht'⟩
  | loop pos c b rest ihb ih =>
    obtain ⟨t, ht⟩ := ih h
    exact ⟨t, .leave ht⟩

/-- A block in which every way meets a return holds one. -/
theorem containsReturn_of_alwaysReturns (h : b.alwaysReturns = true) : b.containsReturn = true := by
  induction b with
  | done => exact absurd h Bool.false_ne_true
  | simple a rest ih =>
    rcases Bool.or_eq_true_iff.1 h with ha | hrest
    · exact Bool.or_eq_true_iff.2 (.inl ha)
    · exact Bool.or_eq_true_iff.2 (.inr (ih hrest))
  | ifThen pos c b rest _ ih => exact Bool.or_eq_true_iff.2 (.inr (ih h))
  | ifElse pos c b b' rest ihb _ ih =>
    rcases Bool.or_eq_true_iff.1 h with harms | hrest
    · simp [Block.containsReturn, ihb (Bool.and_eq_true_iff.1 harms).1]
    · exact Bool.or_eq_true_iff.2 (.inr (ih hrest))
  | loop pos c b rest _ ih => exact Bool.or_eq_true_iff.2 (.inr (ih h))

/-- A way that ends in a return, if the text holds one. -/
theorem exists_way_returned (h : b.containsReturn = true) : ∃ t, b.Way t .returned := by
  induction b with
  | done => exact absurd h Bool.false_ne_true
  | simple a rest ih =>
    rcases ha : a.isReturn with - | -
    · rw [containsReturn, ha, Bool.false_or] at h
      obtain ⟨t, ht⟩ := ih h
      exact ⟨a :: t, .simple ha ht⟩
    · obtain ⟨pos, value, rfl⟩ := Simple.exists_of_isReturn ha
      exact ⟨[.ret pos value], .ret⟩
  | ifThen pos c b rest ihb ih =>
    rcases Bool.or_eq_true_iff.1 h with hb | hrest
    · obtain ⟨t, ht⟩ := ihb hb
      exact ⟨t, .onlyReturned ht⟩
    · obtain ⟨t, ht⟩ := ih hrest
      exact ⟨t, .pass ht⟩
  | ifElse pos c b b' rest ihb ihb' ih =>
    rcases Bool.or_eq_true_iff.1 h with harms | hrest
    · rcases Bool.or_eq_true_iff.1 harms with hb | hb'
      · obtain ⟨t, ht⟩ := ihb hb
        exact ⟨t, .thenReturned ht⟩
      · obtain ⟨t, ht⟩ := ihb' hb'
        exact ⟨t, .elseReturned ht⟩
    · -- the return behind the `if` counts only if the first arm leads there
      rcases hb : b.alwaysReturns with - | -
      · obtain ⟨t, ht⟩ := exists_way_fell hb
        obtain ⟨t', ht'⟩ := ih hrest
        exact ⟨t ++ t', .thenFell ht ht'⟩
      · obtain ⟨t, ht⟩ := ihb (containsReturn_of_alwaysReturns hb)
        exact ⟨t, .thenReturned ht⟩
  | loop pos c b rest ihb ih =>
    rcases Bool.or_eq_true_iff.1 h with hb | hrest
    · obtain ⟨t, ht⟩ := ihb hb
      exact ⟨t, .turnReturned ht⟩
    · obtain ⟨t, ht⟩ := ih hrest
      exact ⟨t, .leave ht⟩

theorem containsReturn_iff_way : b.containsReturn = true ↔ ∃ t, b.Way t .returned :=
  ⟨exists_way_returned, fun ⟨_, h⟩ ↦ h.containsReturn rfl⟩

theorem alwaysReturns_iff_way : b.alwaysReturns = true ↔ ¬∃ t, b.Way t .fell := by
  constructor
  · rintro h ⟨t, ht⟩
    exact absurd h (Bool.not_eq_true _ ▸ ht.alwaysReturns rfl)
  · intro h
    by_contra hfalse
    exact h (exists_way_fell (Bool.not_eq_true _ ▸ hfalse))

end Block

/-! ### The end of the code -/

/-- The common end of all ways through a function. -/
def exitCode (f : String) : List Line :=
  [.label (.exit f), .instr (.move .qword .sp .bp), .instr (.pop .bp), .instr .ret, .blank]

/-- What stands before the common end for those who come past the last statement. -/
def fallbackCode : List Line := [.instr (.moveImm .ax 0)]

theorem epilogue_true (f : String) : epilogue f true = exitCode f := rfl

theorem epilogue_false (f : String) : epilogue f false = fallbackCode ++ exitCode f := rfl

namespace Program

/-- The parts of generated code: the start of the function, the code of the body and the end. -/
theorem code_of_generate {o : Options} {p : Program} {s s' : Session} {a : Assembly}
    (h : p.generate o s = (.ok a, s')) :
    ∃ cells params q body q', p.lowerHead o { session := s } = .ok (cells, params) q ∧
      p.function.body.lower o p.function.name q = .ok body q' ∧
      a.code = prologue p.function.name (p.function.frameBytes o) ++ params ++ body ++
        epilogue p.function.name p.function.body.alwaysReturns := by
  rw [generate] at h
  rcases hlower : (p.lower o).run { session := s } with ⟨a', q₀⟩ | ⟨err, q₀⟩
  · rw [hlower] at h
    obtain rfl : a' = a := Except.ok.inj (Prod.mk.inj h).1
    have hrun : p.lower o { session := s } = .ok a' q₀ := hlower
    rw [lower_eq_head_bind] at hrun
    obtain ⟨⟨cells, params⟩, hhead, hrest⟩ := Lower.bind_eq_ok hrun
    obtain ⟨body, hbody, hrest⟩ := Lower.bind_eq_ok hrest
    obtain ⟨-, -, hrest⟩ := Lower.bind_eq_ok hrest
    obtain ⟨-, -, hrest⟩ := Lower.bind_eq_ok hrest
    obtain ⟨-, -, hrest⟩ := Lower.bind_eq_ok hrest
    cases hrest
    exact ⟨cells, params, _, body, _, hhead, hbody, rfl⟩
  · rw [hlower] at h
    cases (Prod.mk.inj h).1

/-- The answers of the two tests on returns are exact: a block holds a return exactly if some way
through it ends in one, and it always returns exactly if no way goes past its end. In generated code
zero is put in place before the common end of the function exactly if some way through its body goes
past the end; otherwise the end follows the code of the body directly. -/
theorem fallback_iff_way :
    (∀ b : Block, (b.containsReturn = true ↔ ∃ t, b.Way t .returned) ∧
      (b.alwaysReturns = true ↔ ¬∃ t, b.Way t .fell)) ∧
    ∀ (o : Options) (p : Program) (s s' : Session) (a : Assembly),
      p.generate o s = (.ok a, s') →
      ∃ cells params q body q', p.lowerHead o { session := s } = .ok (cells, params) q ∧
        p.function.body.lower o p.function.name q = .ok body q' ∧
        ((∃ t, p.function.body.Way t .fell) ∧
            a.code = prologue p.function.name (p.function.frameBytes o) ++ params ++ body ++
              fallbackCode ++ exitCode p.function.name ∨
          (¬∃ t, p.function.body.Way t .fell) ∧
            a.code = prologue p.function.name (p.function.frameBytes o) ++ params ++ body ++
              exitCode p.function.name) := by
  refine ⟨fun b ↦ ⟨Block.containsReturn_iff_way, Block.alwaysReturns_iff_way⟩, ?_⟩
  intro o p s s' a h
  obtain ⟨cells, params, q, body, q', hhead, hbody, hcode⟩ := code_of_generate h
  refine ⟨cells, params, q, body, q', hhead, hbody, ?_⟩
  rcases hreturns : p.function.body.alwaysReturns with - | -
  · rw [hreturns, epilogue_false, ← List.append_assoc] at hcode
    exact .inl ⟨Block.exists_way_fell hreturns, hcode⟩
  · rw [hreturns, epilogue_true] at hcode
    exact .inr ⟨Block.alwaysReturns_iff_way.1 hreturns, hcode⟩

/-- A function whose only return is inside a loop, `int f(int n) { while (n > 0) { n = n - 1;
return n; } }`. -/
def hasty : Program where
  function :=
    { returnTy := .int
      name := "f"
      params := [⟨.int, "n", {}⟩]
      body :=
        .loop {} (.binary {} .gt (.var {} "n") (.num {} 0))
          (.simple (.assign {} "n" (.binary {} .sub (.var {} "n") (.num {} 1)))
            (.simple (.ret {} (some (.var {} "n"))) .done))
          .done }

theorem fallback_hasty :
    hasty.function.body.containsReturn = true ∧ hasty.function.body.Way [] .fell ∧
      ∃ a s', hasty.generate {} (hasty.analyze "_start" {}) = (.ok a, s') ∧
        ∃ before, a.code = before ++ fallbackCode ++ exitCode "f" := by
  have hfell : hasty.function.body.Way [] .fell := .leave .done
  have hclean : (hasty.analyze "_start" {}).diagnostics.errors = [] := by decide +kernel
  obtain ⟨s', hgenerate, -⟩ := generate_eq_ok {} hclean
  obtain ⟨-, hcode⟩ := fallback_iff_way
  obtain ⟨-, params, -, body, -, -, -, ⟨-, hfallback⟩ | ⟨hnone, -⟩⟩ :=
    hcode {} hasty _ s' _ hgenerate
  · exact ⟨by decide, hfell, _, s', hgenerate, _, hfallback⟩
  · exact absurd ⟨[], hfell⟩ hnone

end Program

end BlockLang
