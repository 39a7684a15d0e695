import BlockLang.Proofs.Correctness.Statements

/-!
# Blocks on the machine

The code of a block does what the interpreter does with it (`Block.Stands.simulates`), by
induction on the block. There is one lemma for each operation by which the interpreter puts runs
together, and each speaks of the code that the operation is given: a sequence, a scope, the two
forms of an `if` and a `while`. Only the last of them is an induction again, on the number of turns.

Places are a matter of the text alone. A block inside a loop is entered at the same site in every
turn, so its variables have the same slots in each, and what a turn has left in them is not seen by
the next: a variable gets a value when its declaration is executed.
-/

namespace BlockLang

/-! ### Sites inside a block -/

theorem Nest.leave_of_outer {α : Type} {n k : Nest α} (h : n.outer = k.scopes) : n.leave = k := by
  rw [leave, h]
  rfl

theorem Site.outer_declareAll (σ : Site) (ty : Ty) (vs : List Declarator) :
    (σ.declareAll ty vs).places.outer = σ.places.outer := by
  induction vs generalizing σ with
  | nil => rfl
  | cons v vs ih => exact ih (σ.declare v.name ty)

theorem Simple.outer_siteAfter (a : Simple) (σ : Site) :
    (a.siteAfter σ).places.outer = σ.places.outer := by
  cases a with
  | declare d => exact σ.outer_declareAll d.ty d.vars
  | assign pos x e => rfl
  | ret pos value => rfl
  | eval pos e => rfl

theorem Simple.taken_le_siteAfter (a : Simple) (σ : Site) : σ.taken ≤ (a.siteAfter σ).taken := by
  cases a with
  | declare d => exact σ.taken_le_declareAll d.ty d.vars
  | assign pos x e => exact Nat.le_refl _
  | ret pos value => exact Nat.le_refl _
  | eval pos e => exact Nat.le_refl _

namespace Block

/-- A block declares variables in its own scope only. -/
theorem outer_siteAfter (b : Block) (σ : Site) :
    (b.siteAfter σ).places.outer = σ.places.outer := by
  induction b generalizing σ with
  | done => rfl
  | simple a rest ih => exact (ih _).trans (a.outer_siteAfter σ)
  | ifThen pos c t rest iht ih => exact ih (t.siteInside σ.number)
  | ifElse pos c t e rest iht ihe ih => exact ih (e.siteInside (t.siteInside σ.number))
  | loop pos c b rest ihb ih => exact ih (b.siteInside σ.number)

theorem taken_le_siteAfter (b : Block) (σ : Site) : σ.taken ≤ (b.siteAfter σ).taken := by
  induction b generalizing σ with
  | done => exact Nat.le_refl _
  | simple a rest ih => exact (a.taken_le_siteAfter σ).trans (ih _)
  | ifThen pos c t rest iht ih => exact (iht σ.number.enter).trans (ih (t.siteInside σ.number))
  | ifElse pos c t e rest iht ihe ih =>
    exact (iht σ.number.enter).trans ((ihe (t.siteInside σ.number).enter).trans
      (ih (e.siteInside (t.siteInside σ.number))))
  | loop pos c b rest ihb ih => exact (ihb σ.number.enter).trans (ih (b.siteInside σ.number))

end Block

namespace Activation

variable {A : Activation} {f : String} {code code' : List Line} {π π₁ π₂ : Nest Placed}
  {run run' : Run} {σ : Site} {s : Store} {m : Machine} {l : Label}

/-- A block inside a construct leaves the places as they were. -/
theorem AdmitsSite.siteInside (h : A.AdmitsSite σ) {b : Block}
    (hframe : (b.siteInside σ).taken ≤ A.frame) : A.AdmitsSite (b.siteInside σ) :=
  Admits.mono h (b.taken_le_siteAfter σ.enter) hframe

/-! ### Sequences and scopes -/

theorem simulates_skip (f : String) (π : Nest Placed) : A.Simulates f [] π .skip π := by
  intro s m o s' hready hrun
  obtain ⟨rfl, rfl⟩ := Prod.ext_iff.1 (Option.some.inj hrun)
  exact ⟨m, Assembly.runs_nil m, hready⟩

/-- One piece after the other. -/
theorem Simulates.andThen (h : A.Simulates f code π run π₁) (h' : A.Simulates f code' π₁ run' π₂)
    (houter : π₂.outer = π₁.outer) : A.Simulates f (code ++ code') π (run.andThen run') π₂ := by
  intro s m o s' hready hrun
  rcases Run.andThen_eq_some.1 hrun with ⟨s₁, h₁, h₂⟩ | ⟨v, s₁, h₁, hret⟩
  · obtain ⟨m₁, hrun₁, hends₁⟩ := h s m .next s₁ hready h₁
    obtain ⟨m₂, hrun₂, hends₂⟩ := h' s₁ m₁ o s' hends₁ h₂
    exact ⟨m₂, hrun₁.append hrun₂, hends₂⟩
  · obtain ⟨rfl, rfl⟩ := Prod.mk.inj hret
    obtain ⟨m₁, hrun₁, hax, π', hπ', hready₁⟩ := h s m (.ret v) _ hready h₁
    exact ⟨m₁, hrun₁.append_jump code', hax, π', hπ'.trans houter.symm, hready₁⟩

/-- A piece in a scope of its own. -/
theorem Simulates.inside (h : A.Simulates f code π.enter run π₁) (houter : π₁.outer = π.scopes) :
    A.Simulates f code π run.inside π := by
  intro s m o s' hready hrun
  obtain ⟨s₁, h₁, rfl⟩ := Run.inside_eq_some.1 hrun
  -- wherever the piece was left, the scopes around it are those of `π`
  have hleave : ∀ {π' : Nest Placed} {m' : Machine}, π'.outer = π.scopes → A.Ready π' s₁ m' →
      A.Ready π s₁.leave m' := by
    intro π' m' hπ' hready'
    have hne : π'.outer ≠ [] := by
      rw [hπ']
      exact List.cons_ne_nil _ _
    refine ⟨hready'.bp, hready'.sp, ?_, hready'.kept⟩
    rw [← Nest.leave_of_outer hπ']
    exact hready'.agrees.leave hne
  obtain ⟨m', hrun', hends⟩ := h s.enter m o s₁
    ⟨hready.bp, hready.sp, hready.agrees.enter, hready.kept⟩ h₁
  refine ⟨m', hrun', ?_⟩
  cases o with
  | next => exact hleave houter hends
  | ret v =>
    obtain ⟨hax, π', hπ', hready'⟩ := hends
    exact ⟨hax, π, rfl, hleave (hπ'.trans houter) hready'⟩

theorem runs_remark (A : Activation) (o : Options) (text : String) (m : Machine) :
    A.Runs (o.remark text) m none m := by
  rw [Options.remark]
  split
  · exact Assembly.runs_comment text m
  · exact Assembly.runs_nil m

/-- A remark before a piece. -/
theorem Simulates.remark (h : A.Simulates f code π run π₁) (o : Options) (text : String) :
    A.Simulates f (o.remark text ++ code) π run π₁ := by
  intro s m flow s' hready hrun
  obtain ⟨m', hrun', hends⟩ := h s m flow s' hready hrun
  exact ⟨m', (A.runs_remark o text m).append hrun', hends⟩

/-- A label after a piece. -/
theorem Simulates.append_label (h : A.Simulates f code π run π₁) (l : Label) :
    A.Simulates f (code ++ [.label l]) π run π₁ := by
  intro s m o s' hready hrun
  obtain ⟨m', hrun', hends⟩ := h s m o s' hready hrun
  refine ⟨m', ?_, hends⟩
  cases o with
  | next => exact hrun'.append (Assembly.runs_label l m')
  | ret v => exact hrun'.append_jump _

/-! ### Conditionals -/

/-- The test of a condition passes if the condition is true, and jumps otherwise. -/
theorem Ready.runs_test (h : A.Ready σ.places s m) (hσ : A.AdmitsSite σ) (fold : Bool) {c : Expr}
    {b : Bool} (hc : c.eval s.find? = some (.bool b)) (hroom : 8 * c.depth ≤ A.room) (l : Label) :
    ∃ m', A.Runs (Block.testCode (c.lines fold σ) l) m (if b then none else some l) m' ∧
      A.Ready σ.places s m' := by
  obtain ⟨m₁, hrun₁, hax₁, hready₁⟩ := h.runs_lines hσ fold hc hroom
  generalize hm₂ : { m₁ with flags := some (.ofCompare (m₁.low .ax) 0) } = m₂
  have hcmp : A.Runs [Line.instr (.cmpImm .ax 0)] m₁ none m₂ := hm₂ ▸ Assembly.runs_exec rfl
  have hflags : m₂.flags = some (.ofCompare (m₁.low .ax) 0) := by rw [← hm₂]
  have hready₂ : A.Ready σ.places s m₂ := by
    rw [← hm₂]
    exact ⟨hready₁.bp, hready₁.sp, hready₁.agrees, hready₁.kept⟩
  have hzero : (Flags.ofCompare (m₁.low .ax) 0).zero = !b := by
    rw [Flags.zero_ofCompare, Value.low_of_register hax₁]
    cases b <;> decide
  refine ⟨m₂, hrun₁.append (hcmp.append ?_), hready₂⟩
  cases b with
  | true => exact Assembly.runs_jumpEqual_pass l hflags hzero
  | false => exact Assembly.runs_jumpEqual l hflags hzero

variable {fold : Bool} {c : Expr}

/-- An `if` without `else`. -/
theorem Simulates.ifThen (h : A.Simulates f code σ.places run σ.places) (hσ : A.AdmitsSite σ)
    (hroom : 8 * c.depth ≤ A.room) (fold : Bool) (l : Label) :
    A.Simulates f (Block.testCode (c.lines fold σ) l ++ code ++ [Line.label l]) σ.places
      (.branch c run .skip) σ.places := by
  intro s m o s' hready hrun
  rw [List.append_assoc]
  rcases Run.branch_eq_some.1 hrun with ⟨hc, hthen⟩ | ⟨hc, hskip⟩
  · obtain ⟨m₁, hrun₁, hready₁⟩ := hready.runs_test hσ fold hc hroom l
    obtain ⟨m₂, hrun₂, hends₂⟩ := h.append_label l s m₁ o s' hready₁ hthen
    exact ⟨m₂, hrun₁.append hrun₂, hends₂⟩
  · obtain ⟨rfl, rfl⟩ := Prod.ext_iff.1 (Option.some.inj hskip)
    obtain ⟨m₁, hrun₁, hready₁⟩ := hready.runs_test hσ fold hc hroom l
    exact ⟨m₁, hrun₁.forward A.labels (Assembly.runs_label l m₁), hready₁⟩

/-- An `if` with `else`. -/
theorem Simulates.ifElse (h : A.Simulates f code σ.places run σ.places)
    (h' : A.Simulates f code' σ.places run' σ.places) (hσ : A.AdmitsSite σ)
    (hroom : 8 * c.depth ≤ A.room) (fold : Bool) (l l' : Label) :
    A.Simulates f (Block.testCode (c.lines fold σ) l ++ code ++
      [Line.instr (.jump l'), Line.label l] ++ code' ++ [Line.label l']) σ.places
      (.branch c run run') σ.places := by
  intro s m o s' hready hrun
  have hcode : Block.testCode (c.lines fold σ) l ++ code ++ [Line.instr (.jump l'), Line.label l] ++
      code' ++ [Line.label l'] = Block.testCode (c.lines fold σ) l ++ (code ++
        ([Line.instr (.jump l')] ++ ((Line.label l :: code') ++ Line.label l' :: []))) := by
    simp
  rcases Run.branch_eq_some.1 hrun with ⟨hc, hthen⟩ | ⟨hc, helse⟩
  · obtain ⟨m₁, hrun₁, hready₁⟩ := hready.runs_test hσ fold hc hroom l
    obtain ⟨m₂, hrun₂, hends₂⟩ := h s m₁ o s' hready₁ hthen
    rw [hcode]
    refine ⟨m₂, hrun₁.append ?_, hends₂⟩
    cases o with
    | next =>
      exact hrun₂.append ((Assembly.runs_jump l' m₂).forward A.labels (Assembly.runs_label l' m₂))
    | ret v => exact hrun₂.append_jump _
  · obtain ⟨m₁, hrun₁, hready₁⟩ := hready.runs_test hσ fold hc hroom l
    obtain ⟨m₂, hrun₂, hends₂⟩ := h'.append_label l' s m₁ o s' hready₁ helse
    have hlabel : A.Runs (Line.label l :: (code' ++ [Line.label l'])) m₁ (o.out f) m₂ :=
      (Assembly.runs_label l m₁).append hrun₂
    have hskip : A.Runs (Block.testCode (c.lines fold σ) l ++ ((code ++ [Line.instr (.jump l')]) ++
        Line.label l :: (code' ++ [Line.label l']))) m (o.out f) m₂ := hrun₁.forward A.labels hlabel
    refine ⟨m₂, ?_, hends₂⟩
    rw [hcode]
    simpa using hskip

/-! ### Loops -/

/-- A `while`, by induction on its turns. -/
theorem Simulates.loop (h : A.Simulates f code σ.places run σ.places) (hσ : A.AdmitsSite σ)
    (hroom : 8 * c.depth ≤ A.room) (fold : Bool) (l l' : Label) (turns : Nat) :
    A.Simulates f ([Line.label l] ++ Block.testCode (c.lines fold σ) l' ++ code ++
      [Line.instr (.jump l), Line.label l']) σ.places (.loop c run turns) σ.places := by
  have hcode : [Line.label l] ++ Block.testCode (c.lines fold σ) l' ++ code ++
      [Line.instr (.jump l), Line.label l'] = Line.label l :: (Block.testCode (c.lines fold σ) l' ++
        (code ++ ([Line.instr (.jump l)] ++ [Line.label l']))) := by
    simp
  rw [hcode]
  induction turns with
  | zero =>
    intro s m o s' _ hrun
    cases hrun
  | succ turns ih =>
    intro s m o s' hready hrun
    rcases Run.branch_eq_some.1 hrun with ⟨hc, hturn⟩ | ⟨hc, hskip⟩
    · obtain ⟨m₁, hrun₁, hready₁⟩ := hready.runs_test hσ fold hc hroom l'
      have htest : A.Runs ([Line.label l] ++ Block.testCode (c.lines fold σ) l') m none m₁ :=
        (Assembly.runs_label l m).append hrun₁
      rcases Run.andThen_eq_some.1 hturn with ⟨s₂, h₂, h₃⟩ | ⟨v, s₂, h₂, hret⟩
      · -- one turn, back to the top, and the other turns
        obtain ⟨m₂, hrun₂, hready₂⟩ := h s m₁ .next s₂ hready₁ h₂
        have hback : A.Runs (Line.label l :: (Block.testCode (c.lines fold σ) l' ++
            (code ++ ([Line.instr (.jump l)] ++ [Line.label l'])))) m (some l) m₂ :=
          htest.append (hrun₂.append ((Assembly.runs_jump l m₂).append_jump _))
        obtain ⟨m₃, hrun₃, hends₃⟩ := ih s₂ m₂ o s' hready₂ h₃
        exact ⟨m₃, hback.again A.labels hrun₃, hends₃⟩
      · obtain ⟨rfl, rfl⟩ := Prod.mk.inj hret
        obtain ⟨m₂, hrun₂, hends₂⟩ := h s m₁ (.ret v) _ hready₁ h₂
        exact ⟨m₂, htest.append (hrun₂.append_jump _), hends₂⟩
    · obtain ⟨rfl, rfl⟩ := Prod.ext_iff.1 (Option.some.inj hskip)
      obtain ⟨m₁, hrun₁, hready₁⟩ := hready.runs_test hσ fold hc hroom l'
      have htest : A.Runs ([Line.label l] ++ Block.testCode (c.lines fold σ) l') m (some l') m₁ :=
        (Assembly.runs_label l m).append hrun₁
      have hend : A.Runs (([Line.label l] ++ Block.testCode (c.lines fold σ) l') ++
          ((code ++ [Line.instr (.jump l)]) ++ Line.label l' :: [])) m (Flow.next.out f) m₁ :=
        htest.forward A.labels (Assembly.runs_label l' m₁)
      exact ⟨m₁, by simpa using hend, hready₁⟩

end Activation

/-! ### Blocks -/

namespace Block

/-- A well-formed block stands at a site of a call: its variables fit into the frame, and the
operands of its expressions into the room below it. -/
structure Stands (A : Activation) (result : Ty) (b : Block) (σ : Site) : Prop where
  /-- The block is well formed there. -/
  wellFormed : b.WellFormed result σ.types
  /-- The places at the site are admitted. -/
  admits : A.AdmitsSite σ
  /-- The frame is large enough. -/
  frame : (b.siteAfter σ).taken ≤ A.frame
  /-- There is room for operands. -/
  room : ∀ e ∈ b.exprs, 8 * e.depth ≤ A.room

section

variable {A : Activation} {result : Ty} {pos : Pos} {c : Expr} {t e rest : Block} {σ : Site}

theorem Stands.of_simple {a : Simple} (h : (simple a rest).Stands A result σ) :
    (a.siteAfter σ).taken ≤ A.frame ∧ (∀ e ∈ a.exprs, 8 * e.depth ≤ A.room) ∧
      rest.Stands A result (a.siteAfter σ) := by
  have hframe : (a.siteAfter σ).taken ≤ A.frame :=
    (rest.taken_le_siteAfter (a.siteAfter σ)).trans h.frame
  obtain ⟨hrooma, hroom⟩ := forall_mem_exprs_simple.1 h.room
  exact ⟨hframe, hrooma, h.wellFormed.rest, h.wellFormed.admits_siteAfter h.admits hframe, h.frame,
    hroom⟩

theorem Stands.of_ifThen (h : (ifThen pos c t rest).Stands A result σ) :
    (c.HasType σ.types.find? .bool ∧ 8 * c.depth ≤ A.room) ∧ t.Stands A result σ.number.enter ∧
      rest.Stands A result (t.siteInside σ.number) := by
  obtain ⟨hc, ht, hrest⟩ := wellFormed_ifThen.1 h.wellFormed
  obtain ⟨hroomc, hroomt, hroom⟩ := forall_mem_exprs_ifThen.1 h.room
  have hframe : (t.siteInside σ.number).taken ≤ A.frame :=
    (rest.taken_le_siteAfter (t.siteInside σ.number)).trans h.frame
  have hσ : A.AdmitsSite σ.number := h.admits
  exact ⟨⟨hc, hroomc⟩, ⟨ht, hσ.enter, hframe, hroomt⟩, hrest, hσ.siteInside hframe, h.frame, hroom⟩

theorem Stands.of_ifElse (h : (ifElse pos c t e rest).Stands A result σ) :
    (c.HasType σ.types.find? .bool ∧ 8 * c.depth ≤ A.room) ∧ t.Stands A result σ.number.enter ∧
      e.Stands A result (t.siteInside σ.number).enter ∧
      rest.Stands A result (e.siteInside (t.siteInside σ.number)) := by
  obtain ⟨hc, ht, he, hrest⟩ := wellFormed_ifElse.1 h.wellFormed
  obtain ⟨hroomc, hroomt, hroome, hroom⟩ := forall_mem_exprs_ifElse.1 h.room
  have hframe₂ : (e.siteInside (t.siteInside σ.number)).taken ≤ A.frame :=
    (rest.taken_le_siteAfter (e.siteInside (t.siteInside σ.number))).trans h.frame
  have hframe₁ : (t.siteInside σ.number).taken ≤ A.frame :=
    (e.taken_le_siteAfter (t.siteInside σ.number).enter).trans hframe₂
  have hσ : A.AdmitsSite σ.number := h.admits
  have hσ₁ : A.AdmitsSite (t.siteInside σ.number) := hσ.siteInside hframe₁
  exact ⟨⟨hc, hroomc⟩, ⟨ht, hσ.enter, hframe₁, hroomt⟩, ⟨he, hσ₁.enter, hframe₂, hroome⟩, hrest,
    hσ₁.siteInside hframe₂, h.frame, hroom⟩

theorem Stands.of_loop (h : (loop pos c t rest).Stands A result σ) :
    (c.HasType σ.types.find? .bool ∧ 8 * c.depth ≤ A.room) ∧ t.Stands A result σ.number.enter ∧
      rest.Stands A result (t.siteInside σ.number) := by
  obtain ⟨hc, ht, hrest⟩ := wellFormed_loop.1 h.wellFormed
  obtain ⟨hroomc, hroomt, hroom⟩ := forall_mem_exprs_loop.1 h.room
  have hframe : (t.siteInside σ.number).taken ≤ A.frame :=
    (rest.taken_le_siteAfter (t.siteInside σ.number)).trans h.frame
  have hσ : A.AdmitsSite σ.number := h.admits
  exact ⟨⟨hc, hroomc⟩, ⟨ht, hσ.enter, hframe, hroomt⟩, hrest, hσ.siteInside hframe, h.frame, hroom⟩

variable (o : Options) (f : String) (pos : Pos) (c : Expr) (t e rest : Block) (σ : Site)

/-! The code of a construct, apart from the remark before it and from what follows. -/

theorem assemble_ifThen : (ifThen pos c t rest).assemble o f σ = o.remark (guardText .cond c) ++
    (testCode (c.lines o.foldConstants σ) (.construct .endIf σ.labels) ++
      t.assemble o f σ.number.enter ++ [Line.label (.construct .endIf σ.labels)]) ++
    rest.assemble o f (t.siteInside σ.number) := by
  simp only [assemble, List.append_assoc]

theorem assemble_ifElse : (ifElse pos c t e rest).assemble o f σ = o.remark (guardText .cond c) ++
    (testCode (c.lines o.foldConstants σ) (.construct .otherwise σ.labels) ++
      t.assemble o f σ.number.enter ++
      [Line.instr (.jump (.construct .endIf σ.labels)),
        Line.label (.construct .otherwise σ.labels)] ++
      e.assemble o f (t.siteInside σ.number).enter ++
      [Line.label (.construct .endIf σ.labels)]) ++
    rest.assemble o f (e.siteInside (t.siteInside σ.number)) := by
  simp only [assemble, List.append_assoc]

theorem assemble_loop : (loop pos c t rest).assemble o f σ = o.remark (guardText .loop c) ++
    ([Line.label (.construct .loopStart σ.labels)] ++
      testCode (c.lines o.foldConstants σ) (.construct .loopEnd σ.labels) ++
      t.assemble o f σ.number.enter ++
      [Line.instr (.jump (.construct .loopStart σ.labels)),
        Line.label (.construct .loopEnd σ.labels)]) ++
    rest.assemble o f (t.siteInside σ.number) := by
  simp only [assemble, List.append_assoc]

end

/-- The code of a block does what the block does. -/
theorem Stands.simulates {A : Activation} (o : Options) (f : String) (bound : Nat) {result : Ty}
    {b : Block} {σ : Site} (h : b.Stands A result σ) :
    A.Simulates f (b.assemble o f σ) σ.places (b.run bound) (b.siteAfter σ).places := by
  induction b generalizing σ with
  | done => exact Activation.simulates_skip f σ.places
  | simple a rest ih =>
    obtain ⟨hframe, hroom, hrest⟩ := h.of_simple
    have hfirst := Activation.simulates_simple h.wellFormed o f h.admits hframe hroom
    exact (hfirst.remark o a.text).andThen (ih hrest) (rest.outer_siteAfter _)
  | ifThen pos c t rest iht ih =>
    obtain ⟨⟨-, hroom⟩, ht, hrest⟩ := h.of_ifThen
    have hbody := (iht ht).inside (t.outer_siteAfter σ.number.enter)
    have hfirst := (hbody.ifThen (σ := σ) h.admits hroom o.foldConstants
      (.construct .endIf σ.labels)).remark o (guardText .cond c)
    rw [assemble_ifThen]
    exact hfirst.andThen (ih hrest) (rest.outer_siteAfter _)
  | ifElse pos c t e rest iht ihe ih =>
    obtain ⟨⟨-, hroom⟩, ht, he, hrest⟩ := h.of_ifElse
    have hthen := (iht ht).inside (t.outer_siteAfter σ.number.enter)
    have helse := (ihe he).inside (e.outer_siteAfter (t.siteInside σ.number).enter)
    have hfirst := (hthen.ifElse (σ := σ) helse h.admits hroom o.foldConstants
      (.construct .otherwise σ.labels) (.construct .endIf σ.labels)).remark o (guardText .cond c)
    rw [assemble_ifElse]
    exact hfirst.andThen (ih hrest) (rest.outer_siteAfter _)
  | loop pos c b rest ihb ih =>
    obtain ⟨⟨-, hroom⟩, hb, hrest⟩ := h.of_loop
    have hbody := (ihb hb).inside (b.outer_siteAfter σ.number.enter)
    have hfirst := (hbody.loop (σ := σ) h.admits hroom o.foldConstants
      (.construct .loopStart σ.labels) (.construct .loopEnd σ.labels) bound).remark o
        (guardText .loop c)
    rw [assemble_loop]
    exact hfirst.andThen (ih hrest) (rest.outer_siteAfter _)

end Block

end BlockLang
