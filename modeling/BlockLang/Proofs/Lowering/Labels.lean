import BlockLang.Proofs.Lowering.Numbering

/-!
# Labels and jumps of compiled programs

The labels of a compiled program come from three sources: the names of global variables, the names
of the function and of the entry, and the numbers of constructs. The first are told from the rest by
the analysis, which refuses a global variable that is spelt like a label of the text section, and
the last from one another by the counter of code generation.

To say which construct a jump belongs to, code is written once more with the writer of every line
(`Block.written`). Writers are counted along the text and not by the counter of labels, so that a
jump goes to a label of its own construct is something to prove.
-/

namespace BlockLang

/-! ### The writers of lines -/

/-- A line of code with the construct that wrote it, if one did. Constructs are counted in the order
of the text, from zero. -/
structure Written where
  /-- The construct. -/
  writer : Option Nat
  /-- The line. -/
  line : Line
deriving DecidableEq, Repr

/-- Lines that were all written by the same construct, or by none. -/
def writtenBy (writer : Option Nat) (code : List Line) : List Written := code.map (⟨writer, ·⟩)

@[simp] theorem map_line_writtenBy (writer : Option Nat) (code : List Line) :
    (writtenBy writer code).map Written.line = code := by
  simp [writtenBy, Function.comp_def]

@[simp] theorem writtenBy_append (writer : Option Nat) (code code' : List Line) :
    writtenBy writer (code ++ code') = writtenBy writer code ++ writtenBy writer code' :=
  List.map_append

theorem mem_writtenBy {writer : Option Nat} {code : List Line} {w : Written} :
    w ∈ writtenBy writer code ↔ w.line ∈ code ∧ w.writer = writer := by
  obtain ⟨writer', line⟩ := w
  simp [writtenBy, eq_comm]

namespace Block

/-- The code of a block with its writers, where `k` constructs come before the block in the text. -/
def written (o : Options) (f : String) : Block → Nat → Site → List Written
  | done, _, _ => []
  | simple a rest, k, σ => writtenBy none (a.assemble o f σ) ++ rest.written o f k (a.siteAfter σ)
  | ifThen _ c t rest, k, σ =>
    writtenBy (some k) (o.remark (guardText .cond c) ++
        testCode (c.lines o.foldConstants σ) (.construct .endIf σ.labels)) ++
      t.written o f (k + 1) σ.number.enter ++
      writtenBy (some k) [.label (.construct .endIf σ.labels)] ++
      rest.written o f (k + 1 + t.constructCount) (t.siteInside σ.number)
  | ifElse _ c t e rest, k, σ =>
    writtenBy (some k) (o.remark (guardText .cond c) ++
        testCode (c.lines o.foldConstants σ) (.construct .otherwise σ.labels)) ++
      t.written o f (k + 1) σ.number.enter ++
      writtenBy (some k)
        [.instr (.jump (.construct .endIf σ.labels)), .label (.construct .otherwise σ.labels)] ++
      e.written o f (k + 1 + t.constructCount) (t.siteInside σ.number).enter ++
      writtenBy (some k) [.label (.construct .endIf σ.labels)] ++
      rest.written o f (k + 1 + t.constructCount + e.constructCount)
        (e.siteInside (t.siteInside σ.number))
  | loop _ c b rest, k, σ =>
    writtenBy (some k) (o.remark (guardText .loop c) ++
        [.label (.construct .loopStart σ.labels)] ++
        testCode (c.lines o.foldConstants σ) (.construct .loopEnd σ.labels)) ++
      b.written o f (k + 1) σ.number.enter ++
      writtenBy (some k)
        [.instr (.jump (.construct .loopStart σ.labels)), .label (.construct .loopEnd σ.labels)] ++
      rest.written o f (k + 1 + b.constructCount) (b.siteInside σ.number)

/-- The writers are added to the code and change nothing in it. -/
theorem map_line_written (o : Options) (f : String) (b : Block) (k : Nat) (σ : Site) :
    (b.written o f k σ).map Written.line = b.assemble o f σ := by
  induction b generalizing k σ with
  | done => rfl
  | simple a rest ih => simp [written, assemble, ih]
  | ifThen pos c t rest iht ih => simp [written, assemble, iht, ih]
  | ifElse pos c t e rest iht ihe ih => simp [written, assemble, iht, ihe, ih]
  | loop pos c b rest ihb ih => simp [written, assemble, ihb, ih]

end Block

/-! ### Where jumps go -/

/-- Among the written lines, the jump of a construct goes to a label that this construct wrote, and
any other jump goes to the end of the function `f`. -/
def Written.Aims (f : String) (ws : List Written) (w : Written) : Prop :=
  ∀ l, w.line.target? = some l →
    match w.writer with
    | none => l = .exit f
    | some k => (∃ m n, l = .construct m n) ∧ ⟨some k, .label l⟩ ∈ ws

section

variable {f : String} {ws : List Written}

/-- Jumps of statements without inner blocks. -/
theorem aims_of_plain {code : List Line} (h : ∀ line ∈ code, line.Plain f) :
    ∀ w ∈ writtenBy none code, w.Aims f ws := by
  intro w hw l hl
  obtain ⟨hline, hwriter⟩ := mem_writtenBy.1 hw
  rw [hwriter]
  exact (h w.line hline).target l hl

/-- Lines that do not jump. -/
theorem aims_of_target?_eq_none {writer : Option Nat} {code : List Line}
    (h : ∀ line ∈ code, line.target? = none) : ∀ w ∈ writtenBy writer code, w.Aims f ws := by
  intro w hw l hl
  rw [h w.line (mem_writtenBy.1 hw).1] at hl
  cases hl

theorem target?_of_mem_remark {o : Options} {text : String} :
    ∀ line ∈ o.remark text, line.target? = none := by
  intro line hline
  rw [Options.remark] at hline
  split at hline
  · rw [List.mem_singleton.1 hline]
    rfl
  · exact absurd hline List.not_mem_nil

variable {k n : Nat} {m : Mark} (h : ⟨some k, .label (.construct m n)⟩ ∈ ws)
include h

/-- A jump of a construct to a label of its own, at the end of a block. -/
theorem aims_jump (next : Label) :
    ∀ w ∈ writtenBy (some k) [.instr (.jump (.construct m n)), .label next], w.Aims f ws := by
  intro w hw l hl
  obtain ⟨hline, hwriter⟩ := mem_writtenBy.1 hw
  rcases List.mem_pair.1 hline with hline | hline
  · rw [hline] at hl
    obtain rfl := Option.some.inj hl
    rw [hwriter]
    exact ⟨⟨m, n, rfl⟩, h⟩
  · rw [hline] at hl
    cases hl

/-- A test of a construct that may go on at a label of its own. -/
theorem aims_testCode (fold : Bool) (σ : Site) (c : Expr) :
    ∀ w ∈ writtenBy (some k) (Block.testCode (c.lines fold σ) (.construct m n)), w.Aims f ws := by
  intro w hw l hl
  obtain ⟨hline, hwriter⟩ := mem_writtenBy.1 hw
  have hl' : l = .construct m n := by
    rw [Block.testCode, List.mem_append] at hline
    rcases hline with hline | hline
    · obtain ⟨i, hi, hi'⟩ := List.mem_map.1 hline
      rw [← hi', show Line.target? (.instr i) = i.target? from rfl,
        (c.straight_assemble fold _ i hi).target] at hl
      cases hl
    · rcases List.mem_pair.1 hline with hline | hline
      · rw [hline] at hl
        cases hl
      · rw [hline] at hl
        exact (Option.some.inj hl).symm
  rw [hwriter, hl']
  exact ⟨⟨m, n, rfl⟩, h⟩

end

/-- Every jump in the code of a block goes to a label that the same construct wrote, or else to the
end of the function. -/
theorem Block.aims_written (o : Options) (f : String) (b : Block) (k : Nat) (σ : Site)
    {ws : List Written} (hsub : b.written o f k σ ⊆ ws) :
    ∀ w ∈ b.written o f k σ, w.Aims f ws := by
  induction b generalizing k σ with
  | done => exact fun w hw ↦ absurd hw List.not_mem_nil
  | simple a rest ih =>
    rw [written, List.append_subset] at hsub
    rw [written, List.forall_mem_append]
    exact ⟨aims_of_plain (a.plain_assemble o f σ), ih k _ hsub.2⟩
  | ifThen pos c t rest iht ih =>
    simp only [written, List.append_subset] at hsub
    obtain ⟨⟨⟨-, ht⟩, hlabel⟩, hrest⟩ := hsub
    have hend : ⟨some k, .label (.construct .endIf σ.labels)⟩ ∈ ws := hlabel List.mem_cons_self
    simp only [written, writtenBy_append, List.forall_mem_append]
    exact ⟨⟨⟨⟨aims_of_target?_eq_none target?_of_mem_remark, aims_testCode hend _ σ c⟩,
      iht _ _ ht⟩, aims_of_target?_eq_none (by simp [Line.target?])⟩, ih _ _ hrest⟩
  | ifElse pos c t e rest iht ihe ih =>
    simp only [written, List.append_subset] at hsub
    obtain ⟨⟨⟨⟨⟨-, ht⟩, hlabel⟩, he⟩, hlabel'⟩, hrest⟩ := hsub
    have helse : ⟨some k, .label (.construct .otherwise σ.labels)⟩ ∈ ws :=
      hlabel (List.mem_cons_of_mem _ List.mem_cons_self)
    have hend : ⟨some k, .label (.construct .endIf σ.labels)⟩ ∈ ws := hlabel' List.mem_cons_self
    simp only [written, writtenBy_append, List.forall_mem_append]
    exact ⟨⟨⟨⟨⟨⟨aims_of_target?_eq_none target?_of_mem_remark, aims_testCode helse _ σ c⟩,
      iht _ _ ht⟩, aims_jump hend _⟩, ihe _ _ he⟩,
      aims_of_target?_eq_none (by simp [Line.target?])⟩, ih _ _ hrest⟩
  | loop pos c b rest ihb ih =>
    simp only [written, writtenBy_append, List.append_subset] at hsub
    obtain ⟨⟨⟨⟨⟨-, hlabel⟩, -⟩, hb⟩, hlabel'⟩, hrest⟩ := hsub
    have hstart : ⟨some k, .label (.construct .loopStart σ.labels)⟩ ∈ ws :=
      hlabel List.mem_cons_self
    have hend : ⟨some k, .label (.construct .loopEnd σ.labels)⟩ ∈ ws :=
      hlabel' (List.mem_cons_of_mem _ List.mem_cons_self)
    simp only [written, writtenBy_append, List.forall_mem_append]
    exact ⟨⟨⟨⟨⟨aims_of_target?_eq_none target?_of_mem_remark,
      aims_of_target?_eq_none (by simp [Line.target?])⟩, aims_testCode hend _ σ c⟩, ihb _ _ hb⟩,
      aims_jump hstart _⟩, ih _ _ hrest⟩

/-! ### The data section -/

/-- The names of global variables, in order. -/
def Program.globalNames (p : Program) : List String :=
  p.globals.flatMap fun d ↦ d.vars.map Declarator.name

theorem Program.map_name_dataCells (p : Program) : p.dataCells.map Cell.name = p.globalNames := by
  simp only [dataCells, globalNames, List.map_flatMap, List.map_map]
  rfl

/-- The variables of a declaration have different names, which are all new. -/
theorem WellDeclared.nodup_names {isGlobal : Bool} {ty : Ty} {Γ : Context} {vs : List Declarator}
    (h : WellDeclared isGlobal ty Γ vs) :
    (vs.map Declarator.name).Nodup ∧ ∀ x ∈ vs.map Declarator.name, Γ.here x = none := by
  induction h with
  | nil => exact ⟨List.nodup_nil, fun _ hx ↦ absurd hx List.not_mem_nil⟩
  | @cons Γ v vs hnew _ _ ih =>
    obtain ⟨hnodup, hfresh⟩ := ih
    have hself : v.name ∉ vs.map Declarator.name := by
      intro hmem
      have hnone := hfresh v.name hmem
      rw [Nest.bind_here_self] at hnone
      cases hnone
    rw [List.map_cons, List.nodup_cons, List.forall_mem_cons]
    refine ⟨⟨hself, hnodup⟩, hnew, fun x hx ↦ ?_⟩
    have hne : x ≠ v.name := fun heq ↦ hself (heq ▸ hx)
    rw [← hfresh x hx, Nest.bind_here_of_ne _ _ hne]

/-- Global variables have different names, which are all new. -/
theorem WellFormedGlobals.nodup_names {function entry : String} {Γ : Context}
    {ds : List Declaration} (h : WellFormedGlobals function entry Γ ds) :
    (ds.flatMap fun d ↦ d.vars.map Declarator.name).Nodup ∧
      ∀ x ∈ ds.flatMap fun d ↦ d.vars.map Declarator.name, Γ.here x = none := by
  induction h with
  | nil => exact ⟨List.nodup_nil, fun _ hx ↦ absurd hx List.not_mem_nil⟩
  | @cons Γ d ds hd _ _ ih =>
    obtain ⟨hnodup, hfresh⟩ := ih
    obtain ⟨hnodupd, hfreshd⟩ := hd.declared.nodup_names
    have hapart : ∀ x ∈ d.vars.map Declarator.name,
        x ∉ ds.flatMap fun d ↦ d.vars.map Declarator.name := by
      intro x hx hmem
      obtain ⟨v, hv, rfl⟩ := List.mem_map.1 hx
      have hnone := hfresh v.name hmem
      rw [Context.declare_here_of_mem hv] at hnone
      cases hnone
    rw [List.flatMap_cons, List.forall_mem_append]
    refine ⟨List.nodup_append.2 ⟨hnodupd, hnodup, ?_⟩, hfreshd, fun x hx ↦ ?_⟩
    · rintro x hx y hy rfl
      exact hapart x hx hy
    · have hother : x ∉ d.vars.map Declarator.name := fun hmem ↦ hapart x hmem hx
      rw [← hfresh x hx, Context.declare, Context.declareAll_here, if_neg hother]

/-- No global variable has a reserved name. -/
theorem WellFormedGlobals.isReserved_eq_false {function entry : String} {Γ : Context}
    {ds : List Declaration} (h : WellFormedGlobals function entry Γ ds) :
    ∀ x ∈ ds.flatMap fun d ↦ d.vars.map Declarator.name, isReserved x function entry = false := by
  induction h with
  | nil => exact fun _ hx ↦ absurd hx List.not_mem_nil
  | @cons Γ d ds _ hnames _ ih =>
    rw [List.flatMap_cons, List.forall_mem_append, List.forall_mem_map]
    exact ⟨hnames, ih⟩

/-! ### Programs -/

theorem plain_assembleParams (f : String) (index : Nat) (ps : List Param) (σ : Site) :
    ∀ line ∈ assembleParams index ps σ, line.Plain f := by
  induction ps generalizing index σ with
  | nil => exact fun line hline ↦ absurd hline List.not_mem_nil
  | cons q ps ih =>
    rw [assembleParams, List.forall_mem_append]
    refine ⟨?_, ih _ _⟩
    rw [argumentCode]
    split
    · exact List.forall_mem_singleton.2 (plain_instr ⟨rfl, rfl, by simp⟩)
    · rw [List.forall_mem_cons, List.forall_mem_singleton]
      exact ⟨plain_instr ⟨rfl, rfl, by simp⟩, plain_instr (straight_storeAcc _ _)⟩

theorem target?_of_mem_prologue (f : String) (frame : Nat) :
    ∀ line ∈ prologue f frame, line.target? = none := by
  rw [prologue]
  split <;> simp [Line.target?, Instr.target?]

theorem target?_of_mem_epilogue (f : String) (alwaysReturns : Bool) :
    ∀ line ∈ epilogue f alwaysReturns, line.target? = none := by
  rw [epilogue]
  split <;> simp [Line.target?, Instr.target?]

namespace Program

/-- The text section of a program with the writers of its lines. -/
def written (o : Options) (p : Program) : List Written :=
  writtenBy none ((p.assembled o).stub ++
      prologue p.function.name (p.function.frameBytes o) ++
      assembleParams 0 p.function.params p.functionSite.enter) ++
    p.function.body.written o p.function.name 0 (p.function.bodySite p.functionSite) ++
    writtenBy none (epilogue p.function.name p.function.body.alwaysReturns)

theorem map_line_written (o : Options) (p : Program) :
    (p.written o).map Written.line = (p.assembled o).lines := by
  simp [written, Block.map_line_written, Assembly.lines, assembled, Function.assemble]

theorem aims_written (o : Options) (p : Program) {ws : List Written} (hsub : p.written o ⊆ ws) :
    ∀ w ∈ p.written o, w.Aims p.function.name ws := by
  simp only [written, writtenBy_append, List.append_subset] at hsub
  obtain ⟨⟨-, hbody⟩, -⟩ := hsub
  simp only [written, writtenBy_append, List.forall_mem_append]
  refine ⟨⟨⟨⟨?_, ?_⟩, ?_⟩, p.function.body.aims_written o _ _ _ hbody⟩, ?_⟩
  · exact aims_of_target?_eq_none (by simp [Assembly.stub, Line.target?, Instr.target?])
  · exact aims_of_target?_eq_none (target?_of_mem_prologue _ _)
  · exact aims_of_plain (plain_assembleParams _ _ _ _)
  · exact aims_of_target?_eq_none (target?_of_mem_epilogue _ _)

/-- The labels of the text section are those of the entry, the function and its end, and those of
constructs. -/
theorem label_cases {o : Options} {p : Program} {l : Label}
    (h : Line.label l ∈ (p.assembled o).lines) :
    l = .named o.entryLabel ∨ l = .named p.function.name ∨ l = .exit p.function.name ∨
      ∃ m n, l = .construct m n := by
  simp only [Assembly.lines, assembled, Function.assemble, List.mem_append] at h
  rcases h with h | ((h | h) | h) | h
  · exact .inl (by simpa [Assembly.stub] using h)
  · refine .inr (.inl ?_)
    rw [prologue] at h
    split at h <;> simpa using h
  · exact absurd h (label_notMem_of_plain (plain_assembleParams "" _ _ _))
  · exact .inr (.inr (.inr (Block.exists_construct_of_mem h)))
  · refine .inr (.inr (.inl ?_))
    rw [epilogue] at h
    split at h <;> simpa using h

theorem constructLabels_lines (o : Options) (p : Program) :
    constructLabels (p.assembled o).lines =
      constructLabels (p.function.body.assemble o p.function.name
        (p.function.bodySite p.functionSite)) := by
  have hstub : constructLabels (p.assembled o).stub = [] := rfl
  have hprologue : constructLabels (prologue p.function.name (p.function.frameBytes o)) = [] := by
    rw [prologue]
    split <;> rfl
  have hepilogue :
      constructLabels (epilogue p.function.name p.function.body.alwaysReturns) = [] := by
    rw [epilogue]
    split <;> rfl
  rw [Assembly.lines, constructLabels_append, hstub, assembled, Function.assemble]
  simp only [constructLabels_append, hprologue, hepilogue, List.append_nil, List.nil_append,
    constructLabels_of_plain (plain_assembleParams "" _ _ _)]

/-- Labels of constructs are spelt differently. -/
theorem nodup_text_constructLabels (o : Options) (p : Program) :
    ((constructLabels (p.assembled o).lines).map Label.text).Nodup := by
  rw [constructLabels_lines]
  exact (p.function.body.numbered_assemble o p.function.name
    (p.function.bodySite p.functionSite)).nodup_text

/-- A data cell is spelt like no label of the text section. -/
theorem WellFormed.name_ne_text {o : Options} {p : Program} (h : p.WellFormed o.entryLabel)
    {c : Cell} (hc : c ∈ p.dataCells) {l : Label} (hl : Line.label l ∈ (p.assembled o).lines) :
    c.name ≠ l.text := by
  have hname : c.name ∈ p.globalNames := by
    rw [← p.map_name_dataCells]
    exact List.mem_map_of_mem hc
  have hreserved := h.globals.isReserved_eq_false c.name hname
  simp only [isReserved, Bool.or_eq_false_iff, decide_eq_false_iff_not] at hreserved
  obtain ⟨⟨⟨⟨⟨hfunction, hentry⟩, hexit⟩, hconstruct⟩, -⟩, -⟩ := hreserved
  rcases label_cases hl with rfl | rfl | rfl | ⟨m, n, rfl⟩
  · exact hentry
  · exact hfunction
  · exact hexit
  · intro heq
    rw [heq, Label.isConstructLabel_text] at hconstruct
    cases hconstruct

end Program

/-- The lines that define a label of a construct with the given spelling. -/
def definitions (text : String) (ws : List Written) : List Written :=
  ws.filter fun w ↦ w.line.constructLabel?.map Label.text = some text

/-- An element with a mark that no other element has is the only one with that mark. -/
private theorem filter_eq_singleton {α β : Type} [DecidableEq β] (mark : α → Option β) {xs : List α}
    (hnodup : (xs.filterMap mark).Nodup) {x : α} (hx : x ∈ xs) {b : β} (hb : mark x = some b) :
    (xs.filter fun y ↦ mark y = some b) = [x] := by
  induction xs with
  | nil => exact absurd hx List.not_mem_nil
  | cons y ys ih =>
    rcases List.mem_cons.1 hx with rfl | hx
    · rw [List.filterMap_cons_some hb, List.nodup_cons] at hnodup
      rw [List.filter_cons_of_pos (by simpa using hb), List.filter_eq_nil_iff.2]
      intro z hz hmark
      exact hnodup.1 (List.mem_filterMap.2 ⟨z, hz, by simpa using hmark⟩)
    · have hother : mark y ≠ some b := by
        intro hy
        rw [List.filterMap_cons_some hy, List.nodup_cons] at hnodup
        exact hnodup.1 (List.mem_filterMap.2 ⟨x, hx, hb⟩)
      rw [List.filter_cons_of_neg (by simpa using hother)]
      refine ih (hnodup.sublist ?_) hx
      exact (List.sublist_cons_self y ys).filterMap mark

/-- Where labels of constructs are spelt differently, each is defined once. -/
theorem definitions_eq {ws : List Written}
    (hnodup : ((constructLabels (ws.map Written.line)).map Label.text).Nodup) {w : Written}
    (hw : w ∈ ws) {l : Label} (hl : w.line.constructLabel? = some l) :
    definitions l.text ws = [w] := by
  refine filter_eq_singleton (fun w ↦ w.line.constructLabel?.map Label.text) ?_ hw ?_
  · rw [constructLabels, List.filterMap_map, List.map_filterMap] at hnodup
    exact hnodup
  · rw [hl]
    rfl

namespace Program

/-- Labels and jumps of a compiled program. The data cells are spelt differently from one another
and from every label of the text section. The labels of constructs are spelt differently from one
another. A jump that a construct wrote goes to a label of a construct which is defined once, by the
same construct, and any other jump goes to the end of the function. -/
theorem labels_of_compile (o : Options) (p : Program) (a : Assembly)
    (h : (p.compile o).assembly = some a) :
    (a.cells.map Cell.name).Nodup ∧
      (∀ c ∈ a.cells, ∀ l, Line.label l ∈ a.lines → c.name ≠ l.text) ∧
      ((constructLabels a.lines).map Label.text).Nodup ∧
      (p.written o).map Written.line = a.lines ∧
      ∀ w ∈ p.written o, ∀ l, w.line.target? = some l →
        match w.writer with
        | none => l = .exit p.function.name
        | some k =>
          (∃ m n, l = .construct m n) ∧
            definitions l.text (p.written o) = [⟨some k, .label l⟩] := by
  obtain ⟨hclean, rfl⟩ := clean_of_compile h
  have hwf : p.WellFormed o.entryLabel := (wellFormed_of_clean_analyze hclean).1
  have hnodup := p.nodup_text_constructLabels o
  refine ⟨?_, fun c hc l hl ↦ hwf.name_ne_text hc hl, hnodup, p.map_line_written o, ?_⟩
  · rw [show (p.assembled o).cells = p.dataCells from rfl, map_name_dataCells]
    exact hwf.globals.nodup_names.1
  · intro w hw l hl
    have haims := p.aims_written o (List.Subset.refl _) w hw l hl
    obtain ⟨writer, line⟩ := w
    cases writer with
    | none => exact haims
    | some k =>
      obtain ⟨⟨m, n, rfl⟩, hdefined⟩ := haims
      refine ⟨⟨m, n, rfl⟩, definitions_eq ?_ hdefined rfl⟩
      rw [p.map_line_written]
      exact hnodup

/-- The loop of this program goes back to its own start. -/
theorem labels_halving :
    ∃ a, (halving.compile {}).assembly = some a ∧ (a.cells.map Cell.name).Nodup ∧
      ((constructLabels a.lines).map Label.text).Nodup ∧
      ⟨some 0, .instr (.jump (.construct .loopStart 0))⟩ ∈ halving.written {} ∧
      definitions "while_start_0" (halving.written {}) =
        [⟨some 0, .label (.construct .loopStart 0)⟩] := by
  have hcompile : (halving.compile {}).assembly = some (halving.assembled {}) := by decide +kernel
  obtain ⟨hcells, -, hlabels, -, hjumps⟩ := labels_of_compile {} halving _ hcompile
  have hjump : ⟨some 0, .instr (.jump (.construct .loopStart 0))⟩ ∈ halving.written {} := by
    decide +kernel
  exact ⟨_, hcompile, hcells, hlabels, hjump, (hjumps _ hjump _ rfl).2⟩

end Program

end BlockLang
