import BlockLang.Proofs.Assembly.Text
import BlockLang.Proofs.Lowering.Capture

/-!
# Remarks and alignment

Two settings are a matter of presentation: whether statements appear as remarks, and to which
multiple the frame is rounded up. Compilations that differ in them only have the same diagnostics,
the same scopes, and the same text up to remarks and the size of the frame
(`Program.compile_styled`).

There are two halves. The code without remarks and without the size of the frame does not depend on
these settings (`Program.WellFormed.filterMap_bare?_lines`), by an induction on the text of the
program. And the code can be told from its own text if the names of the program are words
(`Program.legible_assembled`): a remark is a printed form, which then has no line break, and a name
comes into an instruction only as the label of a cell or of the function.
-/

namespace BlockLang

/-- The settings with another alignment of frames, and with or without remarks. -/
def Options.styled (o : Options) (align : UInt32) (comments : Bool) : Options :=
  { o with stackAlign := align, emitComments := comments }

/-! ### The names of a program -/

/-- The names in a statement: those that it declares, and those of the variables that occur. -/
def Simple.spellings (a : Simple) : List String := a.names ++ a.occurrences.map Prod.snd

/-- The names in a block and in the blocks inside it. -/
def Block.spellings : Block → List String
  | done => []
  | simple a rest => a.spellings ++ rest.spellings
  | ifThen _ c t rest => c.occurrences.map Prod.snd ++ t.spellings ++ rest.spellings
  | ifElse _ c t e rest =>
    c.occurrences.map Prod.snd ++ t.spellings ++ e.spellings ++ rest.spellings
  | loop _ c b rest => c.occurrences.map Prod.snd ++ b.spellings ++ rest.spellings

/-- The names of the global variables and of the function, and those in the function. -/
def Program.spellings (p : Program) : List String :=
  p.globalNames ++
    p.function.name :: (p.function.params.map Param.name ++ p.function.body.spellings)

/-! ### Printed forms -/

theorem Expr.oneLine_text {e : Expr} (h : ∀ x ∈ e.occurrences.map Prod.snd, IsWord x) :
    OneLine e.text := by
  induction e with
  | num p v => exact oneLine_toString v.toInt
  | bool p b =>
    have hb : OneLine (toString b) := by cases b <;> decide
    exact hb
  | var p x => exact (h x List.mem_cons_self).oneLine
  | not p e ih => exact oneLine_append.2 ⟨by decide, ih h⟩
  | binary p op l r ihl ihr =>
    rw [occurrences, List.map_append, List.forall_mem_append] at h
    have hop : OneLine op.symbol := by cases op <;> decide
    simp +decide [text, ihl h.1, ihr h.2, hop]

theorem oneLine_guardText (k : Construct) {c : Expr}
    (h : ∀ x ∈ c.occurrences.map Prod.snd, IsWord x) : OneLine (guardText k c) := by
  have hkeyword : OneLine k.keyword := by cases k <;> decide
  simp +decide [guardText, hkeyword, Expr.oneLine_text h]

theorem Declarator.oneLine_text {v : Declarator} (hname : IsWord v.name)
    (hinit : ∀ e, v.init = some e → ∀ x ∈ e.occurrences.map Prod.snd, IsWord x) :
    OneLine v.text := by
  rw [text]
  rcases hv : v.init with - | e
  · exact hname.oneLine
  · simp +decide [hname.oneLine, Expr.oneLine_text (hinit e hv)]

theorem Simple.oneLine_text {a : Simple} (h : ∀ x ∈ a.spellings, IsWord x) : OneLine a.text := by
  rw [spellings, List.forall_mem_append] at h
  obtain ⟨hnames, hoccurrences⟩ := h
  cases a with
  | declare d =>
    have hty : OneLine d.ty.name := by cases d.ty <;> decide
    have hvars : OneLine (", ".intercalate (d.vars.map Declarator.text)) := by
      refine oneLine_intercalate (by decide) (List.forall_mem_map.2 fun v hv ↦ ?_)
      refine Declarator.oneLine_text (List.forall_mem_map.1 hnames v hv) fun e he x hx ↦ ?_
      obtain ⟨u, hu, rfl⟩ := List.mem_map.1 hx
      have hexpr : e ∈ d.exprs := List.mem_filterMap.2 ⟨v, hv, he⟩
      exact hoccurrences _ (List.mem_map_of_mem (List.mem_flatMap.2 ⟨e, hexpr, hu⟩))
    simp +decide [text, Declaration.text, hty, hvars]
  | assign pos x e =>
    rw [occurrences, List.map_append, List.forall_mem_append] at hoccurrences
    have hx : OneLine x := (hoccurrences.2 x List.mem_cons_self).oneLine
    simp +decide [text, hx, Expr.oneLine_text hoccurrences.1]
  | ret pos value =>
    cases value with
    | none => exact (by decide : OneLine "return;")
    | some e =>
      rw [occurrences, Option.toList_some, List.flatMap_singleton] at hoccurrences
      simp +decide [text, Expr.oneLine_text hoccurrences]
  | eval pos e => simp +decide [text, Expr.oneLine_text hoccurrences]

/-! ### Legible code -/

/-- The places of variables are named by words. -/
def Nest.Legible (n : Nest Placed) : Prop := ∀ s ∈ n.scopes, ∀ x q, s x = some q → q.mem.Legible

namespace Nest.Legible

variable {n : Nest Placed}

theorem find? (h : n.Legible) {x : String} {q : Placed} (hx : n.find? x = some q) :
    q.mem.Legible := by
  obtain ⟨s, hs, hx⟩ := List.exists_of_findSome?_eq_some hx
  exact h s hs x q hx

theorem enter (h : n.Legible) : n.enter.Legible := by
  refine List.forall_mem_cons.2 ⟨fun x q hx ↦ ?_, h⟩
  cases hx

theorem bind (h : n.Legible) (x : String) {q : Placed} (hq : q.mem.Legible) :
    (n.bind x q).Legible := by
  obtain ⟨hhere, houter⟩ := List.forall_mem_cons.1 h
  refine List.forall_mem_cons.2 ⟨fun y q' hy ↦ ?_, houter⟩
  by_cases heq : y = x
  · subst heq
    rw [bind_here_self] at hy
    exact Option.some.inj hy ▸ hq
  · rw [n.bind_here_of_ne q heq] at hy
    exact hhere y q' hy

end Nest.Legible

theorem Site.legible_declare {σ : Site} (h : σ.places.Legible) (x : String) (ty : Ty) :
    (σ.declare x ty).places.Legible :=
  h.bind x trivial

theorem Site.legible_declareAll {σ : Site} (h : σ.places.Legible) (ty : Ty)
    (vs : List Declarator) : (σ.declareAll ty vs).places.Legible := by
  induction vs generalizing σ with
  | nil => exact h
  | cons v vs ih => exact ih (σ.legible_declare h v.name ty)

theorem Site.legible_declareParams {σ : Site} (h : σ.places.Legible) (ps : List Param) :
    (σ.declareParams ps).places.Legible := by
  induction ps generalizing σ with
  | nil => exact h
  | cons q ps ih => exact ih (σ.legible_declare h q.name q.ty)

theorem Simple.legible_siteAfter {σ : Site} (h : σ.places.Legible) (a : Simple) :
    (a.siteAfter σ).places.Legible := by
  cases a with
  | declare d => exact σ.legible_declareAll h d.ty d.vars
  | assign => exact h
  | ret => exact h
  | eval => exact h

theorem legible_remark {o : Options} {t : String} (h : OneLine t) :
    ∀ line ∈ o.remark t, line.Legible o.emitComments := by
  rw [Options.remark]
  split
  · rename_i hremarks
    exact List.forall_mem_singleton.2 ⟨hremarks, h⟩
  · exact fun line hline ↦ absurd hline List.not_mem_nil

theorem isWord_construct (m : Mark) (n : Nat) : IsWord (Label.construct m n).text := by
  have hstem : IsWord m.stem := by cases m <;> decide
  exact isWord_append.2 ⟨hstem, isWord_toString n⟩

theorem isWord_exit {f : String} (h : IsWord f) : IsWord (Label.exit f).text :=
  isWord_append.2 ⟨h, by decide⟩

theorem legible_loadAcc (ty : Ty) {m : Mem} (h : m.Legible) : (loadAcc ty m).Legible := by
  rw [loadAcc]
  split <;> exact h

/-- The names in the code of an expression are those of places. -/
theorem Expr.legible_assemble {fold : Bool} {π : String → Option Placed}
    (hπ : ∀ x q, π x = some q → q.mem.Legible) (e : Expr) :
    ∀ i ∈ e.assemble fold π, i.Legible := by
  induction e with
  | num p v => exact List.forall_mem_singleton.2 trivial
  | bool p b => exact List.forall_mem_singleton.2 trivial
  | var p x =>
    rw [assemble]
    rcases hx : π x with - | q
    · exact fun i hi ↦ absurd hi List.not_mem_nil
    · exact List.forall_mem_singleton.2 (legible_loadAcc q.ty (hπ x q hx))
  | not p e ih =>
    rw [assemble]
    rcases (not p e).foldedValue? fold with - | v
    · exact List.forall_mem_append.2 ⟨ih, List.forall_mem_singleton.2 trivial⟩
    · exact List.forall_mem_singleton.2 trivial
  | binary p op l r ihl ihr =>
    have hop : ∀ i ∈ op.code, i.Legible := by
      cases op <;> simp [BinaryOp.code, compareCode, Instr.Legible]
    rw [assemble]
    rcases (binary p op l r).foldedValue? fold with - | v
    · simp only [List.forall_mem_append, List.forall_mem_singleton]
      exact ⟨⟨⟨⟨ihl, trivial⟩, ihr⟩, trivial⟩, hop⟩
    · exact List.forall_mem_singleton.2 trivial

section Code

variable {remarks fold : Bool} {σ : Site} {f : String}

theorem Expr.legible_lines (h : σ.places.Legible) (e : Expr) :
    ∀ line ∈ e.lines fold σ, line.Legible remarks :=
  List.forall_mem_map.2 (e.legible_assemble fun _ _ ↦ h.find?)

theorem Declarator.legible_assemble (h : σ.places.Legible) (ty : Ty) (v : Declarator) :
    ∀ line ∈ v.assemble fold σ ty, line.Legible remarks := by
  rw [assemble]
  rcases v.init with - | e
  · exact List.forall_mem_singleton.2 trivial
  · simp only [Expr.startCode]
    rcases e.startWord? fold with - | w
    · exact List.forall_mem_append.2 ⟨e.legible_lines h, List.forall_mem_singleton.2 trivial⟩
    · exact List.forall_mem_singleton.2 trivial

theorem legible_assembleAll (h : σ.places.Legible) (ty : Ty) (vs : List Declarator) :
    ∀ line ∈ assembleAll fold ty vs σ, line.Legible remarks := by
  induction vs generalizing σ with
  | nil => exact fun line hline ↦ absurd hline List.not_mem_nil
  | cons v vs ih =>
    exact List.forall_mem_append.2 ⟨v.legible_assemble h ty, ih (σ.legible_declare h v.name ty)⟩

theorem Site.legible_storeCode (h : σ.places.Legible) (x : String) :
    ∀ line ∈ σ.storeCode x, line.Legible remarks := by
  rw [storeCode]
  rcases hx : σ.places.find? x with - | q
  · exact fun line hline ↦ absurd hline List.not_mem_nil
  · exact List.forall_mem_singleton.2 (h.find? hx)

theorem Simple.legible_body (hf : IsWord f) (h : σ.places.Legible) (a : Simple) :
    ∀ line ∈ a.body fold f σ, line.Legible remarks := by
  have hjump : (Line.instr (.jump (.exit f))).Legible remarks := isWord_exit hf
  cases a with
  | declare d => exact legible_assembleAll h d.ty d.vars
  | assign pos x e =>
    exact List.forall_mem_append.2 ⟨e.legible_lines h, σ.legible_storeCode h x⟩
  | ret pos value =>
    cases value with
    | none =>
      exact List.forall_mem_cons.2 ⟨trivial, List.forall_mem_singleton.2 hjump⟩
    | some e =>
      exact List.forall_mem_append.2 ⟨e.legible_lines h, List.forall_mem_singleton.2 hjump⟩
  | eval pos e => exact e.legible_lines h

theorem Block.legible_testCode (h : σ.places.Legible) (c : Expr) (m : Mark) (n : Nat) :
    ∀ line ∈ testCode (c.lines fold σ) (.construct m n), line.Legible remarks := by
  rw [testCode, List.forall_mem_append, List.forall_mem_cons, List.forall_mem_singleton]
  exact ⟨c.legible_lines h, trivial, isWord_construct m n⟩

/-- The code of a block of words is legible where the places are named by words. -/
theorem Block.legible_assemble (o : Options) (hf : IsWord f) {b : Block}
    (hb : ∀ x ∈ b.spellings, IsWord x) (h : σ.places.Legible) :
    ∀ line ∈ b.assemble o f σ, line.Legible o.emitComments := by
  induction b generalizing σ with
  | done => exact fun line hline ↦ absurd hline List.not_mem_nil
  | simple a rest ih =>
    obtain ⟨ha, hrest⟩ := List.forall_mem_append.1 hb
    rw [assemble, Simple.assemble, List.forall_mem_append, List.forall_mem_append]
    exact ⟨⟨legible_remark (a.oneLine_text ha), a.legible_body hf h⟩,
      ih hrest (a.legible_siteAfter h)⟩
  | ifThen pos c t rest iht ih =>
    simp only [spellings, List.forall_mem_append] at hb
    obtain ⟨⟨hc, ht⟩, hrest⟩ := hb
    simp only [assemble, List.forall_mem_append, List.forall_mem_singleton]
    exact ⟨⟨⟨⟨legible_remark (oneLine_guardText .cond hc), legible_testCode h c _ _⟩,
      iht (σ := σ.number.enter) ht h.enter⟩, isWord_construct _ _⟩,
      ih (σ := t.siteInside σ.number) hrest h⟩
  | ifElse pos c t e rest iht ihe ih =>
    simp only [spellings, List.forall_mem_append] at hb
    obtain ⟨⟨⟨hc, ht⟩, he⟩, hrest⟩ := hb
    simp only [assemble, List.forall_mem_append, List.forall_mem_cons, List.not_mem_nil,
      false_imp_iff, implies_true, and_true]
    exact ⟨⟨⟨⟨⟨⟨legible_remark (oneLine_guardText .cond hc), legible_testCode h c _ _⟩,
      iht (σ := σ.number.enter) ht h.enter⟩, isWord_construct _ _, isWord_construct _ _⟩,
      ihe (σ := (t.siteInside σ.number).enter) he (Nest.Legible.enter (n := σ.places) h)⟩,
      isWord_construct _ _⟩, ih (σ := e.siteInside (t.siteInside σ.number)) hrest h⟩
  | loop pos c b rest ihb ih =>
    simp only [spellings, List.forall_mem_append] at hb
    obtain ⟨⟨hc, hb⟩, hrest⟩ := hb
    simp only [assemble, List.forall_mem_append, List.forall_mem_cons, List.not_mem_nil,
      false_imp_iff, implies_true, and_true]
    exact ⟨⟨⟨⟨⟨legible_remark (oneLine_guardText .loop hc), isWord_construct _ _⟩,
      legible_testCode h c _ _⟩, ihb (σ := σ.number.enter) hb h.enter⟩, isWord_construct _ _,
      isWord_construct _ _⟩, ih (σ := b.siteInside σ.number) hrest h⟩

end Code

/-! ### Functions and programs -/

theorem legible_argumentCode (remarks : Bool) (index : Nat) (ty : Ty) {slot : Mem}
    (h : slot.Legible) : ∀ line ∈ argumentCode index ty slot, line.Legible remarks := by
  rw [argumentCode]
  split
  · exact List.forall_mem_singleton.2 h
  · exact List.forall_mem_cons.2 ⟨trivial, List.forall_mem_singleton.2 h⟩

theorem legible_assembleParams (remarks : Bool) (index : Nat) (ps : List Param) (σ : Site) :
    ∀ line ∈ assembleParams index ps σ, line.Legible remarks := by
  induction ps generalizing index σ with
  | nil => exact fun line hline ↦ absurd hline List.not_mem_nil
  | cons q ps ih =>
    exact List.forall_mem_append.2 ⟨legible_argumentCode remarks index q.ty trivial, ih _ _⟩

theorem legible_prologue (remarks : Bool) {f : String} (hf : IsWord f) (n : Nat) :
    ∀ line ∈ prologue f n, line.Legible remarks := by
  have hreserve : ∀ line ∈ (if 0 < n then [Line.instr (.reserve n)] else []),
      line.Legible remarks := by
    split
    · exact List.forall_mem_singleton.2 trivial
    · exact fun line hline ↦ absurd hline List.not_mem_nil
  rw [prologue, List.forall_mem_append]
  exact ⟨List.forall_mem_cons.2 ⟨hf, List.forall_mem_cons.2 ⟨trivial,
    List.forall_mem_singleton.2 trivial⟩⟩, hreserve⟩

theorem legible_epilogue (remarks : Bool) {f : String} (hf : IsWord f) (alwaysReturns : Bool) :
    ∀ line ∈ epilogue f alwaysReturns, line.Legible remarks := by
  rw [epilogue]
  cases alwaysReturns <;> simp [Line.Legible, Instr.Legible, isWord_exit hf]

theorem Site.legible_declareGlobals {σ : Site} (h : σ.places.Legible) {d : Declaration}
    (hd : ∀ v ∈ d.vars, IsWord v.name) : (σ.declareGlobals d).places.Legible := by
  rw [declareGlobals]
  generalize d.vars = vs at hd
  induction vs generalizing σ with
  | nil => exact h
  | cons v vs ih =>
    obtain ⟨hv, hvs⟩ := List.forall_mem_cons.1 hd
    have hfirst : (σ.place v.name d.ty ⟨d.ty.width, .cell v.name⟩).places.Legible :=
      h.bind v.name hv
    exact ih hfirst hvs

theorem Program.legible_functionSite {p : Program} (h : ∀ x ∈ p.globalNames, IsWord x) :
    p.functionSite.places.Legible := by
  have hempty : (Site.places {}).Legible := List.forall_mem_singleton.2 fun x q hx ↦ by cases hx
  have hdecls : ∀ (ds : List Declaration) (σ : Site), σ.places.Legible →
      (∀ x ∈ ds.flatMap fun d ↦ d.vars.map Declarator.name, IsWord x) →
      (ds.foldl Site.declareGlobals σ).places.Legible := by
    intro ds
    induction ds with
    | nil => exact fun σ hσ _ ↦ hσ
    | cons d ds ih =>
      intro σ hσ hds
      rw [List.flatMap_cons, List.forall_mem_append, List.forall_mem_map] at hds
      exact ih _ (σ.legible_declareGlobals hσ hds.1) hds.2
  exact hdecls p.globals {} hempty h

/-- The assembly program of a program whose names are words is legible. -/
theorem Program.legible_assembled (o : Options) {p : Program}
    (h : ∀ x ∈ o.entryLabel :: p.spellings, IsWord x) :
    (p.assembled o).Legible o.emitComments := by
  obtain ⟨hentry, h⟩ := List.forall_mem_cons.1 h
  obtain ⟨hglobals, h⟩ := List.forall_mem_append.1 h
  obtain ⟨hf, h⟩ := List.forall_mem_cons.1 h
  obtain ⟨-, hbody⟩ := List.forall_mem_append.1 h
  have hsite : (p.function.bodySite p.functionSite).places.Legible :=
    Site.legible_declareParams (p.legible_functionSite hglobals).enter p.function.params
  refine ⟨hentry, fun c hc ↦ ?_, ?_⟩
  · exact hglobals c.name (p.map_name_dataCells ▸ List.mem_map_of_mem hc)
  · rw [Assembly.lines, List.forall_mem_append]
    refine ⟨?_, ?_⟩
    · simp [Assembly.stub, assembled, Line.Legible, Instr.Legible, Label.text, hentry, hf]
    · show ∀ line ∈ p.function.assemble o p.functionSite, line.Legible o.emitComments
      rw [Function.assemble, List.forall_mem_append, List.forall_mem_append, List.forall_mem_append]
      exact ⟨⟨⟨legible_prologue _ hf _, legible_assembleParams _ 0 _ _⟩,
        Block.legible_assemble o hf hbody hsite⟩, legible_epilogue _ hf _⟩

/-! ### Bare code -/

theorem filterMap_bare?_remark (o : Options) (t : String) :
    (o.remark t).filterMap Line.bare? = [] := by
  rw [Options.remark]
  split <;> rfl

/-- Without remarks, the code of a block depends on no setting but that of folding. -/
theorem Block.filterMap_bare?_assemble {o o' : Options}
    (h : o'.foldConstants = o.foldConstants) (f : String) (b : Block) (σ : Site) :
    (b.assemble o' f σ).filterMap Line.bare? = (b.assemble o f σ).filterMap Line.bare? := by
  induction b generalizing σ with
  | done => rfl
  | simple a rest ih =>
    simp only [assemble, Simple.assemble, List.filterMap_append, filterMap_bare?_remark, h, ih]
  | ifThen pos c t rest iht ih =>
    simp only [assemble, List.filterMap_append, filterMap_bare?_remark, h, iht σ.number.enter,
      ih (t.siteInside σ.number)]
  | ifElse pos c t e rest iht ihe ih =>
    simp only [assemble, List.filterMap_append, filterMap_bare?_remark, h, iht σ.number.enter,
      ihe (t.siteInside σ.number).enter, ih (e.siteInside (t.siteInside σ.number))]
  | loop pos c b rest ihb ih =>
    simp only [assemble, List.filterMap_append, filterMap_bare?_remark, h, ihb σ.number.enter,
      ih (b.siteInside σ.number)]

/-- Without its size, a frame shows only in whether it is reserved. -/
theorem filterMap_bare?_prologue (f : String) {n n' : Nat} (h : n' = 0 ↔ n = 0) :
    (prologue f n').filterMap Line.bare? = (prologue f n).filterMap Line.bare? := by
  by_cases hn : n = 0
  · rw [hn, h.2 hn]
  · have hn' : n' ≠ 0 := fun heq ↦ hn (h.1 heq)
    rw [prologue, prologue, if_pos (Nat.pos_of_ne_zero hn), if_pos (Nat.pos_of_ne_zero hn')]
    rfl

namespace Program

/-- Without remarks and without the size of the frame, the code of a program depends on no settings
but the label of the entry and that of folding. -/
theorem WellFormed.filterMap_bare?_lines {entry : String} {p : Program} (h : p.WellFormed entry)
    (o o' : Options) (hentry : o'.entryLabel = o.entryLabel)
    (hfold : o'.foldConstants = o.foldConstants)
    (hfits : p.function.FrameFits o) (hfits' : p.function.FrameFits o') :
    (p.assembled o').lines.filterMap Line.bare? = (p.assembled o).lines.filterMap Line.bare? := by
  have hframe : p.function.frameBytes o' = 0 ↔ p.function.frameBytes o = 0 :=
    (h.function.frameBytes_eq_zero_iff hfits').trans
      (h.function.frameBytes_eq_zero_iff hfits).symm
  have hstub : (p.assembled o').stub = (p.assembled o).stub := by
    rw [Assembly.stub, Assembly.stub, assembled, assembled, hentry]
  rw [Assembly.lines, Assembly.lines, hstub, assembled, assembled, Function.assemble,
    Function.assemble]
  simp only [List.filterMap_append, filterMap_bare?_prologue _ hframe,
    Block.filterMap_bare?_assemble hfold]

/-- One line of the text reserves the frame, if there is any parameter or variable. -/
theorem WellFormed.filter_isReserveLine_text {entry : String} {p : Program} (h : p.WellFormed entry)
    {o : Options} (hnames : ∀ x ∈ o.entryLabel :: p.spellings, IsWord x)
    (hfits : p.function.FrameFits o) :
    (textLines (p.assembled o).text).filter isReserveLine =
      if p.function.locals = [] then []
      else [reserveStem ++ toString (p.function.frameBytes o)] := by
  have hlines : (p.assembled o).lines.filterMap Line.reserved? =
      if p.function.locals = [] then [] else [p.function.frameBytes o] := by
    rw [p.filterMap_reserved?_lines]
    simp only [h.function.frameBytes_eq_zero_iff hfits]
  rw [(p.legible_assembled o hnames).filter_isReserveLine_text, hlines]
  split <;> rfl

/-! ### Compilations -/

/-- Two compilations that differ in presentation only have the same diagnostics and scopes. Both
have an assembly program or neither has, and the texts are the same except for remarks and for the
size of the frame, which both reserve in one line or, without parameters and variables, do not
reserve. There are remarks only where they are wanted. Names have to be words, as identifiers are
(`isWord_of_identifier`). -/
theorem compile_styled (o : Options) (align : UInt32) (comments : Bool) (p : Program)
    (hnames : ∀ x ∈ o.entryLabel :: p.spellings, IsWord x) (hfits : p.function.FrameFits o)
    (hfits' : p.function.FrameFits (o.styled align comments)) :
    (p.compile (o.styled align comments)).session.diagnostics =
        (p.compile o).session.diagnostics ∧
      (p.compile (o.styled align comments)).session.scopes = (p.compile o).session.scopes ∧
      (p.compile (o.styled align comments)).assembly.isSome = (p.compile o).assembly.isSome ∧
      ∀ a a', (p.compile o).assembly = some a →
        (p.compile (o.styled align comments)).assembly = some a' →
        bareLines a'.text = bareLines a.text ∧
          (textLines a.text).filter isReserveLine =
            (if p.function.locals = [] then []
              else [reserveStem ++ toString (p.function.frameBytes o)]) ∧
          (textLines a'.text).filter isReserveLine =
            (if p.function.locals = [] then []
              else [reserveStem ++ toString (p.function.frameBytes (o.styled align comments))]) ∧
          (o.emitComments = false → ∀ r ∈ textLines a.text, isRemarkLine r = false) ∧
          (comments = false → ∀ r ∈ textLines a'.text, isRemarkLine r = false) := by
  have hdiag := (p.compile_cases o).1
  have hdiag' := (p.compile_cases (o.styled align comments)).1
  have hsome := p.isSome_assembly_compile o
  have hsome' := p.isSome_assembly_compile (o.styled align comments)
  refine ⟨hdiag'.trans hdiag.symm, p.scopes_compile_congr rfl,
    Bool.eq_iff_iff.2 (hsome'.trans hsome.symm), ?_⟩
  intro a a' ha ha'
  obtain ⟨hclean, rfl⟩ := clean_of_compile ha
  obtain ⟨-, rfl⟩ := clean_of_compile ha'
  obtain ⟨hwf, -⟩ := wellFormed_of_clean_analyze hclean
  have hlegible := p.legible_assembled o hnames
  have hlegible' : (p.assembled (o.styled align comments)).Legible comments :=
    p.legible_assembled (o.styled align comments) hnames
  refine ⟨?_, hwf.filter_isReserveLine_text hnames hfits,
    hwf.filter_isReserveLine_text hnames hfits', ?_, ?_⟩
  · rw [hlegible'.bareLines_text, hlegible.bareLines_text,
      hwf.filterMap_bare?_lines o (o.styled align comments) rfl rfl hfits hfits']
    rfl
  · intro hremarks
    rw [hremarks] at hlegible
    exact hlegible.isRemarkLine_text
  · rintro rfl
    exact hlegible'.isRemarkLine_text

/-- With remarks and a frame of 64 bytes the text of this program is another one, and its bare lines
are the same. -/
theorem bareLines_shadowing :
    (∀ x ∈ "_start" :: shadowing.spellings, IsWord x) ∧ shadowing.function.FrameFits {} ∧
      shadowing.function.FrameFits (Options.styled {} 64 true) ∧
      ∃ a a', (shadowing.compile {}).assembly = some a ∧
        (shadowing.compile (Options.styled {} 64 true)).assembly = some a' ∧
        a'.text ≠ a.text ∧ bareLines a'.text = bareLines a.text ∧
        (textLines a.text).filter isReserveLine = ["    sub rsp, 32"] ∧
        (textLines a'.text).filter isReserveLine = ["    sub rsp, 64"] ∧
        ∀ r ∈ textLines a.text, isRemarkLine r = false := by
  have hnames : ∀ x ∈ "_start" :: shadowing.spellings, IsWord x := by decide +kernel
  have hfits : shadowing.function.FrameFits {} := ⟨by decide, by decide⟩
  have hfits' : shadowing.function.FrameFits (Options.styled {} 64 true) := ⟨by decide, by decide⟩
  have hcompile : (shadowing.compile {}).assembly = some (shadowing.assembled {}) := by
    decide +kernel
  have hcompile' : (shadowing.compile (Options.styled {} 64 true)).assembly =
      some (shadowing.assembled (Options.styled {} 64 true)) := by decide +kernel
  obtain ⟨-, -, -, htexts⟩ := compile_styled {} 64 true shadowing hnames hfits hfits'
  obtain ⟨hbare, hreserve, hreserve', hremarks, -⟩ := htexts _ _ hcompile hcompile'
  replace hreserve := hreserve.trans (by decide +kernel : _ = ["    sub rsp, 32"])
  replace hreserve' := hreserve'.trans (by decide +kernel : _ = ["    sub rsp, 64"])
  refine ⟨hnames, hfits, hfits', _, _, hcompile, hcompile', fun htext ↦ ?_, hbare, hreserve,
    hreserve', hremarks rfl⟩
  rw [htext, hreserve] at hreserve'
  exact absurd hreserve' (by decide)

end Program

end BlockLang
