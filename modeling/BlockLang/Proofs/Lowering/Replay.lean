import BlockLang.Proofs.Lowering.Totality
import BlockLang.Proofs.Resolution.Walk

/-!
# What code generation does to scopes

Code generation changes a scope tree in two ways only: it visits the scopes again, and it gives
variables places. Both follow from the text. So the scopes after a piece of code generation are a
function of those before it (`Block.replay`, `Program.replay`), in which neither the settings of the
compilation nor the code that comes out have a part.

`Lower.Replays` says that a step of code generation, whenever it succeeds, acts in this way, and the
steps of a sequence compose.
-/

namespace BlockLang

/-- Scopes with the places of their variables, and how much of the frame these take. -/
structure Layout where
  /-- The scopes. -/
  scopes : ScopeTree
  /-- How many bytes of the frame are taken. -/
  taken : Nat := 0

/-- The layout that code generation has reached. -/
def Progress.layout (p : Progress) : Layout := ⟨p.session.scopes, p.taken⟩

namespace Layout

/-- The layout with a place for the variable `x` of the current scope. -/
def place (x : String) (storage : Storage) (l : Layout) : Layout :=
  { l with scopes := (l.scopes.place? x storage).getD l.scopes }

/-- The layout with the next slot of the frame for the variable `x` of the current scope. -/
def declare (x : String) (ty : Ty) (l : Layout) : Layout :=
  { l.place x (.slot (l.taken + ty.size)) with taken := l.taken + ty.size }

/-- The layout at the start of the next scope. -/
def enter (l : Layout) : Layout := { l with scopes := l.scopes.descend?.getD l.scopes }

/-- The layout after the current scope. -/
def leave (l : Layout) : Layout := { l with scopes := l.scopes.exit?.getD l.scopes }

/-- The layout with slots for variables of one type. -/
def declareAll (ty : Ty) (vs : List Declarator) (l : Layout) : Layout :=
  vs.foldl (fun l v ↦ l.declare v.name ty) l

/-- The layout with slots for parameters. -/
def declareParams (ps : List Param) (l : Layout) : Layout :=
  ps.foldl (fun l p ↦ l.declare p.name p.ty) l

/-- The layout with cells for the variables of a global declaration. -/
def declareGlobals (l : Layout) (d : Declaration) : Layout :=
  d.vars.foldl (fun l v ↦ l.place v.name .cell) l

end Layout

/-- The layout after a statement without inner blocks. -/
def Simple.replay : Simple → Layout → Layout
  | declare d, l => l.declareAll d.ty d.vars
  | assign _ _ _, l => l
  | ret _ _, l => l
  | eval _ _, l => l

/-- The layout after a block. -/
def Block.replay : Block → Layout → Layout
  | done, l => l
  | simple a rest, l => rest.replay (a.replay l)
  | ifThen _ _ t rest, l => rest.replay (t.replay l.enter).leave
  | ifElse _ _ t e rest, l => rest.replay (e.replay (t.replay l.enter).leave.enter).leave
  | loop _ _ b rest, l => rest.replay (b.replay l.enter).leave

/-- The layout after a function. -/
def Function.replay (f : Function) (l : Layout) : Layout :=
  (f.body.replay (l.enter.declareParams f.params)).leave

/-- The scopes after code generation for a program. -/
def Program.replay (p : Program) (t : ScopeTree) : ScopeTree :=
  (p.function.replay (p.globals.foldl Layout.declareGlobals ⟨t.rewind, 0⟩)).scopes

/-! ### Steps -/

namespace Lower

variable {α β : Type}

/-- Whenever the step succeeds, it changes the layout by `f`. -/
def Replays (m : Lower α) (f : Layout → Layout) : Prop :=
  ∀ p a q, m p = .ok a q → q.layout = f p.layout

theorem Replays.layout_eq {m : Lower α} {f : Layout → Layout} (h : m.Replays f) {p q : Progress}
    {a : α} (hm : m p = .ok a q) : q.layout = f p.layout :=
  h p a q hm

theorem replays_pure (a : α) : Replays (pure a) fun l ↦ l := by
  rintro p _ q ⟨⟩
  rfl

/-- Steps that follow one another. -/
theorem Replays.bind {m : Lower α} {k : α → Lower β} {f g : Layout → Layout} (hm : m.Replays f)
    (hk : ∀ a, (k a).Replays g) : (m >>= k).Replays fun l ↦ g (f l) := by
  intro p b q h
  obtain ⟨a, hfirst, hrest⟩ := bind_eq_ok h
  rw [(hk a).layout_eq hrest, hm.layout_eq hfirst]

theorem replays_note (e : Event) : (note e).Replays fun l ↦ l := by
  rintro p _ q ⟨⟩
  rfl

theorem replays_reportAll (ds : List Diagnostic) : (reportAll ds).Replays fun l ↦ l := by
  rintro p _ q ⟨⟩
  show Layout.mk (p.session.reportAll ds).scopes p.taken = _
  rw [Session.scopes_reportAll]
  rfl

theorem replays_freshLabel : freshLabel.Replays fun l ↦ l := by
  rintro p _ q ⟨⟩
  rfl

theorem replays_env : env.Replays fun l ↦ l := by
  rintro p _ q ⟨⟩
  rfl

theorem replays_ofExcept (x : Except LoweringError α) : (ofExcept x).Replays fun l ↦ l := by
  cases x with
  | ok a => exact replays_pure a
  | error e => rintro p a q ⟨⟩

theorem replays_get : Replays (get : Lower Progress) fun l ↦ l := by
  rintro p _ q ⟨⟩
  rfl

theorem replays_expr (fold : Bool) (e : Expr) : (expr fold e).Replays fun l ↦ l :=
  replays_env.bind fun _ ↦ (replays_reportAll _).bind fun _ ↦ (replays_ofExcept _).bind fun _ ↦
    replays_pure _

theorem replays_store (pos : Pos) (x : String) : (store pos x).Replays fun l ↦ l :=
  replays_env.bind fun _ ↦ (replays_ofExcept _).bind fun _ ↦ replays_pure _

theorem replays_initial (fold : Bool) (init : Option Expr) :
    (initial fold init).Replays fun l ↦ l := by
  cases init with
  | none => exact replays_pure _
  | some e =>
    refine (replays_reportAll _).bind fun _ ↦ ?_
    split
    · exact replays_pure _
    · split
      · exact replays_pure _
      · exact (replays_expr fold e).bind fun _ ↦ replays_pure _

theorem replays_place (x : String) (storage : Storage) (pos : Pos) :
    (place x storage pos).Replays (Layout.place x storage) := by
  intro p m q h
  rw [place, get_bind_apply] at h
  rcases ht : p.session.scopes.place? x storage with - | t
  · rw [ht] at h
    cases h
  · simp only [ht] at h
    obtain ⟨_, hset, h⟩ := bind_eq_ok h
    have hlayout : (after (onSession fun s ↦ { s with scopes := t }) p).layout = ⟨t, p.taken⟩ := rfl
    have hplace : p.layout.place x storage = ⟨t, p.taken⟩ := by
      show Layout.mk ((p.session.scopes.place? x storage).getD p.session.scopes) p.taken = _
      rw [ht]
      rfl
    rw [hplace, ← hlayout]
    -- what is left only looks the new place up
    rcases hsym : t.lookupLocal? x with - | sym
    · rw [hsym] at h
      cases h
    · simp only [hsym] at h
      rcases hop : sym.operand? with - | m'
      · rw [hop] at h
        cases h
      · rw [hop] at h
        cases h
        rfl

/-- A slot for the variable `x`, and a rest that changes no layout. -/
theorem replays_declare (x : String) (ty : Ty) (pos : Pos) {k : Mem → Lower α}
    (hk : ∀ m, (k m).Replays fun l ↦ l) :
    Replays (do let storage ← allocate ty; let slot ← place x storage pos; k slot)
      (Layout.declare x ty) := by
  intro p a q h
  obtain ⟨storage, halloc, h⟩ := bind_eq_ok h
  obtain ⟨slot, hplace, h⟩ := bind_eq_ok h
  cases halloc
  rw [(hk slot).layout_eq h, (replays_place x _ pos).layout_eq hplace]
  rfl

theorem replays_enterBlock (pos : Pos) : (enterBlock pos).Replays Layout.enter := by
  intro p a q h
  rw [enterBlock, get_bind_apply] at h
  rcases ht : p.session.scopes.descend? with - | t
  · rw [Session.descend?, ht] at h
    cases h
  · rw [Session.descend?, ht] at h
    cases h
    show Layout.mk t p.taken = ⟨p.session.scopes.descend?.getD p.session.scopes, p.taken⟩
    rw [ht]
    rfl

theorem replays_leaveBlock (pos : Pos) : (leaveBlock pos).Replays Layout.leave := by
  intro p a q h
  rw [leaveBlock, get_bind_apply] at h
  rcases ht : p.session.scopes.exit? with - | t
  · rw [Session.exit?, ht] at h
    cases h
  · rw [Session.exit?, ht] at h
    cases h
    show Layout.mk t p.taken = ⟨p.session.scopes.exit?.getD p.session.scopes, p.taken⟩
    rw [ht]
    rfl

theorem Replays.inBlock {m : Lower α} {f : Layout → Layout} (h : m.Replays f) (pos : Pos) :
    (inBlock pos m).Replays fun l ↦ (f l.enter).leave :=
  (replays_enterBlock pos).bind fun _ ↦ h.bind fun _ ↦ (replays_leaveBlock pos).bind fun _ ↦
    replays_pure _

/-! ### Declarations -/

theorem replays_declarator (o : Options) (ty : Ty) (v : Declarator) :
    (declarator o ty v).Replays (Layout.declare v.name ty) :=
  (replays_initial o.foldConstants v.init).bind fun start ↦
    replays_declare v.name ty v.pos fun slot ↦ by
      cases start <;> exact replays_pure _

theorem replays_declarators (o : Options) (ty : Ty) (vs : List Declarator) :
    (declarators o ty vs).Replays (Layout.declareAll ty vs) := by
  induction vs with
  | nil => exact replays_pure _
  | cons v vs ih => exact (replays_declarator o ty v).bind fun _ ↦ ih.bind fun _ ↦ replays_pure _

theorem replays_params (index : Nat) (ps : List Param) :
    (params index ps).Replays (Layout.declareParams ps) := by
  induction ps generalizing index with
  | nil => exact replays_pure _
  | cons q ps ih =>
    have hfirst : (param index q).Replays (Layout.declare q.name q.ty) :=
      replays_declare q.name q.ty q.pos fun _ ↦ replays_pure _
    exact hfirst.bind fun _ ↦ (ih (index + 1)).bind fun _ ↦ replays_pure _

theorem replays_cell (ty : Ty) (v : Declarator) :
    (cell ty v).Replays (Layout.place v.name .cell) := by
  refine replays_get.bind fun _ ↦ ?_
  rcases v.init with - | e
  · exact (replays_pure _).bind fun _ ↦ (replays_place _ _ _).bind fun _ ↦ replays_pure _
  · exact ((replays_reportAll _).bind fun _ ↦ replays_pure _).bind fun _ ↦
      (replays_place _ _ _).bind fun _ ↦ replays_pure _

theorem replays_cells (ty : Ty) (vs : List Declarator) :
    (cells ty vs).Replays fun l ↦ vs.foldl (fun l v ↦ l.place v.name .cell) l := by
  induction vs with
  | nil => exact replays_pure _
  | cons v vs ih => exact (replays_cell ty v).bind fun _ ↦ ih.bind fun _ ↦ replays_pure _

theorem replays_dataSection (ds : List Declaration) :
    (dataSection ds).Replays fun l ↦ ds.foldl Layout.declareGlobals l := by
  induction ds with
  | nil => exact replays_pure _
  | cons d ds ih => exact (replays_cells d.ty d.vars).bind fun _ ↦ ih.bind fun _ ↦ replays_pure _

end Lower

/-! ### Statements and programs -/

open Lower

theorem Simple.replays_lower (o : Options) (f : String) (a : Simple) :
    (a.lower o f).Replays a.replay := by
  have hcode : (a.code o f).Replays a.replay := by
    cases a with
    | declare d => exact replays_declarators o d.ty d.vars
    | assign pos x e =>
      exact (replays_expr _ e).bind fun _ ↦ (replays_store pos x).bind fun _ ↦ replays_pure _
    | ret pos value =>
      cases value with
      | none => exact replays_pure _
      | some e => exact (replays_expr _ e).bind fun _ ↦ replays_pure _
    | eval pos e => exact replays_expr _ e
  exact hcode.bind fun _ ↦ replays_pure _

theorem Block.replays_lower (o : Options) (f : String) (b : Block) :
    (b.lower o f).Replays b.replay := by
  induction b with
  | done => exact replays_pure _
  | simple a rest ih => exact (a.replays_lower o f).bind fun _ ↦ ih.bind fun _ ↦ replays_pure _
  | ifThen pos c t rest iht ih =>
    exact replays_freshLabel.bind fun _ ↦ (replays_expr _ c).bind fun _ ↦
      (iht.inBlock pos).bind fun _ ↦ ih.bind fun _ ↦ replays_pure _
  | ifElse pos c t e rest iht ihe ih =>
    exact replays_freshLabel.bind fun _ ↦ (replays_expr _ c).bind fun _ ↦
      (iht.inBlock pos).bind fun _ ↦ (ihe.inBlock pos).bind fun _ ↦ ih.bind fun _ ↦ replays_pure _
  | loop pos c b rest ihb ih =>
    exact replays_freshLabel.bind fun _ ↦ (replays_expr _ c).bind fun _ ↦
      (ihb.inBlock pos).bind fun _ ↦ ih.bind fun _ ↦ replays_pure _

theorem Function.replays_lower (o : Options) (f : Function) : (f.lower o).Replays f.replay :=
  (replays_note _).bind fun _ ↦ Replays.inBlock
    ((replays_params 0 f.params).bind fun _ ↦ (f.body.replays_lower o f.name).bind fun _ ↦
      replays_pure _) f.pos

namespace Program

/-- Whatever the settings, code generation leaves the scopes that the text determines. -/
theorem scopes_of_lower {o : Options} {p : Program} {s : Session} {a : Assembly} {q : Progress}
    (h : p.lower o { session := s } = .ok a q) : q.session.scopes = p.replay s.scopes := by
  have hrest : Replays (do
      let cells ← dataSection p.globals
      let code ← p.function.lower o
      note (.generationFinished (← get).labels)
      return ({ entry := o.entryLabel, function := p.function.name, cells, code } : Assembly))
      fun l ↦ p.function.replay (p.globals.foldl Layout.declareGlobals l) :=
    (replays_dataSection p.globals).bind fun _ ↦ (p.function.replays_lower o).bind fun _ ↦
      replays_get.bind fun _ ↦ (replays_note _).bind fun _ ↦ replays_pure _
  exact congrArg Layout.scopes (hrest.layout_eq
    (p := { session := (s.note .generationStarted).rewind }) h)

/-- The scopes after a compilation that has an assembly program. -/
theorem scopes_compile {o : Options} {p : Program} (h : (p.analyze o.entryLabel {}).Clean) :
    (p.compile o).session.scopes = p.replay (p.analyze o.entryLabel {}).scopes := by
  obtain ⟨hwf, hparts⟩ := wellFormed_of_clean_analyze h
  obtain ⟨q, hq, -⟩ := hwf.lower_eq_ok o hparts hwf.analyzed
  have hrun : (p.lower o).run { session := p.analyze o.entryLabel {} } = .ok (p.assembled o) q := hq
  have hgenerate : p.generate o (p.analyze o.entryLabel {}) = (.ok (p.assembled o), q.session) := by
    rw [generate, hrun]
  have herrors : (p.analyze o.entryLabel {}).diagnostics.hasErrors = false :=
    hasErrors_eq_false_iff.2 h
  rw [compile]
  simp only [herrors, hgenerate]
  exact scopes_of_lower hq

/-- The scopes after a compilation that found errors are those of the analysis. -/
theorem scopes_compile_of_errors {o : Options} {p : Program}
    (h : ¬(p.analyze o.entryLabel {}).Clean) :
    (p.compile o).session.scopes = (p.analyze o.entryLabel {}).scopes := by
  rw [compile, if_pos (hasErrors_eq_true_iff.2 h)]
  rfl

/-- The scopes after a compilation depend on the text and on the entry label only. -/
theorem scopes_compile_congr {o o' : Options} (p : Program) (h : o'.entryLabel = o.entryLabel) :
    (p.compile o').session.scopes = (p.compile o).session.scopes := by
  by_cases hclean : (p.analyze o.entryLabel {}).Clean
  · rw [scopes_compile hclean, scopes_compile (h ▸ hclean), h]
  · rw [scopes_compile_of_errors hclean, scopes_compile_of_errors (h ▸ hclean), h]

end Program

end BlockLang
