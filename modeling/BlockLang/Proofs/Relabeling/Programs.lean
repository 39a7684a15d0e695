import BlockLang.Proofs.Relabeling.Code
import BlockLang.Proofs.Resolution.Programs
import Mathlib.Logic.Equiv.Basic

/-!
# Compilations of relabeled programs

The two passes together: a compilation of a program with other names and positions is the
compilation of the program, with the other names and positions in its diagnostics and its scopes and
with the same assembly program (`Program.compile_relabel`). It has two readings.

* Positions are passed on and nothing else is done with them (`Program.compile_ofPositions`). A
  diagnostic that stood at no node of the program could be moved without a change to the program,
  so every diagnostic stands at a node.
* Names of local variables matter only as far as they are equal or not
  (`Program.compile_ofNames`).
-/

namespace BlockLang

variable {φ : Relabeling}

theorem Session.clean_relabel (s : Session) : (s.relabel φ).Clean ↔ s.Clean :=
  List.map_eq_nil_iff

namespace Program

/-- A compilation of a program with other names and positions is the compilation of the program
with them. -/
theorem compile_relabel {o : Options} (ho : φ.Unremarked o) {p : Program}
    (hp : φ.Fixes p.globals) :
    ((p.relabel φ).compile o).assembly = (p.compile o).assembly ∧
      ((p.relabel φ).compile o).session.diagnostics =
        (p.compile o).session.diagnostics.relabel φ ∧
      ((p.relabel φ).compile o).session.scopes = (p.compile o).session.scopes.relabel φ := by
  have hanalyze : (p.relabel φ).analyze o.entryLabel {} = (p.analyze o.entryLabel {}).relabel φ :=
    p.analyze_relabel o.entryLabel hp {}
  obtain ⟨hdiag, hcases⟩ := p.compile_cases o
  obtain ⟨hdiag', hcases'⟩ := (p.relabel φ).compile_cases o
  have hclean : ((p.relabel φ).analyze o.entryLabel {}).Clean ↔
      (p.analyze o.entryLabel {}).Clean := by
    rw [hanalyze, Session.clean_relabel]
  refine ⟨?_, by rw [hdiag', hanalyze, hdiag]; rfl, ?_⟩
  · -- both analyses find errors, or neither does
    rcases hcases with ⟨hnot, hnone⟩ | ⟨hok, hsome⟩
    · rcases hcases' with ⟨-, hnone'⟩ | ⟨hok', -⟩
      · rw [hnone, hnone']
      · exact absurd (hclean.1 hok') hnot
    · rcases hcases' with ⟨hnot', -⟩ | ⟨-, hsome'⟩
      · exact absurd (hclean.2 hok) hnot'
      · rw [hsome, hsome', assembled_relabel ho hp]
  · by_cases hok : (p.analyze o.entryLabel {}).Clean
    · rw [scopes_compile hok, scopes_compile (hclean.2 hok), hanalyze, ← p.replay_relabel]
      rfl
    · rw [scopes_compile_of_errors hok, scopes_compile_of_errors fun h ↦ hok (hclean.1 h),
        hanalyze]
      rfl

end Program

/-! ### Positions of nodes -/

/-- The positions of all nodes of an expression. -/
def Expr.nodePositions : Expr → List Pos
  | num pos _ => [pos]
  | bool pos _ => [pos]
  | var pos _ => [pos]
  | not pos e => pos :: e.nodePositions
  | binary pos _ l r => pos :: (l.nodePositions ++ r.nodePositions)

/-- The positions of the nodes of a variable: its own and those of its initializer. -/
def Declarator.nodePositions (v : Declarator) : List Pos :=
  v.pos :: v.init.elim [] Expr.nodePositions

/-- The positions of all nodes of a declaration. -/
def Declaration.nodePositions (d : Declaration) : List Pos :=
  d.pos :: d.vars.flatMap Declarator.nodePositions

/-- The positions of all nodes of a statement. -/
def Simple.nodePositions : Simple → List Pos
  | declare d => d.nodePositions
  | assign pos _ e => pos :: e.nodePositions
  | ret pos value => pos :: value.elim [] Expr.nodePositions
  | eval pos e => pos :: e.nodePositions

/-- The positions of all nodes of a block, those of the blocks inside it included. -/
def Block.nodePositions : Block → List Pos
  | done => []
  | simple a rest => a.nodePositions ++ rest.nodePositions
  | ifThen pos c t rest => pos :: (c.nodePositions ++ t.nodePositions ++ rest.nodePositions)
  | ifElse pos c t e rest =>
    pos :: (c.nodePositions ++ t.nodePositions ++ e.nodePositions ++ rest.nodePositions)
  | loop pos c b rest => pos :: (c.nodePositions ++ b.nodePositions ++ rest.nodePositions)

/-- The positions of all nodes of a function. -/
def Function.nodePositions (f : Function) : List Pos :=
  f.pos :: (f.params.map Param.pos ++ f.body.nodePositions)

/-- The positions of all nodes of a program. -/
def Program.nodePositions (p : Program) : List Pos :=
  p.globals.flatMap Declaration.nodePositions ++ p.function.nodePositions

section Fixed

variable {ρ : Pos → Pos}

private theorem map_eq_self_iff {α : Type} {f : α → α} {as : List α} :
    as.map f = as ↔ ∀ a ∈ as, f a = a :=
  ⟨fun h ↦ List.map_inj_left.1 (h.trans as.map_id.symm),
    fun h ↦ (List.map_congr_left h).trans as.map_id⟩

theorem Expr.relabel_eq_self {e : Expr} (h : ∀ q ∈ e.nodePositions, ρ q = q) :
    e.relabel (.ofPositions ρ) = e := by
  induction e with
  | num pos v => exact congrArg (num · v) (h pos List.mem_cons_self)
  | bool pos b => exact congrArg (bool · b) (h pos List.mem_cons_self)
  | var pos x => exact congrArg (var · x) (h pos List.mem_cons_self)
  | not pos e ih =>
    rw [nodePositions, List.forall_mem_cons] at h
    rw [relabel, ih h.2]
    exact congrArg (not · e) h.1
  | binary pos op l r ihl ihr =>
    rw [nodePositions, List.forall_mem_cons, List.forall_mem_append] at h
    rw [relabel, ihl h.2.1, ihr h.2.2]
    exact congrArg (binary · op l r) h.1

private theorem map_relabel_eq_self {value : Option Expr}
    (h : ∀ q ∈ value.elim [] Expr.nodePositions, ρ q = q) :
    value.map (Expr.relabel (.ofPositions ρ)) = value := by
  rcases value with - | e
  · rfl
  · exact congrArg some (Expr.relabel_eq_self h)

theorem Declaration.relabel_eq_self {d : Declaration} (h : ∀ q ∈ d.nodePositions, ρ q = q) :
    d.relabel (.ofPositions ρ) = d := by
  obtain ⟨ty, vars, pos⟩ := d
  rw [nodePositions, List.forall_mem_cons, List.forall_mem_flatMap] at h
  have hvar : ∀ v ∈ vars, v.relabel (.ofPositions ρ) = v := by
    rintro ⟨x, init, pos⟩ hv
    obtain ⟨hpos, hinit⟩ := List.forall_mem_cons.1 (h.2 _ hv)
    exact congrArg₂ (Declarator.mk x) (map_relabel_eq_self hinit) hpos
  exact congrArg₂ (Declaration.mk ty) (map_eq_self_iff.2 hvar) h.1

theorem Simple.relabel_eq_self {a : Simple} (h : ∀ q ∈ a.nodePositions, ρ q = q) :
    a.relabel (.ofPositions ρ) = a := by
  rcases a with d | ⟨pos, x, e⟩ | ⟨pos, value⟩ | ⟨pos, e⟩
  · exact congrArg declare (Declaration.relabel_eq_self h)
  · obtain ⟨hpos, he⟩ := List.forall_mem_cons.1 h
    exact congrArg₂ (assign · x) hpos (Expr.relabel_eq_self he)
  · obtain ⟨hpos, hvalue⟩ := List.forall_mem_cons.1 h
    exact congrArg₂ ret hpos (map_relabel_eq_self hvalue)
  · obtain ⟨hpos, he⟩ := List.forall_mem_cons.1 h
    exact congrArg₂ eval hpos (Expr.relabel_eq_self he)

theorem Block.relabel_eq_self {b : Block} (h : ∀ q ∈ b.nodePositions, ρ q = q) :
    b.relabel (.ofPositions ρ) = b := by
  induction b with
  | done => rfl
  | simple a rest ih =>
    rw [nodePositions, List.forall_mem_append] at h
    rw [relabel, Simple.relabel_eq_self h.1, ih h.2]
  | ifThen pos c t rest iht ih =>
    simp only [nodePositions, List.forall_mem_cons, List.forall_mem_append] at h
    obtain ⟨hpos, ⟨hc, ht⟩, hrest⟩ := h
    rw [relabel, Expr.relabel_eq_self hc, iht ht, ih hrest]
    exact congrArg (ifThen · c t rest) hpos
  | ifElse pos c t e rest iht ihe ih =>
    simp only [nodePositions, List.forall_mem_cons, List.forall_mem_append] at h
    obtain ⟨hpos, ⟨⟨hc, ht⟩, he⟩, hrest⟩ := h
    rw [relabel, Expr.relabel_eq_self hc, iht ht, ihe he, ih hrest]
    exact congrArg (ifElse · c t e rest) hpos
  | loop pos c b rest ihb ih =>
    simp only [nodePositions, List.forall_mem_cons, List.forall_mem_append] at h
    obtain ⟨hpos, ⟨hc, hb⟩, hrest⟩ := h
    rw [relabel, Expr.relabel_eq_self hc, ihb hb, ih hrest]
    exact congrArg (loop · c b rest) hpos

/-- A change of positions that leaves those of the nodes of a program leaves the program. -/
theorem Program.relabel_eq_self {p : Program} (h : ∀ q ∈ p.nodePositions, ρ q = q) :
    p.relabel (.ofPositions ρ) = p := by
  obtain ⟨globals, returnTy, name, params, body, pos⟩ := p
  simp only [nodePositions, Function.nodePositions, List.forall_mem_append, List.forall_mem_cons,
    List.forall_mem_flatMap, List.forall_mem_map] at h
  obtain ⟨hglobals, hpos, hparams, hbody⟩ := h
  have hparam : ∀ q ∈ params, q.relabel (.ofPositions ρ) = q := fun q hq ↦
    congrArg (Param.mk q.ty q.name) (hparams q hq)
  show Program.mk (globals.map _)
    ⟨returnTy, name, params.map _, body.relabel (.ofPositions ρ), ρ pos⟩ = _
  rw [map_eq_self_iff.2 fun d hd ↦ Declaration.relabel_eq_self (hglobals d hd),
    map_eq_self_iff.2 hparam, Block.relabel_eq_self hbody, hpos]

end Fixed

/-! ### The two readings -/

/-- Positions do not show in what a problem is about. -/
theorem Diagnostic.relabel_ofPositions (ρ : Pos → Pos) (d : Diagnostic) :
    ((d.relabel (.ofPositions ρ)).category, (d.relabel (.ofPositions ρ)).message,
      (d.relabel (.ofPositions ρ)).pos) = (d.category, d.message, ρ d.pos) := by
  obtain ⟨pos, problem⟩ := d
  cases problem with
  | lowering e => cases e <;> rfl
  | _ => rfl

namespace Program

/-- Moves every position but those of the nodes of the program. -/
def moveOthers (p : Program) (q : Pos) : Pos :=
  if q ∈ p.nodePositions then q else { q with line := q.line + 1 }

theorem mem_nodePositions_iff {p : Program} {q : Pos} :
    q ∈ p.nodePositions ↔ p.moveOthers q = q := by
  rw [moveOthers]
  split
  · simp [*]
  · rename_i hq
    refine ⟨fun h ↦ absurd h hq, fun h ↦ ?_⟩
    have hline : q.line + 1 = q.line := congrArg Pos.line h
    omega

/-- Every diagnostic of a compilation stands at a node of the program: to move all other positions
does not change the program, so it does not change the diagnostics. -/
theorem pos_mem_nodePositions {o : Options} {p : Program} {d : Diagnostic}
    (hd : d ∈ (p.compile o).session.diagnostics.errors ++
      (p.compile o).session.diagnostics.warnings) : d.pos ∈ p.nodePositions := by
  have hsame : p.relabel (.ofPositions p.moveOthers) = p :=
    relabel_eq_self fun q hq ↦ mem_nodePositions_iff.1 hq
  obtain ⟨-, hdiag, -⟩ := compile_relabel (φ := .ofPositions p.moveOthers) (o := o) (fun _ ↦ rfl)
    (p := p) fun _ _ _ _ ↦ rfl
  rw [hsame] at hdiag
  have hall : ((p.compile o).session.diagnostics.errors ++
      (p.compile o).session.diagnostics.warnings).map
        (Diagnostic.relabel (.ofPositions p.moveOthers)) =
      (p.compile o).session.diagnostics.errors ++ (p.compile o).session.diagnostics.warnings := by
    rw [List.map_append]
    exact (congrArg (fun ds ↦ ds.errors ++ ds.warnings) hdiag).symm
  exact mem_nodePositions_iff.2 (congrArg Diagnostic.pos (map_eq_self_iff.1 hall d hd))

/-- Positions are passed on, and nothing else is done with them. A compilation of a program with
other positions has the same assembly program, if any, and the same diagnostics and scopes, at the
other positions; and every diagnostic stands at a node of the program. -/
theorem compile_ofPositions (ρ : Pos → Pos) (o : Options) (p : Program) :
    ((p.relabel (.ofPositions ρ)).compile o).assembly = (p.compile o).assembly ∧
    (((p.relabel (.ofPositions ρ)).compile o).session.diagnostics.errors.map
        fun d ↦ (d.category, d.message, d.pos)) =
      (p.compile o).session.diagnostics.errors.map
        (fun d ↦ (d.category, d.message, ρ d.pos)) ∧
    (((p.relabel (.ofPositions ρ)).compile o).session.diagnostics.warnings.map
        fun d ↦ (d.category, d.message, d.pos)) =
      (p.compile o).session.diagnostics.warnings.map
        (fun d ↦ (d.category, d.message, ρ d.pos)) ∧
    ((p.relabel (.ofPositions ρ)).compile o).session.scopes =
      (p.compile o).session.scopes.relabel (.ofPositions ρ) ∧
    ∀ d ∈ (p.compile o).session.diagnostics.errors ++ (p.compile o).session.diagnostics.warnings,
      d.pos ∈ p.nodePositions := by
  obtain ⟨hassembly, hdiag, hscopes⟩ := compile_relabel (φ := .ofPositions ρ) (o := o)
    (fun _ ↦ rfl) (p := p) fun _ _ _ _ ↦ rfl
  have hlist : ∀ ds : List Diagnostic,
      ((ds.map (Diagnostic.relabel (.ofPositions ρ))).map fun d ↦ (d.category, d.message, d.pos)) =
        ds.map fun d ↦ (d.category, d.message, ρ d.pos) := fun ds ↦ by
    rw [List.map_map]
    exact List.map_congr_left fun d _ ↦ d.relabel_ofPositions ρ
  rw [hdiag]
  exact ⟨hassembly, hlist _, hlist _, hscopes, fun d hd ↦ pos_mem_nodePositions hd⟩

/-- Names of local variables matter only as far as they are equal or not. With remarks off, a
compilation of a program with other names for all variables but the global ones has the same
assembly program, if any, the same kinds of diagnostics at the same positions, and the same scopes
with the other names in them. -/
theorem compile_ofNames {σ : String → String} (hσ : Function.Injective σ) {o : Options}
    (ho : o.emitComments = false) {p : Program}
    (hp : ∀ d ∈ p.globals, ∀ v ∈ d.vars, σ v.name = v.name) :
    ((p.relabel (.ofNames σ hσ)).compile o).assembly = (p.compile o).assembly ∧
    (((p.relabel (.ofNames σ hσ)).compile o).session.diagnostics.errors.map
        fun d ↦ (d.category, d.pos)) =
      (p.compile o).session.diagnostics.errors.map (fun d ↦ (d.category, d.pos)) ∧
    (((p.relabel (.ofNames σ hσ)).compile o).session.diagnostics.warnings.map
        fun d ↦ (d.category, d.pos)) =
      (p.compile o).session.diagnostics.warnings.map (fun d ↦ (d.category, d.pos)) ∧
    ((p.relabel (.ofNames σ hσ)).compile o).session.scopes =
      (p.compile o).session.scopes.relabel (.ofNames σ hσ) := by
  have hremarks : (Relabeling.ofNames σ hσ).Unremarked o := fun h ↦ by
    rw [ho] at h
    cases h
  obtain ⟨hassembly, hdiag, hscopes⟩ := compile_relabel hremarks hp
  have hlist : ∀ ds : List Diagnostic,
      ((ds.map (Diagnostic.relabel (.ofNames σ hσ))).map fun d ↦ (d.category, d.pos)) =
        ds.map fun d ↦ (d.category, d.pos) := fun ds ↦ by
    rw [List.map_map]
    exact List.map_congr_left fun d _ ↦ congrArg (·, d.pos) (d.category_relabel _)
  rw [hdiag]
  exact ⟨hassembly, hlist _, hlist _, hscopes⟩

/-- The names `x` and `y` change places. -/
def exchange (x y : String) : String → String := Equiv.swap x y

theorem exchange_injective (x y : String) : Function.Injective (exchange x y) :=
  (Equiv.swap x y).injective

theorem compile_ofNames_shadowing :
    (∀ d ∈ shadowing.globals, ∀ v ∈ d.vars, exchange "y" "z" v.name = v.name) ∧
      shadowing.relabel (.ofNames _ (exchange_injective "y" "z")) ≠ shadowing ∧
      (shadowing.compile {}).assembly.isSome = true ∧
      ((shadowing.relabel (.ofNames _ (exchange_injective "y" "z"))).compile {}).assembly =
        (shadowing.compile {}).assembly ∧
      ((shadowing.relabel (.ofNames _ (exchange_injective "y" "z"))).compile {}).session.scopes =
        (shadowing.compile {}).session.scopes.relabel
          (.ofNames _ (exchange_injective "y" "z")) := by
  have hglobals : ∀ d ∈ shadowing.globals, ∀ v ∈ d.vars, exchange "y" "z" v.name = v.name := by
    decide
  obtain ⟨hassembly, -, -, hscopes⟩ :=
    compile_ofNames (exchange_injective "y" "z") (o := {}) rfl hglobals
  exact ⟨hglobals, by decide +kernel, by decide +kernel, hassembly, hscopes⟩

end Program

end BlockLang
