import BlockLang.Proofs.Analysis.Shape
import BlockLang.Proofs.Lowering.Layout

/-!
# Code generation step by step

Each step of code generation, run in a state that stands at a site (`Progress.At`), succeeds with
the code that the site gives it and leads to the site that follows. `Lower.Goes` says this in one
breath, and steps that follow one another compose by `Lower.Goes.bind`; a proof about a piece of the
generator is then a chain of such steps in the order in which the generator takes them.

Besides, every step keeps the diagnostics and all scopes around the current one (`Progress.Keeps`).
That is what allows a scope to be left again after the code of its block.
-/

namespace BlockLang

variable {α β : Type}

namespace Progress

/-- The state stands at a site: the variables with a place are those of the site, the current table
declares all that `T` does, and the scopes in `L` are still to be visited. -/
structure At (p : Progress) (σ : Site) (T : SymbolTable) (L : Forest) : Prop where
  /-- The variables that have a place. -/
  places : p.session.scopes.places = σ.places
  /-- The current scope. -/
  scope : p.session.scopes.here.id = σ.scope
  /-- The numbers of constructs. -/
  labels : p.labels = σ.labels
  /-- The bytes of the frame. -/
  taken : p.taken = σ.taken
  /-- The declarations of the current scope. -/
  table : p.session.scopes.here.symbols.Includes T
  /-- The scopes that are still to be visited come last. -/
  pending : ∃ E, p.session.scopes.inner = E ++ L ∧ E.length = p.session.scopes.here.visited

/-- The diagnostics and the scopes around the current one are the same. -/
structure Keeps (p q : Progress) : Prop where
  /-- The same diagnostics. -/
  diagnostics : q.session.diagnostics = p.session.diagnostics
  /-- The same scopes around the current one. -/
  outer : q.session.scopes.outer = p.session.scopes.outer

theorem Keeps.refl (p : Progress) : p.Keeps p := ⟨rfl, rfl⟩

theorem Keeps.trans {p q r : Progress} (h : p.Keeps q) (h' : q.Keeps r) : p.Keeps r :=
  ⟨h'.diagnostics.trans h.diagnostics, h'.outer.trans h.outer⟩

end Progress

namespace Lower

/-- The step succeeds with `a`, leads to the given site and keeps diagnostics and outer scopes. -/
def Goes (m : Lower α) (p : Progress) (a : α) (σ : Site) (T : SymbolTable) (L : Forest) : Prop :=
  ∃ q, m p = .ok a q ∧ q.At σ T L ∧ p.Keeps q

theorem goes_pure {p : Progress} {σ : Site} {T : SymbolTable} {L : Forest} (hp : p.At σ T L)
    (a : α) : Goes (pure a) p a σ T L :=
  ⟨p, rfl, hp, .refl p⟩

/-- Steps that follow one another. -/
theorem Goes.bind {m : Lower α} {f : α → Lower β} {p : Progress} {a : α} {b : β} {σ σ' : Site}
    {T : SymbolTable} {L L' : Forest} (hm : m.Goes p a σ T L)
    (hf : ∀ q, q.At σ T L → (f a).Goes q b σ' T L') : (m >>= f).Goes p b σ' T L' := by
  obtain ⟨q, hq, hat, hkeeps⟩ := hm
  obtain ⟨r, hr, hat', hkeeps'⟩ := hf q hat
  refine ⟨r, ?_, hat', hkeeps.trans hkeeps'⟩
  show EStateM.bind m f p = _
  rw [EStateM.bind, hq]
  exact hr

/-- A step that first looks at the state. -/
theorem get_bind_apply (f : Progress → Lower β) (p : Progress) : (get >>= f) p = f p p := rfl

/-- A step that first looks at the places of variables. -/
theorem env_bind_apply (f : Env → Lower β) (p : Progress) :
    (env >>= f) p = f p.session.scopes.lookupStored? p := rfl

theorem Goes.get_bind {f : Progress → Lower β} {p : Progress} {b : β} {σ : Site} {T : SymbolTable}
    {L : Forest} (h : (f p).Goes p b σ T L) : (get >>= f).Goes p b σ T L := h

variable {p : Progress} {σ : Site} {T : SymbolTable} {L : Forest}

/-! ### Records, numbers and slots -/

theorem goes_note (hp : p.At σ T L) (e : Event) : (note e).Goes p () σ T L :=
  ⟨_, rfl, ⟨hp.places, hp.scope, hp.labels, hp.taken, hp.table, hp.pending⟩, ⟨rfl, rfl⟩⟩

theorem goes_reportAll_nil (hp : p.At σ T L) : (reportAll []).Goes p () σ T L :=
  ⟨p, rfl, hp, .refl p⟩

theorem goes_freshLabel (hp : p.At σ T L) : freshLabel.Goes p σ.labels σ.number T L := by
  refine ⟨{ p with labels := p.labels + 1 }, ?_, ?_, ⟨rfl, rfl⟩⟩
  · rw [← hp.labels]
    rfl
  · exact ⟨hp.places, hp.scope, congrArg (· + 1) hp.labels, hp.taken, hp.table, hp.pending⟩

theorem goes_allocate (hp : p.At σ T L) (ty : Ty) :
    (allocate ty).Goes p (.slot (σ.taken + ty.size)) { σ with taken := σ.taken + ty.size } T L := by
  refine ⟨{ p with taken := p.taken + ty.size }, ?_, ?_, ⟨rfl, rfl⟩⟩
  · rw [← hp.taken]
    rfl
  · exact ⟨hp.places, hp.scope, hp.labels, congrArg (· + ty.size) hp.taken, hp.table, hp.pending⟩

/-! ### Places -/

end Lower

/-- The place of the variable `x` of type `ty` in a kind of storage. -/
def Storage.mem (x : String) (ty : Ty) : Storage → Mem
  | cell => ⟨ty.width, .cell x⟩
  | slot offset => ⟨ty.width, .slot offset⟩

theorem Symbol.operand?_place {x : String} {ty : Ty} {s : Symbol} (hname : s.name = x)
    (hty : s.ty = ty) (storage : Storage) :
    (s.place storage).operand? = some (storage.mem x ty) := by
  subst hname hty
  cases storage <;> rfl

namespace ScopeTree

/-- Placing a declared variable changes nothing but the place of that variable. -/
theorem place?_eq_some {t : ScopeTree} {x : String} {ty : Ty}
    (h : t.here.symbols.Declares x ty) (storage : Storage) :
    t.place? x storage = some (t.modifyHere x (Symbol.place storage)) := by
  obtain ⟨sym, hsym, -, -⟩ := h
  rw [place?, if_pos]
  rw [containsLocal, SymbolTable.contains, hsym]
  rfl

theorem includes_modifyHere_place (t : ScopeTree) (x : String) (storage : Storage) :
    (t.modifyHere x (Symbol.place storage)).here.symbols.Includes t.here.symbols := by
  rintro y ty ⟨sym, hsym, hname, hty⟩
  show SymbolTable.Declares (t.here.symbols.modify x (Symbol.place storage)) y ty
  by_cases hy : y = x
  · subst hy
    refine ⟨sym.place storage, ?_, hname, hty⟩
    rw [SymbolTable.get?_modify, if_pos rfl, hsym]
    rfl
  · refine ⟨sym, ?_, hname, hty⟩
    rw [SymbolTable.get?_modify, if_neg hy, hsym]

theorem places_modifyHere_place {t : ScopeTree} {x : String} {ty : Ty}
    (h : t.here.symbols.Declares x ty) (storage : Storage) :
    (t.modifyHere x (Symbol.place storage)).places =
      t.places.bind x ⟨t.here.id, x, ty, storage.mem x ty⟩ := by
  obtain ⟨sym, hsym, hname, hty⟩ := h
  ext1
  · funext y
    show ((t.here.symbols.modify x (Symbol.place storage)).get? y).bind
      (Symbol.placed? t.here.id) = _
    rw [SymbolTable.get?_modify]
    by_cases hy : y = x
    · subst hy
      have hplaced : (sym.place storage).placed? t.here.id =
          some ⟨t.here.id, y, ty, storage.mem y ty⟩ := by
        rw [Symbol.placed?, Symbol.operand?_place hname hty, ← hty, ← hname]
        rfl
      rw [if_pos rfl, hsym, Nest.bind_here_self]
      exact hplaced
    · rw [if_neg hy, Nest.bind_here_of_ne _ _ hy]
      rfl
  · rfl

end ScopeTree

namespace Lower

variable {p : Progress} {σ : Site} {T : SymbolTable} {L : Forest}

theorem goes_place (hp : p.At σ T L) {x : String} {ty : Ty} (hx : T.Declares x ty)
    (storage : Storage) (pos : Pos) :
    (place x storage pos).Goes p (storage.mem x ty) (σ.place x ty (storage.mem x ty)) T L := by
  have hdecl : p.session.scopes.here.symbols.Declares x ty := hp.table x ty hx
  generalize ht : p.session.scopes.modifyHere x (Symbol.place storage) = t
  have hplace : p.session.scopes.place? x storage = some t := by
    rw [ScopeTree.place?_eq_some hdecl, ht]
  obtain ⟨sym, hsym, hname, hty⟩ := hdecl
  have hlookup : t.lookupLocal? x = some (sym.place storage) := by
    rw [← ht]
    show (p.session.scopes.here.symbols.modify x (Symbol.place storage)).get? x = _
    rw [SymbolTable.get?_modify, if_pos rfl, hsym]
    rfl
  have hoperand : (sym.place storage).operand? = some (storage.mem x ty) :=
    Symbol.operand?_place hname hty storage
  refine ⟨{ p with session := { p.session with scopes := t } }, ?_, ?_, ?_⟩
  · rw [place, get_bind_apply, hplace]
    dsimp only
    rw [hlookup]
    dsimp only
    rw [hoperand]
    rfl
  · refine ⟨?_, ?_, hp.labels, hp.taken, ?_, ?_⟩
    · show t.places = _
      rw [← ht, ScopeTree.places_modifyHere_place (hp.table x ty hx), hp.places, hp.scope]
      rfl
    · show t.here.id = _
      rw [← ht]
      exact hp.scope
    · intro y ty' hy
      show t.here.symbols.Declares y ty'
      rw [← ht]
      exact p.session.scopes.includes_modifyHere_place x storage y ty' (hp.table y ty' hy)
    · show ∃ E, t.inner = E ++ L ∧ E.length = t.here.visited
      rw [← ht]
      exact hp.pending
  · refine ⟨rfl, ?_⟩
    show t.outer = _
    rw [← ht]
    rfl

end Lower

end BlockLang
