import BlockLang.Lowering.Expr
import BlockLang.Proofs.Scope.Nest
import BlockLang.Scope.Replay

/-!
# Views of a scope tree

What the current scope and the scopes around it say of names, as a `Nest`. Two views matter: the
types of all declared variables (`ScopeTree.types`), which is what an analysis sees, and the places
of the variables that have one (`ScopeTree.places`), which is what code generation sees.

Each operation on scope trees acts on every view in one of four ways: it enters or leaves a scope,
binds a name, or does nothing. Which one is all that later proofs need to know of the operation.
-/

namespace BlockLang

variable {α : Type}

namespace SymbolTable

/-- A symbol added under a new name is found under that name only. -/
theorem get?_push (t : SymbolTable) {x : String} (s : Symbol) (h : t.get? x = none) (y : String) :
    (t.push x s).get? y = if y = x then some s else t.get? y := by
  show (t.entries ++ [(x, s)]).lookup y = _
  rw [List.lookup_append]
  by_cases hy : y = x
  · subst hy
    have hnone : t.entries.lookup y = none := h
    simp [hnone]
  · simp [hy, List.lookup_cons, beq_false_of_ne hy, get?]

/-- A change of one symbol shows under its name only. -/
theorem get?_modify (t : SymbolTable) (x : String) (f : Symbol → Symbol) (y : String) :
    (t.modify x f).get? y = if y = x then (t.get? x).map f else t.get? y := by
  show (t.entries.map fun e ↦ if e.1 = x then (e.1, f e.2) else e).lookup y =
    if y = x then (t.entries.lookup x).map f else t.entries.lookup y
  induction t.entries with
  | nil => simp
  | cons e es ih =>
    obtain ⟨z, s⟩ := e
    rw [List.map_cons, List.lookup_cons, List.lookup_cons, List.lookup_cons]
    by_cases hz : z = x
    · subst hz
      by_cases hy : y = z
      · simp [hy]
      · simp [hy, beq_false_of_ne hy, ih]
    · have hxz : (x == z) = false := beq_false_of_ne (Ne.symm hz)
      by_cases hy : y = z
      · have hyx : y ≠ x := fun h ↦ hz (hy ▸ h)
        simp [hz, hy]
      · simp [hz, beq_false_of_ne hy, hxz, ih]

theorem contains_eq_false_iff (t : SymbolTable) (x : String) :
    t.contains x = false ↔ t.get? x = none := by
  rw [contains, Option.isSome_eq_false_iff, Option.isNone_iff_eq_none]

end SymbolTable

/-- What `f` says of the symbols of a scope with the given number. -/
def Scope.view (f : Nat → Symbol → Option α) (s : Scope) : String → Option α :=
  fun x ↦ (s.symbols.get? x).bind (f s.id)

/-- A view that looks at neither tracked values nor marks of initialization. -/
def Blind (f : Nat → Symbol → Option α) : Prop := ∀ i s v, f i (Symbol.assign v s) = f i s

theorem blind_types : Blind fun _ s ↦ some s.ty := fun _ _ _ ↦ rfl

/-- The scope without its symbols. -/
def Scope.blank (s : Scope) : Scope := { s with symbols := {} }

/-- A variable that has a place to live in. -/
structure Placed where
  /-- The number of the scope that declares it. -/
  scope : Nat
  /-- Its name. -/
  name : String
  /-- Its type. -/
  ty : Ty
  /-- Its place. -/
  mem : Mem
deriving DecidableEq, Repr

/-- A symbol of the scope with the given number as a variable with a place, if it has one. -/
def Symbol.placed? (scope : Nat) (s : Symbol) : Option Placed :=
  s.operand?.map (⟨scope, s.name, s.ty, ·⟩)

theorem Symbol.placed?_eq_none_iff (scope : Nat) (s : Symbol) :
    s.placed? scope = none ↔ s.storage = none := by
  rw [placed?, operand?, Option.map_eq_none_iff, Option.map_eq_none_iff]

/-- A change of a symbol that a view does not look at does not show in it. -/
theorem Scope.view_modify (f : Nat → Symbol → Option α) {g : Symbol → Symbol}
    (hg : ∀ i s, f i (g s) = f i s) (s : Scope) (x : String) :
    Scope.view f { s with symbols := s.symbols.modify x g } = s.view f := by
  funext y
  show ((s.symbols.modify x g).get? y).bind (f s.id) = _
  rw [SymbolTable.get?_modify]
  by_cases hy : y = x
  · subst hy
    rw [if_pos rfl, Scope.view]
    cases s.symbols.get? y <;> simp [hg]
  · rw [if_neg hy]
    rfl

namespace ScopeTree

/-- What `f` says of the symbols of the current scope and of the scopes around it. -/
def view (f : Nat → Symbol → Option α) (t : ScopeTree) : Nest α where
  here := t.here.view f
  outer := t.outer.map fun e ↦ e.scope.view f

/-- The types of all visible variables and of those they hide. -/
def types (t : ScopeTree) : Nest Ty := t.view fun _ s ↦ some s.ty

/-- The variables that have a place. -/
def places (t : ScopeTree) : Nest Placed := t.view Symbol.placed?

/-- The nearest declaration of `x`, with the number of its scope. -/
def binding? (t : ScopeTree) (x : String) : Option (Nat × Symbol) :=
  t.chain.findSome? fun s ↦ (s.symbols.get? x).map (s.id, ·)

/-- The nearest declaration of `x` that has a place, with the number of its scope. -/
def storedBinding? (t : ScopeTree) (x : String) : Option (Nat × Symbol) :=
  t.chain.findSome? fun s ↦ ((s.symbols.get? x).filter (·.storage.isSome)).map (s.id, ·)

theorem view_scopes (f : Nat → Symbol → Option α) (t : ScopeTree) :
    (t.view f).scopes = t.chain.map (Scope.view f) := by
  simp [Nest.scopes, view, chain]

theorem find?_view (f : Nat → Symbol → Option α) (t : ScopeTree) (x : String) :
    (t.view f).find? x = t.chain.findSome? fun s ↦ s.view f x := by
  rw [Nest.find?, view_scopes, List.findSome?_map]
  rfl

theorem lookup?_eq_binding? (t : ScopeTree) (x : String) :
    t.lookup? x = (t.binding? x).map Prod.snd := by
  rw [lookup?, binding?, List.map_findSome?]
  refine congrArg (t.chain.findSome? ·) (funext fun s ↦ ?_)
  cases h : s.symbols.get? x <;> simp [h]

/-- A view that has something to say of every symbol finds the nearest declaration. -/
theorem find?_view_some (g : Nat → Symbol → α) (t : ScopeTree) (x : String) :
    (t.view fun i s ↦ some (g i s)).find? x = (t.binding? x).map fun e ↦ g e.1 e.2 := by
  rw [find?_view, binding?, List.map_findSome?]
  refine congrArg (t.chain.findSome? ·) (funext fun s ↦ ?_)
  cases h : s.symbols.get? x <;> simp [Scope.view, h]

/-- A name has the type of its nearest declaration. -/
theorem find?_types (t : ScopeTree) (x : String) :
    t.types.find? x = (t.lookup? x).map Symbol.ty := by
  rw [types, find?_view_some, lookup?_eq_binding?, Option.map_map]
  rfl

theorem lookupStored?_eq_storedBinding? (t : ScopeTree) (x : String) :
    t.lookupStored? x = (t.storedBinding? x).map Prod.snd := by
  rw [lookupStored?, storedBinding?, List.map_findSome?]
  refine congrArg (t.chain.findSome? ·) (funext fun s ↦ ?_)
  cases h : (s.symbols.get? x).filter (·.storage.isSome) <;> simp [h]

/-- A name has the place of its nearest declaration that has one. -/
theorem find?_places (t : ScopeTree) (x : String) :
    t.places.find? x = (t.storedBinding? x).bind fun e ↦ e.2.placed? e.1 := by
  rw [places, find?_view, storedBinding?]
  induction t.chain with
  | nil => rfl
  | cons s ss ih =>
    rw [List.findSome?_cons, List.findSome?_cons, ih]
    rcases h : s.symbols.get? x with - | sym
    · simp [Scope.view, h]
    · rcases hp : sym.placed? s.id with - | p
      · have hs : sym.storage = none := (sym.placed?_eq_none_iff s.id).1 hp
        simp [Scope.view, h, hp, hs, Option.filter_some]
      · have hs : sym.storage.isSome := by
          rw [Option.isSome_iff_ne_none]
          intro hn
          rw [← sym.placed?_eq_none_iff s.id, hp] at hn
          cases hn
        simp [Scope.view, h, hp, hs, Option.filter_some]

/-! ### Moving -/

theorem view_exit? (f : Nat → Symbol → Option α) {t t' : ScopeTree} (h : t.exit? = some t') :
    t'.view f = (t.view f).leave := by
  obtain ⟨here, inner, outer, count⟩ := t
  cases outer with
  | nil => simp [exit?] at h
  | cons e es =>
    simp only [exit?, Option.some.injEq] at h
    subst h
    rfl

/-- Leaving a scope whose surroundings are those of a point leads back to that point. -/
theorem view_exit_of_outer (f : Nat → Symbol → Option α) {t t' : ScopeTree}
    (h : (t'.view f).outer = (t.view f).scopes) : (t'.exit?.getD t').view f = t.view f := by
  rcases hexit : t'.exit? with - | t''
  · -- a scope with surroundings can be left
    rw [exit?] at hexit
    split at hexit
    · rename_i hnil
      rw [view, hnil] at h
      cases h
    · cases hexit
  · rw [Option.getD_some, view_exit? _ hexit, Nest.leave, h]
    rfl

/-! ### Symbols -/

theorem containsLocal_eq_false_iff (t : ScopeTree) (x : String) :
    t.containsLocal x = false ↔ t.types.here x = none := by
  rw [containsLocal, SymbolTable.contains_eq_false_iff]
  show _ ↔ (t.here.symbols.get? x).bind (fun s ↦ some s.ty) = none
  cases t.here.symbols.get? x <;> simp

/-- The symbol that a declaration adds to the current scope. -/
def newSymbol (t : ScopeTree) (x : String) (ty : Ty) (value : Option Value) (pos : Pos) : Symbol :=
  { name := x, ty, value, initialized := value.isSome, pos, owner := t.here.name }

/-- A declaration of a new name adds a symbol to the current scope and changes nothing else. -/
theorem declare?_eq_some (t : ScopeTree) {x : String} (h : t.containsLocal x = false) (ty : Ty)
    (value : Option Value) (pos : Pos) :
    t.declare? x ty value pos =
      some { t with
        here := { t.here with
          symbols := t.here.symbols.push x (t.newSymbol x ty value pos) } } := by
  rw [declare?, h]
  rfl

theorem containsLocal_of_declare? {t t' : ScopeTree} {x : String} {ty : Ty}
    {value : Option Value} {pos : Pos} (h : t.declare? x ty value pos = some t') :
    t.containsLocal x = false := by
  by_contra hc
  rw [declare?, if_pos (by simpa using hc)] at h
  cases h

theorem outer_declare? {t t' : ScopeTree} {x : String} {ty : Ty} {value : Option Value} {pos : Pos}
    (h : t.declare? x ty value pos = some t') : t'.outer = t.outer := by
  rw [t.declare?_eq_some (containsLocal_of_declare? h), Option.some.injEq] at h
  rw [← h]

theorem view_declare? (f : Nat → Symbol → Option α) {t t' : ScopeTree} {x : String} {ty : Ty}
    {value : Option Value} {pos : Pos} (h : t.declare? x ty value pos = some t') {a : α}
    (ha : f t.here.id (t.newSymbol x ty value pos) = some a) :
    t'.view f = (t.view f).bind x a := by
  have hx : t.containsLocal x = false := containsLocal_of_declare? h
  rw [t.declare?_eq_some hx, Option.some.injEq] at h
  subst h
  ext1
  · funext y
    show ((t.here.symbols.push x _).get? y).bind (f t.here.id) = _
    rw [t.here.symbols.get?_push _ ((t.here.symbols.contains_eq_false_iff x).1 hx)]
    by_cases hy : y = x
    · subst hy
      simp [ha]
    · rw [if_neg hy, Nest.bind_here_of_ne _ _ hy]
      rfl
  · rfl

private theorem view_modifyOuter (f : Nat → Symbol → Option α) {g : Symbol → Symbol}
    (hg : ∀ i s, f i (g s) = f i s) (x : String) {es es' : List Enclosing}
    (h : modifyOuter x g es = some es') :
    (es'.map fun e ↦ e.scope.view f) = es.map fun e ↦ e.scope.view f := by
  induction es generalizing es' with
  | nil => cases h
  | cons e es ih =>
    rw [modifyOuter] at h
    split at h
    · obtain rfl := Option.some.inj h
      rw [List.map_cons, List.map_cons]
      exact congrArg (· :: _) (Scope.view_modify f hg e.scope x)
    · obtain ⟨es'', hes, rfl⟩ := Option.map_eq_some_iff.1 h
      rw [List.map_cons, List.map_cons, ih hes]

/-- An assignment does not show in a blind view. -/
theorem view_assign? {f : Nat → Symbol → Option α} (hf : Blind f) {t t' : ScopeTree} {x : String}
    {value : Option Value} (h : t.assign? x value = some t') : t'.view f = t.view f := by
  rw [assign?, modify?] at h
  split at h
  · obtain rfl := Option.some.inj h
    ext1
    · exact Scope.view_modify f (hf · · value) t.here x
    · rfl
  · obtain ⟨es, hes, rfl⟩ := Option.map_eq_some_iff.1 h
    ext1
    · rfl
    · exact view_modifyOuter f (hf · · value) x hes

/-! ### The nearest declaration -/

section Chain

variable {t t' : ScopeTree} {x : String}

private theorem map_scope_modifyOuter {f : Symbol → Symbol} {es es' : List Enclosing}
    (h : modifyOuter x f es = some es') :
    ∃ inner s outer sym, es.map Enclosing.scope = inner ++ s :: outer ∧
      (∀ r ∈ inner, r.symbols.get? x = none) ∧ s.symbols.get? x = some sym ∧
      es'.map Enclosing.scope = inner ++ { s with symbols := s.symbols.modify x f } :: outer := by
  induction es generalizing es' with
  | nil => exact absurd h.symm (Option.some_ne_none _)
  | cons e es ih =>
    rw [modifyOuter] at h
    split at h
    · rename_i hx
      obtain rfl := Option.some.inj h
      obtain ⟨sym, hsym⟩ := Option.isSome_iff_exists.1 hx
      exact ⟨[], e.scope, es.map Enclosing.scope, sym, rfl, List.forall_mem_nil _, hsym, rfl⟩
    · rename_i hx
      obtain ⟨es'', hes, rfl⟩ := Option.map_eq_some_iff.1 h
      obtain ⟨inner, s, outer, sym, hold, hinner, hsym, hnew⟩ := ih hes
      have hnone : e.scope.symbols.get? x = none :=
        (e.scope.symbols.contains_eq_false_iff x).1 (by simpa using hx)
      refine ⟨e.scope :: inner, s, outer, sym, ?_, List.forall_mem_cons.2 ⟨hnone, hinner⟩, hsym, ?_⟩
      · rw [List.map_cons, hold, List.cons_append]
      · rw [List.map_cons, hnew, List.cons_append]

/-- A change of the nearest declaration of a name is one of the first scope around the point that
declares it. -/
theorem chain_modify? {f : Symbol → Symbol} (h : t.modify? x f = some t') :
    t'.count = t.count ∧
      ∃ inner s outer sym, t.chain = inner ++ s :: outer ∧
        (∀ r ∈ inner, r.symbols.get? x = none) ∧ s.symbols.get? x = some sym ∧
        t'.chain = inner ++ { s with symbols := s.symbols.modify x f } :: outer := by
  rw [modify?] at h
  split at h
  · rename_i hx
    obtain rfl := Option.some.inj h
    obtain ⟨sym, hsym⟩ := Option.isSome_iff_exists.1 hx
    exact ⟨rfl, [], t.here, t.outer.map Enclosing.scope, sym, rfl, List.forall_mem_nil _, hsym, rfl⟩
  · rename_i hx
    obtain ⟨es, hes, rfl⟩ := Option.map_eq_some_iff.1 h
    obtain ⟨inner, s, outer, sym, hold, hinner, hsym, hnew⟩ := map_scope_modifyOuter hes
    have hnone : t.here.symbols.get? x = none :=
      (t.here.symbols.contains_eq_false_iff x).1 (by simpa [containsLocal] using hx)
    refine ⟨rfl, t.here :: inner, s, outer, sym, ?_, List.forall_mem_cons.2 ⟨hnone, hinner⟩, hsym,
      ?_⟩
    · rw [chain, hold, List.cons_append]
    · rw [chain, hnew, List.cons_append]

private theorem get?_of_modifyOuter_eq_none {f : Symbol → Symbol} {es : List Enclosing}
    (h : modifyOuter x f es = none) : ∀ e ∈ es, e.scope.symbols.get? x = none := by
  induction es with
  | nil => exact fun e he ↦ absurd he List.not_mem_nil
  | cons e es ih =>
    rw [modifyOuter] at h
    split at h
    · exact absurd h (by simp)
    · rename_i hx
      have hnone : e.scope.symbols.get? x = none :=
        (e.scope.symbols.contains_eq_false_iff x).1 (by simpa using hx)
      exact List.forall_mem_cons.2 ⟨hnone, ih (Option.map_eq_none_iff.1 h)⟩

/-- There is nothing to change only if the name is not visible. -/
theorem binding?_of_modify?_eq_none {f : Symbol → Symbol} (h : t.modify? x f = none) :
    t.binding? x = none := by
  rw [modify?] at h
  split at h
  · exact absurd h (by simp)
  · rename_i hx
    have hhere : t.here.symbols.get? x = none :=
      (t.here.symbols.contains_eq_false_iff x).1 (by simpa [containsLocal] using hx)
    have houter := get?_of_modifyOuter_eq_none (Option.map_eq_none_iff.1 h)
    refine List.findSome?_eq_none_iff.2 (List.forall_mem_cons.2 ⟨by rw [hhere]; rfl, fun s hs ↦ ?_⟩)
    obtain ⟨e, he, rfl⟩ := List.mem_map.1 hs
    rw [houter e he, Option.map_none]

/-- A name is bound by the first scope around the point that declares it. -/
theorem binding?_of_chain {inner outer : List Scope} {s : Scope} {sym : Symbol}
    (hchain : t.chain = inner ++ s :: outer) (hinner : ∀ r ∈ inner, r.symbols.get? x = none)
    (hsym : s.symbols.get? x = some sym) : t.binding? x = some (s.id, sym) := by
  rw [binding?, hchain, List.findSome?_append, List.findSome?_eq_none_iff.2, List.findSome?_cons,
    hsym]
  · rfl
  · intro r hr
    rw [hinner r hr, Option.map_none]

end Chain

end ScopeTree

end BlockLang
