import BlockLang.Proofs.Scope.View
import BlockLang.Scope.Listing
import Mathlib.Algebra.Order.Group.Multiset
import Mathlib.Tactic.Abel

/-!
# The variables in a scope tree

All variables that a scope tree declares, wherever in the tree they are and whichever scope is
current, as a multiset (`ScopeTree.inventory`). Values tracked by an analysis are left out; what is
left of a variable is its scope, its name, its type and its place.

Moving in a tree does not change the inventory, so a pass over the tree is a sum of what it declares
or a list of what it places. A variable is told from the others by the number of its scope and its
name, and a tree in which no two agree in both is `Distinct`.
-/

namespace BlockLang

/-- A variable in a scope tree. -/
structure Entry where
  /-- The number of the scope that declares it. -/
  scope : Nat
  /-- The name it is declared under. -/
  name : String
  /-- Its type. -/
  ty : Ty
  /-- Its place and the number of bytes it occupies there, once it has one. -/
  place : Option (Storage × Nat)
deriving DecidableEq, Repr

/-- What tells a variable from the others. -/
def Entry.key (e : Entry) : Nat × String := (e.scope, e.name)

/-- The symbol declared as `x` in the scope of the given number. -/
def Symbol.entry (scope : Nat) (x : String) (s : Symbol) : Entry where
  scope := scope
  name := x
  ty := s.ty
  place := s.storage.map (·, s.size)

/-- The variables of a table of the scope with the given number. -/
def SymbolTable.inventory (T : SymbolTable) (scope : Nat) : Multiset Entry :=
  ↑(T.entries.map fun e ↦ e.2.entry scope e.1)

/-- The variables of a scope. -/
def Scope.inventory (s : Scope) : Multiset Entry := s.symbols.inventory s.id

/-- The variables of all scopes of a forest. -/
def Forest.inventory : Forest → Multiset Entry
  | nil => 0
  | cons s inner later => s.inventory + inner.inventory + later.inventory

/-- The variables of scopes around a scope, and of what else is inside them. -/
def outerInventory : List Enclosing → Multiset Entry
  | [] => 0
  | e :: es => e.scope.inventory + e.earlier.inventory + e.later.inventory + outerInventory es

/-- The variables of a scope tree. -/
def ScopeTree.inventory (t : ScopeTree) : Multiset Entry :=
  t.here.inventory + t.inner.inventory + outerInventory t.outer

/-! ### Tables -/

namespace SymbolTable

theorem inventory_push (T : SymbolTable) (x : String) (s : Symbol) (scope : Nat) :
    (T.push x s).inventory scope = s.entry scope x ::ₘ T.inventory scope := by
  rw [inventory, push, List.map_append, ← Multiset.coe_add, add_comm]
  rfl

/-- A change that shows neither in the type nor in the place of a symbol does not show. -/
theorem inventory_modify (T : SymbolTable) (x : String) {f : Symbol → Symbol}
    (hf : ∀ i y s, (f s).entry i y = s.entry i y) (scope : Nat) :
    (T.modify x f).inventory scope = T.inventory scope := by
  rw [inventory, modify, List.map_map, inventory]
  refine congrArg _ (List.map_congr_left fun e _ ↦ ?_)
  by_cases hx : e.1 = x <;> simp [hx, hf]

/-- The names under which a table declares its symbols. -/
def names (T : SymbolTable) : List String := T.entries.map Prod.fst

theorem names_modify (T : SymbolTable) (x : String) (f : Symbol → Symbol) :
    (T.modify x f).names = T.names := by
  rw [names, modify, List.map_map]
  refine List.map_congr_left fun e _ ↦ ?_
  by_cases hx : e.1 = x <;> simp [hx]

theorem get?_eq_none_iff (T : SymbolTable) (x : String) :
    T.get? x = none ↔ x ∉ T.names := by
  rw [get?, List.lookup_eq_none_iff, names, List.mem_map]
  simp only [bne_iff_ne, ne_eq, not_exists, not_and]
  exact ⟨fun h e he hx ↦ h e he hx.symm, fun h e he hx ↦ h e he hx.symm⟩

/-- Each symbol of the table is stored under its own name, which no other one has, and records the
name of the scope that owns it. -/
structure Owned (T : SymbolTable) (owner : String) : Prop where
  /-- No name is declared twice. -/
  nodup : T.names.Nodup
  /-- A symbol bears the name it is stored under and the name of the owner. -/
  entries : ∀ e ∈ T.entries, e.2.name = e.1 ∧ e.2.owner = owner

theorem owned_empty (owner : String) : Owned {} owner :=
  ⟨.nil, fun _ he ↦ absurd he List.not_mem_nil⟩

theorem Owned.push {T : SymbolTable} {owner : String} (h : T.Owned owner) {x : String} {s : Symbol}
    (hx : T.get? x = none) (hname : s.name = x) (howner : s.owner = owner) :
    (T.push x s).Owned owner := by
  constructor
  · show ((T.entries ++ [(x, s)]).map Prod.fst).Nodup
    rw [List.map_append, List.nodup_append]
    refine ⟨h.nodup, List.nodup_singleton _, fun y hy z hz ↦ ?_⟩
    obtain rfl := List.mem_singleton.1 hz
    rintro rfl
    exact (T.get?_eq_none_iff _).1 hx hy
  · intro e he
    rcases List.mem_append.1 he with he | he
    · exact h.entries e he
    · obtain rfl := List.mem_singleton.1 he
      exact ⟨hname, howner⟩

/-- A change of a symbol that keeps its name and its owner. -/
theorem Owned.modify {T : SymbolTable} {owner : String} (h : T.Owned owner) (x : String)
    {f : Symbol → Symbol} (hf : ∀ s, (f s).name = s.name ∧ (f s).owner = s.owner) :
    (T.modify x f).Owned owner := by
  constructor
  · rw [names_modify]
    exact h.nodup
  · intro e' he'
    obtain ⟨e, he, rfl⟩ := List.mem_map.1 he'
    by_cases hx : e.1 = x
    · rw [if_pos hx, (hf e.2).1, (hf e.2).2]
      exact h.entries e he
    · rw [if_neg hx]
      exact h.entries e he

theorem exists_split {T : SymbolTable} {x : String} {s : Symbol} (h : T.get? x = some s) :
    ∃ es es', T.entries = es ++ (x, s) :: es' := by
  refine List.append_of_mem ?_
  rw [get?] at h
  generalize T.entries = es at h
  induction es with
  | nil => cases h
  | cons e es ih =>
    rw [List.lookup_cons] at h
    by_cases hx : x = e.1
    · subst hx
      rw [beq_self_eq_true] at h
      obtain rfl := Option.some.inj h
      exact List.mem_cons_self
    · rw [beq_false_of_ne hx] at h
      exact List.mem_cons_of_mem _ (ih h)

/-- A change of one symbol of a table with distinct names. -/
theorem inventory_modify_of_get? {T : SymbolTable} (hnodup : T.names.Nodup) {x : String}
    {s : Symbol} (h : T.get? x = some s) (f : Symbol → Symbol) (scope : Nat) :
    (T.modify x f).inventory scope + {s.entry scope x} =
      T.inventory scope + {(f s).entry scope x} := by
  obtain ⟨es, es', hsplit⟩ := exists_split h
  have hother : x ∉ es.map Prod.fst ∧ x ∉ es'.map Prod.fst := by
    rw [names, hsplit, List.map_append, List.map_cons, List.nodup_middle, List.nodup_cons] at hnodup
    simpa using hnodup.1
  have hsame : ∀ fs : List (String × Symbol), x ∉ fs.map Prod.fst →
      fs.map (fun e ↦ if e.1 = x then (e.1, f e.2) else e) = fs := by
    intro fs hfs
    refine (List.map_congr_left fun e he ↦ if_neg fun hx ↦ ?_).trans (List.map_id fs)
    exact hfs (hx ▸ List.mem_map_of_mem he)
  have hmodify : (T.modify x f).entries = es ++ (x, f s) :: es' := by
    rw [modify, hsplit, List.map_append, List.map_cons, hsame es hother.1, hsame es' hother.2,
      if_pos rfl]
  rw [inventory, inventory, hmodify, hsplit]
  simp only [List.map_append, List.map_cons, ← Multiset.coe_add, ← Multiset.cons_coe,
    ← Multiset.singleton_add]
  abel

end SymbolTable

/-! ### Moving -/

namespace Forest

theorem inventory_append (F G : Forest) : (F ++ G).inventory = F.inventory + G.inventory := by
  induction F with
  | nil => exact (zero_add _).symm
  | cons s i l _ ih =>
    show s.inventory + i.inventory + (l ++ G).inventory = _
    rw [ih, inventory, ← add_assoc]

theorem inventory_cut? {F : Forest} {n : Nat} {c : Forest.Cut} (h : F.cut? n = some c) :
    F.inventory =
      c.earlier.inventory + (c.scope.inventory + c.inner.inventory + c.later.inventory) := by
  induction F generalizing n c with
  | nil => cases h
  | cons s i l _ ih =>
    cases n with
    | zero =>
      obtain rfl := Option.some.inj h
      exact (zero_add _).symm
    | succ n =>
      obtain ⟨c', hc', rfl⟩ := Option.map_eq_some_iff.1 h
      rw [inventory, ih hc', inventory]
      abel

end Forest

namespace ScopeTree

variable {t t' : ScopeTree} {x : String}

@[simp] theorem inventory_enter (t : ScopeTree) (name : String) :
    (t.enter name).inventory = t.inventory := by
  show 0 + 0 + (t.here.inventory + t.inner.inventory + 0 + outerInventory t.outer) = _
  rw [inventory]
  abel

theorem inventory_exit? (h : t.exit? = some t') : t'.inventory = t.inventory := by
  obtain ⟨here, inner, outer, count⟩ := t
  cases outer with
  | nil => cases h
  | cons e es =>
    obtain rfl := Option.some.inj h
    show e.scope.inventory + (e.earlier ++ Forest.cons here inner e.later).inventory +
      outerInventory es = here.inventory + inner.inventory + (e.scope.inventory +
        e.earlier.inventory + e.later.inventory + outerInventory es)
    rw [Forest.inventory_append, Forest.inventory]
    abel

theorem inventory_descend? (h : t.descend? = some t') : t'.inventory = t.inventory := by
  obtain ⟨c, hc, rfl⟩ := Option.map_eq_some_iff.1 h
  show c.scope.inventory + c.inner.inventory + (t.here.inventory + c.earlier.inventory +
    c.later.inventory + outerInventory t.outer) = _
  rw [inventory, Forest.inventory_cut? hc]
  abel

/-! ### Symbols -/

/-- A declaration adds a variable without a place. -/
theorem inventory_declare? {ty : Ty} {value : Option Value} {pos : Pos}
    (h : t.declare? x ty value pos = some t') :
    t'.inventory = ⟨t.here.id, x, ty, none⟩ ::ₘ t.inventory := by
  rw [t.declare?_eq_some (containsLocal_of_declare? h), Option.some.injEq] at h
  subst h
  show (t.here.symbols.push x _).inventory t.here.id + t.inner.inventory + outerInventory t.outer =
    _
  rw [SymbolTable.inventory_push, Multiset.cons_add, Multiset.cons_add]
  rfl

private theorem inventory_modifyOuter {f : Symbol → Symbol}
    (hf : ∀ i y s, (f s).entry i y = s.entry i y) {es es' : List Enclosing}
    (h : modifyOuter x f es = some es') : outerInventory es' = outerInventory es := by
  induction es generalizing es' with
  | nil => cases h
  | cons e es ih =>
    rw [modifyOuter] at h
    split at h
    · obtain rfl := Option.some.inj h
      have hscope := e.scope.symbols.inventory_modify x hf e.scope.id
      rw [outerInventory, Scope.inventory, hscope]
      rfl
    · obtain ⟨es'', hes, rfl⟩ := Option.map_eq_some_iff.1 h
      rw [outerInventory, outerInventory, ih hes]

/-- An assignment changes tracked values only. -/
theorem inventory_assign? {value : Option Value} (h : t.assign? x value = some t') :
    t'.inventory = t.inventory := by
  have hassign : ∀ i y s, (Symbol.assign value s).entry i y = s.entry i y := fun _ _ _ ↦ rfl
  rw [assign?, modify?] at h
  split at h
  · obtain rfl := Option.some.inj h
    have hhere := t.here.symbols.inventory_modify x hassign t.here.id
    show (t.here.symbols.modify x _).inventory t.here.id + t.inner.inventory +
      outerInventory t.outer = _
    rw [hhere]
    rfl
  · obtain ⟨es, hes, rfl⟩ := Option.map_eq_some_iff.1 h
    rw [inventory, inventory, inventory_modifyOuter hassign hes]

/-- No two variables of the tree agree in both scope and name. -/
def Distinct (t : ScopeTree) : Prop := (t.inventory.map Entry.key).Nodup

theorem Distinct.names_here (h : t.Distinct) : t.here.symbols.names.Nodup := by
  have hle : t.here.inventory ≤ t.inventory := by
    rw [inventory, add_assoc]
    exact Multiset.le_add_right _ _
  have hhere : (t.here.inventory.map Entry.key).Nodup :=
    Multiset.nodup_of_le (Multiset.map_le_map hle) h
  rw [Scope.inventory, SymbolTable.inventory, Multiset.map_coe, Multiset.coe_nodup,
    List.map_map] at hhere
  have hkeys : (t.here.symbols.names.map (t.here.id, ·)).Nodup := by
    rwa [SymbolTable.names, List.map_map]
  exact hkeys.of_map _

/-- A place that is given to a variable of the current scope replaces what place it had. -/
theorem inventory_place? (hdistinct : t.Distinct) {storage : Storage} {s : Symbol}
    (hx : t.here.symbols.get? x = some s) (h : t.place? x storage = some t') :
    t'.inventory + {s.entry t.here.id x} =
      t.inventory + {⟨t.here.id, x, s.ty, some (storage, s.ty.size)⟩} := by
  rw [place?] at h
  split at h
  · obtain rfl := Option.some.inj h
    have hhere := SymbolTable.inventory_modify_of_get? hdistinct.names_here hx
      (Symbol.place storage) t.here.id
    calc (t.here.symbols.modify x (Symbol.place storage)).inventory t.here.id +
          t.inner.inventory + outerInventory t.outer + {s.entry t.here.id x}
      _ = (t.here.symbols.modify x (Symbol.place storage)).inventory t.here.id +
          {s.entry t.here.id x} + (t.inner.inventory + outerInventory t.outer) := by abel
      _ = t.here.inventory + {(Symbol.place storage s).entry t.here.id x} +
          (t.inner.inventory + outerInventory t.outer) := by rw [hhere]; rfl
      _ = t.inventory + {(Symbol.place storage s).entry t.here.id x} := by
        rw [inventory]
        abel
  · cases h

end ScopeTree

end BlockLang
