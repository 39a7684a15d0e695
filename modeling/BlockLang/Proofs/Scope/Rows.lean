import BlockLang.Proofs.Scope.View
import BlockLang.Scope.Listing
import Mathlib.Algebra.Order.Group.Multiset
import Mathlib.Tactic.Abel

/-!
# The scopes of a tree as rows

A scope tree lists its scopes as rows that refer to one another by number (`ScopeTree.infos`). Here
is what these rows say of each other in any tree, and what each operation on the tree does to them.

Which scope is current does not show in the rows, so moving outwards changes nothing
(`infos_exit?`). Every other operation but two changes one row, in its scope only
(`ScopeTree.Edits`); to open a scope adds a row and a number in one list of children
(`coe_infos_enter`), and to rewind resets a counter in every row (`infos_rewind`).
-/

namespace BlockLang

namespace Forest

@[simp] theorem ids_append (F G : Forest) : (F ++ G).ids = F.ids ++ G.ids := by
  induction F with
  | nil => rfl
  | cons s i l _ ih => exact congrArg (s.id :: ·) ih

@[simp] theorem infos_append (parent : Option Nat) (level : Nat) (F G : Forest) :
    (F ++ G).infos parent level = F.infos parent level ++ G.infos parent level := by
  induction F with
  | nil => rfl
  | cons s i l _ ih =>
    show _ :: (i.infos (some s.id) (level + 1) ++ (l ++ G).infos parent level) = _
    rw [ih, infos, List.cons_append, List.append_assoc]

/-- A change of scopes that keeps their numbers changes the scopes of the rows and nothing else. -/
theorem infos_map {φ : Scope → Scope} (hφ : ∀ s, (φ s).id = s.id) (parent : Option Nat)
    (level : Nat) (F : Forest) :
    (F.map φ).infos parent level =
      (F.infos parent level).map fun r ↦ { r with scope := φ r.scope } := by
  have hids : ∀ G : Forest, (G.map φ).ids = G.ids := by
    intro G
    induction G with
    | nil => rfl
    | cons s i l _ ih => rw [map, ids, ids, ih, hφ]
  induction F generalizing parent level with
  | nil => rfl
  | cons s i l ihi ihl =>
    rw [map, infos, infos, List.map_cons, List.map_append, ihi, ihl, hids, hφ]

/-- The forest around a cut is the forest that was cut. -/
theorem eq_of_cut? {F : Forest} {n : Nat} {c : Forest.Cut} (h : F.cut? n = some c) :
    F = c.earlier ++ .cons c.scope c.inner c.later ∧ n < F.ids.length := by
  induction F generalizing n c with
  | nil => cases h
  | cons s i l _ ih =>
    cases n with
    | zero =>
      obtain rfl := Option.some.inj h
      exact ⟨rfl, Nat.succ_pos _⟩
    | succ n =>
      obtain ⟨c', hc', rfl⟩ := Option.map_eq_some_iff.1 h
      obtain ⟨heq, hlt⟩ := ih hc'
      exact ⟨congrArg (Forest.cons s i) heq, Nat.succ_lt_succ hlt⟩

/-! ### Rows refer to one another -/

/-- A scope of the forest has a row with the parent and the level of the forest. -/
theorem exists_info_of_mem_ids {F : Forest} {c : Nat} (h : c ∈ F.ids) (parent : Option Nat)
    (level : Nat) :
    ∃ r ∈ F.infos parent level, r.scope.id = c ∧ r.parent = parent ∧ r.level = level := by
  induction F with
  | nil => cases h
  | cons s i l _ ih =>
    rw [ids, List.mem_cons] at h
    rw [infos]
    rcases h with rfl | h
    · exact ⟨_, List.mem_cons_self, rfl, rfl, rfl⟩
    · obtain ⟨r, hr, hrow⟩ := ih h
      exact ⟨r, List.mem_cons_of_mem _ (List.mem_append_right _ hr), hrow⟩

/-- A child of a row has a row that names it as its parent. -/
theorem child_of_mem_infos (F : Forest) (parent : Option Nat) (level : Nat) :
    ∀ r ∈ F.infos parent level, ∀ c ∈ r.children,
      ∃ r' ∈ F.infos parent level, r'.scope.id = c ∧ r'.parent = some r.scope.id := by
  induction F generalizing parent level with
  | nil => exact fun r hr ↦ absurd hr List.not_mem_nil
  | cons s i l ihi ihl =>
    intro r hr c hc
    rw [infos, List.mem_cons, List.mem_append] at hr
    rw [infos]
    rcases hr with rfl | hr | hr
    · obtain ⟨r', hr', hid, hparent, -⟩ := exists_info_of_mem_ids hc (some s.id) (level + 1)
      exact ⟨r', List.mem_cons_of_mem _ (List.mem_append_left _ hr'), hid, hparent⟩
    · obtain ⟨r', hr', hrow⟩ := ihi _ _ r hr c hc
      exact ⟨r', List.mem_cons_of_mem _ (List.mem_append_left _ hr'), hrow⟩
    · obtain ⟨r', hr', hrow⟩ := ihl _ _ r hr c hc
      exact ⟨r', List.mem_cons_of_mem _ (List.mem_append_right _ hr'), hrow⟩

end Forest

/-- The rows of the scopes around a scope with the given number, and of what else is inside them. -/
def outerInfos (id : Nat) : List Enclosing → Multiset ScopeInfo
  | [] => 0
  | e :: es =>
    { scope := e.scope
      parent := es.head?.map (·.scope.id)
      children := e.earlier.ids ++ id :: e.later.ids
      level := es.length } ::ₘ
      (↑(e.earlier.infos (some e.scope.id) (es.length + 1)) +
        ↑(e.later.infos (some e.scope.id) (es.length + 1)) + outerInfos e.scope.id es)

namespace ScopeTree

variable {t t' : ScopeTree} {x : String}

/-- The rows of all scopes but the current one. -/
def others (t : ScopeTree) : Multiset ScopeInfo :=
  ↑(t.inner.infos (some t.here.id) (t.level + 1)) + outerInfos t.here.id t.outer

/-- The rows of a tree are that of its current scope and the others. -/
theorem coe_infos (t : ScopeTree) : (t.infos : Multiset ScopeInfo) = t.current ::ₘ t.others := by
  obtain ⟨here, inner, outer, count⟩ := t
  rw [others]
  show ((Forest.cons (unwind here inner outer).1 (unwind here inner outer).2 .nil).infos none 0 :
      Multiset ScopeInfo) = _
  -- from the outermost scope inwards, each step puts the rows of one scope together
  induction outer generalizing here inner with
  | nil =>
    rw [unwind, Forest.infos, Forest.infos, List.append_nil, ← Multiset.cons_coe]
    exact congrArg _ (add_zero _).symm
  | cons e es ih =>
    rw [unwind, ih]
    simp only [current, level, Forest.ids_append, Forest.infos_append, Forest.ids, Forest.infos,
      outerInfos, ← Multiset.coe_add, ← Multiset.cons_coe, ← Multiset.singleton_add,
      List.length_cons, List.head?_cons, Option.map_some]
    abel

theorem current_mem_infos (t : ScopeTree) : t.current ∈ t.infos := by
  rw [← Multiset.mem_coe, t.coe_infos]
  exact Multiset.mem_cons_self _ _

/-! ### Moving -/

theorem infos_exit? (h : t.exit? = some t') : t'.infos = t.infos ∧ t'.count = t.count := by
  obtain ⟨here, inner, outer, count⟩ := t
  cases outer with
  | nil => cases h
  | cons e es =>
    obtain rfl := Option.some.inj h
    exact ⟨rfl, rfl⟩

/-- Leaving a scope that was visited leads back, to a greater counter. -/
theorem exit?_of_descend? (h : t.descend? = some t') :
    t'.exit? = some { t with here := { t.here with visited := t.here.visited + 1 } } := by
  obtain ⟨c, hc, rfl⟩ := Option.map_eq_some_iff.1 h
  show some { t with
    here := { t.here with visited := t.here.visited + 1 }
    inner := c.earlier ++ Forest.cons c.scope c.inner c.later } = _
  rw [← (Forest.eq_of_cut? hc).1]

theorem infos_rewind (t : ScopeTree) :
    t.rewind.infos = t.infos.map fun r ↦ { r with scope := r.scope.unvisited } :=
  Forest.infos_map (φ := Scope.unvisited) (fun _ ↦ rfl) none 0 t.whole

/-- Opening a scope adds its row, and its number to the children of the current scope. -/
theorem coe_infos_enter (t : ScopeTree) (name : String) :
    ((t.enter name).infos : Multiset ScopeInfo) =
      { scope := (t.enter name).here
        parent := some t.here.id
        children := []
        level := t.level + 1 } ::ₘ
      { t.current with children := t.current.children ++ [t.count] } ::ₘ t.others := by
  rw [coe_infos, others, others]
  simp only [current, enter, level, outerInfos, Forest.ids, Forest.infos, List.length_cons,
    List.head?_cons, Option.map_some, Multiset.coe_nil, zero_add, add_zero,
    ← Multiset.singleton_add]

/-! ### Changes of one scope -/

/-- The tree `t'` differs from `t` in one row, `r`, which has the scope `s` there. -/
structure Edits (t t' : ScopeTree) (r : ScopeInfo) (s : Scope) : Prop where
  /-- No scope is opened. -/
  count : t'.count = t.count
  /-- The other rows are the same. -/
  rows : ∃ rest : Multiset ScopeInfo, (t.infos : Multiset ScopeInfo) = r ::ₘ rest ∧
    (t'.infos : Multiset ScopeInfo) = { r with scope := s } ::ₘ rest

/-- A change of the current scope that keeps its number. -/
theorem edits_here (t : ScopeTree) {s : Scope} (hs : s.id = t.here.id) :
    t.Edits { t with here := s } t.current s := by
  refine ⟨rfl, t.others, t.coe_infos, ?_⟩
  rw [coe_infos, others, others, hs]
  rfl

theorem edits_declare? {ty : Ty} {value : Option Value} {pos : Pos}
    (h : t.declare? x ty value pos = some t') :
    t.Edits t' t.current
      { t.here with symbols := t.here.symbols.push x (t.newSymbol x ty value pos) } := by
  rw [t.declare?_eq_some (containsLocal_of_declare? h), Option.some.injEq] at h
  subst h
  exact t.edits_here rfl

theorem edits_place? {storage : Storage} (h : t.place? x storage = some t') :
    t.Edits t' t.current
      { t.here with symbols := t.here.symbols.modify x (Symbol.place storage) } := by
  rw [place?] at h
  split at h
  · obtain rfl := Option.some.inj h
    exact t.edits_here rfl
  · cases h

/-- Visiting a scope counts it in the scope around it. -/
theorem edits_descend? (h : t.descend? = some t') :
    t.Edits t' t.current { t.here with visited := t.here.visited + 1 } ∧
      t.here.visited < t.current.children.length := by
  obtain ⟨c, hc, -⟩ := Option.map_eq_some_iff.1 h
  refine ⟨?_, (Forest.eq_of_cut? hc).2⟩
  obtain ⟨hinfos, hcount⟩ := infos_exit? (exit?_of_descend? h)
  obtain ⟨hsame, hrows⟩ := t.edits_here (s := { t.here with visited := t.here.visited + 1 }) rfl
  exact ⟨hcount.symm.trans hsame, hinfos ▸ hrows⟩

private theorem outerInfos_modifyOuter {f : Symbol → Symbol} {es es' : List Enclosing}
    (h : modifyOuter x f es = some es') (id : Nat) :
    ∃ r rest, outerInfos id es = r ::ₘ rest ∧
      outerInfos id es' =
        { r with scope := { r.scope with symbols := r.scope.symbols.modify x f } } ::ₘ rest ∧
      es'.head?.map (·.scope.id) = es.head?.map (·.scope.id) ∧ es'.length = es.length ∧
      ∃ sym, r.scope.symbols.get? x = some sym ∧
        es.findSome? (fun e ↦ (e.scope.symbols.get? x).map (e.scope.id, ·)) =
          some (r.scope.id, sym) := by
  induction es generalizing es' id with
  | nil => cases h
  | cons e es ih =>
    rw [modifyOuter] at h
    split at h
    · rename_i hx
      obtain rfl := Option.some.inj h
      obtain ⟨sym, hsym⟩ := Option.isSome_iff_exists.1 hx
      refine ⟨_, _, rfl, rfl, rfl, rfl, sym, hsym, ?_⟩
      rw [List.findSome?_cons, hsym]
      rfl
    · rename_i hx
      have hnone : e.scope.symbols.get? x = none :=
        (e.scope.symbols.contains_eq_false_iff x).1 (by simpa using hx)
      obtain ⟨es'', hes, rfl⟩ := Option.map_eq_some_iff.1 h
      obtain ⟨r, rest, hold, hnew, hhead, hlength, sym, hsym, hbinding⟩ := ih hes e.scope.id
      refine ⟨r, ⟨e.scope, es.head?.map (·.scope.id), e.earlier.ids ++ id :: e.later.ids,
        es.length⟩ ::ₘ (↑(e.earlier.infos (some e.scope.id) (es.length + 1)) +
        ↑(e.later.infos (some e.scope.id) (es.length + 1)) + rest), ?_, ?_, rfl, ?_, sym, hsym, ?_⟩
      · rw [outerInfos, hold, Multiset.add_cons, Multiset.cons_swap]
      · rw [outerInfos, hnew, hhead, hlength, Multiset.add_cons, Multiset.cons_swap]
      · rw [List.length_cons, List.length_cons, hlength]
      · rw [List.findSome?_cons, hnone]
        exact hbinding

/-- A change of the nearest declaration of a name is one of the scope that binds the name. -/
theorem edits_nearest {f : Symbol → Symbol} (h : t.modify? x f = some t') :
    ∃ r, t.Edits t' r { r.scope with symbols := r.scope.symbols.modify x f } ∧
      ∃ sym, r.scope.symbols.get? x = some sym ∧ t.binding? x = some (r.scope.id, sym) := by
  rw [modify?] at h
  rw [binding?, chain, List.findSome?_cons, List.findSome?_map]
  split at h
  · rename_i hx
    obtain rfl := Option.some.inj h
    obtain ⟨sym, hsym⟩ := Option.isSome_iff_exists.1 hx
    refine ⟨_, t.edits_here rfl, sym, hsym, ?_⟩
    rw [hsym]
    rfl
  · rename_i hx
    have hnone : t.here.symbols.get? x = none :=
      (t.here.symbols.contains_eq_false_iff x).1 (by simpa [containsLocal] using hx)
    obtain ⟨es, hes, rfl⟩ := Option.map_eq_some_iff.1 h
    obtain ⟨r, rest, hold, hnew, hhead, hlength, sym, hsym, hbinding⟩ :=
      outerInfos_modifyOuter hes t.here.id
    refine ⟨r, ⟨rfl, t.current ::ₘ (↑(t.inner.infos (some t.here.id) (t.level + 1)) + rest),
      ?_, ?_⟩, sym, hsym, ?_⟩
    · rw [coe_infos, others, hold, Multiset.add_cons, Multiset.cons_swap]
    · rw [coe_infos, others, hnew, Multiset.add_cons, Multiset.cons_swap]
      simp only [current, level, hhead, hlength]
    · rw [hnone]
      exact hbinding

/-- A change of the nearest declaration of a name. -/
theorem edits_modify? {f : Symbol → Symbol} (h : t.modify? x f = some t') :
    ∃ r, t.Edits t' r { r.scope with symbols := r.scope.symbols.modify x f } := by
  obtain ⟨r, hedit, -⟩ := edits_nearest h
  exact ⟨r, hedit⟩

private theorem exists_outerInfo {es : List Enclosing} {e : Enclosing} (he : e ∈ es) (id : Nat) :
    ∃ r ∈ outerInfos id es, r.scope = e.scope := by
  induction es generalizing id with
  | nil => cases he
  | cons e' es ih =>
    rw [outerInfos]
    rcases List.mem_cons.1 he with rfl | he
    · exact ⟨_, Multiset.mem_cons_self _ _, rfl⟩
    · obtain ⟨r, hr, hscope⟩ := ih he e'.scope.id
      exact ⟨r, Multiset.mem_cons_of_mem (Multiset.mem_add.2 (.inr hr)), hscope⟩

/-- The current scope and those around it have rows. -/
theorem exists_info_of_mem_chain {s : Scope} (hs : s ∈ t.chain) : ∃ r ∈ t.infos, r.scope = s := by
  rcases List.mem_cons.1 hs with rfl | hs
  · exact ⟨t.current, t.current_mem_infos, rfl⟩
  · obtain ⟨e, he, rfl⟩ := List.mem_map.1 hs
    obtain ⟨r, hr, hscope⟩ := exists_outerInfo he t.here.id
    refine ⟨r, ?_, hscope⟩
    rw [← Multiset.mem_coe, coe_infos, others]
    exact Multiset.mem_cons_of_mem (Multiset.mem_add.2 (.inr hr))

end ScopeTree

end BlockLang
