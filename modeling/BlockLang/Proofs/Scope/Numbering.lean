import BlockLang.Proofs.Scope.Inventory
import BlockLang.Proofs.Scope.Rows
import Mathlib.Data.List.Induction
import Mathlib.Data.Multiset.Range

/-!
# The scopes of a tree by number

Every operation on scope trees, in any order and whether it succeeds or not, keeps the numbers of
scopes in good order (`ScopeTree.Numbered`): each number below the count has one row, a parent comes
before its children, and children come in order. This is about single rows, so an operation that
changes one row has little to show.

That rows refer to each other is no part of it. It holds of the rows of any tree, and the numbers
only make the references unique: a row is found at its number in the listing of the tree
(`ScopeTree.Counted.listing_getElem?_eq_some_iff`).
-/

namespace BlockLang

/-! ### Operations -/

/-- An operation on scope trees. -/
inductive ScopeTree.Op where
  /-- Opens a scope. -/
  | enter (name : String)
  /-- Leaves the current scope. -/
  | exit
  /-- Declares a symbol in the current scope. -/
  | declare (x : String) (ty : Ty) (value : Option Value) (pos : Pos)
  /-- Stores a value in the nearest symbol of a name. -/
  | assign (x : String) (value : Option Value)
  /-- Gives a symbol of the current scope a place. -/
  | place (x : String) (storage : Storage)
  /-- Goes back to the outermost scope. -/
  | rewind
  /-- Visits the next scope inside the current one. -/
  | descend
  /-- Starts anew. -/
  | reset

namespace ScopeTree

/-- The tree after an operation. One that fails changes nothing. -/
def Op.apply (t : ScopeTree) : Op → ScopeTree
  | enter name => t.enter name
  | exit => t.exit?.getD t
  | declare x ty value pos => (t.declare? x ty value pos).getD t
  | assign x value => (t.assign? x value).getD t
  | place x storage => (t.place? x storage).getD t
  | rewind => t.rewind
  | descend => t.descend?.getD t
  | reset => .empty

/-- The tree that a sequence of operations makes. -/
def run (ops : List Op) : ScopeTree := ops.foldl Op.apply .empty

/-- A tree that operations lead to when symbols may be changed in any way between them. -/
inductive Reachable : ScopeTree → Prop
  /-- The outermost scope alone. -/
  | empty : Reachable .empty
  /-- The tree after an operation. -/
  | apply {t : ScopeTree} (op : Op) : Reachable t → Reachable (op.apply t)
  /-- The tree after a change of the nearest symbol of a name. -/
  | edit {t t' : ScopeTree} {x : String} {f : Symbol → Symbol} :
    Reachable t → t.modify? x f = some t' → Reachable t'

end ScopeTree

/-! ### Numbers -/

/-- The row is in good order by itself. -/
structure ScopeInfo.Ordered (r : ScopeInfo) : Prop where
  /-- Only the first scope is in no other. -/
  outermost : r.parent = none → r.scope.id = 0 ∧ r.level = 0
  /-- A scope is opened after the one around it. -/
  parent : ∀ p, r.parent = some p → p < r.scope.id
  /-- A scope is no deeper than there are scopes opened before it. -/
  level : r.level ≤ r.scope.id
  /-- The scopes inside it stand in the order of opening. -/
  children : r.children.Pairwise (· < ·)
  /-- No more of them have been visited than there are. -/
  visited : r.scope.visited ≤ r.children.length

namespace ScopeTree

variable {t t' : ScopeTree}

/-- Each number below the count is that of one scope, and no others are. -/
def Counted (t : ScopeTree) : Prop :=
  (t.infos : Multiset ScopeInfo).map (·.scope.id) = Multiset.range t.count

theorem Counted.id_lt (h : t.Counted) {r : ScopeInfo} (hr : r ∈ t.infos) :
    r.scope.id < t.count := by
  rw [← Multiset.mem_range, ← h]
  exact Multiset.mem_map_of_mem _ (Multiset.mem_coe.2 hr)

/-- The scopes of the tree bear the numbers below its count, and all rows are in good order. -/
structure Numbered (t : ScopeTree) : Prop where
  /-- The numbers are those below the count. -/
  counted : t.Counted
  /-- The rows are in good order. -/
  rows : ∀ r ∈ t.infos, r.Ordered

namespace Numbered

theorem empty : ScopeTree.empty.Numbered := by
  refine ⟨rfl, fun r hr ↦ ?_⟩
  obtain rfl := List.mem_singleton.1 hr
  exact ⟨fun _ ↦ ⟨rfl, rfl⟩, fun _ h ↦ (by cases h), le_rfl, .nil, le_rfl⟩

/-- A change of one scope that keeps its number. -/
theorem edit (h : t.Numbered) {r : ScopeInfo} {s : Scope} (he : t.Edits t' r s)
    (hid : s.id = r.scope.id) (hvisited : s.visited ≤ r.children.length) : t'.Numbered := by
  obtain ⟨rest, hold, hnew⟩ := he.rows
  have hrow : ∀ q, q ∈ t.infos ↔ q = r ∨ q ∈ rest := fun q ↦ by
    rw [← Multiset.mem_coe, hold, Multiset.mem_cons]
  constructor
  · rw [Counted, hnew, Multiset.map_cons, hid,
      ← Multiset.map_cons (fun r : ScopeInfo ↦ r.scope.id) r, ← hold, h.counted, he.count]
  · intro q hq
    rw [← Multiset.mem_coe, hnew, Multiset.mem_cons] at hq
    rcases hq with rfl | hq
    · obtain ⟨houtermost, hparent, hlevel, hchildren, -⟩ := h.rows r ((hrow r).2 (.inl rfl))
      exact ⟨hid ▸ houtermost, hid ▸ hparent, hid ▸ hlevel, hchildren, hvisited⟩
    · exact h.rows q ((hrow q).2 (.inr hq))

/-- A scope that is opened takes the number after all others, so it comes after its parent and is
the last of its children. -/
theorem enter (h : t.Numbered) (name : String) : (t.enter name).Numbered := by
  have hcurrent : t.current.Ordered := h.rows _ t.current_mem_infos
  have hlt : t.here.id < t.count := h.counted.id_lt t.current_mem_infos
  constructor
  · have hids := h.counted
    rw [Counted, coe_infos, Multiset.map_cons] at hids
    rw [Counted, coe_infos_enter, Multiset.map_cons, Multiset.map_cons]
    show t.count ::ₘ t.here.id ::ₘ t.others.map _ = Multiset.range (t.count + 1)
    rw [Multiset.range_succ, ← hids]
    rfl
  · intro q hq
    rw [← Multiset.mem_coe, coe_infos_enter, Multiset.mem_cons, Multiset.mem_cons] at hq
    rcases hq with rfl | rfl | hq
    · refine ⟨fun hnone ↦ (by cases hnone), fun p hp ↦ ?_, ?_, .nil, le_rfl⟩
      · obtain rfl := Option.some.inj hp
        exact hlt
      · exact Nat.lt_of_le_of_lt hcurrent.level hlt
    · refine ⟨hcurrent.outermost, hcurrent.parent, hcurrent.level, ?_, ?_⟩
      · -- all children so far have numbers below the count
        refine List.pairwise_append.2 ⟨hcurrent.children, List.pairwise_singleton _ _, ?_⟩
        intro c hc n hn
        obtain rfl := List.mem_singleton.1 hn
        obtain ⟨r, hr, rfl, -⟩ :=
          t.whole.child_of_mem_infos none 0 t.current t.current_mem_infos c hc
        exact h.counted.id_lt hr
      · rw [List.length_append]
        exact Nat.le_add_right_of_le hcurrent.visited
    · refine h.rows q ?_
      rw [← Multiset.mem_coe, coe_infos]
      exact Multiset.mem_cons_of_mem hq

theorem rewind (h : t.Numbered) : t.rewind.Numbered := by
  constructor
  · rw [Counted, infos_rewind, ← Multiset.map_coe, Multiset.map_map]
    exact h.counted
  · rw [infos_rewind, List.forall_mem_map]
    intro r hr
    obtain ⟨houtermost, hparent, hlevel, hchildren, -⟩ := h.rows r hr
    exact ⟨houtermost, hparent, hlevel, hchildren, Nat.zero_le _⟩

theorem exit? (h : t.Numbered) (he : t.exit? = some t') : t'.Numbered := by
  obtain ⟨hinfos, hcount⟩ := infos_exit? he
  exact ⟨by rw [Counted, hinfos, hcount, h.counted], hinfos ▸ h.rows⟩

theorem modify? (h : t.Numbered) {x : String} {f : Symbol → Symbol}
    (he : t.modify? x f = some t') : t'.Numbered := by
  obtain ⟨r, hedit⟩ := edits_modify? he
  obtain ⟨rest, hold, -⟩ := hedit.rows
  have hr : r ∈ t.infos := by
    rw [← Multiset.mem_coe, hold]
    exact Multiset.mem_cons_self _ _
  exact h.edit hedit rfl (h.rows r hr).visited

/-- Every operation keeps the numbers in good order. -/
theorem apply (h : t.Numbered) (op : Op) : (op.apply t).Numbered := by
  have hvisited : t.here.visited ≤ t.current.children.length :=
    (h.rows _ t.current_mem_infos).visited
  cases op with
  | enter name => exact h.enter name
  | exit =>
    rw [Op.apply]
    rcases he : t.exit? with - | t'
    · exact h
    · exact h.exit? he
  | declare x ty value pos =>
    rw [Op.apply]
    rcases he : t.declare? x ty value pos with - | t'
    · exact h
    · exact h.edit (edits_declare? he) rfl hvisited
  | assign x value =>
    rw [Op.apply]
    rcases he : t.assign? x value with - | t'
    · exact h
    · exact h.modify? he
  | place x storage =>
    rw [Op.apply]
    rcases he : t.place? x storage with - | t'
    · exact h
    · exact h.edit (edits_place? he) rfl hvisited
  | rewind => exact h.rewind
  | descend =>
    rw [Op.apply]
    rcases he : t.descend? with - | t'
    · exact h
    · exact h.edit (edits_descend? he).1 rfl (edits_descend? he).2
  | reset => exact .empty

end Numbered

theorem Reachable.numbered (h : t.Reachable) : t.Numbered := by
  induction h with
  | empty => exact .empty
  | apply op _ ih => exact ih.apply op
  | edit _ he ih => exact ih.modify? he

theorem reachable_run (ops : List Op) : (run ops).Reachable := by
  induction ops using List.reverseRecOn with
  | nil => exact .empty
  | append_singleton ops op ih =>
    rw [run, List.foldl_append]
    exact .apply op ih

/-! ### Properties of all scopes -/

theorem forall_infos_empty {P : Scope → Prop} (h : P { id := 0, name := "global" }) :
    ∀ r ∈ ScopeTree.empty.infos, P r.scope := by
  intro r hr
  obtain rfl := List.mem_singleton.1 hr
  exact h

/-- What holds of all scopes still holds after a change of one, if it holds of what that becomes. -/
theorem Edits.forall_infos {P : Scope → Prop} {r : ScopeInfo} {s : Scope} (he : t.Edits t' r s)
    (h : ∀ r ∈ t.infos, P r.scope) (hs : P r.scope → P s) : ∀ r ∈ t'.infos, P r.scope := by
  obtain ⟨rest, hold, hnew⟩ := he.rows
  have hrow : ∀ q, q = r ∨ q ∈ rest → q ∈ t.infos := fun q hq ↦ by
    rwa [← Multiset.mem_coe, hold, Multiset.mem_cons]
  intro q hq
  rw [← Multiset.mem_coe, hnew, Multiset.mem_cons] at hq
  rcases hq with rfl | hq
  · exact hs (h r (hrow r (.inl rfl)))
  · exact h q (hrow q (.inr hq))

/-- What holds of all scopes still holds after one is opened, if it holds of the new one. -/
theorem forall_infos_enter {P : Scope → Prop} (h : ∀ r ∈ t.infos, P r.scope)
    {name : String} (hnew : P (t.enter name).here) : ∀ r ∈ (t.enter name).infos, P r.scope := by
  intro q hq
  rw [← Multiset.mem_coe, coe_infos_enter, Multiset.mem_cons, Multiset.mem_cons] at hq
  rcases hq with rfl | rfl | hq
  · exact hnew
  · exact h t.current t.current_mem_infos
  · refine h q ?_
    rw [← Multiset.mem_coe, coe_infos]
    exact Multiset.mem_cons_of_mem hq

end ScopeTree

/-! ### Rows by number -/

namespace ScopeTree

variable {t t' : ScopeTree}

namespace Counted

/-- A number is that of at most one row. -/
theorem row_unique (h : t.Counted) {r r' : ScopeInfo} (hr : r ∈ t.infos) (hr' : r' ∈ t.infos)
    (hid : r.scope.id = r'.scope.id) : r = r' := by
  have hnodup : (t.infos.map (·.scope.id)).Nodup := by
    rw [← Multiset.coe_nodup, ← Multiset.map_coe, h]
    exact Multiset.nodup_range _
  exact List.inj_on_of_nodup_map hnodup hr hr' hid

theorem scope?_eq_some_iff (h : t.Counted) {i : Nat} {r : ScopeInfo} :
    t.scope? i = some r ↔ r ∈ t.infos ∧ r.scope.id = i := by
  constructor
  · intro hr
    exact ⟨List.mem_of_find?_eq_some hr, by simpa using List.find?_some hr⟩
  · rintro ⟨hr, rfl⟩
    have hsome : (t.scope? r.scope.id).isSome := List.find?_isSome.2 ⟨r, hr, by simp⟩
    obtain ⟨r', hr'⟩ := Option.isSome_iff_exists.1 hsome
    have hid : r'.scope.id = r.scope.id := by simpa using List.find?_some hr'
    rw [hr', h.row_unique (List.mem_of_find?_eq_some hr') hr hid]

/-- Every number below the count belongs to a scope. -/
theorem exists_scope? (h : t.Counted) {i : Nat} (hi : i < t.count) :
    ∃ r, t.scope? i = some r := by
  have hmem : i ∈ (t.infos : Multiset ScopeInfo).map (·.scope.id) := by
    rw [h]
    exact Multiset.mem_range.2 hi
  obtain ⟨r, hr, hid⟩ := Multiset.mem_map.1 hmem
  exact ⟨r, h.scope?_eq_some_iff.2 ⟨hr, hid⟩⟩

private theorem map_some_filterMap {α β : Type} (f : α → Option β) (as : List α)
    (h : ∀ a ∈ as, (f a).isSome) : (as.filterMap f).map some = as.map f := by
  induction as with
  | nil => rfl
  | cons a as ih =>
    obtain ⟨b, hb⟩ := Option.isSome_iff_exists.1 (h a List.mem_cons_self)
    rw [List.filterMap_cons_some hb, List.map_cons, List.map_cons, hb,
      ih fun a' ha' ↦ h a' (List.mem_cons_of_mem _ ha')]

/-- The listing has one row per number below the count, and it is the row of that number. -/
theorem map_some_listing (h : t.Counted) :
    t.listing.map some = (List.range t.count).map t.scope? := by
  refine map_some_filterMap _ _ fun i hi ↦ ?_
  obtain ⟨r, hr⟩ := h.exists_scope? (List.mem_range.1 hi)
  rw [hr]
  rfl

theorem length_listing (h : t.Counted) : t.listing.length = t.count := by
  simpa using congrArg List.length h.map_some_listing

theorem listing_getElem?_eq_some_iff (h : t.Counted) {i : Nat} {r : ScopeInfo} :
    t.listing[i]? = some r ↔ r ∈ t.infos ∧ r.scope.id = i := by
  rw [← h.scope?_eq_some_iff]
  have hget : (t.listing.map some)[i]? = ((List.range t.count).map t.scope?)[i]? := by
    rw [h.map_some_listing]
  rw [List.getElem?_map, List.getElem?_map] at hget
  by_cases hi : i < t.count
  · rw [List.getElem?_range hi] at hget
    obtain ⟨r', hr'⟩ := h.exists_scope? hi
    rw [Option.map_some, hr'] at hget
    rw [hr']
    obtain ⟨r'', hlisting, heq⟩ := Option.map_eq_some_iff.1 hget
    rw [hlisting, heq]
  · constructor
    · intro hr
      have hlt := (List.getElem?_eq_some_iff.1 hr).1
      exact absurd (h.length_listing ▸ hlt) hi
    · intro hr
      obtain ⟨hmem, rfl⟩ := h.scope?_eq_some_iff.1 hr
      exact absurd (h.id_lt hmem) hi

/-- No row is left out of the listing. -/
theorem mem_listing (h : t.Counted) {r : ScopeInfo} : r ∈ t.listing ↔ r ∈ t.infos := by
  rw [List.mem_iff_getElem?]
  constructor
  · rintro ⟨i, hi⟩
    exact (h.listing_getElem?_eq_some_iff.1 hi).1
  · exact fun hr ↦ ⟨_, h.listing_getElem?_eq_some_iff.2 ⟨hr, rfl⟩⟩

theorem map_id_listing (h : t.Counted) : t.listing.map (·.scope.id) = List.range t.count := by
  refine List.ext_getElem? fun i ↦ ?_
  rw [List.getElem?_map]
  by_cases hi : i < t.count
  · obtain ⟨r, hr⟩ := h.exists_scope? hi
    have hget := h.listing_getElem?_eq_some_iff.2 (h.scope?_eq_some_iff.1 hr)
    rw [hget, List.getElem?_range hi, Option.map_some, (h.scope?_eq_some_iff.1 hr).2]
  · rw [List.getElem?_eq_none (by rw [h.length_listing]; omega),
      List.getElem?_eq_none (by rw [List.length_range]; omega)]
    rfl

end Counted

end ScopeTree

end BlockLang
