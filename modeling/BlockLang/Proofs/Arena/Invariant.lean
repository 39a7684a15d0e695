import BlockLang.Proofs.Numeral
import BlockLang.Proofs.Scope.Numbering
import BlockLang.Scope.Arena

/-!
# Stored numbers fit together

Whatever operations were performed on an arena, in any order and whether they failed or not, the
numbers in it fit together (`ScopeArena.wellFormed_run`). So no operation meets a number without a
scope, and a search outwards ends.

What an operation can do to an arena is said once (`ScopeArena.Step`): it opens a scope, or changes
the symbols or the cursor of one scope, or moves. Three invariants are then about steps only:

* `ScopeArena.Linked` is about parents, children and cursors. It needs no bound on the number of
  scopes, and is all that searches and the printing of scopes rest on.
* `ScopeArena.Counted` is about the counter, levels and names, and needs that the counter has not
  wrapped around.
* `SymbolTable.Owned` is about the symbols of one scope.
-/

namespace BlockLang

/-! ### Names of scopes -/

/-- The name is that of the outermost scope, or it ends in the number of the scope. -/
def NamedByNumber (id : Nat) (name : String) : Prop :=
  (id = 0 ∧ name = "global") ∨ ∃ stem : String, name = stem ++ "_" ++ toString id

/-- What follows the last underscore of a name. -/
private def afterUnderscore (name : String) : List Char :=
  (name.toList.reverse.takeWhile (· ≠ '_')).reverse

private theorem afterUnderscore_numbered (stem : String) (n : Nat) :
    afterUnderscore (stem ++ "_" ++ toString n) = Nat.toDigits 10 n := by
  have hdigit : ∀ c ∈ (Nat.toDigits 10 n).reverse, decide (c ≠ '_') = true := by
    intro c hc
    have hc' : c.isDigit = true := isDigit_of_mem_toDigits_ten c (List.mem_reverse.1 hc)
    rw [decide_eq_true_eq]
    rintro rfl
    cases hc'
  have hchars : (stem ++ "_" ++ toString n).toList.reverse =
      (Nat.toDigits 10 n).reverse ++ '_' :: stem.toList.reverse := by
    simp
  rw [afterUnderscore, hchars, List.takeWhile_append_of_pos hdigit,
    List.takeWhile_cons_of_neg (by decide), List.append_nil, List.reverse_reverse]

/-- A requested name cannot imitate the number of another scope: what counts is the number at the
very end. -/
theorem NamedByNumber.id_eq {i j : Nat} {name : String} (h : NamedByNumber i name)
    (h' : NamedByNumber j name) : i = j := by
  have hglobal : ∀ (stem : String) (n : Nat), "global" ≠ stem ++ "_" ++ toString n := by
    intro stem n heq
    have hmem : '_' ∈ (stem ++ "_" ++ toString n).toList := by simp
    rw [← heq] at hmem
    revert hmem
    decide
  rcases h with ⟨rfl, rfl⟩ | ⟨stem, rfl⟩ <;> rcases h' with ⟨rfl, hname⟩ | ⟨stem', hname⟩
  · rfl
  · exact absurd hname (hglobal _ _)
  · exact absurd hname.symm (hglobal _ _)
  · refine toDigits_ten_inj ?_
    rw [← afterUnderscore_numbered stem, ← afterUnderscore_numbered stem', hname]

/-! ### Single scopes -/

/-- The scope without its symbols and its cursor. -/
def StoredScope.frame (s : StoredScope) : StoredScope := { s with symbols := {}, cursor := 0 }

/-- What an operation can do to a scope that is already there, except for its children. -/
inductive StoredScope.Change (s : StoredScope) : StoredScope → Prop
  /-- A new symbol is declared. -/
  | declare {x : String} {sym : Symbol} (hx : s.symbols.get? x = none) (hname : sym.name = x)
    (howner : sym.owner = s.name) : s.Change { s with symbols := s.symbols.push x sym }
  /-- A symbol is changed, but not its name and its owner. -/
  | modify {x : String} {f : Symbol → Symbol}
    (hf : ∀ sym, (f sym).name = sym.name ∧ (f sym).owner = sym.owner) :
    s.Change { s with symbols := s.symbols.modify x f }
  /-- The child at the cursor is visited. -/
  | visit (h : s.cursor < s.children.length) : s.Change { s with cursor := s.cursor + 1 }

namespace StoredScope.Change

variable {s s' : StoredScope}

theorem frame_eq (h : s.Change s') : s'.frame = s.frame := by
  cases h <;> rfl

theorem cursor_le (h : s.Change s') (hcursor : s.cursor ≤ s.children.length) :
    s'.cursor ≤ s'.children.length := by
  cases h with
  | declare => exact hcursor
  | modify => exact hcursor
  | visit hlt => exact hlt

theorem owned (h : s.Change s') (howned : s.symbols.Owned s.name) :
    s'.symbols.Owned s'.name := by
  cases h with
  | declare hx hname howner => exact howned.push hx hname howner
  | modify hf => exact howned.modify _ hf
  | visit => exact howned

end StoredScope.Change

/-- A change that keeps the frame of a scope keeps the frames of all scopes. -/
theorem StoredScope.map_frame_set {ss : List StoredScope} {s s' : StoredScope} {i : Nat}
    (hs : ss[i]? = some s) (hframe : s'.frame = s.frame) :
    (ss.set i s').map frame = ss.map frame := by
  have hget : (ss.map frame)[i]? = some s'.frame := by
    rw [List.getElem?_map, hs, Option.map_some, hframe]
  obtain ⟨hi, hget⟩ := List.getElem?_eq_some_iff.1 hget
  rw [List.map_set, ← hget, List.set_getElem_self]

theorem StoredScope.exists_of_map_frame {ss ss' : List StoredScope} {s : StoredScope} {i : Nat}
    (h : ss'.map frame = ss.map frame) (hs : ss'[i]? = some s) :
    ∃ t, ss[i]? = some t ∧ t.frame = s.frame := by
  have hget : (ss.map frame)[i]? = some s.frame := by
    rw [← h, List.getElem?_map, hs]
    rfl
  rw [List.getElem?_map] at hget
  exact Option.map_eq_some_iff.1 hget

/-! ### Operations -/

/-- How many scopes an operation opens. -/
def ScopeTree.Op.opened : ScopeTree.Op → Nat
  | .enter _ => 1
  | _ => 0

namespace ScopeArena

variable {a a' : ScopeArena} {here s s' : StoredScope} {op : ScopeTree.Op} {i : Nat}

/-- The arena after an operation. One that fails changes nothing. -/
def perform (a : ScopeArena) : ScopeTree.Op → Access ScopeArena
  | .enter name => a.enter name
  | .exit => do return (← a.exit).getD a
  | .declare x ty value pos => do return (← a.declare x ty value pos).getD a
  | .assign x value => do return (← a.assign x value).getD a
  | .place x storage => do return (← a.place x storage).getD a
  | .rewind => return a.rewind
  | .descend => do return (← a.descend).getD a
  | .reset => return .empty

/-- The arena that a sequence of operations makes. -/
def run (ops : List ScopeTree.Op) : Access ScopeArena := ops.foldlM perform .empty

/-- The scope that is opened inside the current one. -/
def child (a : ScopeArena) (here : StoredScope) (name : String) : StoredScope where
  name := name ++ "_" ++ toString (a.counter + 1)
  parent := some a.current
  level := here.level + 1

/-- The arena after it has been opened. -/
def entered (a : ScopeArena) (here : StoredScope) (name : String) : ScopeArena where
  scopes := (a.scopes ++ [a.child here name]).set a.current
    { here with children := here.children ++ [a.scopes.length] }
  current := a.scopes.length
  counter := a.counter + 1

theorem lt_of_here (h : a.here = some here) : a.current < a.scopes.length :=
  (List.getElem?_eq_some_iff.1 h).1

theorem update_eq (hs : a.scopes[i]? = some s) (f : StoredScope → StoredScope) :
    a.update i f = some { a with scopes := a.scopes.set i (f s) } := by
  rw [update, hs, Option.map_some]

theorem enter_eq (h : a.here = some here) (name : String) :
    a.enter name = some (a.entered here name) := by
  have hget : (a.scopes ++ [a.child here name])[a.current]? = some here := by
    rw [List.getElem?_append_left (lt_of_here h)]
    exact h
  rw [enter, h]
  show (update { a with scopes := a.scopes ++ [a.child here name] } _ _).bind _ = _
  rw [update_eq hget]
  rfl

/-- The scopes after one has been opened: the new one, the one around it, and the others. -/
theorem getElem?_entered (h : a.here = some here) (name : String) (j : Nat) :
    (a.entered here name).scopes[j]? =
      if j = a.scopes.length then some (a.child here name)
      else if j = a.current then some { here with children := here.children ++ [a.scopes.length] }
      else a.scopes[j]? := by
  have hlt := lt_of_here h
  rw [entered, List.getElem?_set, List.length_append]
  by_cases hnew : j = a.scopes.length
  · subst hnew
    rw [if_pos rfl, if_neg (by omega), List.getElem?_concat_length]
  · rw [if_neg hnew]
    by_cases hcurrent : j = a.current
    · subst hcurrent
      rw [if_pos rfl, if_pos rfl, if_pos (by omega)]
    · rw [if_neg hcurrent, if_neg (Ne.symm hcurrent)]
      by_cases hj : j < a.scopes.length
      · rw [List.getElem?_append_left hj]
      · rw [List.getElem?_eq_none (by simp; omega), List.getElem?_eq_none (by omega)]

@[simp] theorem length_entered (a : ScopeArena) (here : StoredScope) (name : String) :
    (a.entered here name).scopes.length = a.scopes.length + 1 := by
  simp [entered]

theorem of_getElem?_empty (hs : ScopeArena.empty.scopes[i]? = some s) :
    i = 0 ∧ s = { name := "global", parent := none, level := 0 } := by
  cases i with
  | zero => exact ⟨rfl, (Option.some.inj hs).symm⟩
  | succ i => cases hs

/-- A scope of the arena after a scope has been opened is the new one, or it was there and has at
most one child more. -/
theorem of_getElem?_entered (h : a.here = some here) {name : String}
    (hs : (a.entered here name).scopes[i]? = some s) :
    (i = a.scopes.length ∧ s = a.child here name) ∨
      ∃ t cs, a.scopes[i]? = some t ∧ s = { t with children := cs } ∧
        (cs = t.children ∨ i = a.current ∧ cs = t.children ++ [a.scopes.length]) := by
  rw [getElem?_entered h] at hs
  split at hs
  · rename_i hi
    exact .inl ⟨hi, (Option.some.inj hs).symm⟩
  · split at hs
    · rename_i hi
      obtain rfl := Option.some.inj hs
      exact .inr ⟨here, _, hi ▸ h, rfl, .inr ⟨hi, rfl⟩⟩
    · exact .inr ⟨s, s.children, hs, rfl, .inl rfl⟩

/-- Opening a scope takes nothing away. -/
theorem exists_getElem?_entered (h : a.here = some here) (name : String)
    (hs : a.scopes[i]? = some s) :
    ∃ cs, (a.entered here name).scopes[i]? = some { s with children := cs } ∧
      ∀ c ∈ s.children, c ∈ cs := by
  rw [getElem?_entered h, if_neg ((List.getElem?_eq_some_iff.1 hs).1).ne]
  split
  · rename_i hi
    subst hi
    obtain rfl : here = s := Option.some.inj (h.symm.trans hs)
    exact ⟨_, rfl, fun c hc ↦ List.mem_append_left _ hc⟩
  · exact ⟨s.children, hs, fun _ hc ↦ hc⟩

theorem exit_eq (h : a.here = some here) :
    a.exit = some (here.parent.map fun id ↦ { a with current := id }) := by
  rw [exit, h]
  rfl

/-- The symbol that a declaration adds to the current scope. -/
def newSymbol (here : StoredScope) (x : String) (ty : Ty) (value : Option Value) (pos : Pos) :
    Symbol :=
  { name := x, ty, value, initialized := value.isSome, pos, owner := here.name }

theorem declare_eq (h : a.here = some here) (x : String) (ty : Ty) (value : Option Value)
    (pos : Pos) :
    a.declare x ty value pos = some (
      if here.symbols.contains x then none
      else some { a with
        scopes := a.scopes.set a.current
          { here with symbols := here.symbols.push x (newSymbol here x ty value pos) } }) := by
  rw [declare, h]
  by_cases hx : here.symbols.contains x
  · simp [hx]
  · simp only [Option.bind_eq_bind, Option.bind_some, hx, update_eq h]
    rfl

theorem place_eq (h : a.here = some here) (x : String) (storage : Storage) :
    a.place x storage = some (
      if here.symbols.contains x then some { a with
        scopes := a.scopes.set a.current
          { here with symbols := here.symbols.modify x (Symbol.place storage) } }
      else none) := by
  rw [place, h]
  by_cases hx : here.symbols.contains x
  · simp only [Option.bind_eq_bind, Option.bind_some, hx, update_eq h]
    rfl
  · simp [hx]

theorem descend_eq (h : a.here = some here) :
    a.descend = some (here.children[here.cursor]?.map fun c ↦
      { a with
        scopes := a.scopes.set a.current { here with cursor := here.cursor + 1 }
        current := c }) := by
  rw [descend, h]
  rcases hchild : here.children[here.cursor]? with - | c
  · simp [hchild]
  · simp only [Option.bind_eq_bind, Option.bind_some, hchild, update_eq h]
    rfl

theorem modify_of_resolve {x : String} (h : a.resolve x = some (some i))
    (hs : a.scopes[i]? = some s) (f : Symbol → Symbol) :
    a.modify x f = some (some
      { a with scopes := a.scopes.set i { s with symbols := s.symbols.modify x f } }) := by
  rw [modify, h]
  show (a.update i _).bind _ = _
  rw [update_eq hs]
  rfl

theorem modify_of_resolve_none {x : String} (h : a.resolve x = some none) (f : Symbol → Symbol) :
    a.modify x f = some none := by
  rw [modify, h]
  rfl

section Climb

variable {α : Type} {f : Nat → StoredScope → Option α}

/-- A search ends in the first scope where it finds something. -/
theorem climb_of_some (hs : a.scopes[i]? = some s) {r : α} (hf : f i s = some r) :
    a.climb f i = some (some r) := by
  rw [climb, hs]
  simp [hf]

/-- A search goes on in the parent. -/
theorem climb_of_none (hs : a.scopes[i]? = some s) (hf : f i s = none) :
    a.climb f i = match s.parent with
      | some parent => a.climb f parent
      | none => some none := by
  rw [climb, hs]
  rcases hparent : s.parent with - | p <;> simp [hf, hparent]

end Climb

/-- What an operation can do to an arena. -/
inductive Step (a : ScopeArena) : ScopeTree.Op → ScopeArena → Prop
  /-- It opens a scope. -/
  | enter {here : StoredScope} (name : String) (hhere : a.here = some here) :
    a.Step (.enter name) (a.entered here name)
  /-- It makes a scope current, or does nothing. -/
  | move {op : ScopeTree.Op} {i : Nat} (hi : i < a.scopes.length) :
    a.Step op { a with current := i }
  /-- It changes a scope. -/
  | change {op : ScopeTree.Op} {i c : Nat} {s s' : StoredScope} (hs : a.scopes[i]? = some s)
    (hchange : s.Change s') (hc : c < a.scopes.length) :
    a.Step op { a with scopes := a.scopes.set i s', current := c }
  /-- It puts all cursors back. -/
  | rewind {op : ScopeTree.Op} : a.Step op a.rewind
  /-- It starts anew. -/
  | reset {op : ScopeTree.Op} : a.Step op .empty

/-! ### Parents and children -/

/-- Parents and children refer to each other, and cursors to children. -/
structure Linked (a : ScopeArena) : Prop where
  /-- The current scope is there. -/
  current : a.current < a.scopes.length
  /-- The first scope, and no other, has no parent. -/
  outermost : ∀ (i : Nat) (s : StoredScope), a.scopes[i]? = some s → (s.parent = none ↔ i = 0)
  /-- A parent has a smaller number and lists its child. -/
  parent : ∀ (i : Nat) (s : StoredScope) (p : Nat), a.scopes[i]? = some s → s.parent = some p →
    p < i ∧ ∃ q, a.scopes[p]? = some q ∧ i ∈ q.children
  /-- No scope is listed as a child but by its parent. -/
  child : ∀ (i : Nat) (s : StoredScope) (c : Nat), a.scopes[i]? = some s → c ∈ s.children →
    ∃ r, a.scopes[c]? = some r ∧ r.parent = some i
  /-- Children are listed in increasing order. -/
  children : ∀ s ∈ a.scopes, s.children.Pairwise (· < ·)
  /-- A cursor is at a child or behind the last one. -/
  cursor : ∀ s ∈ a.scopes, s.cursor ≤ s.children.length

namespace Linked

theorem empty : ScopeArena.empty.Linked := by
  refine ⟨Nat.zero_lt_one, fun i s hs ↦ ?_, fun i s p hs hp ↦ ?_, fun i s c hs hc ↦ ?_,
    fun s hs ↦ ?_, fun s hs ↦ ?_⟩
  · obtain ⟨rfl, rfl⟩ := of_getElem?_empty hs
    exact iff_of_true rfl rfl
  · obtain ⟨rfl, rfl⟩ := of_getElem?_empty hs
    cases hp
  · obtain ⟨rfl, rfl⟩ := of_getElem?_empty hs
    cases hc
  · obtain rfl := List.mem_singleton.1 hs
    exact .nil
  · obtain rfl := List.mem_singleton.1 hs
    exact Nat.le_refl 0

theorem exists_here (h : a.Linked) : ∃ s, a.here = some s :=
  ⟨_, List.getElem?_eq_getElem h.current⟩

theorem child_lt (h : a.Linked) (hs : a.scopes[i]? = some s) {c : Nat} (hc : c ∈ s.children) :
    i < c ∧ c < a.scopes.length := by
  obtain ⟨r, hr, hparent⟩ := h.child i s c hs hc
  exact ⟨(h.parent c r i hr hparent).1, (List.getElem?_eq_some_iff.1 hr).1⟩

/-- A change that keeps the frames of scopes. -/
theorem congr (h : a.Linked)
    (hframe : a'.scopes.map StoredScope.frame = a.scopes.map StoredScope.frame)
    (hcurrent : a'.current < a.scopes.length)
    (hcursor : ∀ s ∈ a'.scopes, s.cursor ≤ s.children.length) : a'.Linked := by
  have hlength : a'.scopes.length = a.scopes.length := by
    simpa using congrArg List.length hframe
  have hold : ∀ (i : Nat) (s : StoredScope), a'.scopes[i]? = some s →
      ∃ t, a.scopes[i]? = some t ∧ t.parent = s.parent ∧ t.children = s.children := by
    intro i s hs
    obtain ⟨t, ht, heq⟩ := StoredScope.exists_of_map_frame hframe hs
    exact ⟨t, ht, congrArg (·.parent) heq, congrArg (·.children) heq⟩
  have hnew : ∀ (i : Nat) (t : StoredScope), a.scopes[i]? = some t →
      ∃ s, a'.scopes[i]? = some s ∧ s.parent = t.parent ∧ s.children = t.children := by
    intro i t ht
    obtain ⟨s, hs, heq⟩ := StoredScope.exists_of_map_frame hframe.symm ht
    exact ⟨s, hs, congrArg (·.parent) heq, congrArg (·.children) heq⟩
  refine ⟨hlength ▸ hcurrent, fun i s hs ↦ ?_, fun i s p hs hp ↦ ?_, fun i s c hs hc ↦ ?_,
    fun s hs ↦ ?_, hcursor⟩
  · obtain ⟨t, ht, hparent, -⟩ := hold i s hs
    rw [← hparent]
    exact h.outermost i t ht
  · obtain ⟨t, ht, hparent, -⟩ := hold i s hs
    obtain ⟨hlt, q, hq, hmem⟩ := h.parent i t p ht (hparent.trans hp)
    obtain ⟨q', hq', -, hchildren⟩ := hnew p q hq
    exact ⟨hlt, q', hq', hchildren ▸ hmem⟩
  · obtain ⟨t, ht, -, hchildren⟩ := hold i s hs
    obtain ⟨r, hr, hparent⟩ := h.child i t c ht (hchildren ▸ hc)
    obtain ⟨r', hr', hparent', -⟩ := hnew c r hr
    exact ⟨r', hr', hparent'.trans hparent⟩
  · obtain ⟨i, hi⟩ := List.mem_iff_getElem?.1 hs
    obtain ⟨t, ht, -, hchildren⟩ := hold i s hi
    rw [← hchildren]
    exact h.children t (List.mem_of_getElem? ht)

/-- A change of one scope that keeps its frame. -/
theorem set (h : a.Linked) (hs : a.scopes[i]? = some s) (hframe : s'.frame = s.frame)
    (hcursor : s'.cursor ≤ s'.children.length) {c : Nat} (hc : c < a.scopes.length) :
    Linked { a with scopes := a.scopes.set i s', current := c } := by
  refine h.congr (StoredScope.map_frame_set hs hframe) hc fun t ht ↦ ?_
  rcases List.mem_or_eq_of_mem_set ht with ht | rfl
  · exact h.cursor t ht
  · exact hcursor

theorem rewind (h : a.Linked) : a.rewind.Linked := by
  have hframe : a.rewind.scopes.map StoredScope.frame = a.scopes.map StoredScope.frame := by
    rw [ScopeArena.rewind, List.map_map]
    rfl
  refine h.congr hframe (Nat.zero_lt_of_lt h.current) ?_
  rw [ScopeArena.rewind, List.forall_mem_map]
  exact fun s _ ↦ Nat.zero_le _

/-- A new scope gets a number above all others, and its parent lists it last. -/
theorem entered (h : a.Linked) (hhere : a.here = some here) (name : String) :
    (a.entered here name).Linked := by
  have hget := getElem?_entered hhere name
  have hcurrent := h.current
  have hlast : (a.entered here name).scopes[a.scopes.length]? = some (a.child here name) := by
    rw [hget, if_pos rfl]
  have haround : (a.entered here name).scopes[a.current]? =
      some { here with children := here.children ++ [a.scopes.length] } := by
    rw [hget, if_neg hcurrent.ne, if_pos rfl]
  refine ⟨?_, fun i s hs ↦ ?_, fun i s p hs hp ↦ ?_, fun i s c hs hc ↦ ?_, fun s hs ↦ ?_,
    fun s hs ↦ ?_⟩
  · exact (List.getElem?_eq_some_iff.1 hlast).1
  · rcases of_getElem?_entered hhere hs with ⟨rfl, rfl⟩ | ⟨t, cs, ht, rfl, -⟩
    · exact iff_of_false (fun hnone ↦ by cases hnone) (by omega)
    · exact h.outermost i t ht
  · rcases of_getElem?_entered hhere hs with ⟨rfl, rfl⟩ | ⟨t, cs, ht, rfl, -⟩
    · obtain rfl := Option.some.inj hp
      exact ⟨hcurrent, _, haround, List.mem_append_right _ List.mem_cons_self⟩
    · obtain ⟨hlt, q, hq, hmem⟩ := h.parent i t p ht hp
      obtain ⟨cs', hq', hchildren⟩ := exists_getElem?_entered hhere name hq
      exact ⟨hlt, _, hq', hchildren i hmem⟩
  · have hlisted : ∀ t, a.scopes[i]? = some t → c ∈ t.children →
        ∃ r, (a.entered here name).scopes[c]? = some r ∧ r.parent = some i := by
      intro t ht hc
      obtain ⟨r, hr, hparent⟩ := h.child i t c ht hc
      obtain ⟨cs', hr', -⟩ := exists_getElem?_entered hhere name hr
      exact ⟨_, hr', hparent⟩
    rcases of_getElem?_entered hhere hs with
      ⟨rfl, rfl⟩ | ⟨t, cs, ht, rfl, hchildren | ⟨rfl, hchildren⟩⟩
    · cases hc
    · exact hlisted t ht (hchildren ▸ hc)
    · replace hc : c ∈ t.children ++ [a.scopes.length] := hchildren ▸ hc
      rcases List.mem_append.1 hc with hc | hc
      · exact hlisted t ht hc
      · obtain rfl := List.mem_singleton.1 hc
        exact ⟨_, hlast, rfl⟩
  · obtain ⟨i, hi⟩ := List.mem_iff_getElem?.1 hs
    rcases of_getElem?_entered hhere hi with ⟨-, rfl⟩ | ⟨t, cs, ht, rfl, hchildren⟩
    · exact .nil
    · have hold := h.children t (List.mem_of_getElem? ht)
      rcases hchildren with rfl | ⟨-, rfl⟩
      · exact hold
      · refine List.pairwise_append.2 ⟨hold, List.pairwise_singleton _ _, fun c hc n hn ↦ ?_⟩
        obtain rfl := List.mem_singleton.1 hn
        exact (h.child_lt ht hc).2
  · obtain ⟨i, hi⟩ := List.mem_iff_getElem?.1 hs
    rcases of_getElem?_entered hhere hi with ⟨-, rfl⟩ | ⟨t, cs, ht, rfl, hchildren⟩
    · exact Nat.le_refl 0
    · have hold := h.cursor t (List.mem_of_getElem? ht)
      rcases hchildren with rfl | ⟨-, rfl⟩
      · exact hold
      · show t.cursor ≤ (t.children ++ [a.scopes.length]).length
        rw [List.length_append]
        exact Nat.le_add_right_of_le hold

/-- What an operation does keeps the links. -/
theorem step (h : a.Linked) (hstep : a.Step op a') : a'.Linked := by
  cases hstep with
  | enter name hhere => exact h.entered hhere name
  | move hi => exact ⟨hi, h.outermost, h.parent, h.child, h.children, h.cursor⟩
  | change hs hchange hc =>
    exact h.set hs hchange.frame_eq (hchange.cursor_le (h.cursor _ (List.mem_of_getElem? hs))) hc
  | rewind => exact h.rewind
  | reset => exact .empty

/-! ### Searches -/

/-- A search outwards ends. What it finds it finds in a scope that is there. -/
theorem exists_climb {α : Type} (h : a.Linked) (f : Nat → StoredScope → Option α)
    (hi : i < a.scopes.length) :
    ∃ r, a.climb f i = some r ∧
      ∀ v, r = some v → ∃ j s, a.scopes[j]? = some s ∧ f j s = some v := by
  -- numbers of parents get smaller and smaller
  induction i using Nat.strongRecOn with
  | ind i ih =>
    obtain ⟨s, hs⟩ : ∃ s, a.scopes[i]? = some s := ⟨_, List.getElem?_eq_getElem hi⟩
    rcases hf : f i s with - | v
    · rw [climb_of_none hs hf]
      rcases hparent : s.parent with - | p
      · exact ⟨none, rfl, nofun⟩
      · obtain ⟨hlt, -⟩ := h.parent i s p hs hparent
        exact ih p hlt (hlt.trans hi)
    · exact ⟨some v, climb_of_some hs hf, fun w hw ↦ ⟨i, s, hs, hw ▸ hf⟩⟩

/-- The search for a declaration ends, in a scope that has it if there is one. -/
theorem resolve_cases (h : a.Linked) (x : String) :
    a.resolve x = some none ∨
      ∃ i s, a.resolve x = some (some i) ∧ a.scopes[i]? = some s ∧ s.symbols.contains x := by
  obtain ⟨r, hr, hfound⟩ :=
    h.exists_climb (fun id s ↦ if s.symbols.contains x then some id else none) h.current
  rw [resolve, hr]
  rcases r with - | i
  · exact .inl rfl
  · obtain ⟨j, s, hs, hj⟩ := hfound i rfl
    split at hj
    · rename_i hx
      obtain rfl := Option.some.inj hj
      exact .inr ⟨j, s, rfl, hs, hx⟩
    · cases hj

/-- The nearest declaration of a name is changed where the search finds it. -/
theorem modify_cases (h : a.Linked) (x : String) (f : Symbol → Symbol) :
    a.modify x f = some none ∨ ∃ i s, a.scopes[i]? = some s ∧
      a.modify x f = some (some
        { a with scopes := a.scopes.set i { s with symbols := s.symbols.modify x f } }) := by
  rcases h.resolve_cases x with hnone | ⟨i, s, hresolve, hs, -⟩
  · exact .inl (modify_of_resolve_none hnone f)
  · exact .inr ⟨i, s, hs, modify_of_resolve hresolve hs f⟩

/-- Every operation goes through, and does one of the things that an operation can do. -/
theorem exists_perform (h : a.Linked) (op : ScopeTree.Op) :
    ∃ a', a.perform op = some a' ∧ a.Step op a' := by
  obtain ⟨here, hhere⟩ := h.exists_here
  have hstay : a.Step op a := .move h.current
  cases op with
  | enter name => exact ⟨_, enter_eq hhere name, .enter name hhere⟩
  | exit =>
    rw [perform, exit_eq hhere]
    rcases hparent : here.parent with - | p
    · exact ⟨a, rfl, hstay⟩
    · exact ⟨_, rfl, .move ((h.parent _ _ p hhere hparent).1.trans h.current)⟩
  | declare x ty value pos =>
    rw [perform, declare_eq hhere]
    by_cases hx : here.symbols.contains x
    · rw [if_pos hx]
      exact ⟨a, rfl, hstay⟩
    · rw [if_neg hx]
      have hnew := (here.symbols.contains_eq_false_iff x).1 (by simpa using hx)
      exact ⟨_, rfl, .change hhere (.declare hnew rfl rfl) h.current⟩
  | assign x value =>
    rw [perform, ScopeArena.assign]
    rcases h.modify_cases x (Symbol.assign value) with hnone | ⟨i, s, hs, hsome⟩
    · exact ⟨a, by rw [hnone]; rfl, hstay⟩
    · have hchange : s.Change { s with symbols := s.symbols.modify x (Symbol.assign value) } :=
        .modify fun _ ↦ ⟨rfl, rfl⟩
      exact ⟨_, by rw [hsome]; rfl, .change hs hchange h.current⟩
  | place x storage =>
    rw [perform, place_eq hhere]
    by_cases hx : here.symbols.contains x
    · rw [if_pos hx]
      have hchange :
          here.Change { here with symbols := here.symbols.modify x (Symbol.place storage) } :=
        .modify fun _ ↦ ⟨rfl, rfl⟩
      exact ⟨_, rfl, .change hhere hchange h.current⟩
    · rw [if_neg hx]
      exact ⟨a, rfl, hstay⟩
  | rewind => exact ⟨_, rfl, .rewind⟩
  | descend =>
    rw [perform, descend_eq hhere]
    rcases hchild : here.children[here.cursor]? with - | c
    · exact ⟨a, rfl, hstay⟩
    · refine ⟨_, rfl, .change hhere (.visit ?_) ?_⟩
      · exact (List.getElem?_eq_some_iff.1 hchild).1
      · exact (h.child_lt hhere (List.mem_of_getElem? hchild)).2
  | reset => exact ⟨_, rfl, .reset⟩

end Linked

/-! ### Counter, levels and names -/

/-- The counter and the levels have not wrapped around, and names end in numbers. -/
structure Counted (a : ScopeArena) : Prop where
  /-- The counter says how many scopes there are besides the first. -/
  counter : a.counter.toNat + 1 = a.scopes.length
  /-- The first scope has level zero. -/
  level_outermost : ∀ (i : Nat) (s : StoredScope), a.scopes[i]? = some s → s.parent = none →
    s.level = 0
  /-- Any other scope is a level below its parent. -/
  level_parent : ∀ (i : Nat) (s : StoredScope) (p : Nat), a.scopes[i]? = some s →
    s.parent = some p → ∃ q, a.scopes[p]? = some q ∧ s.level.toNat = q.level.toNat + 1
  /-- A name ends in the number of its scope. -/
  named : ∀ (i : Nat) (s : StoredScope), a.scopes[i]? = some s → NamedByNumber i s.name

namespace Counted

theorem empty : ScopeArena.empty.Counted := by
  refine ⟨rfl, fun i s hs _ ↦ ?_, fun i s p hs hp ↦ ?_, fun i s hs ↦ ?_⟩
  · obtain ⟨-, rfl⟩ := of_getElem?_empty hs
    rfl
  · obtain ⟨-, rfl⟩ := of_getElem?_empty hs
    cases hp
  · obtain ⟨rfl, rfl⟩ := of_getElem?_empty hs
    exact .inl ⟨rfl, rfl⟩

/-- A change that keeps the frames of scopes and the counter. -/
theorem congr (h : a.Counted)
    (hframe : a'.scopes.map StoredScope.frame = a.scopes.map StoredScope.frame)
    (hcounter : a'.counter = a.counter) : a'.Counted := by
  have hlength : a'.scopes.length = a.scopes.length := by
    simpa using congrArg List.length hframe
  have hold : ∀ (i : Nat) (s : StoredScope), a'.scopes[i]? = some s → ∃ t, a.scopes[i]? = some t ∧
      t.parent = s.parent ∧ t.level = s.level ∧ t.name = s.name := by
    intro i s hs
    obtain ⟨t, ht, heq⟩ := StoredScope.exists_of_map_frame hframe hs
    exact ⟨t, ht, congrArg (·.parent) heq, congrArg (·.level) heq, congrArg (·.name) heq⟩
  refine ⟨by rw [hcounter, hlength, h.counter], fun i s hs hnone ↦ ?_, fun i s p hs hp ↦ ?_,
    fun i s hs ↦ ?_⟩
  · obtain ⟨t, ht, hparent, hlevel, -⟩ := hold i s hs
    rw [← hlevel]
    exact h.level_outermost i t ht (hparent.trans hnone)
  · obtain ⟨t, ht, hparent, hlevel, -⟩ := hold i s hs
    obtain ⟨q, hq, hsucc⟩ := h.level_parent i t p ht (hparent.trans hp)
    obtain ⟨q', hq', heq⟩ := StoredScope.exists_of_map_frame hframe.symm hq
    have hlevel' : q'.level = q.level := congrArg (·.level) heq
    exact ⟨q', hq', by rw [← hlevel, hsucc, hlevel']⟩
  · obtain ⟨t, ht, -, -, hname⟩ := hold i s hs
    exact hname ▸ h.named i t ht

/-- No scope is deeper than there are scopes before it. -/
theorem level_le (h : a.Counted) (hlinked : a.Linked) (hs : a.scopes[i]? = some s) :
    s.level.toNat ≤ i := by
  induction i using Nat.strongRecOn generalizing s with
  | ind i ih =>
    rcases hparent : s.parent with - | p
    · rw [h.level_outermost i s hs hparent]
      exact Nat.zero_le i
    · obtain ⟨hlt, -⟩ := hlinked.parent i s p hs hparent
      obtain ⟨q, hq, hlevel⟩ := h.level_parent i s p hs hparent
      have hle := ih p hlt hq
      omega

/-- As long as there is room, neither the counter nor the level of a new scope wraps around. -/
theorem entered (h : a.Counted) (hlinked : a.Linked) (hhere : a.here = some here) (name : String)
    (hroom : a.scopes.length < 2 ^ 32) : (a.entered here name).Counted := by
  have hcurrent := hlinked.current
  have hcounter : (a.counter + 1).toNat = a.scopes.length := by
    have hcount := h.counter
    rw [UInt32.toNat_add, UInt32.toNat_one, Nat.mod_eq_of_lt (by omega)]
    exact hcount
  have hlevel : (here.level + 1).toNat = here.level.toNat + 1 := by
    have hle := h.level_le hlinked hhere
    rw [UInt32.toNat_add, UInt32.toNat_one, Nat.mod_eq_of_lt (by omega)]
  refine ⟨?_, fun i s hs hnone ↦ ?_, fun i s p hs hp ↦ ?_, fun i s hs ↦ ?_⟩
  · rw [length_entered]
    exact congrArg (· + 1) hcounter
  · rcases of_getElem?_entered hhere hs with ⟨rfl, rfl⟩ | ⟨t, cs, ht, rfl, -⟩
    · cases hnone
    · exact h.level_outermost i t ht hnone
  · rcases of_getElem?_entered hhere hs with ⟨rfl, rfl⟩ | ⟨t, cs, ht, rfl, -⟩
    · obtain rfl := Option.some.inj hp
      obtain ⟨cs', hq, -⟩ := exists_getElem?_entered hhere name hhere
      exact ⟨_, hq, hlevel⟩
    · obtain ⟨q, hq, hsucc⟩ := h.level_parent i t p ht hp
      obtain ⟨cs', hq', -⟩ := exists_getElem?_entered hhere name hq
      exact ⟨_, hq', hsucc⟩
  · rcases of_getElem?_entered hhere hs with ⟨rfl, rfl⟩ | ⟨t, cs, ht, rfl, -⟩
    · refine .inr ⟨name, ?_⟩
      rw [← hcounter]
      rfl
    · exact h.named i t ht

/-- What an operation does keeps count. -/
theorem step (h : a.Counted) (hlinked : a.Linked) (hstep : a.Step op a')
    (hroom : a'.scopes.length ≤ 2 ^ 32) : a'.Counted := by
  cases hstep with
  | enter name hhere =>
    refine h.entered hlinked hhere name ?_
    rw [length_entered] at hroom
    exact hroom
  | move => exact h.congr rfl rfl
  | change hs hchange => exact h.congr (StoredScope.map_frame_set hs hchange.frame_eq) rfl
  | rewind =>
    refine h.congr ?_ rfl
    rw [ScopeArena.rewind, List.map_map]
    rfl
  | reset => exact .empty

/-- Names end in different numbers, so they are different. -/
theorem nodup_names (h : a.Counted) : (a.scopes.map (·.name)).Nodup := by
  rw [List.nodup_iff_injective_get]
  intro i j hij
  have hnamed : ∀ k : Fin (a.scopes.map (·.name)).length,
      NamedByNumber k ((a.scopes.map (·.name)).get k) := by
    intro k
    have hk : (k : Nat) < a.scopes.length := by simpa using k.2
    simpa using h.named k (a.scopes[(k : Nat)]) (List.getElem?_eq_getElem hk)
  exact Fin.ext ((hnamed i).id_eq (hij ▸ hnamed j))

end Counted

/-! ### Symbols -/

/-- What an operation does keeps symbols with their scopes. -/
theorem Step.owned (hstep : a.Step op a') (h : ∀ s ∈ a.scopes, s.symbols.Owned s.name) :
    ∀ s ∈ a'.scopes, s.symbols.Owned s.name := by
  cases hstep with
  | @enter here name hhere =>
    intro s hs
    rcases List.mem_or_eq_of_mem_set hs with hs | rfl
    · rcases List.mem_append.1 hs with hs | hs
      · exact h s hs
      · obtain rfl := List.mem_singleton.1 hs
        exact SymbolTable.owned_empty _
    · exact h here (List.mem_of_getElem? hhere)
  | move => exact h
  | change hs hchange =>
    intro t ht
    rcases List.mem_or_eq_of_mem_set ht with ht | rfl
    · exact h t ht
    · exact hchange.owned (h _ (List.mem_of_getElem? hs))
  | rewind =>
    rw [ScopeArena.rewind, List.forall_mem_map]
    exact h
  | reset =>
    intro s hs
    obtain rfl := List.mem_singleton.1 hs
    exact SymbolTable.owned_empty _

/-- An operation adds no scopes but those it opens. -/
theorem Step.length_le (hstep : a.Step op a') (h : a.Linked) :
    a'.scopes.length ≤ a.scopes.length + op.opened := by
  cases hstep with
  | @enter here name => exact (length_entered a here name).le
  | move => exact Nat.le_add_right _ _
  | change => simp
  | rewind => simp [ScopeArena.rewind]
  | reset => exact Nat.le_add_right_of_le (Nat.one_le_of_lt h.current)

/-! ### Runs -/

/-- What holds of an arena when everything in it fits together. -/
structure WellFormed (a : ScopeArena) : Prop extends a.Linked, a.Counted where
  /-- A parent lists its child once. -/
  once : ∀ (i : Nat) (s : StoredScope) (p : Nat), a.scopes[i]? = some s → s.parent = some p →
    ∃ q, a.scopes[p]? = some q ∧ q.children.count i = 1
  /-- No two scopes have the same name. -/
  names : (a.scopes.map (·.name)).Nodup
  /-- Symbols are stored under their own names, and record the name of their scope. -/
  symbols : ∀ s ∈ a.scopes, s.symbols.Owned s.name

theorem WellFormed.of (hlinked : a.Linked) (hcounted : a.Counted)
    (howned : ∀ s ∈ a.scopes, s.symbols.Owned s.name) : a.WellFormed where
  toLinked := hlinked
  toCounted := hcounted
  once i s p hs hp := by
    obtain ⟨-, q, hq, hmem⟩ := hlinked.parent i s p hs hp
    have hchildren := hlinked.children q (List.mem_of_getElem? hq)
    exact ⟨q, hq, List.count_eq_one_of_mem (hchildren.imp Nat.ne_of_lt) hmem⟩
  names := hcounted.nodup_names
  symbols := howned

/-- A run goes through. With fewer than `2 ^ 32` scopes opened in it, nothing wraps around. -/
theorem exists_run (ops : List ScopeTree.Op) :
    ∃ a, run ops = some a ∧ a.Linked ∧ a.scopes.length ≤ (ops.map ScopeTree.Op.opened).sum + 1 ∧
      ((ops.map ScopeTree.Op.opened).sum < 2 ^ 32 → a.WellFormed) := by
  induction ops using List.reverseRecOn with
  | nil =>
    refine ⟨.empty, rfl, .empty, Nat.le_refl 1, fun _ ↦ .of .empty .empty ?_⟩
    intro s hs
    obtain rfl := List.mem_singleton.1 hs
    exact SymbolTable.owned_empty _
  | append_singleton ops op ih =>
    obtain ⟨a, hrun, hlinked, hlength, hwell⟩ := ih
    obtain ⟨a', hperform, hstep⟩ := hlinked.exists_perform op
    have hle := hstep.length_le hlinked
    rw [List.map_append, List.sum_append, List.map_singleton, List.sum_singleton]
    refine ⟨a', ?_, hlinked.step hstep, by omega, fun hroom ↦ ?_⟩
    · rw [run, List.foldlM_append]
      show (run ops).bind _ = _
      rw [hrun]
      simpa using hperform
    · have hold := hwell (by omega)
      exact .of (hlinked.step hstep) (hold.toCounted.step hlinked hstep (by omega))
        (hstep.owned hold.symbols)

/-- Whatever operations are performed, in any order and whether they fail or not, everything in the
arena fits together, as long as fewer than `2 ^ 32` scopes are opened. So searches end, and no
number is met that belongs to no scope. -/
theorem wellFormed_run (ops : List ScopeTree.Op)
    (h : (ops.map ScopeTree.Op.opened).sum < 2 ^ 32) :
    ∃ a, run ops = some a ∧ a.WellFormed ∧
      ∀ x, (a.resolve x).isSome ∧ (a.lookup x).isSome ∧ (a.lookupStored x).isSome := by
  obtain ⟨a, hrun, hlinked, -, hwell⟩ := exists_run ops
  refine ⟨a, hrun, hwell h, fun x ↦ ⟨?_, ?_, ?_⟩⟩
  · rcases hlinked.resolve_cases x with hnone | ⟨i, s, hsome, -⟩
    · rw [hnone]
      rfl
    · rw [hsome]
      rfl
  · rcases hlinked.resolve_cases x with hnone | ⟨i, s, hsome, hs, -⟩
    · rw [lookup, hnone]
      rfl
    · rw [lookup, hsome]
      simp [hs]
  · obtain ⟨r, hr, -⟩ :=
      hlinked.exists_climb (fun _ s ↦ (s.symbols.get? x).filter (·.storage.isSome)) hlinked.current
    rw [lookupStored, hr]
    rfl

/-- A function with two blocks side by side, one visited again and left for the outermost scope. A
scope that is opened then is named so that it could be taken for the first block. -/
def interleaved : List ScopeTree.Op :=
  [.exit, .declare "x" .int none ⟨1, 5⟩, .enter "function_f", .enter "block", .exit, .rewind,
    .descend, .descend, .assign "x" none, .enter "block_2", .rewind, .enter "block"]

theorem wellFormed_run_interleaved :
    (interleaved.map ScopeTree.Op.opened).sum < 2 ^ 32 ∧
      ∃ a, run interleaved = some a ∧ a.WellFormed ∧
        ∀ x, (a.resolve x).isSome ∧ (a.lookup x).isSome ∧ (a.lookupStored x).isSome :=
  ⟨by decide, wellFormed_run interleaved (by decide)⟩

end ScopeArena

end BlockLang
