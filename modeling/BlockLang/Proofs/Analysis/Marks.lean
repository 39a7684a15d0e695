import BlockLang.Proofs.Resolution.Walk

/-!
# Marks of initialization

What the marks of initialization say of the past. A variable is the number of its scope and its
name, and its past comes down to two lists: of the variables that were declared and left without a
value, and of those that were assigned to.

The invariant is `ScopeTree.Accounts`: in every scope around a point, a symbol lacks the mark
exactly if it is in the first list and not in the second. A scope that is opened later has a number
of its own, so what is known of a variable is never taken for one that hides it. Each operation of
an analysis keeps the invariant, and what it adds to the lists has the number of the one scope that
it changes (`ScopeTree.Accounts.edit`).
-/

namespace BlockLang

/-- The variable is visible and nothing was stored in it. -/
def Env.isUnset (env : Env) (x : String) : Bool := (env x).any fun s ↦ !s.initialized

/-! ### Marks of a scope -/

/-- The marks of the symbols of a scope are accounted for: a symbol lacks the mark exactly if the
variable has been left without a value and has not been stored since. -/
structure Scope.Accounts (s : Scope) (left stored : List (Nat × String)) : Prop where
  /-- What is not declared has no history. -/
  absent : ∀ x, s.symbols.get? x = none → (s.id, x) ∉ left ∧ (s.id, x) ∉ stored
  /-- What is declared has the mark that its history gives it. -/
  mark : ∀ x sym, s.symbols.get? x = some sym →
    (sym.initialized = false ↔ (s.id, x) ∈ left ∧ (s.id, x) ∉ stored)

namespace Scope.Accounts

variable {s s' : Scope} {left stored : List (Nat × String)} {x : String}

theorem blank {i : Nat} {name : String} (hleft : ∀ k ∈ left, k.1 < i)
    (hstored : ∀ k ∈ stored, k.1 < i) : Scope.Accounts { id := i, name } left stored :=
  ⟨fun _ _ ↦ ⟨fun h ↦ absurd (hleft _ h) (Nat.lt_irrefl i),
      fun h ↦ absurd (hstored _ h) (Nat.lt_irrefl i)⟩,
    fun _ _ h ↦ absurd h.symm (Option.some_ne_none _)⟩

/-- The history of other scopes does not matter. -/
theorem of_ne (h : s.Accounts left stored) {left' stored' : List (Nat × String)}
    (hleft : ∀ k ∈ left', k.1 ≠ s.id) (hstored : ∀ k ∈ stored', k.1 ≠ s.id) :
    s.Accounts (left ++ left') (stored ++ stored') := by
  have hl : ∀ y, (s.id, y) ∉ left' := fun y hy ↦ hleft _ hy rfl
  have hs : ∀ y, (s.id, y) ∉ stored' := fun y hy ↦ hstored _ hy rfl
  refine ⟨fun y hy ↦ ?_, fun y sym hy ↦ ?_⟩
  · simpa [hl, hs] using h.absent y hy
  · simpa [hl, hs] using h.mark y sym hy

/-- A new symbol joins the first list if it lacks the mark. -/
theorem declare (h : s.Accounts left stored) (hnew : s.symbols.get? x = none) (hid : s'.id = s.id)
    {sym : Symbol} (hget : ∀ y, s'.symbols.get? y = if y = x then some sym else s.symbols.get? y) :
    s'.Accounts (left ++ if sym.initialized then [] else [(s.id, x)]) stored := by
  have hother : ∀ y, y ≠ x →
      ((s.id, y) ∈ left ++ (if sym.initialized then [] else [(s.id, x)]) ↔ (s.id, y) ∈ left) := by
    intro y hy
    split <;> simp [hy]
  obtain ⟨hleft, hstored⟩ := h.absent x hnew
  refine ⟨fun y hy ↦ ?_, fun y sym' hy ↦ ?_⟩
  · rw [hget] at hy
    split at hy
    · exact absurd hy (by simp)
    · rename_i hyx
      rw [hid, hother y hyx]
      exact h.absent y hy
  · rw [hget] at hy
    split at hy
    · rename_i hyx
      subst hyx
      obtain rfl := Option.some.inj hy
      rw [hid]
      cases sym.initialized <;> simp [hleft, hstored]
    · rename_i hyx
      rw [hid, hother y hyx]
      exact h.mark y sym' hy

/-- A symbol gets the mark as it joins the second list. -/
theorem assign (h : s.Accounts left stored) {sym : Symbol} (hx : s.symbols.get? x = some sym)
    (value : Option Value) :
    Scope.Accounts { s with symbols := s.symbols.modify x (Symbol.assign value) } left
      (stored ++ [(s.id, x)]) := by
  have hget (y : String) := s.symbols.get?_modify x (Symbol.assign value) y
  have hother : ∀ y, y ≠ x → ((s.id, y) ∈ stored ++ [(s.id, x)] ↔ (s.id, y) ∈ stored) := by
    intro y hy
    simp [hy]
  refine ⟨fun y hy ↦ ?_, fun y sym' hy ↦ ?_⟩
  · rw [hget, hx] at hy
    split at hy
    · exact absurd hy (by simp)
    · rename_i hyx
      rw [hother y hyx]
      exact h.absent y hy
  · rw [hget, hx] at hy
    split at hy
    · rename_i hyx
      subst hyx
      obtain rfl := Option.some.inj hy
      simp [Symbol.assign]
    · rename_i hyx
      rw [hother y hyx]
      exact h.mark y sym' hy

end Scope.Accounts

namespace ScopeTree

variable {t t' : ScopeTree} {left stored : List (Nat × String)} {x : String}

/-! ### Marks around a point -/

/-- The marks of all symbols around the point are accounted for, and the scopes have numbers that
tell them from each other and from those to come. -/
structure Accounts (t : ScopeTree) (left stored : List (Nat × String)) : Prop where
  /-- The scopes around the point have different numbers. -/
  nodup : (t.chain.map Scope.id).Nodup
  /-- The number of the next scope is greater. -/
  fresh : ∀ s ∈ t.chain, s.id < t.count
  /-- It is greater than those in the first list. -/
  left_lt : ∀ k ∈ left, k.1 < t.count
  /-- It is greater than those in the second list. -/
  stored_lt : ∀ k ∈ stored, k.1 < t.count
  /-- The marks are accounted for. -/
  scopes : ∀ s ∈ t.chain, s.Accounts left stored

namespace Accounts

theorem empty : ScopeTree.empty.Accounts [] [] where
  nodup := List.nodup_singleton 0
  fresh := List.forall_mem_singleton.2 Nat.zero_lt_one
  left_lt := List.forall_mem_nil _
  stored_lt := List.forall_mem_nil _
  scopes := List.forall_mem_singleton.2 (.blank (List.forall_mem_nil _) (List.forall_mem_nil _))

theorem enter (h : t.Accounts left stored) (name : String) :
    (t.enter name).Accounts left stored where
  nodup := by
    refine List.nodup_cons.2 ⟨fun hmem ↦ ?_, h.nodup⟩
    obtain ⟨s, hs, hid⟩ := List.mem_map.1 hmem
    exact absurd (h.fresh s hs) (hid ▸ Nat.lt_irrefl t.count)
  fresh := List.forall_mem_cons.2
    ⟨Nat.lt_succ_self _, fun s hs ↦ Nat.lt_succ_of_lt (h.fresh s hs)⟩
  left_lt k hk := Nat.lt_succ_of_lt (h.left_lt k hk)
  stored_lt k hk := Nat.lt_succ_of_lt (h.stored_lt k hk)
  scopes := List.forall_mem_cons.2 ⟨.blank h.left_lt h.stored_lt, h.scopes⟩

theorem exit? (h : t.Accounts left stored) (he : t.exit? = some t') :
    t'.Accounts left stored := by
  obtain ⟨here, inner, outer, count⟩ := t
  rcases outer with - | ⟨e, es⟩
  · exact absurd he.symm (Option.some_ne_none _)
  · obtain rfl := Option.some.inj he
    exact ⟨(List.nodup_cons.1 h.nodup).2, fun s hs ↦ h.fresh s (List.mem_cons_of_mem _ hs),
      h.left_lt, h.stored_lt, fun s hs ↦ h.scopes s (List.mem_cons_of_mem _ hs)⟩

/-- One scope is changed, and with it the history of that scope. -/
theorem edit (h : t.Accounts left stored) {inner outer : List Scope} {s s' : Scope}
    {left' stored' : List (Nat × String)} (hold : t.chain = inner ++ s :: outer)
    (hnew : t'.chain = inner ++ s' :: outer) (hcount : t'.count = t.count) (hid : s'.id = s.id)
    (hleft : ∀ k ∈ left', k.1 = s.id) (hstored : ∀ k ∈ stored', k.1 = s.id)
    (hs' : s'.Accounts (left ++ left') (stored ++ stored')) :
    t'.Accounts (left ++ left') (stored ++ stored') := by
  have hids : t'.chain.map Scope.id = t.chain.map Scope.id := by
    rw [hold, hnew, List.map_append, List.map_append, List.map_cons, List.map_cons, hid]
  have hlt : s.id < t.count := h.fresh s (hold ▸ List.mem_append_right _ List.mem_cons_self)
  have hother : ∀ r ∈ inner ++ outer, r.Accounts (left ++ left') (stored ++ stored') := by
    intro r hr
    have hnodup := h.nodup
    rw [hold, List.map_append, List.map_cons, List.nodup_middle, List.nodup_cons,
      ← List.map_append] at hnodup
    have hne : r.id ≠ s.id := fun heq ↦ hnodup.1 (heq ▸ List.mem_map_of_mem hr)
    have hmem : r ∈ t.chain := by
      rw [hold, List.mem_append, List.mem_cons]
      exact (List.mem_append.1 hr).imp_right .inr
    exact (h.scopes r hmem).of_ne (fun k hk ↦ hleft k hk ▸ hne.symm)
      fun k hk ↦ hstored k hk ▸ hne.symm
  refine ⟨hids ▸ h.nodup, fun r hr ↦ ?_, ?_, ?_, ?_⟩
  · obtain ⟨q, hq, hqr⟩ := List.mem_map.1 (hids ▸ List.mem_map_of_mem (f := Scope.id) hr)
    rw [hcount, ← hqr]
    exact h.fresh q hq
  · rw [hcount]
    exact List.forall_mem_append.2 ⟨h.left_lt, fun k hk ↦ hleft k hk ▸ hlt⟩
  · rw [hcount]
    exact List.forall_mem_append.2 ⟨h.stored_lt, fun k hk ↦ hstored k hk ▸ hlt⟩
  · rw [hnew]
    obtain ⟨hinner, houter⟩ := List.forall_mem_append.1 hother
    exact List.forall_mem_append.2 ⟨hinner, List.forall_mem_cons.2 ⟨hs', houter⟩⟩

/-- A declaration in the current scope. -/
theorem declare (h : t.Accounts left stored) (hnew : t.here.symbols.get? x = none) {s : Scope}
    (hid : s.id = t.here.id) {sym : Symbol}
    (hget : ∀ y, s.symbols.get? y = if y = x then some sym else t.here.symbols.get? y) :
    ScopeTree.Accounts { t with here := s }
      (left ++ if sym.initialized then [] else [(t.here.id, x)]) stored := by
  have hhere := (h.scopes t.here List.mem_cons_self).declare hnew hid hget
  rw [← List.append_nil stored] at hhere ⊢
  have hchain : t.chain = [] ++ t.here :: t.outer.map Enclosing.scope := rfl
  refine h.edit hchain rfl rfl hid (fun k hk ↦ ?_) (List.forall_mem_nil _) hhere
  split at hk
  · exact absurd hk List.not_mem_nil
  · exact List.mem_singleton.1 hk ▸ rfl

theorem declare? (h : t.Accounts left stored) {ty : Ty} {value : Option Value} {pos : Pos}
    (hd : t.declare? x ty value pos = some t') :
    t'.Accounts (left ++ if value.isSome then [] else [(t.here.id, x)]) stored := by
  have hnew : t.containsLocal x = false := containsLocal_of_declare? hd
  rw [t.declare?_eq_some hnew, Option.some.injEq] at hd
  subst hd
  have hnone := (t.here.symbols.contains_eq_false_iff x).1 hnew
  exact h.declare (s := { t.here with symbols := t.here.symbols.push x _ }) hnone rfl
    (t.here.symbols.get?_push (t.newSymbol x ty value pos) hnone)

/-- An assignment to whatever the name finds. -/
theorem assign (h : t.Accounts left stored) (hsound : t.Sound) (x : String)
    (value : Option Value) :
    ((t.assign? x value).getD t).Accounts left (stored ++ (t.resolve x).toList) := by
  rw [resolve]
  rcases ha : t.assign? x value with - | t'
  · rw [binding?_of_modify?_eq_none ha]
    show t.Accounts left (stored ++ [])
    rwa [List.append_nil]
  · obtain ⟨hcount, inner, s, outer, sym, hold, hinner, hsym, hnew⟩ := chain_modify? ha
    have hmem : s ∈ t.chain := hold ▸ List.mem_append_right _ List.mem_cons_self
    rw [binding?_of_chain hold hinner hsym, Option.map_some, (hsound s hmem x sym hsym).name]
    have hassigned := (h.scopes s hmem).assign hsym value
    rw [← List.append_nil left] at hassigned ⊢
    exact h.edit hold hnew hcount rfl (List.forall_mem_nil _) (List.forall_mem_singleton.2 rfl)
      hassigned

/-- A visible variable lacks the mark exactly if its declaration is in the first list and not in the
second. -/
theorem isUnset_eq (h : t.Accounts left stored) (hsound : t.Sound) (x : String) :
    Env.isUnset t.lookup? x =
      (t.resolve x).any fun k ↦ decide (k ∈ left) && decide (k ∉ stored) := by
  rw [Env.isUnset, t.lookup?_eq_binding?, resolve]
  rcases hx : t.binding? x with - | ⟨i, sym⟩
  · rfl
  · have hlookup : t.lookup? x = some sym := by
      rw [t.lookup?_eq_binding?, hx]
      rfl
    have hname : sym.name = x := (hsound.lookup? hlookup).name
    obtain ⟨s, hs, hfound⟩ := List.exists_of_findSome?_eq_some hx
    obtain ⟨sym', hget, hpair⟩ := Option.map_eq_some_iff.1 hfound
    obtain ⟨rfl, rfl⟩ := Prod.mk.inj hpair
    have hmark := (h.scopes s hs).mark x sym' hget
    rw [← hname] at hmark
    simp only [Option.map_some, Option.any_some]
    rw [Bool.eq_iff_iff]
    simpa using hmark

end Accounts

end ScopeTree

end BlockLang
