import BlockLang.Proofs.Arena.Invariant
import BlockLang.Proofs.Scope.View
import Mathlib.Data.List.AList

/-!
# Scopes as a stack of maps

Block structure as textbooks have it: a stack of ordered maps from names to what is known of them,
one map for each block that is open. Entering a block pushes an empty map and leaving it drops the
map; a declaration goes into the map on top, and a search or an assignment acts on the first map
from the top that holds the name.

An arena forgets nothing: the scopes of blocks that have been left stay in it with all their
symbols, beside those of the open blocks. To a client that opens and leaves blocks, declares,
assigns and asks, this makes no difference, because all that a request follows are the numbers of
parents. The scopes met on the way out from the current one show the maps of the stack, the
innermost first (`ScopeArena.Chain`), and the numbers along the way decrease. So a scope that is
added at the end of the arena, or changed further in, is not on the way out from its parent
(`Chain.congr`), and a search stops where the stack has the name first (`Chain.exists_resolve`).

Each request is answered alike on both sides and keeps the relation (`ScopeArena.Shows.serve`), so
the answers to a whole sequence of requests are the same (`ScopeArena.answers_eq`). That needs no
bound on the number of scopes: it does not depend on their names and levels.

What happens inside a block that is left again is a `Script`. It may assign to variables around the
block, but the declarations in view after the block are those before it.
-/

namespace BlockLang

/-! ### The stack -/

/-- What a client sees of a symbol. -/
structure Binding where
  /-- The name. -/
  name : String
  /-- The declared type. -/
  ty : Ty
  /-- The value that the variable is known to hold. -/
  value : Option Value
  /-- Whether something has been stored in the variable. -/
  initialized : Bool
  /-- The position of the declaration. -/
  pos : Pos
deriving DecidableEq, Repr

/-- The binding after a store. -/
def Binding.assign (value : Option Value) (b : Binding) : Binding :=
  { b with value := value, initialized := true }

/-- The bindings of one block, each under its name, the newest first. -/
abbrev Bindings := AList fun _ : String ↦ Binding

/-- The bindings of the blocks that are open; there is always one. -/
structure BlockStack where
  /-- The bindings of the innermost block. -/
  top : Bindings := ∅
  /-- The bindings of the blocks around it, from the inside outwards. -/
  below : List Bindings := []

namespace BlockStack

/-- The maps from the top down. -/
def maps (b : BlockStack) : List Bindings := b.top :: b.below

/-- Pushes an empty map. -/
def enter (b : BlockStack) : BlockStack := ⟨∅, b.maps⟩

/-- Drops the map on top, unless it is the last one. -/
def exit? (b : BlockStack) : Option BlockStack :=
  match b.below with
  | [] => none
  | m :: ms => some ⟨m, ms⟩

/-- The binding of `x` in the first map that holds it. -/
def lookup? (b : BlockStack) (x : String) : Option Binding := b.maps.findSome? (·.lookup x)

/-- Inserts `x` into the map on top, unless it is there. -/
def declare? (b : BlockStack) (x : String) (ty : Ty) (value : Option Value) (pos : Pos) :
    Option BlockStack :=
  if x ∈ b.top then none
  else some { b with top := b.top.insert x ⟨x, ty, value, value.isSome, pos⟩ }

/-- Stores a value in `x` in the first of the maps that holds it. -/
def assignBelow (x : String) (value : Option Value) : List Bindings → Option (List Bindings)
  | [] => none
  | m :: ms =>
    match m.lookup x with
    | some b => some (m.replace x (b.assign value) :: ms)
    | none => (assignBelow x value ms).map (m :: ·)

/-- Stores a value in `x` in the first map from the top that holds it. -/
def assign? (b : BlockStack) (x : String) (value : Option Value) : Option BlockStack :=
  match b.top.lookup x with
  | some a => some { b with top := b.top.replace x (a.assign value) }
  | none => (assignBelow x value b.below).map fun ms ↦ { b with below := ms }

end BlockStack

/-! ### Requests -/

/-- A request of a client. -/
inductive Request where
  /-- Open a block. -/
  | enter (name : String)
  /-- Leave the current block. -/
  | exit
  /-- Declare a variable. -/
  | declare (x : String) (ty : Ty) (value : Option Value) (pos : Pos)
  /-- Store a value. -/
  | assign (x : String) (value : Option Value)
  /-- What is `x`? -/
  | lookup (x : String)
  /-- What is `x` in the current block? -/
  | lookupLocal (x : String)
  /-- Is `x` visible? -/
  | contains (x : String)
  /-- Does the current block declare `x`? -/
  | containsLocal (x : String)
  /-- What is the value of `x`? -/
  | value (x : String)
  /-- What is the type of `x`? -/
  | type (x : String)
  /-- Has something been stored in `x`? -/
  | isInitialized (x : String)
deriving DecidableEq, Repr

/-- The answer to a request. -/
inductive Answer where
  /-- The request cannot fail and tells nothing. -/
  | done
  /-- Yes or no; to a request that may fail, whether it succeeded. -/
  | flag (b : Bool)
  /-- The binding that was found, if any. -/
  | binding (b : Option Binding)
  /-- The value that was found, if any. -/
  | value (v : Option Value)
  /-- The type that was found, if any. -/
  | type (t : Option Ty)
deriving DecidableEq, Repr

/-- The answer to a request that may fail, and the state after it: the one it leads to, or the old
one if there is none. -/
def Answer.attempt {S : Type} (result : Option S) (s : S) : Answer × S :=
  (.flag result.isSome, result.getD s)

/-- A stack answers a request. -/
def BlockStack.serve (b : BlockStack) : Request → Answer × BlockStack
  | .enter _ => (.done, b.enter)
  | .exit => Answer.attempt b.exit? b
  | .declare x ty value pos => Answer.attempt (b.declare? x ty value pos) b
  | .assign x value => Answer.attempt (b.assign? x value) b
  | .lookup x => (.binding (b.lookup? x), b)
  | .lookupLocal x => (.binding (b.top.lookup x), b)
  | .contains x => (.flag (b.lookup? x).isSome, b)
  | .containsLocal x => (.flag (decide (x ∈ b.top)), b)
  | .value x => (.value ((b.lookup? x).bind Binding.value), b)
  | .type x => (.type ((b.lookup? x).map Binding.ty), b)
  | .isInitialized x => (.flag ((b.lookup? x).any Binding.initialized), b)

/-- The answers of a stack to requests one after the other, and the stack after them. -/
def BlockStack.serveAll (b : BlockStack) : List Request → List Answer × BlockStack
  | [] => ([], b)
  | r :: rs =>
    let rest := (b.serve r).2.serveAll rs
    ((b.serve r).1 :: rest.1, rest.2)

/-- The symbol as a client sees it. -/
def Symbol.binding (s : Symbol) : Binding := ⟨s.name, s.ty, s.value, s.initialized, s.pos⟩

/-- An arena answers a request. -/
def ScopeArena.serve (a : ScopeArena) : Request → Access (Answer × ScopeArena)
  | .enter name => do return (.done, ← a.enter name)
  | .exit => do return Answer.attempt (← a.exit) a
  | .declare x ty value pos => do return Answer.attempt (← a.declare x ty value pos) a
  | .assign x value => do return Answer.attempt (← a.assign x value) a
  | .lookup x => do return (.binding ((← a.lookup x).map Symbol.binding), a)
  | .lookupLocal x => do return (.binding ((← a.lookupLocal x).map Symbol.binding), a)
  | .contains x => do return (.flag (← a.resolve x).isSome, a)
  | .containsLocal x => do return (.flag ((← a.here).symbols.contains x), a)
  | .value x => do return (.value ((← a.lookup x).bind Symbol.value), a)
  | .type x => do return (.type ((← a.lookup x).map Symbol.ty), a)
  | .isInitialized x => do return (.flag ((← a.lookup x).any Symbol.initialized), a)

/-- The answers of an arena to requests one after the other, and the arena after them. -/
def ScopeArena.serveAll (a : ScopeArena) : List Request → Access (List Answer × ScopeArena)
  | [] => return ([], a)
  | r :: rs => do
    let (answer, next) ← a.serve r
    let (answers, last) ← next.serveAll rs
    return (answer :: answers, last)

/-! ### Symbols and maps -/

/-- Replacing a binding that is there shows under its name only. -/
private theorem lookup_replace {m : Bindings} {x : String} (hx : x ∈ m) (b : Binding) (y : String) :
    (m.replace x b).lookup y = if y = x then some b else m.lookup y := by
  show (List.kreplace x b m.entries).dlookup y = if y = x then some b else m.entries.dlookup y
  have hkeys : x ∈ m.entries.keys := hx
  generalize m.entries = l at hkeys
  induction l with
  | nil => simp at hkeys
  | cons e l ih =>
    obtain ⟨k, a⟩ := e
    by_cases hk : x = k
    · subst hk
      have hfirst : List.kreplace x b (⟨x, a⟩ :: l) = ⟨x, b⟩ :: l :=
        List.lookmap_cons_some _ _ (if_pos rfl)
      rw [hfirst]
      by_cases hy : y = x
      · subst hy
        simp
      · rw [List.dlookup_cons_ne _ _ hy, List.dlookup_cons_ne _ _ hy, if_neg hy]
    · have hlater : List.kreplace x b (⟨k, a⟩ :: l) = ⟨k, a⟩ :: List.kreplace x b l :=
        List.lookmap_cons_none _ _ (if_neg hk)
      have hmem : x ∈ l.keys := by simpa [hk] using hkeys
      rw [hlater]
      by_cases hy : y = k
      · subst hy
        simp [Ne.symm hk]
      · rw [List.dlookup_cons_ne _ _ hy, List.dlookup_cons_ne _ _ hy, ih hmem]

/-- The table holds what the map holds, in the same order. -/
structure SymbolTable.Shows (T : SymbolTable) (m : Bindings) : Prop where
  /-- The same bindings. -/
  get? : ∀ x, (T.get? x).map Symbol.binding = m.lookup x
  /-- In the same order. -/
  names : T.names.reverse = m.keys

namespace SymbolTable.Shows

variable {T : SymbolTable} {m : Bindings}

theorem empty : SymbolTable.Shows {} ∅ := ⟨fun _ ↦ rfl, rfl⟩

theorem contains_eq (h : T.Shows m) (x : String) : T.contains x = decide (x ∈ m) := by
  rw [SymbolTable.contains, ← Option.isSome_map (f := Symbol.binding), h.get?, Bool.eq_iff_iff,
    AList.lookup_isSome, decide_eq_true_eq]

theorem contains_iff (h : T.Shows m) (x : String) : T.contains x = true ↔ x ∈ m := by
  rw [h.contains_eq, decide_eq_true_eq]

theorem push (h : T.Shows m) {x : String} (hx : x ∉ m) (sym : Symbol) :
    (T.push x sym).Shows (m.insert x sym.binding) := by
  have hnew : T.get? x = none := by
    have hnone := h.get? x
    rwa [AList.lookup_eq_none.2 hx, Option.map_eq_none_iff] at hnone
  constructor
  · intro y
    rw [SymbolTable.get?_push _ _ hnew]
    by_cases hy : y = x
    · subst hy
      rw [if_pos rfl, AList.lookup_insert, Option.map_some]
    · rw [if_neg hy, AList.lookup_insert_ne hy, h.get?]
  · show ((T.entries ++ [(x, sym)]).map Prod.fst).reverse = _
    have hnames : (T.entries.map Prod.fst).reverse = m.keys := h.names
    rw [AList.keys_insert, List.erase_of_not_mem (AList.mem_keys.not.1 hx), ← hnames]
    simp

theorem assign (h : T.Shows m) {x : String} {b : Binding} (hx : m.lookup x = some b)
    (value : Option Value) :
    (T.modify x (Symbol.assign value)).Shows (m.replace x (b.assign value)) := by
  have hmem : x ∈ m := AList.lookup_isSome.1 (by rw [hx]; rfl)
  constructor
  · intro y
    rw [SymbolTable.get?_modify, lookup_replace hmem]
    by_cases hy : y = x
    · subst hy
      obtain ⟨sym, hsym, rfl⟩ := Option.map_eq_some_iff.1 ((h.get? y).trans hx)
      rw [if_pos rfl, if_pos rfl, hsym]
      rfl
    · rw [if_neg hy, if_neg hy, h.get?]
  · rw [SymbolTable.names_modify, AList.keys_replace, h.names]

end SymbolTable.Shows

/-! ### The first map that holds a name -/

namespace BlockStack

variable {x : String} {ms before after : List Bindings} {m : Bindings} {bound : Binding}

theorem lookup?_of_maps {b : BlockStack} (hmaps : b.maps = before ++ m :: after)
    (hbefore : ∀ m ∈ before, x ∉ m) (hx : m.lookup x = some bound) : b.lookup? x = some bound := by
  rw [lookup?, hmaps, List.findSome?_append, List.findSome?_cons, hx,
    List.findSome?_eq_none_iff.2 fun m hm ↦ AList.lookup_eq_none.2 (hbefore m hm)]
  rfl

theorem lookup?_of_forall_notMem {b : BlockStack} (h : ∀ m ∈ b.maps, x ∉ m) :
    b.lookup? x = none :=
  List.findSome?_eq_none_iff.2 fun m hm ↦ AList.lookup_eq_none.2 (h m hm)

private theorem assignBelow_of_forall_notMem (h : ∀ m ∈ ms, x ∉ m) (value : Option Value) :
    assignBelow x value ms = none := by
  induction ms with
  | nil => rfl
  | cons m ms ih =>
    rw [List.forall_mem_cons] at h
    rw [assignBelow, AList.lookup_eq_none.2 h.1, ih h.2]
    rfl

private theorem assignBelow_append (hbefore : ∀ m ∈ before, x ∉ m) (hx : m.lookup x = some bound)
    (value : Option Value) :
    assignBelow x value (before ++ m :: after) =
      some (before ++ m.replace x (bound.assign value) :: after) := by
  induction before with
  | nil => rw [List.nil_append, assignBelow, hx, List.nil_append]
  | cons m' before ih =>
    rw [List.forall_mem_cons] at hbefore
    rw [List.cons_append, assignBelow, AList.lookup_eq_none.2 hbefore.1, ih hbefore.2]
    rfl

/-- The map on top is treated like the others. -/
private theorem map_maps_assign? (b : BlockStack) (x : String) (value : Option Value) :
    (b.assign? x value).map maps = assignBelow x value b.maps := by
  rw [assign?, maps, assignBelow]
  rcases b.top.lookup x with - | bound
  · rw [Option.map_map]
    rfl
  · rfl

theorem assign?_of_forall_notMem {b : BlockStack} (h : ∀ m ∈ b.maps, x ∉ m)
    (value : Option Value) : b.assign? x value = none := by
  rw [← Option.map_eq_none_iff, map_maps_assign?, assignBelow_of_forall_notMem h]

theorem assign?_of_maps {b : BlockStack} (hmaps : b.maps = before ++ m :: after)
    (hbefore : ∀ m ∈ before, x ∉ m) (hx : m.lookup x = some bound) (value : Option Value) :
    ∃ b', b.assign? x value = some b' ∧
      b'.maps = before ++ m.replace x (bound.assign value) :: after := by
  rw [← Option.map_eq_some_iff, map_maps_assign?, hmaps, assignBelow_append hbefore hx]

end BlockStack

/-! ### The way out -/

namespace ScopeArena

/-- The scope with the given number and those around it hold what the maps hold, from the inside
outwards. Numbers decrease on the way. -/
inductive Chain (ss : List StoredScope) : Nat → List Bindings → Prop
  /-- The outermost scope. -/
  | outermost {i : Nat} {s : StoredScope} {m : Bindings} (hs : ss[i]? = some s)
    (hshows : s.symbols.Shows m) (hparent : s.parent = none) : Chain ss i [m]
  /-- A scope inside another one. -/
  | inner {i p : Nat} {s : StoredScope} {m : Bindings} {ms : List Bindings} (hs : ss[i]? = some s)
    (hshows : s.symbols.Shows m) (hparent : s.parent = some p) (hlt : p < i)
    (hrest : Chain ss p ms) : Chain ss i (m :: ms)

namespace Chain

variable {ss ss' : List StoredScope} {s s' : StoredScope} {i : Nat} {m m' : Bindings}
  {ms : List Bindings}

/-- Only the scopes met on the way matter, and none of them has a greater number than the first. -/
theorem congr (h : Chain ss i ms) (hsame : ∀ j ≤ i, ss'[j]? = ss[j]?) : Chain ss' i ms := by
  induction h with
  | @outermost i s m hs hshows hparent =>
    exact .outermost ((hsame i (Nat.le_refl i)).trans hs) hshows hparent
  | @inner i p s m ms hs hshows hparent hlt hrest ih =>
    refine .inner ((hsame i (Nat.le_refl i)).trans hs) hshows hparent hlt (ih fun j hj ↦ ?_)
    exact hsame j (hj.trans hlt.le)

theorem exists_head (h : Chain ss i (m :: ms)) : ∃ s, ss[i]? = some s ∧ s.symbols.Shows m := by
  cases h with
  | outermost hs hshows => exact ⟨_, hs, hshows⟩
  | inner hs hshows => exact ⟨_, hs, hshows⟩

/-- A change of the first scope on the way that keeps its parent. -/
theorem update (h : Chain ss i (m :: ms)) (hs : ss[i]? = some s) (hs' : ss'[i]? = some s')
    (hparent : s'.parent = s.parent) (hshows : s'.symbols.Shows m')
    (hsame : ∀ j < i, ss'[j]? = ss[j]?) : Chain ss' i (m' :: ms) := by
  cases h with
  | outermost ht _ hnone =>
    obtain rfl := Option.some.inj (hs.symm.trans ht)
    exact .outermost hs' hshows (hparent.trans hnone)
  | inner ht _ hsome hlt hrest =>
    obtain rfl := Option.some.inj (hs.symm.trans ht)
    refine .inner hs' hshows (hparent.trans hsome) hlt (hrest.congr fun j hj ↦ ?_)
    exact hsame j (hj.trans_lt hlt)

/-- A search for a declaration finds none if no map holds the name. Otherwise it ends in the scope
of the first map that does, and a change of this scope is one of this map alone. -/
theorem exists_resolve {a : ScopeArena} (h : Chain a.scopes i ms) (x : String) :
    let found := a.climb (fun id s ↦ if s.symbols.contains x then some id else none) i
    (found = some none ∧ ∀ m ∈ ms, x ∉ m) ∨
      ∃ j s before m after, found = some (some j) ∧ a.scopes[j]? = some s ∧ s.symbols.Shows m ∧
        x ∈ m ∧ ms = before ++ m :: after ∧ (∀ m ∈ before, x ∉ m) ∧ j ≤ i ∧
        ∀ s' m', s'.parent = s.parent → s'.symbols.Shows m' →
          Chain (a.scopes.set j s') i (before ++ m' :: after) := by
  -- a search that ends at once changes the head of the chain
  have hhere : ∀ {i : Nat} {s : StoredScope} {m : Bindings} {ms : List Bindings},
      Chain a.scopes i (m :: ms) → a.scopes[i]? = some s → ∀ (s' : StoredScope) (m' : Bindings),
        s'.parent = s.parent → s'.symbols.Shows m' → Chain (a.scopes.set i s') i (m' :: ms) := by
    intro i s m ms hchain hs s' m' hparent hshows
    refine hchain.update hs ?_ hparent hshows fun j hj ↦ List.getElem?_set_ne hj.ne'
    exact List.getElem?_set_self (List.getElem?_eq_some_iff.1 hs).1
  induction h with
  | @outermost i s m hs hshows hparent =>
    by_cases hx : x ∈ m
    · have hcontains := (hshows.contains_iff x).2 hx
      refine .inr ⟨i, s, [], m, [], climb_of_some hs (if_pos hcontains), hs, hshows, hx, rfl,
        nofun, Nat.le_refl i, hhere (.outermost hs hshows hparent) hs⟩
    · have hcontains := mt (hshows.contains_iff x).1 hx
      refine .inl ⟨?_, fun m' hm' ↦ List.mem_singleton.1 hm' ▸ hx⟩
      rw [climb_of_none hs (if_neg hcontains), hparent]
  | @inner i p s m ms hs hshows hparent hlt hrest ih =>
    by_cases hx : x ∈ m
    · have hcontains := (hshows.contains_iff x).2 hx
      refine .inr ⟨i, s, [], m, ms, climb_of_some hs (if_pos hcontains), hs, hshows, hx, rfl,
        nofun, Nat.le_refl i, hhere (.inner hs hshows hparent hlt hrest) hs⟩
    · have hcontains := mt (hshows.contains_iff x).1 hx
      rw [climb_of_none hs (if_neg hcontains), hparent]
      rcases ih with ⟨hfound, hnone⟩ | ⟨j, t, before, n, after, hfound, ht, hn, hxn, rfl, hbefore,
        hle, hset⟩
      · exact .inl ⟨hfound, List.forall_mem_cons.2 ⟨hx, hnone⟩⟩
      · refine .inr ⟨j, t, m :: before, n, after, hfound, ht, hn, hxn, rfl,
          List.forall_mem_cons.2 ⟨hx, hbefore⟩, hle.trans hlt.le, fun s' m' hs' hm' ↦ ?_⟩
        have hother : (a.scopes.set j s')[i]? = some s := by
          rw [List.getElem?_set_ne (by omega), hs]
        exact .inner hother hshows hparent hlt (hset s' m' hs' hm')

end Chain

/-! ### Requests to an arena -/

/-- The scopes on the way out from the current one hold what the maps of the stack hold. -/
def Shows (a : ScopeArena) (b : BlockStack) : Prop := Chain a.scopes a.current b.maps

namespace Shows

variable {a : ScopeArena} {b : BlockStack}

theorem empty : ScopeArena.empty.Shows {} := .outermost rfl .empty rfl

theorem exists_here (h : a.Shows b) : ∃ s, a.here = some s ∧ s.symbols.Shows b.top :=
  Chain.exists_head h

theorem enter (h : a.Shows b) (name : String) :
    ∃ a', a.enter name = some a' ∧ a'.Shows b.enter := by
  obtain ⟨here, hhere, hshows⟩ := h.exists_here
  have hlt := lt_of_here hhere
  have hget := getElem?_entered hhere name
  refine ⟨_, enter_eq hhere name, .inner (s := a.child here name) ?_ .empty rfl hlt ?_⟩
  · exact (hget _).trans (if_pos rfl)
  · have hcurrent : (a.entered here name).scopes[a.current]? =
        some { here with children := here.children ++ [a.scopes.length] } := by
      rw [hget, if_neg hlt.ne, if_pos rfl]
    refine Chain.update h hhere hcurrent rfl hshows fun j hj ↦ ?_
    rw [hget, if_neg (by omega), if_neg hj.ne]

theorem exit (h : a.Shows b) : ∃ o, a.exit = some o ∧ Option.Rel Shows o b.exit? := by
  obtain ⟨top, below⟩ := b
  cases h with
  | outermost hs _ hparent =>
    refine ⟨none, ?_, .none⟩
    rw [exit_eq hs, hparent]
    rfl
  | @inner _ p _ _ _ hs _ hparent _ hrest =>
    refine ⟨some { a with current := p }, ?_, ?_⟩
    · rw [exit_eq hs, hparent]
      rfl
    · cases hrest with
      | outermost hs' hshows' hparent' => exact .some (.outermost hs' hshows' hparent')
      | inner hs' hshows' hparent' hlt' hrest' =>
        exact .some (.inner hs' hshows' hparent' hlt' hrest')

theorem declare (h : a.Shows b) (x : String) (ty : Ty) (value : Option Value) (pos : Pos) :
    ∃ o, a.declare x ty value pos = some o ∧ Option.Rel Shows o (b.declare? x ty value pos) := by
  obtain ⟨here, hhere, hshows⟩ := h.exists_here
  rw [declare_eq hhere, hshows.contains_eq, BlockStack.declare?]
  by_cases hx : x ∈ b.top
  · rw [if_pos hx, if_pos (decide_eq_true hx)]
    exact ⟨none, rfl, .none⟩
  · rw [if_neg hx, if_neg (by simpa using hx)]
    refine ⟨_, rfl, .some ?_⟩
    have hlt := lt_of_here hhere
    exact Chain.update h hhere (List.getElem?_set_self hlt) rfl (hshows.push hx _)
      fun j hj ↦ List.getElem?_set_ne hj.ne'

/-- A name is found on one side if and only if it is found on the other. -/
theorem cases_resolve (h : a.Shows b) (x : String) :
    (a.resolve x = some none ∧ b.lookup? x = none ∧ ∀ value, b.assign? x value = none) ∨
      ∃ i s sym, a.resolve x = some (some i) ∧ a.scopes[i]? = some s ∧
        s.symbols.get? x = some sym ∧ b.lookup? x = some sym.binding ∧
        ∀ value, ∃ b', b.assign? x value = some b' ∧
          Shows { a with
            scopes := a.scopes.set i
              { s with symbols := s.symbols.modify x (Symbol.assign value) } } b' := by
  rcases Chain.exists_resolve h x with ⟨hnone, hmaps⟩ | ⟨i, s, before, m, after, hresolve, hs,
    hshows, hx, hmaps, hbefore, -, hset⟩
  · exact .inl ⟨hnone, BlockStack.lookup?_of_forall_notMem hmaps,
      fun value ↦ BlockStack.assign?_of_forall_notMem hmaps value⟩
  · obtain ⟨bound, hbound⟩ := Option.isSome_iff_exists.1 (AList.lookup_isSome.2 hx)
    obtain ⟨sym, hsym, rfl⟩ := Option.map_eq_some_iff.1 ((hshows.get? x).trans hbound)
    refine .inr ⟨i, s, sym, hresolve, hs, hsym, BlockStack.lookup?_of_maps hmaps hbefore hbound,
      fun value ↦ ?_⟩
    obtain ⟨b', hassign, hmaps'⟩ := BlockStack.assign?_of_maps hmaps hbefore hbound value
    refine ⟨b', hassign, ?_⟩
    rw [Shows, hmaps']
    exact hset _ _ rfl (hshows.assign hbound value)

theorem assign (h : a.Shows b) (x : String) (value : Option Value) :
    ∃ o, a.assign x value = some o ∧ Option.Rel Shows o (b.assign? x value) := by
  rcases h.cases_resolve x with ⟨hnone, -, hassign⟩ | ⟨i, s, sym, hresolve, hs, -, -, hassign⟩
  · exact ⟨none, modify_of_resolve_none hnone _, hassign value ▸ .none⟩
  · obtain ⟨b', hb', hshows⟩ := hassign value
    exact ⟨_, modify_of_resolve hresolve hs _, hb' ▸ .some hshows⟩

/-- A search meets the same bindings on both sides. -/
theorem lookup (h : a.Shows b) (x : String) :
    ∃ o, a.lookup x = some o ∧ o.map Symbol.binding = b.lookup? x := by
  rcases h.cases_resolve x with ⟨hnone, hlookup, -⟩ | ⟨i, s, sym, hresolve, hs, hsym, hlookup, -⟩
  · refine ⟨none, ?_, hlookup.symm⟩
    rw [ScopeArena.lookup, hnone]
    rfl
  · refine ⟨some sym, ?_, hlookup.symm⟩
    rw [ScopeArena.lookup, hresolve]
    simp [hs, hsym]

theorem lookupLocal (h : a.Shows b) (x : String) :
    ∃ o, a.lookupLocal x = some o ∧ o.map Symbol.binding = b.top.lookup x := by
  obtain ⟨here, hhere, hshows⟩ := h.exists_here
  refine ⟨here.symbols.get? x, ?_, hshows.get? x⟩
  rw [ScopeArena.lookupLocal, hhere]
  rfl

/-- A request that may fail does so on both sides or on neither, and then nothing changes. -/
theorem attempt (h : a.Shows b) {result : Access (Option ScopeArena)} {b' : Option BlockStack}
    (hresult : ∃ o, result = some o ∧ Option.Rel Shows o b') :
    ∃ a', (do return Answer.attempt (← result) a : Access (Answer × ScopeArena)) =
        some ((Answer.attempt b' b).1, a') ∧ a'.Shows (Answer.attempt b' b).2 := by
  obtain ⟨o, rfl, hrel⟩ := hresult
  rcases hrel with ⟨hnew⟩ | -
  · exact ⟨_, rfl, hnew⟩
  · exact ⟨a, rfl, h⟩

/-- A question about the binding of a name is answered alike, if the answer to what a symbol shows
is the answer to the symbol. -/
theorem ask (h : a.Shows b) (x : String) (answer : Option Symbol → Answer)
    (answer' : Option Binding → Answer) (heq : ∀ o, answer o = answer' (o.map Symbol.binding)) :
    ∃ a', (do return (answer (← a.lookup x), a) : Access (Answer × ScopeArena)) =
        some (answer' (b.lookup? x), a') ∧ a'.Shows b := by
  obtain ⟨o, ho, hbinding⟩ := h.lookup x
  refine ⟨a, ?_, h⟩
  rw [ho, ← hbinding, ← heq]
  rfl

/-- An arena and the stack that it shows give the same answer to a request, and afterwards the arena
shows the stack again. -/
theorem serve (h : a.Shows b) (r : Request) :
    ∃ a', a.serve r = some ((b.serve r).1, a') ∧ a'.Shows (b.serve r).2 := by
  cases r with
  | enter name =>
    obtain ⟨a', henter, hshows⟩ := h.enter name
    refine ⟨a', ?_, hshows⟩
    rw [ScopeArena.serve, henter]
    rfl
  | exit => exact h.attempt h.exit
  | declare x ty value pos => exact h.attempt (h.declare x ty value pos)
  | assign x value => exact h.attempt (h.assign x value)
  | lookup x =>
    exact h.ask x (fun o ↦ .binding (o.map Symbol.binding)) .binding fun _ ↦ rfl
  | lookupLocal x =>
    obtain ⟨o, ho, hbinding⟩ := h.lookupLocal x
    refine ⟨a, ?_, h⟩
    rw [ScopeArena.serve, ho, BlockStack.serve, ← hbinding]
    rfl
  | contains x =>
    refine ⟨a, ?_, h⟩
    rw [ScopeArena.serve, BlockStack.serve]
    rcases h.cases_resolve x with ⟨hnone, hlookup, -⟩ | ⟨i, s, sym, hresolve, -, -, hlookup, -⟩
    · rw [hnone, hlookup]
      rfl
    · rw [hresolve, hlookup]
      rfl
  | containsLocal x =>
    obtain ⟨here, hhere, hshows⟩ := h.exists_here
    refine ⟨a, ?_, h⟩
    rw [ScopeArena.serve, hhere, BlockStack.serve, ← hshows.contains_eq]
    rfl
  | value x =>
    exact h.ask x (fun o ↦ .value (o.bind Symbol.value)) (fun o ↦ .value (o.bind Binding.value))
      fun o ↦ by cases o <;> rfl
  | type x =>
    exact h.ask x (fun o ↦ .type (o.map Symbol.ty)) (fun o ↦ .type (o.map Binding.ty))
      fun o ↦ by cases o <;> rfl
  | isInitialized x =>
    exact h.ask x (fun o ↦ .flag (o.any Symbol.initialized))
      (fun o ↦ .flag (o.any Binding.initialized)) fun o ↦ by cases o <;> rfl

/-- The same for a sequence of requests. -/
theorem serveAll (h : a.Shows b) (rs : List Request) :
    ∃ a', a.serveAll rs = some ((b.serveAll rs).1, a') ∧ a'.Shows (b.serveAll rs).2 := by
  induction rs generalizing a b with
  | nil => exact ⟨a, rfl, h⟩
  | cons r rs ih =>
    obtain ⟨next, hserve, hnext⟩ := h.serve r
    obtain ⟨last, hrest, hlast⟩ := ih hnext
    refine ⟨last, ?_, hlast⟩
    rw [ScopeArena.serveAll, hserve]
    show (next.serveAll rs).bind _ = _
    rw [hrest]
    rfl

end Shows

end ScopeArena

/-! ### Blocks that are left again -/

/-- Whether the request stays in the current block. -/
def Request.stays : Request → Bool
  | enter _ => false
  | exit => false
  | _ => true

/-- What happens in a block from its start to its end: requests that stay in it, and blocks inside
it, each of which is left again. -/
inductive Script where
  /-- Nothing more. -/
  | done
  /-- A request that stays in the block, then the rest. -/
  | request (r : Request) (stays : r.stays = true) (rest : Script)
  /-- A block inside, then the rest. -/
  | block (name : String) (inner rest : Script)

/-- The requests of a script in order. -/
def Script.requests : Script → List Request
  | done => []
  | request r _ rest => r :: rest.requests
  | block name inner rest => .enter name :: inner.requests ++ .exit :: rest.requests

/-- What the declaration of a variable says. -/
def Binding.declared (b : Binding) : String × Ty × Pos := (b.name, b.ty, b.pos)

/-- What the declaration of a symbol says. -/
def Symbol.declared (s : Symbol) : String × Ty × Pos := (s.name, s.ty, s.pos)

namespace BlockStack

variable {b b' : BlockStack}

/-- The declarations in the maps, from the top down. -/
def declarations (b : BlockStack) : List (String → Option (String × Ty × Pos)) :=
  b.maps.map fun m x ↦ (m.lookup x).map Binding.declared

theorem map_lookup? (b : BlockStack) (x : String) :
    (b.lookup? x).map Binding.declared = b.declarations.findSome? (· x) := by
  rw [lookup?, declarations, List.map_findSome?, List.findSome?_map]
  rfl

private theorem declared_assignBelow {x : String} {value : Option Value} {ms ms' : List Bindings}
    (h : assignBelow x value ms = some ms') :
    (ms'.map fun m y ↦ (m.lookup y).map Binding.declared) =
      ms.map fun m y ↦ (m.lookup y).map Binding.declared := by
  induction ms generalizing ms' with
  | nil => cases h
  | cons m ms ih =>
    rw [assignBelow] at h
    rcases hx : m.lookup x with - | bound
    · rw [hx] at h
      obtain ⟨ms'', hms, rfl⟩ := Option.map_eq_some_iff.1 h
      rw [List.map_cons, List.map_cons, ih hms]
    · rw [hx] at h
      obtain rfl := Option.some.inj h
      rw [List.map_cons, List.map_cons]
      refine congrArg (· :: _) (funext fun y ↦ ?_)
      rw [lookup_replace (AList.lookup_isSome.1 (by rw [hx]; rfl))]
      by_cases hy : y = x
      · subst hy
        rw [if_pos rfl, hx]
        rfl
      · rw [if_neg hy]

/-- A request that stays in the block changes no declaration around it. -/
theorem tail_declarations_serve (b : BlockStack) {r : Request} (hr : r.stays = true) :
    (b.serve r).2.declarations.tail = b.declarations.tail := by
  cases r with
  | enter name => cases hr
  | exit => cases hr
  | declare x ty value pos =>
    show ((b.declare? x ty value pos).getD b).declarations.tail = _
    rw [declare?]
    split <;> rfl
  | assign x value =>
    show ((b.assign? x value).getD b).declarations.tail = _
    rcases hassign : b.assign? x value with - | b'
    · rfl
    · have hmaps := b.map_maps_assign? x value
      rw [hassign, Option.map_some] at hmaps
      rw [Option.getD_some, declarations, declared_assignBelow hmaps.symm, declarations]
  | lookup | lookupLocal | contains | containsLocal | value | type | isInitialized => rfl

private theorem declarations_exit (h : b'.declarations.tail = b.enter.declarations.tail) :
    (b'.serve .exit).2.declarations = b.declarations := by
  obtain ⟨top, below⟩ := b'
  cases below with
  | nil => cases h
  | cons m ms => exact h

theorem serveAll_append (b : BlockStack) (rs rs' : List Request) :
    (b.serveAll (rs ++ rs')).2 = ((b.serveAll rs).2.serveAll rs').2 := by
  induction rs generalizing b with
  | nil => rfl
  | cons r rs ih => exact ih (b.serve r).2

/-- A script changes no declaration around its block. -/
theorem tail_declarations_serveAll (w : Script) (b : BlockStack) :
    (b.serveAll w.requests).2.declarations.tail = b.declarations.tail := by
  induction w generalizing b with
  | done => rfl
  | request r hr rest ih => exact (ih (b.serve r).2).trans (b.tail_declarations_serve hr)
  | block name inner rest ihinner ih =>
    have hblock : (b.serveAll (Script.block name inner rest).requests).2 =
        (((b.enter.serveAll inner.requests).2.serve .exit).2.serveAll rest.requests).2 :=
      b.enter.serveAll_append inner.requests (.exit :: rest.requests)
    rw [hblock, ih, declarations_exit (ihinner b.enter)]

/-- After a block has been left, the declarations in view are those before it. -/
theorem declarations_serveAll_block (b : BlockStack) (name : String) (w : Script) :
    (b.serveAll (.enter name :: w.requests ++ [.exit])).2.declarations = b.declarations := by
  have hblock : (b.serveAll (.enter name :: w.requests ++ [.exit])).2 =
      ((b.enter.serveAll w.requests).2.serve .exit).2 :=
    b.enter.serveAll_append w.requests [.exit]
  rw [hblock, declarations_exit (tail_declarations_serveAll w b.enter)]

end BlockStack

namespace ScopeArena

/-- An arena refines textbook block structure: starting anew, an arena and a stack of maps give the
same answers to every sequence of requests. In particular, whatever was asked before, the
declarations of a block are gone when it has been left: every search, in the current scope or
outwards, finds the declaration that it would have found before the block, or none. -/
theorem answers_eq (rs : List Request) :
    (ScopeArena.empty.serveAll rs).map Prod.fst = some (BlockStack.serveAll {} rs).1 ∧
      ∀ (name : String) (w : Script), ∃ before after,
        (ScopeArena.empty.serveAll rs).map Prod.snd = some before ∧
          (ScopeArena.empty.serveAll (rs ++ (.enter name :: w.requests ++ [.exit]))).map Prod.snd =
            some after ∧
          ∀ x, ∃ found foundHere,
            (before.lookup x).map (·.map Symbol.declared) = some found ∧
              (after.lookup x).map (·.map Symbol.declared) = some found ∧
              (before.lookupLocal x).map (·.map Symbol.declared) = some foundHere ∧
              (after.lookupLocal x).map (·.map Symbol.declared) = some foundHere := by
  obtain ⟨before, hbefore, hshows⟩ := Shows.empty.serveAll rs
  refine ⟨by rw [hbefore]; rfl, fun name w ↦ ?_⟩
  obtain ⟨after, hafter, hshows'⟩ :=
    Shows.empty.serveAll (rs ++ (.enter name :: w.requests ++ [.exit]))
  refine ⟨before, after, by rw [hbefore]; rfl, by rw [hafter]; rfl, fun x ↦ ?_⟩
  -- what the searches find is read off the declarations of the stack
  have hlookup : ∀ {a : ScopeArena} {b : BlockStack}, a.Shows b →
      (a.lookup x).map (·.map Symbol.declared) = some (b.declarations.findSome? (· x)) ∧
        (a.lookupLocal x).map (·.map Symbol.declared) =
          some (b.declarations.head?.bind (· x)) := by
    intro a b h
    obtain ⟨o, ho, hbinding⟩ := h.lookup x
    obtain ⟨o', ho', hbinding'⟩ := h.lookupLocal x
    have hhere : b.declarations.head?.bind (· x) = (o'.map Symbol.binding).map Binding.declared :=
      congrArg (Option.map Binding.declared) hbinding'.symm
    rw [ho, ho', ← b.map_lookup?, ← hbinding, hhere, Option.map_map, Option.map_map]
    exact ⟨rfl, rfl⟩
  have hsame := BlockStack.declarations_serveAll_block (BlockStack.serveAll {} rs).2 name w
  rw [← BlockStack.serveAll_append] at hsame
  obtain ⟨hfound, hfoundHere⟩ := hlookup hshows
  obtain ⟨hfound', hfoundHere'⟩ := hlookup hshows'
  rw [hsame] at hfound' hfoundHere'
  exact ⟨_, _, hfound, hfound', hfoundHere, hfoundHere'⟩

end ScopeArena

end BlockLang
