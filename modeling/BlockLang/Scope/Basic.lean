import BlockLang.Symbol.Table

/-!
# Scopes

Scopes nest: each block opens one inside the scope of the block around it. `ScopeTree` is the whole
nest together with the scope that is current.

## Main definitions

* `ScopeTree.enter`, `ScopeTree.exit?`: opening a new scope inside the current one, and leaving it.
* `ScopeTree.declare?`, `ScopeTree.assign?`, `ScopeTree.place?`: changes to symbols.
* `ScopeTree.lookup?`, `ScopeTree.lookupStored?`: the nearest declaration of a name.

## Implementation notes

The nest is kept as seen from the current scope: the scope itself, the scopes inside it, and the
scopes around it from the innermost outwards. The scopes around it are a list, so a search outwards
is a search in a list, and the level of the current scope is a length. Nothing refers to a scope by
number, although every scope bears one: numbers are given in the order in which scopes are opened
and make the names of scopes distinct. How scopes are stored by number is `ScopeArena`; each
operation here does to the tree what the operation of the same name does to the arena
(`ScopeTree.perform_arena`).

Numbers and levels are natural numbers here and have 32 bits there. They agree as long as fewer than
2 ^ 32 scopes have been opened.

A `Forest` is the first scope with all that is inside it, and the forest of its later siblings. As
with blocks, this makes recursion structural and a proof one induction.
-/

namespace BlockLang

/-- A scope by itself: its symbols, without what is around it or inside it. -/
structure Scope where
  /-- The number of the scope, in the order in which scopes were opened. -/
  id : Nat
  /-- The name, which no other scope of the same tree has. -/
  name : String
  /-- The symbols declared in the scope. -/
  symbols : SymbolTable := {}
  /-- How many of the scopes directly inside it have been visited since the last rewind. -/
  visited : Nat := 0
deriving DecidableEq, Repr

/-- Scopes side by side, each with the scopes inside it. -/
inductive Forest where
  /-- No scopes. -/
  | nil
  /-- A scope, the scopes inside it, and its later siblings. -/
  | cons (scope : Scope) (inner later : Forest)
deriving DecidableEq, Repr

/-- An enclosing scope, as seen from one of the scopes directly inside it. -/
structure Enclosing where
  /-- The enclosing scope. -/
  scope : Scope
  /-- The scopes inside it that come before the one we look from. -/
  earlier : Forest
  /-- The scopes inside it that come after the one we look from. -/
  later : Forest
deriving DecidableEq, Repr

/-- A nest of scopes with a current one. -/
structure ScopeTree where
  /-- The current scope. -/
  here : Scope
  /-- The scopes inside the current one. -/
  inner : Forest := .nil
  /-- The scopes around the current one, the innermost first. -/
  outer : List Enclosing := []
  /-- The number of scopes that have been opened, which is the number of the next one. What is
  stored is one less, in 32 bits. -/
  count : Nat
deriving DecidableEq, Repr

namespace Forest

/-- The scopes of `f` followed by those of `g`. -/
def append : Forest → Forest → Forest
  | nil, g => g
  | cons s i l, g => cons s i (l.append g)

instance : Append Forest where
  append := append

/-- Changes every scope. -/
def map (φ : Scope → Scope) : Forest → Forest
  | nil => nil
  | cons s i l => cons (φ s) (i.map φ) (l.map φ)

/-- The number of scopes side by side. -/
def length : Forest → Nat
  | nil => 0
  | cons _ _ l => l.length + 1

/-- The number of symbols in all scopes. -/
def symbolCount : Forest → Nat
  | nil => 0
  | cons s i l => s.symbols.size + i.symbolCount + l.symbolCount

end Forest

namespace ScopeTree

/-- The outermost scope alone. -/
def empty : ScopeTree where
  here := { id := 0, name := "global" }
  count := 1

instance : Inhabited ScopeTree := ⟨empty⟩

/-- How many scopes are around the current one. What is stored has 32 bits. -/
def level (t : ScopeTree) : Nat := t.outer.length

/-- The current scope and those around it, the innermost first. -/
def chain (t : ScopeTree) : List Scope := t.here :: t.outer.map Enclosing.scope

/-! ### Moving -/

/-- Opens a scope inside the current one, after all others there, and makes it current. Its name is
made distinct by its number. -/
def enter (t : ScopeTree) (name : String) : ScopeTree where
  here := { id := t.count, name := name ++ "_" ++ toString t.count }
  inner := .nil
  outer := ⟨t.here, t.inner, .nil⟩ :: t.outer
  count := t.count + 1

/-- Makes the scope around the current one current, if there is one. -/
def exit? (t : ScopeTree) : Option ScopeTree :=
  match t.outer with
  | [] => none
  | e :: es =>
    some { t with
      here := e.scope
      inner := e.earlier ++ .cons t.here t.inner e.later
      outer := es }

/-! ### Symbols -/

/-- The nearest declaration of `x`. -/
def lookup? (t : ScopeTree) (x : String) : Option Symbol :=
  t.chain.findSome? (·.symbols.get? x)

/-- The declaration of `x` in the current scope. -/
def lookupLocal? (t : ScopeTree) (x : String) : Option Symbol :=
  t.here.symbols.get? x

/-- The nearest declaration of `x` that has a place to live in. While code is generated a symbol has
no place until its declaration is reached, so a declaration further down in the same block does not
capture an earlier use of an outer variable. -/
def lookupStored? (t : ScopeTree) (x : String) : Option Symbol :=
  t.chain.findSome? fun s => (s.symbols.get? x).filter (·.storage.isSome)

/-- Whether `x` is visible from the current scope. -/
def contains (t : ScopeTree) (x : String) : Bool := (t.lookup? x).isSome

/-- Whether the current scope declares `x`. -/
def containsLocal (t : ScopeTree) (x : String) : Bool := t.here.symbols.contains x

/-- Changes the current scope's own symbol `x`. -/
def modifyHere (t : ScopeTree) (x : String) (f : Symbol → Symbol) : ScopeTree :=
  { t with here := { t.here with symbols := t.here.symbols.modify x f } }

/-- Declares `x` in the current scope, unless it is declared there already. A declaration of `x` in
an outer scope is no obstacle; it is hidden. -/
def declare? (t : ScopeTree) (x : String) (ty : Ty) (value : Option Value) (pos : Pos) :
    Option ScopeTree :=
  if t.containsLocal x then none
  else
    let symbol : Symbol :=
      { name := x, ty, value, initialized := value.isSome, pos, owner := t.here.name }
    some { t with here := { t.here with symbols := t.here.symbols.push x symbol } }

/-- Changes the symbol `x` of the first of the given scopes that declares it. -/
def modifyOuter (x : String) (f : Symbol → Symbol) : List Enclosing → Option (List Enclosing)
  | [] => none
  | e :: es =>
    if e.scope.symbols.contains x then
      some ({ e with scope := { e.scope with symbols := e.scope.symbols.modify x f } } :: es)
    else (modifyOuter x f es).map (e :: ·)

/-- Changes the nearest declaration of `x`, if `x` is visible. -/
def modify? (t : ScopeTree) (x : String) (f : Symbol → Symbol) : Option ScopeTree :=
  if t.containsLocal x then some (t.modifyHere x f)
  else (modifyOuter x f t.outer).map fun es => { t with outer := es }

/-- Stores a value, known or not, in the nearest `x`. -/
def assign? (t : ScopeTree) (x : String) (value : Option Value) : Option ScopeTree :=
  t.modify? x (Symbol.assign value)

/-- Gives the current scope's own `x` a place to live in. -/
def place? (t : ScopeTree) (x : String) (storage : Storage) : Option ScopeTree :=
  if t.containsLocal x then some (t.modifyHere x (Symbol.place storage)) else none

end ScopeTree

end BlockLang
