import BlockLang.Scope.Listing

/-!
# Scopes in an arena

Scopes as they are stored: in one list, in which a scope stands at its number and refers to the
scopes around it and inside it by their numbers. Nothing is ever taken out of the list.

A `ScopeTree` is the same nest of scopes without any reference to follow. What can go wrong here
cannot be said there: a number may belong to no scope, a search outwards or the printing of the
scopes may go round in circles, and the counter that makes names distinct is another number than
that of the scopes. The functions below are those of `ScopeTree`, one by one, over stored numbers.

## Main definitions

* `ScopeArena.enter`, `ScopeArena.exit`, `ScopeArena.descend`, `ScopeArena.rewind`: moving.
* `ScopeArena.climb`: a search from scope to scope outwards.
* `ScopeArena.declare`, `ScopeArena.assign`, `ScopeArena.place`: changes to symbols.
* `ScopeArena.outline`: the lines that are printed on a scope and on those inside it.

## Implementation notes

The two searches and the printing are recursive along numbers that are read from the list, and not
along the list, so they are defined as least fixed points: they have no result if they do not end.

The counter and the levels have 32 bits and wrap around. They are what they are meant to be as long
as fewer than 2 ^ 32 scopes have been opened.
-/

namespace BlockLang

/-- The result of following numbers of scopes. There is none if one of them belongs to no scope, or
if following them does not end. -/
abbrev Access (α : Type) := Option α

/-- A scope as it is stored. Its number is where it stands. -/
structure StoredScope where
  /-- The name. -/
  name : String
  /-- The number of the scope around it. -/
  parent : Option Nat
  /-- The numbers of the scopes directly inside it, in the order in which they were opened. -/
  children : List Nat := []
  /-- The symbols declared in the scope. -/
  symbols : SymbolTable := {}
  /-- How many scopes are around it. -/
  level : UInt32
  /-- The place among its children of the one to be visited next. -/
  cursor : Nat := 0
deriving DecidableEq, Repr

namespace StoredScope

/-- What the lines on the scope start with. -/
def indent (s : StoredScope) : String := String.join (List.replicate s.level.toNat "  ")

/-- The line on the scope itself. -/
def heading (s : StoredScope) : String :=
  s.indent ++ s.name ++ " (level " ++ toString s.level ++ ")"

/-- The line on a symbol of the scope. -/
def item (s : StoredScope) (symbol : Symbol) : String := s.indent ++ "  - " ++ symbol.text

/-- The lines on the scope and on its symbols, in the order of their declaration. -/
def lines (s : StoredScope) : List String := s.heading :: s.symbols.toList.map s.item

end StoredScope

/-- All scopes, one of them current. -/
structure ScopeArena where
  /-- The scopes by number. -/
  scopes : List StoredScope
  /-- The number of the current scope. -/
  current : Nat
  /-- How many scopes have been opened. -/
  counter : UInt32
deriving DecidableEq, Repr

namespace ScopeArena

variable {α : Type}

/-- The outermost scope alone. -/
def empty : ScopeArena where
  scopes := [{ name := "global", parent := none, level := 0 }]
  current := 0
  counter := 0

instance : Inhabited ScopeArena := ⟨empty⟩

/-- The current scope. -/
def here (a : ScopeArena) : Access StoredScope := a.scopes[a.current]?

/-- Changes the scope with the given number. -/
def update (a : ScopeArena) (id : Nat) (f : StoredScope → StoredScope) : Access ScopeArena :=
  a.scopes[id]?.map fun s => { a with scopes := a.scopes.set id (f s) }

/-! ### Moving -/

/-- Opens a scope inside the current one and makes it current. Its name is made distinct by the
counter, and its number is that of the scopes before it. -/
def enter (a : ScopeArena) (name : String) : Access ScopeArena := do
  let here ← a.here
  let counter := a.counter + 1
  let id := a.scopes.length
  let scope : StoredScope :=
    { name := name ++ "_" ++ toString counter, parent := some a.current, level := here.level + 1 }
  let linked ← { a with scopes := a.scopes ++ [scope] }.update a.current fun s =>
    { s with children := s.children ++ [id] }
  return { linked with current := id, counter }

/-- Makes the scope around the current one current, if there is one. -/
def exit (a : ScopeArena) : Access (Option ScopeArena) := do
  let here ← a.here
  return here.parent.map fun id => { a with current := id }

/-- Makes the outermost scope current and puts all cursors back. -/
def rewind (a : ScopeArena) : ScopeArena where
  scopes := a.scopes.map ({ · with cursor := 0 })
  current := 0
  counter := a.counter

/-- Makes the child at the cursor of the current scope current, if there is one, and moves the
cursor on. -/
def descend (a : ScopeArena) : Access (Option ScopeArena) := do
  let here ← a.here
  match here.children[here.cursor]? with
  | none => return none
  | some child =>
    let moved ← a.update a.current fun s => { s with cursor := s.cursor + 1 }
    return some { moved with current := child }

/-! ### Searches -/

/-- What `f` finds in the scope with the given number, or else in the nearest scope around it where
it finds something. -/
def climb (a : ScopeArena) (f : Nat → StoredScope → Option α) (id : Nat) : Access (Option α) := do
  let s ← a.scopes[id]?
  match f id s, s.parent with
  | some r, _ => return some r
  | none, some parent => a |>.climb f parent
  | none, none => return none
partial_fixpoint

/-- The number of the nearest scope that declares `x`. -/
def resolve (a : ScopeArena) (x : String) : Access (Option Nat) :=
  a.climb (fun id s => if s.symbols.contains x then some id else none) a.current

/-- The nearest declaration of `x`. -/
def lookup (a : ScopeArena) (x : String) : Access (Option Symbol) := do
  match ← a.resolve x with
  | none => return none
  | some id => return (← a.scopes[id]?).symbols.get? x

/-- The declaration of `x` in the current scope. -/
def lookupLocal (a : ScopeArena) (x : String) : Access (Option Symbol) := do
  return (← a.here).symbols.get? x

/-- The nearest declaration of `x` that has a place to live in. -/
def lookupStored (a : ScopeArena) (x : String) : Access (Option Symbol) :=
  a.climb (fun _ s => (s.symbols.get? x).filter (·.storage.isSome)) a.current

/-! ### Symbols -/

/-- Declares `x` in the current scope, unless it is declared there already. -/
def declare (a : ScopeArena) (x : String) (ty : Ty) (value : Option Value) (pos : Pos) :
    Access (Option ScopeArena) := do
  let here ← a.here
  if here.symbols.contains x then
    return none
  else
    let symbol : Symbol :=
      { name := x, ty, value, initialized := value.isSome, pos, owner := here.name }
    return some (← a.update a.current fun s => { s with symbols := s.symbols.push x symbol })

/-- Changes the nearest declaration of `x`, if `x` is visible. -/
def modify (a : ScopeArena) (x : String) (f : Symbol → Symbol) : Access (Option ScopeArena) := do
  match ← a.resolve x with
  | none => return none
  | some id =>
    return some (← a.update id fun s => { s with symbols := s.symbols.modify x f })

/-- Stores a value, known or not, in the nearest `x`. -/
def assign (a : ScopeArena) (x : String) (value : Option Value) : Access (Option ScopeArena) :=
  a.modify x (Symbol.assign value)

/-- Gives the current scope's own `x` a place to live in. -/
def place (a : ScopeArena) (x : String) (storage : Storage) : Access (Option ScopeArena) := do
  let here ← a.here
  if here.symbols.contains x then
    return some (← a.update a.current fun s =>
      { s with symbols := s.symbols.modify x (Symbol.place storage) })
  else
    return none

/-! ### Views -/

/-- The figures of the arena. -/
def stats (a : ScopeArena) : Access ScopeStats := do
  let here ← a.here
  return {
    scopes := a.scopes.length
    symbols := a.scopes.foldr (·.symbols.size + ·) 0
    current := here.name
    level := here.level.toNat }

/-- The lines on the scope with the given number, followed by those on the scopes inside it. -/
def outline (a : ScopeArena) (id : Nat) : Access (List String) := do
  let s ← a.scopes[id]?
  let inner ← s.children.mapM (a |>.outline)
  return s.lines ++ inner.flatten
partial_fixpoint

/-- The printed outline of all scopes. -/
def text (a : ScopeArena) : Access String := do
  return String.join ((← a.outline 0).map (· ++ "\n"))

end ScopeArena

end BlockLang
