import BlockLang.Scope.Replay

/-!
# Views of a scope tree

A scope tree seen as a whole, whichever scope is current: as a printed outline, as a list of scopes
by number, and as a few figures.

The outline is made by recursion on the nest. The recursion that is printed by follows numbers of
children, `ScopeArena.outline`; it makes the same text (`ScopeTree.agrees_run`).
-/

namespace BlockLang

/-- A scope with its place among the others. -/
structure ScopeInfo where
  /-- The scope. -/
  scope : Scope
  /-- The number of the scope around it. -/
  parent : Option Nat
  /-- The numbers of the scopes directly inside it, in order. -/
  children : List Nat
  /-- How many scopes are around it. -/
  level : Nat

/-- Whether this is the outermost scope. -/
def ScopeInfo.isGlobal (s : ScopeInfo) : Bool := s.parent.isNone

/-- The figures of a scope tree. -/
structure ScopeStats where
  /-- The number of scopes. -/
  scopes : Nat
  /-- The number of symbols in all scopes. -/
  symbols : Nat
  /-- The name of the current scope. -/
  current : String
  /-- The level of the current scope. -/
  level : Nat
deriving DecidableEq, Repr

/-- The lines on one scope: its name and level, then a line per symbol. The deeper a scope, the
further its lines are indented. -/
def Scope.outline (level : Nat) (s : Scope) : List String :=
  let indent := String.join (List.replicate level "  ")
  (indent ++ s.name ++ " (level " ++ toString level ++ ")") ::
    s.symbols.toList.map (indent ++ "  - " ++ ·.text)

namespace Forest

/-- The numbers of the scopes side by side. -/
def ids : Forest → List Nat
  | nil => []
  | cons s _ l => s.id :: l.ids

/-- The lines on all scopes, each scope before those inside it. This is what `ScopeArena.outline`
makes of the scopes as they are stored. -/
def outline (level : Nat) : Forest → List String
  | nil => []
  | cons s i l => s.outline level ++ i.outline (level + 1) ++ l.outline level

/-- All scopes with their places, each scope before those inside it. -/
def infos (parent : Option Nat) (level : Nat) : Forest → List ScopeInfo
  | nil => []
  | cons s i l =>
    { scope := s, parent, children := i.ids, level } ::
      (i.infos (some s.id) (level + 1) ++ l.infos parent level)

end Forest

namespace ScopeTree

/-- The whole tree, as a forest of the outermost scope alone. -/
def whole (t : ScopeTree) : Forest := .cons t.root.1 t.root.2 .nil

/-- The printed outline of the tree. -/
def text (t : ScopeTree) : String :=
  String.join (t.whole.outline 0 |>.map (· ++ "\n"))

instance : ToString ScopeTree where
  toString := text

/-- All scopes with their places, each scope before those inside it. -/
def infos (t : ScopeTree) : List ScopeInfo := t.whole.infos none 0

/-- The scope with the given number. -/
def scope? (t : ScopeTree) (id : Nat) : Option ScopeInfo :=
  t.infos.find? (·.scope.id = id)

/-- All scopes by number. -/
def listing (t : ScopeTree) : List ScopeInfo :=
  (List.range t.count).filterMap t.scope?

/-- The current scope with its place. -/
def current (t : ScopeTree) : ScopeInfo where
  scope := t.here
  parent := t.outer.head?.map (·.scope.id)
  children := t.inner.ids
  level := t.level

/-- The figures of the tree. -/
def stats (t : ScopeTree) : ScopeStats where
  scopes := t.count
  symbols := t.whole.symbolCount
  current := t.here.name
  level := t.level

end ScopeTree

end BlockLang
