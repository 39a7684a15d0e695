import BlockLang.Scope.Basic

/-!
# Visiting scopes again

The scopes that an analysis opened can be visited a second time in the same order: `rewind` goes
back to the outermost scope, and each `descend?` enters the next scope inside the current one that
has not been visited since.
-/

namespace BlockLang

/-- A forest cut at one of its scopes. -/
structure Forest.Cut where
  /-- What comes before the scope. -/
  earlier : Forest
  /-- The scope. -/
  scope : Scope
  /-- The scopes inside it. -/
  inner : Forest
  /-- What comes after it. -/
  later : Forest

/-- The forest cut at its `n`-th scope, counted from zero. -/
def Forest.cut? : Forest → Nat → Option Forest.Cut
  | nil, _ => none
  | cons s i l, 0 => some ⟨.nil, s, i, l⟩
  | cons s i l, n + 1 => (l.cut? n).map fun c => { c with earlier := .cons s i c.earlier }

/-- The scope with none of the scopes inside it visited. -/
def Scope.unvisited (s : Scope) : Scope := { s with visited := 0 }

namespace ScopeTree

/-- All scopes inside the outermost one, and that one, put together from a current scope and the
scopes around it. -/
def unwind (here : Scope) (inner : Forest) : List Enclosing → Scope × Forest
  | [] => (here, inner)
  | e :: es => unwind e.scope (e.earlier ++ .cons here inner e.later) es

/-- The outermost scope and all scopes inside it. -/
def root (t : ScopeTree) : Scope × Forest := unwind t.here t.inner t.outer

/-- Makes the outermost scope current and forgets which scopes have been visited. -/
def rewind (t : ScopeTree) : ScopeTree where
  here := t.root.1.unvisited
  inner := t.root.2.map Scope.unvisited
  outer := []
  count := t.count

/-- Makes the next unvisited scope inside the current one current, if there is one. -/
def descend? (t : ScopeTree) : Option ScopeTree :=
  (t.inner.cut? t.here.visited).map fun c =>
    { t with
      here := c.scope
      inner := c.inner
      outer := ⟨{ t.here with visited := t.here.visited + 1 }, c.earlier, c.later⟩ :: t.outer }

end ScopeTree

end BlockLang
