import BlockLang.Event
import BlockLang.Scope.Replay

/-!
# Sessions

What the passes work on: the scopes, the diagnostics and the log. A pass is a function from sessions
to sessions, so passes may follow one another in any order.
-/

namespace BlockLang

/-- The state that the passes share. -/
structure Session where
  /-- The scopes. -/
  scopes : ScopeTree := .empty
  /-- The diagnostics. -/
  diagnostics : Diagnostics := ∅
  /-- The log, oldest record first. -/
  log : List Event := []
deriving DecidableEq, Repr

namespace Session

/-- Adds a record to the log. -/
def note (s : Session) (e : Event) : Session :=
  { s with log := s.log ++ [e] }

/-- Records a diagnostic. -/
def report (s : Session) (d : Diagnostic) : Session :=
  let s' := { s with diagnostics := s.diagnostics.report d }
  s'.note (if d.category = .warning then .foundWarning d else .foundError d)

/-- Records diagnostics in order. -/
def reportAll (s : Session) (ds : List Diagnostic) : Session :=
  ds.foldl report s

/-- Opens a scope inside the current one. -/
def enter (s : Session) (name : String) : Session :=
  let scopes := s.scopes.enter name
  { s with scopes }.note (.enteredScope scopes.here.name scopes.level)

/-- Leaves the current scope, if it is not the outermost one. -/
def exit? (s : Session) : Option Session :=
  s.scopes.exit?.map fun scopes => { s with scopes }.note (.exitedScope s.scopes.here.name)

/-- Leaves the current scope; in the outermost one nothing changes. -/
def exit (s : Session) : Session := s.exit?.getD s

/-- Visits the next scope inside the current one again. -/
def descend? (s : Session) : Option Session :=
  s.scopes.descend?.map fun scopes => { s with scopes }.note (.replayedScope scopes.here.name)

/-- Goes back to the outermost scope. -/
def rewind (s : Session) : Session := { s with scopes := s.scopes.rewind }

/-- Declares a variable in the current scope, unless it is declared there already. -/
def declare (s : Session) (x : String) (ty : Ty) (value : Option Value) (pos : Pos) : Session :=
  { s with scopes := (s.scopes.declare? x ty value pos).getD s.scopes }

/-- Stores a value in the nearest `x`, if there is one. -/
def assign (s : Session) (x : String) (value : Option Value) : Session :=
  { s with scopes := (s.scopes.assign? x value).getD s.scopes }

end Session

end BlockLang
