import BlockLang.Diagnostic.Problem

/-!
# Diagnostics

Problems at their positions, collected in the order in which they were found. An analysis never
stops at a problem, so one compilation may collect many. An error makes a compilation fail; a
warning does not.
-/

namespace BlockLang

/-- A problem and where it was found. -/
structure Diagnostic where
  /-- Where it was found. -/
  pos : Pos
  /-- What was found. -/
  problem : Problem
deriving DecidableEq, Repr

namespace Diagnostic

/-- The kind of the problem. -/
def category (d : Diagnostic) : Category := d.problem.category

/-- The problem in words. -/
def message (d : Diagnostic) : String := d.problem.message

/-- One line on the diagnostic. -/
def text (d : Diagnostic) : String :=
  "[" ++ d.category.label ++ "] " ++ toString d.pos ++ ": " ++ d.message

instance : ToString Diagnostic where
  toString := text

end Diagnostic

/-- The diagnostics of a compilation. -/
structure Diagnostics where
  /-- The errors, oldest first. -/
  errors : List Diagnostic := []
  /-- The warnings, oldest first. -/
  warnings : List Diagnostic := []
deriving DecidableEq, Repr

namespace Diagnostics

instance : EmptyCollection Diagnostics := ⟨{}⟩

/-- Adds an error. -/
def addError (ds : Diagnostics) (d : Diagnostic) : Diagnostics :=
  { ds with errors := ds.errors ++ [d] }

/-- Adds a warning. -/
def addWarning (ds : Diagnostics) (d : Diagnostic) : Diagnostics :=
  { ds with warnings := ds.warnings ++ [d] }

/-- Adds a diagnostic where its category puts it. -/
def report (ds : Diagnostics) (d : Diagnostic) : Diagnostics :=
  if d.category = .warning then ds.addWarning d else ds.addError d

/-- Whether the compilation has failed. -/
def hasErrors (ds : Diagnostics) : Bool := !ds.errors.isEmpty

/-- The numbers of errors and warnings. -/
def summary (ds : Diagnostics) : String :=
  s!"{ds.errors.length} error(s), {ds.warnings.length} warning(s)"

end Diagnostics

end BlockLang
