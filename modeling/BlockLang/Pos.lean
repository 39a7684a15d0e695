/-!
# Source positions

Every node of a program carries the place it was read from, so that a problem can be reported at
that place. Nothing else in the library looks at a position.
-/

namespace BlockLang

/-- A place in the source text. Lines and columns count from one; a zero stands for an unknown
place. -/
structure Pos where
  /-- The line. -/
  line : Nat := 0
  /-- The column within the line. -/
  column : Nat := 0
deriving DecidableEq, Repr, Inhabited, Ord

instance : ToString Pos where
  toString p := s!"Line {p.line}, Column {p.column}"

end BlockLang
