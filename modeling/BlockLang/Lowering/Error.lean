import BlockLang.Pos

/-!
# Failures of code generation

Code generation relies on an analysis of the same program. It fails if the scopes it finds do not
fit the program it is given; a mistake in the program itself is never reported this way.
-/

namespace BlockLang

/-- Why no code was generated. -/
inductive LoweringError where
  /-- The variable has no visible declaration with a place to live in. -/
  | unresolvedSymbol (name : String) (pos : Pos)
  /-- The variable has no place to live in. -/
  | missingStorage (name : String) (pos : Pos)
  /-- No scope is left for a block. -/
  | missingScope (pos : Pos)
  /-- A block ends in the outermost scope. -/
  | unbalancedScope (pos : Pos)
deriving DecidableEq, Repr

namespace LoweringError

/-- Where the failure shows. -/
def pos : LoweringError → Pos
  | unresolvedSymbol _ p => p
  | missingStorage _ p => p
  | missingScope p => p
  | unbalancedScope p => p

/-- The failure in words. -/
def message : LoweringError → String
  | unresolvedSymbol x _ => s!"internal: symbol '{x}' is not visible from the current scope"
  | missingStorage x _ => s!"internal: symbol '{x}' has no storage assigned"
  | missingScope _ => "internal: no analyzed scope matches this block"
  | unbalancedScope _ => "internal: scope tree is already at its root"

end LoweringError

end BlockLang
