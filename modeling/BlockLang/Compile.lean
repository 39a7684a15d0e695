import BlockLang.Analysis
import BlockLang.Lowering.Program
import BlockLang.Scope.Listing

/-!
# Compilation

A compilation analyzes a program in a fresh session and, if that finds no error, generates code.
-/

namespace BlockLang

/-- The outcome of a compilation. -/
structure Compilation where
  /-- The assembly program; there is none if the compilation failed. -/
  assembly : Option Assembly
  /-- The scopes, diagnostics and log. -/
  session : Session

namespace Compilation

/-- Whether errors were found. -/
def failed (c : Compilation) : Bool := c.session.diagnostics.hasErrors

/-- Whether no error was found. -/
def succeeded (c : Compilation) : Bool := !c.failed

end Compilation

/-- Compiles a program. -/
def Program.compile (o : Options) (p : Program) : Compilation :=
  let analyzed := p.analyze o.entryLabel {}
  if analyzed.diagnostics.hasErrors then
    { assembly := none
      session := analyzed.note (.generationSkipped analyzed.diagnostics.summary) }
  else
    match p.generate o analyzed with
    | (.ok a, s) => { assembly := if s.diagnostics.hasErrors then none else some a, session := s }
    | (.error e, s) => { assembly := none, session := s.report ⟨e.pos, .lowering e⟩ }

end BlockLang
