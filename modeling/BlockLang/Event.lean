import BlockLang.Diagnostic.Basic

/-!
# The log

What a compilation does, step by step. Every record has a level, and its wording stands here.
-/

namespace BlockLang

/-- How important a record of the log is. -/
inductive LogLevel where
  /-- An error was found. -/
  | error
  /-- A warning was found. -/
  | warn
  /-- A pass starts or ends. -/
  | info
  /-- A declaration, a function or a returned value was dealt with. -/
  | debug
  /-- The current scope changes. -/
  | trace
deriving DecidableEq, Repr

/-- The label of a level. -/
def LogLevel.label : LogLevel → String
  | error => "ERROR"
  | warn => "WARN"
  | info => "INFO"
  | debug => "DEBUG"
  | trace => "TRACE"

/-- A record of the log. -/
inductive Event where
  /-- An error was recorded. -/
  | foundError (d : Diagnostic)
  /-- A warning was recorded. -/
  | foundWarning (d : Diagnostic)
  /-- A scope was opened. -/
  | enteredScope (name : String) (level : Nat)
  /-- A scope was left. -/
  | exitedScope (name : String)
  /-- A scope was visited again. -/
  | replayedScope (name : String)
  /-- The analysis starts. -/
  | analysisStarted
  /-- The analysis of the function starts. -/
  | analyzing (function : String) (ty : Ty)
  /-- A variable was declared without an initializer. -/
  | declared (name : String) (ty : Ty)
  /-- A variable was declared with an initializer of the given value, if it is known. -/
  | initialized (name : String) (ty : Ty) (value : Option Value)
  /-- A value is returned, the given one if it is known. -/
  | returned (ty : Ty) (value : Option Value)
  /-- The analysis is over, with this summary of its diagnostics. -/
  | analysisFinished (summary : String)
  /-- There is no code generation, since the analysis found errors. -/
  | generationSkipped (summary : String)
  /-- Code generation starts. -/
  | generationStarted
  /-- The frame of the function has this size. -/
  | framed (function : String) (bytes : Nat)
  /-- Code generation is over and numbered this many constructs. -/
  | generationFinished (labels : Nat)
deriving DecidableEq, Repr

/-- What is known of a returned value, in full. -/
def returnedText : Option Value → String
  | none => "None"
  | some (.int v) => "Some(Int(" ++ toString v.toInt ++ "))"
  | some (.bool b) => "Some(Bool(" ++ toString b ++ "))"

namespace Event

/-- The level of a record. -/
def level : Event → LogLevel
  | foundError _ => .error
  | foundWarning _ => .warn
  | enteredScope _ _ => .trace
  | exitedScope _ => .trace
  | replayedScope _ => .trace
  | analysisStarted => .info
  | analyzing _ _ => .debug
  | declared _ _ => .debug
  | initialized _ _ _ => .debug
  | returned _ _ => .debug
  | analysisFinished _ => .info
  | generationSkipped _ => .info
  | generationStarted => .info
  | framed _ _ => .debug
  | generationFinished _ => .info

/-- The text of a record. -/
def message : Event → String
  | foundError d => d.text
  | foundWarning d => d.text
  | enteredScope x n => s!"enter scope {x} (level {n})"
  | exitedScope x => s!"exit scope {x}"
  | replayedScope x => s!"replay scope {x}"
  | analysisStarted => "semantic analysis started"
  | analyzing f t => s!"analyzing function {f} ({t})"
  | declared x t => s!"declared {x}: {t}"
  | initialized x t none => s!"declared {x}: {t} = ?"
  | initialized x t (some v) => s!"declared {x}: {t} = {v}"
  | returned t v => s!"return {t} = {returnedText v}"
  | analysisFinished m => s!"semantic analysis finished: {m}"
  | generationSkipped m => s!"code generation skipped: {m}"
  | generationStarted => "code generation started"
  | framed f n => s!"function {f}: frame of {n} bytes"
  | generationFinished n => s!"code generation finished ({n} labels)"

end Event

end BlockLang
