import BlockLang.Diagnostic.Basic

/-!
# Writing diagnostics out

Warnings go to one sink and errors to another, one line each, all warnings before the first error. A
line goes out in pieces, each part of its wording by itself. A sink may be of limited size: it takes
bytes as long as there is room, and the first write that does not fit ends the whole run.
-/

namespace BlockLang

/-- A place that bytes are written to. -/
structure Sink where
  /-- How many bytes it takes; without a limit it takes all. -/
  capacity : Option Nat := none
  /-- The bytes written so far. -/
  written : List UInt8 := []
deriving DecidableEq, Repr

namespace Sink

/-- How many of `n` further bytes fit. -/
def room (s : Sink) (n : Nat) : Nat :=
  match s.capacity with
  | none => n
  | some c => min n (c - s.written.length)

/-- Writes as many of the bytes as fit, and tells whether all did. -/
def write (s : Sink) (bytes : List UInt8) : Sink × Bool :=
  ({ s with written := s.written ++ bytes.take (s.room bytes.length) },
    s.room bytes.length = bytes.length)

/-- Writes pieces in order until one does not fit, and tells whether all did. -/
def writeAll (s : Sink) : List (List UInt8) → Sink × Bool
  | [] => (s, true)
  | piece :: pieces =>
    match s.write piece with
    | (s', true) => s'.writeAll pieces
    | (s', false) => (s', false)

end Sink

/-- The bytes of a text. -/
def utf8 (text : String) : List UInt8 := text.toUTF8.data.toList

/-- The pieces in which a position is written. -/
def Pos.pieces (p : Pos) : List String :=
  ["Line ", toString p.line, ", Column ", toString p.column]

/-- The pieces in which the line on a diagnostic is written. -/
def Diagnostic.pieces (d : Diagnostic) : List String :=
  ["[", d.category.label, "] "] ++ d.pos.pieces ++ [": ", d.message, "\n"]

/-- The outcome of writing diagnostics out. -/
structure Emission where
  /-- The sink for warnings, afterwards. -/
  out : Sink
  /-- The sink for errors, afterwards. -/
  err : Sink
  /-- The diagnostics that are held afterwards. -/
  held : Diagnostics
  /-- Whether everything fitted. -/
  complete : Bool
deriving DecidableEq, Repr

/-- Writes the warnings to `out` and then, if they fitted, the errors to `err`. -/
def Diagnostics.emit (ds : Diagnostics) (out err : Sink) : Emission :=
  match out.writeAll ((ds.warnings.flatMap Diagnostic.pieces).map utf8) with
  | (out', false) => ⟨out', err, ds, false⟩
  | (out', true) =>
    match err.writeAll ((ds.errors.flatMap Diagnostic.pieces).map utf8) with
    | (err', complete) => ⟨out', err', ds, complete⟩

end BlockLang
