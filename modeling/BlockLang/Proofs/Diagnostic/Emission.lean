import BlockLang.Diagnostic.Emit

/-!
# Diagnostics on sinks that fill up

A line goes out in pieces and a sink may be full inside any of them, so what a sink holds in the end
seems to depend on how the lines are cut. It does not: pieces written one after the other leave what
one write of the whole text leaves (`Sink.writeAll_eq_write`). The reason is that a write fills the
sink before it fails, so that nothing is lost between two pieces (`Sink.write_append`).

With that, an emission is one write for the warnings and, if they fitted, one for the errors, and
each sink ends with the longest start of its text that it has room for. The text has the lines in
the order in which their diagnostics were recorded (`Diagnostics.emit_recorded`).
-/

namespace BlockLang

/-! ### Bytes of texts -/

theorem utf8_append (s t : String) : utf8 (s ++ t) = utf8 s ++ utf8 t := by
  show (s ++ t).toByteArray.data.toList = s.toByteArray.data.toList ++ t.toByteArray.data.toList
  rw [String.toByteArray_append, ByteArray.toList_data_append]

theorem flatten_map_utf8 (texts : List String) :
    (texts.map utf8).flatten = utf8 (String.join texts) := by
  induction texts with
  | nil => rfl
  | cons text texts ih =>
    rw [List.map_cons, List.flatten_cons, ih, String.join_cons, utf8_append]

/-- The pieces of a line make up the line. -/
theorem Diagnostic.join_pieces (d : Diagnostic) : String.join d.pieces = d.text ++ "\n" := by
  simp [pieces, Pos.pieces, text, toString, String.join_cons, String.append_assoc]

/-- The lines on diagnostics, one after the other. -/
def reportText (ds : List Diagnostic) : String := String.join (ds.map fun d ↦ d.text ++ "\n")

theorem join_flatMap_pieces (ds : List Diagnostic) :
    String.join (ds.flatMap Diagnostic.pieces) = reportText ds := by
  induction ds with
  | nil => rfl
  | cons d ds ih =>
    rw [List.flatMap_cons, String.join_append, ih, d.join_pieces]
    simp [reportText, String.join_cons]

/-! ### Sinks -/

namespace Sink

theorem room_le (s : Sink) (n : Nat) : s.room n ≤ n := by
  rw [room]
  split
  · exact Nat.le_refl n
  · exact Nat.min_le_left _ _

/-- What fits beside bytes that fit is what fits after them. -/
theorem room_add_of_fits {s : Sink} {bytes : List UInt8} (h : s.room bytes.length = bytes.length)
    (n : Nat) : s.room (bytes.length + n) =
      bytes.length + { s with written := s.written ++ bytes }.room n := by
  rcases s with ⟨- | c, written⟩
  · rfl
  · simp only [room, List.length_append] at h ⊢
    omega

/-- Bytes that do not fit take all the room. -/
theorem room_add_of_lt {s : Sink} {m : Nat} (h : s.room m < m) (n : Nat) :
    s.room (m + n) = s.room m := by
  rcases s with ⟨- | c, written⟩
  · exact absurd h (Nat.lt_irrefl m)
  · simp only [room] at h ⊢
    omega

/-- A write of two parts goes on with the second if the first one fits, and otherwise stops with
it. -/
theorem write_append (s : Sink) (a b : List UInt8) :
    s.write (a ++ b) = if (s.write a).2 then (s.write a).1.write b else s.write a := by
  -- the first part fits, or it fills the sink and leaves no room for the second
  rcases Nat.eq_or_lt_of_le (s.room_le a.length) with hfits | hlt
  · have hwrite : s.write a = ({ s with written := s.written ++ a }, true) := by
      rw [write, hfits, List.take_length, decide_eq_true rfl]
    rw [hwrite, if_pos rfl, write, write, List.length_append, room_add_of_fits hfits,
      List.take_length_add_append, List.append_assoc]
    simp only [Nat.add_left_cancel_iff]
  · have hwrite : s.write a =
        ({ s with written := s.written ++ a.take (s.room a.length) }, false) := by
      rw [write, decide_eq_false (Nat.ne_of_lt hlt)]
    rw [hwrite, if_neg Bool.false_ne_true, write, List.length_append, room_add_of_lt hlt,
      List.take_append_of_le_length (Nat.le_of_lt hlt), decide_eq_false (by omega)]

theorem writeAll_cons (s : Sink) (piece : List UInt8) (pieces : List (List UInt8)) :
    s.writeAll (piece :: pieces) =
      if (s.write piece).2 then (s.write piece).1.writeAll pieces else s.write piece := by
  rw [writeAll]
  rcases s.write piece with ⟨s', - | -⟩
  · rfl
  · rfl

/-- Pieces written in order leave what one write of all of them leaves. -/
theorem writeAll_eq_write (s : Sink) (pieces : List (List UInt8)) :
    s.writeAll pieces = s.write pieces.flatten := by
  induction pieces generalizing s with
  | nil =>
    have hroom : s.room 0 = 0 := Nat.le_zero.1 (s.room_le 0)
    simp [writeAll, write, hroom]
  | cons piece pieces ih => rw [writeAll_cons, List.flatten_cons, write_append, ih]

/-- A sink that has room for so many bytes takes the longest start of what is written that fits. -/
theorem write_limited (c : Nat) (bytes : List UInt8) :
    { capacity := some c : Sink }.write bytes =
      ({ capacity := some c, written := bytes.take c }, decide (bytes.length ≤ c)) := by
  have hroom : { capacity := some c : Sink }.room bytes.length = min bytes.length c := rfl
  have htake : bytes.take (min bytes.length c) = bytes.take c := by
    rw [Nat.min_comm, ← List.take_eq_take_min]
  have hfits : min bytes.length c = bytes.length ↔ bytes.length ≤ c := by omega
  rw [write, hroom, htake]
  simp only [hfits, List.nil_append]

end Sink

/-! ### Emissions -/

/-- Emission writes the warnings at once and then, if they fit, the errors at once. -/
theorem Diagnostics.emit_eq_write (ds : Diagnostics) (out err : Sink) :
    ds.emit out err =
      let warned := out.write (utf8 (reportText ds.warnings))
      let failed := err.write (utf8 (reportText ds.errors))
      if warned.2 then ⟨warned.1, failed.1, ds, failed.2⟩ else ⟨warned.1, err, ds, false⟩ := by
  rw [emit, Sink.writeAll_eq_write, Sink.writeAll_eq_write, flatten_map_utf8, flatten_map_utf8,
    join_flatMap_pieces, join_flatMap_pieces]
  rcases out.write (utf8 (reportText ds.warnings)) with ⟨out', - | -⟩
  · rfl
  · rfl

/-- An emission to sinks of limited size fills them with the lines on warnings and errors. -/
theorem Diagnostics.emit_limited (ds : Diagnostics) (c k : Nat) :
    let warnings := utf8 (reportText ds.warnings)
    let errors := utf8 (reportText ds.errors)
    ds.emit { capacity := some c } { capacity := some k } =
      { out := { capacity := some c, written := warnings.take c }
        err := { capacity := some k, written := if warnings.length ≤ c then errors.take k else [] }
        held := ds
        complete := decide (warnings.length ≤ c ∧ errors.length ≤ k) } := by
  intro warnings errors
  rw [emit_eq_write, Sink.write_limited, Sink.write_limited]
  by_cases hfit : warnings.length ≤ c
  · simp [warnings, errors, hfit]
  · simp [warnings, errors, hfit]

/-! ### Recording -/

/-- Something that is recorded in the diagnostics. -/
inductive Recording where
  /-- An error. -/
  | error (d : Diagnostic)
  /-- A warning. -/
  | warning (d : Diagnostic)
deriving DecidableEq, Repr

namespace Recording

/-- The error that is recorded. -/
def error? : Recording → Option Diagnostic
  | error d => some d
  | warning _ => none

/-- The warning that is recorded. -/
def warning? : Recording → Option Diagnostic
  | error _ => none
  | warning d => some d

end Recording

namespace Diagnostics

/-- Records an error or a warning. -/
def record (ds : Diagnostics) : Recording → Diagnostics
  | .error d => ds.addError d
  | .warning d => ds.addWarning d

theorem errors_foldl_record (ds : Diagnostics) (history : List Recording) :
    (history.foldl record ds).errors = ds.errors ++ history.filterMap Recording.error? := by
  induction history generalizing ds with
  | nil => exact (List.append_nil _).symm
  | cons r history ih =>
    rw [List.foldl_cons, ih]
    cases r with
    | error d => exact List.append_assoc ..
    | warning d => rfl

theorem warnings_foldl_record (ds : Diagnostics) (history : List Recording) :
    (history.foldl record ds).warnings = ds.warnings ++ history.filterMap Recording.warning? := by
  induction history generalizing ds with
  | nil => exact (List.append_nil _).symm
  | cons r history ih =>
    rw [List.foldl_cons, ih]
    cases r with
    | error d => rfl
    | warning d => exact List.append_assoc ..

/-- Whatever is held at first and is then recorded, and however much the sinks take: after an
emission the sink for warnings holds the longest start that it has room for of the lines on all
warnings, in the order in which they were recorded. The sink for errors holds nothing if these did
not fit, and otherwise the longest start of the lines on all errors. The emission is complete if and
only if both texts fitted, be it exactly, and the same diagnostics are held as before it. -/
theorem emit_recorded (ds : Diagnostics) (history : List Recording) (c k : Nat) :
    let recorded := history.foldl record ds
    let warnings := utf8 (String.join
      ((ds.warnings ++ history.filterMap Recording.warning?).map fun d ↦ d.text ++ "\n"))
    let errors := utf8 (String.join
      ((ds.errors ++ history.filterMap Recording.error?).map fun d ↦ d.text ++ "\n"))
    recorded.emit { capacity := some c } { capacity := some k } =
      { out := { capacity := some c, written := warnings.take c }
        err := { capacity := some k, written := if warnings.length ≤ c then errors.take k else [] }
        held := recorded
        complete := decide (warnings.length ≤ c ∧ errors.length ≤ k) } := by
  intro recorded warnings errors
  have hwarnings : utf8 (reportText recorded.warnings) = warnings := by
    rw [warnings_foldl_record, reportText]
  have herrors : utf8 (reportText recorded.errors) = errors := by
    rw [errors_foldl_record, reportText]
  rw [emit_limited, hwarnings, herrors]

end Diagnostics

end BlockLang
