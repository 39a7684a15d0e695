/-!
# Labels of the text section

Labels are either given by the program and its options, or made for an `if` or a `while`. The latter
bear the number of their construct.
-/

namespace BlockLang

/-- What a label made for a construct marks. -/
inductive Mark where
  /-- The start of an `else`. -/
  | otherwise
  /-- The end of an `if`. -/
  | endIf
  /-- The start of a `while`. -/
  | loopStart
  /-- The end of a `while`. -/
  | loopEnd
deriving DecidableEq, Repr

namespace Mark

/-- What stands before the number. -/
def stem : Mark → String
  | otherwise => "else_"
  | endIf => "endif_"
  | loopStart => "while_start_"
  | loopEnd => "while_end_"

/-- All marks. -/
def all : List Mark := [otherwise, endIf, loopStart, loopEnd]

end Mark

/-- A label of the text section. -/
inductive Label where
  /-- The entry of the program or of its function. -/
  | named (name : String)
  /-- The common end of all returns of a function. -/
  | exit (function : String)
  /-- A point of the construct with the given number. -/
  | construct (mark : Mark) (id : Nat)
deriving DecidableEq, Repr

/-- What the name of a function is followed by in the label of its end. -/
def exitSuffix : String := "_exit"

/-- The spelling of a label. -/
def Label.text : Label → String
  | named x => x
  | exit f => f ++ exitSuffix
  | construct m n => m.stem ++ toString n

end BlockLang
