import BlockLang.Assembly.Instr

/-!
# Assembly programs

An assembly program is data: cells of the data section and lines of the text section. Its text is a
rendering of that data, in the dialect that writes a size before a memory operand and its labels
without decoration.
-/

namespace BlockLang

/-- A cell of the data section. -/
structure Cell where
  /-- The label of the cell. -/
  name : String
  /-- The size of the cell. -/
  width : Width
  /-- What the cell holds at the start. -/
  value : Int32
deriving DecidableEq, Repr

/-- A line of the text section. -/
inductive Line where
  /-- An instruction. -/
  | instr (i : Instr)
  /-- A label for what follows. -/
  | label (l : Label)
  /-- A remark. -/
  | comment (text : String)
  /-- An empty line. -/
  | blank
deriving DecidableEq, Repr

/-- An assembly program. -/
structure Assembly where
  /-- The label at which the program starts. -/
  entry : String
  /-- The function that it calls there. -/
  function : String
  /-- The data section. -/
  cells : List Cell
  /-- The code of the function. -/
  code : List Line
deriving DecidableEq, Repr

/-- The cell as a line of the data section. -/
def Cell.text (c : Cell) : String :=
  "    " ++ c.name ++ " " ++ c.width.directive ++ " " ++ toString c.value.toInt ++ "\n"

/-- The line with its indentation and its end. -/
def Line.text : Line → String
  | instr i => "    " ++ i.text ++ "\n"
  | label l => l.text ++ ":\n"
  | comment t => "    ; " ++ t ++ "\n"
  | blank => "\n"

namespace Assembly

/-- The number of the system call that ends a process. -/
def exitCall : Int32 := 60

/-- The start of the program: call the function, and end the process with its result. -/
def stub (a : Assembly) : List Line :=
  [.label (.named a.entry),
    .instr (.call (.named a.function)),
    .instr (.move .dword .di .ax),
    .instr (.moveImm .ax exitCall),
    .instr .syscall,
    .blank]

/-- The text section: the start of the program, then the function. -/
def lines (a : Assembly) : List Line := a.stub ++ a.code

/-- The whole program as text. -/
def text (a : Assembly) : String :=
  "section .data\n" ++ String.join (a.cells.map Cell.text) ++
    "\nsection .text\nglobal " ++ a.entry ++ "\n\n" ++ String.join (a.lines.map Line.text)

instance : ToString Assembly where
  toString := text

end Assembly

end BlockLang
