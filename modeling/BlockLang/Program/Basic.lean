import BlockLang.Expr.Basic

/-!
# Programs

A program is a list of global declarations and one function. The statements of a function form
blocks, and a block opens a scope of its own wherever an `if` or a `while` holds one.

## Implementation notes

A `Block` is one inductive type with a constructor per kind of first statement, rather than a list
of statements that hold lists again. A function on program text is then plain structural recursion,
and a proof about it is one induction. Statements without an inner block are a type of their own,
`Simple`. An `if` without `else` and one with an empty `else` are different programs, so they have
different constructors.
-/

namespace BlockLang

/-- One variable of a declaration, with its initializer if it has one. -/
structure Declarator where
  /-- The variable. -/
  name : String
  /-- The initializer. -/
  init : Option Expr := none
  /-- The position of the name. -/
  pos : Pos := {}
deriving DecidableEq, Repr

/-- A declaration of any number of variables of one type. -/
structure Declaration where
  /-- The type of the variables. -/
  ty : Ty
  /-- The variables, in order. -/
  vars : List Declarator
  /-- The position of the declaration. -/
  pos : Pos := {}
deriving DecidableEq, Repr

/-- A statement that holds no block. -/
inductive Simple where
  /-- A declaration. -/
  | declare (d : Declaration)
  /-- A store of the value of `value` in the variable `name`. -/
  | assign (pos : Pos) (name : String) (value : Expr)
  /-- An end of the function, with its result if it has one. -/
  | ret (pos : Pos) (value : Option Expr)
  /-- An expression evaluated for nothing. -/
  | eval (pos : Pos) (e : Expr)
deriving DecidableEq, Repr

/-- A sequence of statements. -/
inductive Block where
  /-- The end of the sequence. -/
  | done
  /-- A statement without inner blocks, then the rest. -/
  | simple (s : Simple) (rest : Block)
  /-- An `if` without `else`, then the rest. -/
  | ifThen (pos : Pos) (cond : Expr) (thenBody rest : Block)
  /-- An `if` with `else`, then the rest. -/
  | ifElse (pos : Pos) (cond : Expr) (thenBody elseBody rest : Block)
  /-- A `while`, then the rest. -/
  | loop (pos : Pos) (cond : Expr) (body rest : Block)
deriving DecidableEq, Repr

/-- A construct that tests a condition. -/
inductive Construct where
  /-- The conditional. -/
  | cond
  /-- The loop. -/
  | loop
deriving DecidableEq, Repr

/-- The keyword of a construct. -/
def Construct.keyword : Construct → String
  | cond => "if"
  | loop => "while"

/-- A parameter of a function. -/
structure Param where
  /-- The type of the parameter. -/
  ty : Ty
  /-- The name of the parameter. -/
  name : String
  /-- The position of the parameter. -/
  pos : Pos := {}
deriving DecidableEq, Repr

/-- A function definition. -/
structure Function where
  /-- The type of the result. -/
  returnTy : Ty
  /-- The name of the function. -/
  name : String
  /-- The parameters, in order. -/
  params : List Param := []
  /-- The statements. -/
  body : Block
  /-- The position of the definition. -/
  pos : Pos := {}
deriving DecidableEq, Repr

/-- A whole program. -/
structure Program where
  /-- The global declarations, in order. -/
  globals : List Declaration := []
  /-- The function that the program runs. -/
  function : Function
deriving DecidableEq, Repr

/-- The position of a statement. -/
def Simple.pos : Simple → Pos
  | declare d => d.pos
  | assign p _ _ => p
  | ret p _ => p
  | eval p _ => p

/-- The positions of the statements of a block; inner blocks do not count. -/
def Block.positions : Block → List Pos
  | done => []
  | simple s rest => s.pos :: rest.positions
  | ifThen p _ _ rest => p :: rest.positions
  | ifElse p _ _ _ rest => p :: rest.positions
  | loop p _ _ rest => p :: rest.positions

/-- The position of a program is that of its function. -/
def Program.pos (p : Program) : Pos := p.function.pos

end BlockLang
