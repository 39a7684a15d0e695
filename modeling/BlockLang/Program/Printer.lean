import BlockLang.Program.Basic

/-!
# The printed form of programs

A program prints on one line per global declaration and one line for the function. Inside a block
every statement is preceded by a blank, so a block of no statements still prints as two braces with
a blank between them.
-/

namespace BlockLang

/-- The variable, with its initializer after an equals sign. -/
def Declarator.text (v : Declarator) : String :=
  match v.init with
  | none => v.name
  | some e => v.name ++ " = " ++ e.text

/-- The type, the variables separated by commas, and a semicolon. -/
def Declaration.text (d : Declaration) : String :=
  d.ty.name ++ " " ++ ", ".intercalate (d.vars.map Declarator.text) ++ ";"

/-- The printed form of a statement without inner blocks. -/
def Simple.text : Simple → String
  | declare d => d.text
  | assign _ x e => x ++ " = " ++ e.text ++ ";"
  | ret _ (some e) => "return " ++ e.text ++ ";"
  | ret _ none => "return;"
  | eval _ e => e.text ++ ";"

/-- Statements in braces, each preceded by a blank. -/
def braces (statements : List String) : String :=
  "\x7b" ++ String.join (statements.map (" " ++ ·)) ++ " \x7d"

/-- The opening words of a construct that tests a condition. -/
def guardText (c : Construct) (cond : Expr) : String :=
  c.keyword ++ " (" ++ cond.text ++ ")"

/-- The printed forms of the statements of a block. -/
def Block.texts : Block → List String
  | done => []
  | simple s rest => s.text :: rest.texts
  | ifThen _ c t rest => (guardText .cond c ++ " " ++ braces t.texts) :: rest.texts
  | ifElse _ c t e rest =>
    (guardText .cond c ++ " " ++ braces t.texts ++ " else " ++ braces e.texts) :: rest.texts
  | loop _ c b rest => (guardText .loop c ++ " " ++ braces b.texts) :: rest.texts

/-- The type and the name. -/
def Param.text (p : Param) : String := p.ty.name ++ " " ++ p.name

/-- The head of the function and its body in braces. -/
def Function.text (f : Function) : String :=
  f.returnTy.name ++ " " ++ f.name ++ "(" ++ ", ".intercalate (f.params.map Param.text) ++ ") " ++
    braces f.body.texts

/-- The global declarations, a line each, and the function. -/
def Program.text (p : Program) : String :=
  String.join (p.globals.map (·.text ++ "\n")) ++ p.function.text

end BlockLang
