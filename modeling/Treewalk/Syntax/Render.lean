import Treewalk.Syntax

/-! Rendering trees as source text. Operators are fully parenthesised and blocks always written out, so the text of
a tree that the grammar produced can only be read back as that tree. -/

namespace Treewalk

/-- A quote inside a string is written with a backslash before it. Backslashes themselves are written once. -/
def escapeQuotes (text : List Char) : List Char :=
  text.flatMap fun c => if c == '"' then ['\\', '"'] else [c]

def renderString (text : String) : String := "\"" ++ String.ofList (escapeQuotes text.toList) ++ "\""

def renderStatements (rendered : List String) : String := "; ".intercalate rendered

def renderBlock (rendered : List String) : String :=
  if rendered.isEmpty then "\x7b \x7d" else "\x7b " ++ renderStatements rendered ++ " \x7d"

def renderList (rendered : List String) : String := ", ".intercalate rendered

mutual

def Expr.render : Expr → String
  | .name name => name
  | .integer value => toString value
  | .string text => renderString text
  | .boolean value => if value then "true" else "false"
  | .unary op operand => "(" ++ op.symbol ++ operand.render ++ ")"
  | .binary left op right => "(" ++ left.render ++ " " ++ op.symbol ++ " " ++ right.render ++ ")"
  | .assign name value => "(" ++ name ++ " = " ++ value.render ++ ")"
  | .ifThen condition consequence =>
    "if (" ++ condition.render ++ ") " ++ renderBlock (Stmt.renderAll consequence)
  | .ifElse condition consequence alternative =>
    "if (" ++ condition.render ++ ") " ++ renderBlock (Stmt.renderAll consequence) ++ " else "
      ++ renderBlock (Stmt.renderAll alternative)
  | .function parameters body =>
    "fn(" ++ renderList parameters ++ ") " ++ renderBlock (Stmt.renderAll body)
  | .call function arguments => function.render ++ "(" ++ renderList (Expr.renderAll arguments) ++ ")"
  | .array elements => "[" ++ renderList (Expr.renderAll elements) ++ "]"
  | .index collection position => "(" ++ collection.render ++ "[" ++ position.render ++ "])"

def Expr.renderAll : List Expr → List String
  | [] => []
  | expr :: exprs => expr.render :: Expr.renderAll exprs

def Stmt.render : Stmt → String
  | .bind name value => "let " ++ name ++ " = " ++ value.render
  | .leave => "return"
  | .leaveWith value => "return " ++ value.render
  | .expr value => value.render
  | .block statements => renderBlock (Stmt.renderAll statements)

def Stmt.renderAll : List Stmt → List String
  | [] => []
  | stmt :: stmts => stmt.render :: Stmt.renderAll stmts

end

theorem Expr.renderAll_eq_map (exprs : List Expr) : Expr.renderAll exprs = exprs.map Expr.render := by
  induction exprs with
  | nil => rfl
  | cons expr exprs ih => simp [Expr.renderAll, ih]

theorem Stmt.renderAll_eq_map (stmts : List Stmt) : Stmt.renderAll stmts = stmts.map Stmt.render := by
  induction stmts with
  | nil => rfl
  | cons stmt stmts ih => simp [Stmt.renderAll, ih]

def Program.render (program : Program) : String := renderStatements (Stmt.renderAll program.statements)

def Node.render : Node → String
  | .program whole => whole.render
  | .stmt part => part.render
  | .expr part => part.render

end Treewalk
