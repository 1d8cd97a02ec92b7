import Treewalk.Syntax.Render

/-! How deeply the texts of trees are nested. A text is put together from the texts of the parts, level by level; the parts
of a list are put together on a level of their own. -/

namespace Treewalk

/-- The levels of a list of names. -/
def nameLevels (names : List String) : Nat := if names.isEmpty then 1 else 2

mutual

/-- How many levels the text of an expression has. -/
def Expr.levels : Expr → Nat
  | .name _ | .integer _ | .string _ | .boolean _ => 1
  | .unary _ operand => 1 + operand.levels
  | .binary left _ right => 1 + max left.levels right.levels
  | .assign _ value => 1 + value.levels
  | .ifThen condition consequence => 1 + max condition.levels (Stmt.blockLevels consequence)
  | .ifElse condition consequence alternative =>
    1 + max condition.levels (max (Stmt.blockLevels consequence) (Stmt.blockLevels alternative))
  | .function parameters body => 1 + max (nameLevels parameters) (Stmt.blockLevels body)
  | .call function arguments => 1 + max function.levels (1 + Expr.mostLevels arguments)
  | .array elements => 2 + Expr.mostLevels elements
  | .index collection position => 1 + max collection.levels position.levels

/-- The most levels of any expression of a list. -/
def Expr.mostLevels : List Expr → Nat
  | [] => 0
  | expr :: exprs => max expr.levels (Expr.mostLevels exprs)

def Stmt.levels : Stmt → Nat
  | .leave => 1
  | .bind _ value | .leaveWith value | .expr value => 1 + value.levels
  | .block statements => Stmt.blockLevels statements

/-- The levels of a block with its braces. -/
def Stmt.blockLevels : List Stmt → Nat
  | [] => 1
  | stmt :: stmts => 3 + max stmt.levels (Stmt.mostLevels stmts)

def Stmt.mostLevels : List Stmt → Nat
  | [] => 0
  | stmt :: stmts => max stmt.levels (Stmt.mostLevels stmts)

end

def Stmt.listLevels (stmts : List Stmt) : Nat := 1 + Stmt.mostLevels stmts

/-- How many levels the outline of a program has, which shows the text of the program on top. -/
def Program.outlineLevels (program : Program) : Nat := 3 + Stmt.listLevels program.statements

end Treewalk
