import Treewalk.Syntax.Render

/-! The outline of a tree lists its nodes one to a line, children indented below their parent. Every node shows the
name of its kind and its source text; the names that a binding, an assignment or a function introduces count as
nodes. -/

namespace Treewalk

inductive Outline where
  | node (kind source : String) (children : List Outline)

namespace Outline

def kind : Outline → String
  | .node kind _ _ => kind

def children : Outline → List Outline
  | .node _ _ children => children

def leaf (kind source : String) : Outline := .node kind source []

def ofName (name : String) : Outline := .leaf "Identifier" name

/-- The blanks in front of a line. Depths below zero have none. -/
def indentation (depth : Int) : String := String.ofList (List.replicate (4 * depth).toNat ' ')

mutual

def display (depth : Int) : Outline → String
  | .node kind source children =>
    indentation depth ++ kind ++ "(expr='" ++ source ++ "'"
      ++ (if children.isEmpty then ""
          else ", nodes=[" ++ ",".intercalate (displayAll (depth + 1) children) ++ "\n" ++ indentation depth ++ "]")
      ++ ")"

/-- Each of the outlines on lines of its own, the first line included. -/
def displayAll (depth : Int) : List Outline → List String
  | [] => []
  | outline :: outlines => ("\n" ++ outline.display depth) :: displayAll depth outlines

end

end Outline

mutual

def Expr.outline (expr : Expr) : Outline :=
  match expr with
  | .name _ => .leaf "Identifier" expr.render
  | .integer _ => .leaf "IntegerLiteral" expr.render
  | .string _ => .leaf "StringLiteral" expr.render
  | .boolean _ => .leaf "BooleanLiteral" expr.render
  | .unary _ operand => .node "PrefixExpression" expr.render [operand.outline]
  | .binary left _ right => .node "InfixExpression" expr.render [left.outline, right.outline]
  | .assign name value => .node "AssignmentExpression" expr.render [.ofName name, value.outline]
  | .ifThen condition consequence =>
    .node "IfExpression" expr.render [condition.outline, Stmt.outlineBlock consequence]
  | .ifElse condition consequence alternative =>
    .node "IfExpression" expr.render
      [condition.outline, Stmt.outlineBlock consequence, Stmt.outlineBlock alternative]
  | .function parameters body =>
    .node "FunctionLiteral" expr.render (parameters.map .ofName ++ [Stmt.outlineBlock body])
  | .call function arguments => .node "CallExpression" expr.render (function.outline :: Expr.outlineAll arguments)
  | .array elements => .node "ArrayLiteral" expr.render (Expr.outlineAll elements)
  | .index collection position => .node "IndexExpression" expr.render [collection.outline, position.outline]

def Expr.outlineAll : List Expr → List Outline
  | [] => []
  | expr :: exprs => expr.outline :: Expr.outlineAll exprs

def Stmt.outline (stmt : Stmt) : Outline :=
  match stmt with
  | .bind name value => .node "LetStatement" stmt.render [.ofName name, value.outline]
  | .leave => .leaf "ReturnStatement" stmt.render
  | .leaveWith value => .node "ReturnStatement" stmt.render [value.outline]
  | .expr value => .node "ExpressionStatement" stmt.render [value.outline]
  | .block statements => Stmt.outlineBlock statements

def Stmt.outlineBlock (statements : List Stmt) : Outline :=
  .node "BlockStatement" (renderBlock (Stmt.renderAll statements)) (Stmt.outlineAll statements)

def Stmt.outlineAll : List Stmt → List Outline
  | [] => []
  | stmt :: stmts => stmt.outline :: Stmt.outlineAll stmts

end

def Program.outline (program : Program) : Outline :=
  .node "Program" program.render (Stmt.outlineAll program.statements)

def Node.outline : Node → Outline
  | .program whole => whole.outline
  | .stmt part => part.outline
  | .expr part => part.outline

end Treewalk
