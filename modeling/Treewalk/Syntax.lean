/-! The syntax tree. Blocks are lists of statements: as branches of a conditional, as bodies of functions, and as
statements of their own. Names, operator symbols and integers are not restricted here; the grammar only produces
names that can be read back, the known operators, and integers from 0 to 2⁶³ - 1. -/

namespace Treewalk

inductive UnaryOp where
  | negate | invert
  | unknown (symbol : String)
  deriving DecidableEq, Repr, Inhabited

inductive BinaryOp where
  | add | subtract | multiply | divide | power | less | greater | equal | notEqual
  | unknown (symbol : String)
  deriving DecidableEq, Repr, Inhabited

def UnaryOp.symbol : UnaryOp → String
  | .negate => "-"
  | .invert => "!"
  | .unknown symbol => symbol

def UnaryOp.ofSymbol (symbol : String) : UnaryOp :=
  match symbol with
  | "-" => .negate
  | "!" => .invert
  | _ => .unknown symbol

def BinaryOp.symbol : BinaryOp → String
  | .add => "+"
  | .subtract => "-"
  | .multiply => "*"
  | .divide => "/"
  | .power => "^"
  | .less => "<"
  | .greater => ">"
  | .equal => "=="
  | .notEqual => "!="
  | .unknown symbol => symbol

def BinaryOp.ofSymbol (symbol : String) : BinaryOp :=
  match symbol with
  | "+" => .add
  | "-" => .subtract
  | "*" => .multiply
  | "/" => .divide
  | "^" => .power
  | "<" => .less
  | ">" => .greater
  | "==" => .equal
  | "!=" => .notEqual
  | _ => .unknown symbol

theorem UnaryOp.symbol_ofSymbol (symbol : String) : (UnaryOp.ofSymbol symbol).symbol = symbol := by
  unfold UnaryOp.ofSymbol
  split <;> rfl

theorem BinaryOp.symbol_ofSymbol (symbol : String) : (BinaryOp.ofSymbol symbol).symbol = symbol := by
  unfold BinaryOp.ofSymbol
  split <;> rfl

mutual

inductive Expr where
  | name (name : String)
  | integer (value : Int)
  | string (text : String)
  | boolean (value : Bool)
  | unary (op : UnaryOp) (operand : Expr)
  | binary (left : Expr) (op : BinaryOp) (right : Expr)
  | assign (name : String) (value : Expr)
  | ifThen (condition : Expr) (consequence : List Stmt)
  | ifElse (condition : Expr) (consequence alternative : List Stmt)
  | function (parameters : List String) (body : List Stmt)
  | call (function : Expr) (arguments : List Expr)
  | array (elements : List Expr)
  | index (collection position : Expr)

inductive Stmt where
  | bind (name : String) (value : Expr)
  | leave
  | leaveWith (value : Expr)
  | expr (value : Expr)
  | block (statements : List Stmt)

end

instance : Inhabited Expr := ⟨.boolean false⟩

instance : Inhabited Stmt := ⟨.leave⟩

/-- A program is its list of top-level statements. -/
structure Program where
  statements : List Stmt
  deriving Inhabited

/-- Any piece of syntax: a whole program, a statement or an expression. -/
inductive Node where
  | program (program : Program)
  | stmt (stmt : Stmt)
  | expr (expr : Expr)
  deriving Inhabited

end Treewalk
