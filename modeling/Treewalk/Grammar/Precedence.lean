import Treewalk.Token

/-! How tightly operators bind. A token that continues an expression has a precedence above the lowest; every other
token has the lowest and so ends it. -/

namespace Treewalk

abbrev Precedence := Nat

namespace Precedence

def lowest : Precedence := 0
def assign : Precedence := 1
def equality : Precedence := 2
def comparison : Precedence := 3
def sum : Precedence := 4
def product : Precedence := 5
def power : Precedence := 6
def unary : Precedence := 7
def call : Precedence := 8
def index : Precedence := 9

end Precedence

def Token.Kind.precedence : Token.Kind → Precedence
  | .assign => .assign
  | .equal | .notEqual => .equality
  | .less | .greater => .comparison
  | .plus | .minus => .sum
  | .asterisk | .slash => .product
  | .caret => .power
  | .leftParen => .call
  | .leftBracket => .index
  | _ => .lowest

/-- What a binary operator asks of its right operand. Powers associate to the right, so another power may stand
there; for all others the right operand binds tighter than the operator itself. -/
def Token.Kind.rightPrecedence (kind : Token.Kind) : Precedence :=
  if kind = .caret then kind.precedence - 1 else kind.precedence

end Treewalk
