/-! Tokens. A token has a kind, the text it stands for, and the position of its first character, counted in
characters from the start of the source. The name of a kind is the word that diagnostics use for it. -/

namespace Treewalk

inductive Token.Kind where
  | illegal | endOfInput
  | identifier | integer | string
  | assign | plus | minus | bang | asterisk | slash | caret | less | greater | equal | notEqual
  | comma | semicolon | leftParen | rightParen | leftBrace | rightBrace | leftBracket | rightBracket
  | kwFunction | kwLet | kwTrue | kwFalse | kwIf | kwElse | kwReturn
  deriving DecidableEq, Repr, Inhabited

structure Token where
  kind : Token.Kind
  literal : String
  position : Nat
  deriving DecidableEq, Repr, Inhabited

namespace Token

def Kind.name : Kind → String
  | .illegal => "ILLEGAL"
  | .endOfInput => "EOF"
  | .identifier => "IDENT"
  | .integer => "INT"
  | .string => "STRING"
  | .assign => "="
  | .plus => "+"
  | .minus => "-"
  | .bang => "!"
  | .asterisk => "*"
  | .slash => "/"
  | .caret => "^"
  | .less => "<"
  | .greater => ">"
  | .equal => "=="
  | .notEqual => "!="
  | .comma => ","
  | .semicolon => ";"
  | .leftParen => "("
  | .rightParen => ")"
  | .leftBrace => "\x7b"
  | .rightBrace => "\x7d"
  | .leftBracket => "["
  | .rightBracket => "]"
  | .kwFunction => "FUNCTION"
  | .kwLet => "LET"
  | .kwTrue => "TRUE"
  | .kwFalse => "FALSE"
  | .kwIf => "IF"
  | .kwElse => "ELSE"
  | .kwReturn => "RETURN"

/-- The keyword table. Every other word is an identifier. -/
def Kind.ofWord (word : String) : Kind :=
  match word with
  | "fn" => .kwFunction
  | "let" => .kwLet
  | "true" => .kwTrue
  | "false" => .kwFalse
  | "if" => .kwIf
  | "else" => .kwElse
  | "return" => .kwReturn
  | _ => .identifier

/-- The token that stands for the end of a source, at the position just past its last character. -/
def finish (position : Nat) : Token := ⟨.endOfInput, "", position⟩

/-- An illegal token is one bad character or, when its text starts with a quote, a string that is never closed. -/
def opensString (token : Token) : Bool := token.literal.toList.head? == some '"'

end Token

end Treewalk
