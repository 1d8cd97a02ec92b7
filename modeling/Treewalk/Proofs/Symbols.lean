import Treewalk.Token.Scan

/-! Symbols are tokens without their places, which is all that the meaning of a source depends on. A symbol is lexical
when some text is read as it. -/

namespace Treewalk

structure Symbol where
  kind : Token.Kind
  literal : String
  deriving DecidableEq, Repr

def Token.symbol (token : Token) : Symbol := ⟨token.kind, token.literal⟩

/-- The text of the kinds that have only one. -/
def Token.Kind.text : Token.Kind → String
  | .kwFunction => "fn"
  | .kwLet => "let"
  | .kwTrue => "true"
  | .kwFalse => "false"
  | .kwIf => "if"
  | .kwElse => "else"
  | .kwReturn => "return"
  | .endOfInput => ""
  | kind => kind.name

/-- Operators and delimiters. -/
def Token.Kind.IsMark (kind : Token.Kind) : Prop :=
  kind ∈ [.assign, .plus, .minus, .bang, .asterisk, .slash, .caret, .less, .greater, .equal, .notEqual, .comma, .semicolon,
    .leftParen, .rightParen, .leftBrace, .rightBrace, .leftBracket, .rightBracket]

instance (kind : Token.Kind) : Decidable kind.IsMark := inferInstanceAs (Decidable (kind ∈ _))

/-- A run of letters and underscores that is not a keyword. -/
def IsName (name : String) : Prop :=
  name.toList ≠ [] ∧ (∀ c ∈ name.toList, isWordChar c = true) ∧ Token.Kind.ofWord name = .identifier

instance (name : String) : Decidable (IsName name) :=
  decidable_of_iff (name.toList ≠ [] ∧ name.toList.all isWordChar = true ∧ Token.Kind.ofWord name = .identifier)
    (by simp only [IsName, List.all_eq_true])

/-- What can stand between quotes. A backslash at the end would make the closing quote part of the content. -/
def IsContent (text : String) : Prop := text.toList.getLast? ≠ some '\\'

instance (text : String) : Decidable (IsContent text) := inferInstanceAs (Decidable (_ ≠ _))

def IsNumeral (literal : String) : Prop := literal.toList ≠ [] ∧ ∀ c ∈ literal.toList, c.isDigit = true

namespace Symbol

/-- The symbol of a kind that has only one text. -/
def mark (kind : Token.Kind) : Symbol := ⟨kind, kind.text⟩

def Lexical (symbol : Symbol) : Prop :=
  match symbol.kind with
  | .identifier => IsName symbol.literal
  | .integer => IsNumeral symbol.literal
  | .string => IsContent symbol.literal
  | .illegal => True
  | kind => symbol.literal = kind.text

end Symbol

end Treewalk
