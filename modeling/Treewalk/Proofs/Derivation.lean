import Treewalk.Grammar
import Treewalk.Proofs.Symbols

/-! The language as a grammar, without parsers. Each relation says what a list of symbols is read as when a symbol of
the kind `next` stands behind it: an expression ends where that kind does not bind tightly enough to go on. There are
no rules for mistakes; a source has a derivation exactly when it is read without a diagnostic. -/

namespace Treewalk

/-- The kind of the first symbol, or of what stands behind all of them. -/
def headKind (symbols : List Symbol) (next : Token.Kind) : Token.Kind := (symbols.head?.map Symbol.kind).getD next

theorem kindOf_append (tokens behind : List Token) :
    kindOf (tokens ++ behind) = headKind (tokens.map Token.symbol) (kindOf behind) := by
  cases tokens <;> rfl

def Token.Kind.IsOperator (kind : Token.Kind) : Prop :=
  kind ∈ [.plus, .minus, .asterisk, .slash, .caret, .less, .greater, .equal, .notEqual]

/-- Kinds behind which a `return` without a value ends. -/
def Token.Kind.EndsReturn (kind : Token.Kind) : Prop := kind ∈ [.semicolon, .rightBrace, .endOfInput]

namespace Derivation

/-- Parameter names with commas between them. -/
inductive Names : List Symbol → List String → Prop where
  | single : Names [⟨.identifier, name⟩] [name]
  | snoc (names : Names symbols parameters) :
    Names (symbols ++ [⟨.comma, comma⟩, ⟨.identifier, name⟩]) (parameters ++ [name])

inductive Parameters : List Symbol → List String → Prop where
  | none : Parameters [] []
  | some (names : Names symbols parameters) : Parameters symbols parameters

mutual

inductive Operand : List Symbol → Token.Kind → Expr → Prop where
  | name : Operand [⟨.identifier, name⟩] next (.name name)
  | integer (small : Nat.ofDigitChars 10 literal.toList 0 ≤ maxInteger) :
    Operand [⟨.integer, literal⟩] next (.integer (Nat.ofDigitChars 10 literal.toList 0))
  | string : Operand [⟨.string, text⟩] next (.string text)
  | kwTrue : Operand [⟨.kwTrue, literal⟩] next (.boolean true)
  | kwFalse : Operand [⟨.kwFalse, literal⟩] next (.boolean false)
  | unary (sign : kind = .bang ∨ kind = .minus) (inner : Expression .unary symbols next operand)
    (ends : next.precedence ≤ .unary) : Operand (⟨kind, literal⟩ :: symbols) next (.unary (.ofSymbol literal) operand)
  | grouped (inner : Expression .lowest symbols .rightParen expr) :
    Operand (⟨.leftParen, left⟩ :: symbols ++ [⟨.rightParen, right⟩]) next expr
  | array (items : Arguments .rightBracket symbols elements) :
    Operand (⟨.leftBracket, left⟩ :: symbols ++ [⟨.rightBracket, right⟩]) next (.array elements)
  | ifThen (test : Expression .lowest symbols .rightParen condition) (body : Block block consequence)
    (alone : next ≠ .kwElse) :
    Operand (⟨.kwIf, word⟩ :: ⟨.leftParen, left⟩ :: symbols ++ ⟨.rightParen, right⟩ :: block) next
      (.ifThen condition consequence)
  | ifElse (test : Expression .lowest symbols .rightParen condition) (body : Block block consequence)
    (other : Block rest alternative) :
    Operand (⟨.kwIf, word⟩ :: ⟨.leftParen, left⟩ :: symbols ++ ⟨.rightParen, right⟩ :: block ++ ⟨.kwElse, otherwise⟩ :: rest)
      next (.ifElse condition consequence alternative)
  | function (names : Parameters symbols parameters) (body : Block block statements) :
    Operand (⟨.kwFunction, word⟩ :: ⟨.leftParen, left⟩ :: symbols ++ ⟨.rightParen, right⟩ :: block) next
      (.function parameters statements)

/-- An operand and what continues it, as long as that binds tighter than `precedence`. -/
inductive Expression : (precedence : Precedence) → List Symbol → Token.Kind → Expr → Prop where
  | operand (first : Operand symbols next expr) : Expression precedence symbols next expr
  | assign (target : Expression precedence symbols .assign (.name name)) (binds : precedence < .assign)
    (value : Expression .lowest rest next expr) (ends : next.precedence ≤ .lowest) :
    Expression precedence (symbols ++ ⟨.assign, literal⟩ :: rest) next (.assign name expr)
  | call (callee : Expression precedence symbols .leftParen function) (binds : precedence < .call)
    (items : Arguments .rightParen rest arguments) :
    Expression precedence (symbols ++ ⟨.leftParen, left⟩ :: rest ++ [⟨.rightParen, right⟩]) next (.call function arguments)
  | index (whole : Expression precedence symbols .leftBracket collection) (binds : precedence < .index)
    (inner : Expression .lowest rest .rightBracket position) :
    Expression precedence (symbols ++ ⟨.leftBracket, left⟩ :: rest ++ [⟨.rightBracket, right⟩]) next
      (.index collection position)
  | binary (first : Expression precedence symbols kind left) (operator : kind.IsOperator)
    (binds : precedence < kind.precedence) (second : Expression kind.rightPrecedence rest next right)
    (ends : next.precedence ≤ kind.rightPrecedence) :
    Expression precedence (symbols ++ ⟨kind, literal⟩ :: rest) next (.binary left (.ofSymbol literal) right)

/-- Expressions with commas between them. -/
inductive Items : List Symbol → Token.Kind → List Expr → Prop where
  | single (item : Expression .lowest symbols next expr) (ends : next.precedence ≤ .lowest) : Items symbols next [expr]
  | snoc (items : Items symbols .comma exprs) (item : Expression .lowest rest next expr)
    (ends : next.precedence ≤ .lowest) : Items (symbols ++ ⟨.comma, comma⟩ :: rest) next (exprs ++ [expr])

inductive Arguments : (close : Token.Kind) → List Symbol → List Expr → Prop where
  | none : Arguments close [] []
  | some (items : Items symbols close exprs) : Arguments close symbols exprs

inductive Block : List Symbol → List Stmt → Prop where
  | braces (body : Statements symbols .rightBrace statements) :
    Block (⟨.leftBrace, left⟩ :: symbols ++ [⟨.rightBrace, right⟩]) statements

/-- A statement up to the semicolon that may end it. -/
inductive Clause : List Symbol → Token.Kind → Stmt → Prop where
  | bind (value : Expression .lowest symbols next expr) (ends : next.precedence ≤ .lowest) :
    Clause (⟨.kwLet, word⟩ :: ⟨.identifier, name⟩ :: ⟨.assign, sign⟩ :: symbols) next (.bind name expr)
  | leave (ends : next.EndsReturn) : Clause [⟨.kwReturn, word⟩] next .leave
  | leaveWith (value : Expression .lowest symbols next expr) (ends : next.precedence ≤ .lowest) :
    Clause (⟨.kwReturn, word⟩ :: symbols) next (.leaveWith expr)
  | expr (value : Expression .lowest symbols next expr) (ends : next.precedence ≤ .lowest) :
    Clause symbols next (.expr expr)

inductive Statement : List Symbol → Token.Kind → Stmt → Prop where
  | plain (clause : Clause symbols next stmt) (bare : next ≠ .semicolon) : Statement symbols next stmt
  | ended (clause : Clause symbols .semicolon stmt) : Statement (symbols ++ [⟨.semicolon, literal⟩]) next stmt

inductive Statements : List Symbol → Token.Kind → List Stmt → Prop where
  | none : Statements [] next []
  | cons (first : Statement symbols (headKind rest next) stmt) (others : Statements rest next stmts) :
    Statements (symbols ++ rest) next (stmt :: stmts)

end

end Derivation

end Treewalk
