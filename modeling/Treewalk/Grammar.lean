import Treewalk.Grammar.Parser
import Treewalk.Grammar.Precedence
import Treewalk.Token.Scan

/-! The grammar. Each rule starts at the first token of what it reads and leaves the last token of it as the current
one. Expressions are read by climbing: an operand, then every operator that binds tighter than the expression has to,
each with its own right-hand side. Rules take the parser for the expressions nested in them as a parameter; only the
step into a nested expression spends nesting room, so flat text of any length can be read. -/

namespace Treewalk

/-- The largest integer that a literal may denote: 2⁶³ - 1. -/
def maxInteger : Nat := 9223372036854775807

/-- The statements read up to where a sequence ends. A sequence is cut short when the nesting limit is reached inside
one of its statements; the statements before that one are kept. -/
structure Sequence where
  statements : List Stmt
  rest : List Token
  diagnostics : List Diagnostic
  cutShort : Bool

namespace Grammar

/-- Reads an expression that binds tighter than the given precedence, one level further in. -/
abbrev Nested := Precedence → Parser Expr

def name : Parser Expr := do
  return .name (← Parser.current).literal

def integer : Parser Expr := do
  let literal := (← Parser.current).literal
  let value := Nat.ofDigitChars 10 literal.toList 0
  if value ≤ maxInteger then return .integer value
  else Parser.fail (.integerTooLarge literal)

def string : Parser Expr := do
  return .string (← Parser.current).literal

def boolean : Parser Expr := do
  return .boolean ((← Parser.current).kind = .kwTrue)

def illegal : Parser Expr := do
  let token ← Parser.current
  if token.opensString then Parser.fail (.unterminatedString token.position)
  else Parser.fail (.illegalCharacter token.literal token.position)

def unary (nested : Nested) : Parser Expr := do
  let op := UnaryOp.ofSymbol (← Parser.current).literal
  Parser.advance
  return .unary op (← nested .unary)

def grouped (nested : Nested) : Parser Expr := do
  Parser.advance
  let inner ← nested .lowest
  Parser.expect .rightParen
  return inner

/-- Expressions separated by commas, up to the closing token. An item that cannot be read makes the list fail, but
only after the items behind it have been tried. -/
def expressions (nested : Nested) (close : Token.Kind) : Parser (List Expr) := do
  if (← Parser.nextKind) = close then
    Parser.advance
    return []
  else
    Parser.advance
    let first ← Parser.attempt (nested .lowest)
    let items ← Parser.whileNext (· = .comma) (fun items => do
      Parser.advance
      let item ← Parser.attempt (nested .lowest)
      return item :: items) [first]
    Parser.expect close
    match items.reverse.mapM id with
    | some exprs => return exprs
    | none => Parser.reject

def array (nested : Nested) : Parser Expr := do
  return .array (← expressions nested .rightBracket)

def call (nested : Nested) (function : Expr) : Parser Expr := do
  return .call function (← expressions nested .rightParen)

def index (nested : Nested) (collection : Expr) : Parser Expr := do
  Parser.advance
  let position ← nested .lowest
  Parser.expect .rightBracket
  return .index collection position

def assignment (nested : Nested) (target : Expr) : Parser Expr := do
  match target with
  | .name name =>
    Parser.advance
    return .assign name (← nested .lowest)
  | _ => Parser.fail (.invalidTarget target)

def binary (nested : Nested) (left : Expr) : Parser Expr := do
  let token ← Parser.current
  Parser.advance
  return .binary left (.ofSymbol token.literal) (← nested token.kind.rightPrecedence)

/-- The parameter names between parentheses, from the opening one on. -/
def parameters : Parser (List String) := do
  if (← Parser.nextKind) = .rightParen then
    Parser.advance
    return []
  else
    Parser.expect .identifier
    let first := (← Parser.current).literal
    let names ← Parser.whileNext (· = .comma) (fun names => do
      Parser.expect .identifier
      return (← Parser.current).literal :: names) [first]
    Parser.expect .rightParen
    return names.reverse

def bindStatement (nested : Nested) : Parser Stmt := do
  Parser.expect .identifier
  let name := (← Parser.current).literal
  Parser.expect .assign
  Parser.advance
  let value ← nested .lowest
  Parser.skipNext .semicolon
  return .bind name value

def returnStatement (nested : Nested) : Parser Stmt := do
  match ← Parser.nextKind with
  | .semicolon =>
    Parser.advance
    return .leave
  | .rightBrace | .endOfInput => return .leave
  | _ =>
    Parser.advance
    let value ← nested .lowest
    Parser.skipNext .semicolon
    return .leaveWith value

def expressionStatement (nested : Nested) : Parser Stmt := do
  let value ← nested .lowest
  Parser.skipNext .semicolon
  return .expr value

def statement (nested : Nested) : Parser Stmt := do
  match (← Parser.current).kind with
  | .kwLet => bindStatement nested
  | .kwReturn => returnStatement nested
  | _ => expressionStatement nested

/-- Statements up to a token of a kind that stops the sequence, or to the end of the source. A statement that cannot
be read is left out, and reading goes on one token behind the place where it failed. -/
def sequence (statement : Parser Stmt) (stops : Token.Kind → Bool) (tokens : List Token) : Sequence :=
  match tokens with
  | [] => ⟨[], [], [], false⟩
  | token :: behind =>
    if stops token.kind then ⟨[], token :: behind, [], false⟩
    else
      let first := statement.run (token :: behind)
      match first.outcome with
      | .accepted stmt =>
        let others := sequence statement stops first.rest.tail
        { others with
          statements := stmt :: others.statements
          diagnostics := first.diagnostics ++ others.diagnostics }
      | .rejected =>
        let others := sequence statement stops first.rest.tail
        { others with diagnostics := first.diagnostics ++ others.diagnostics }
      | .tooDeep => ⟨[], first.rest, first.diagnostics, true⟩
termination_by tokens.length
decreasing_by
  all_goals
    have bound := statement.rest_length_le (token :: behind)
    simp only [List.length_tail, List.length_cons] at bound ⊢
    omega

theorem sequence_rest_length_le (statement : Parser Stmt) (stops : Token.Kind → Bool) (tokens : List Token) :
    (sequence statement stops tokens).rest.length ≤ tokens.length := by
  fun_induction sequence statement stops tokens with
  | case1 => exact Nat.le_refl _
  | case2 => exact Nat.le_refl _
  | case3 token behind going first stmt outcome others ih =>
    exact Nat.le_trans ih (Nat.le_trans (List.length_tail ▸ Nat.sub_le _ _) (statement.rest_length_le _))
  | case4 token behind going first outcome others ih =>
    exact Nat.le_trans ih (Nat.le_trans (List.length_tail ▸ Nat.sub_le _ _) (statement.rest_length_le _))
  | case5 => exact statement.rest_length_le _

/-- The statements between braces, from the opening one on. A block that is never closed ends with the source. -/
def block (statement : Parser Stmt) : Parser (List Stmt) where
  run tokens :=
    let inside := sequence statement (· = .rightBrace) tokens.tail
    if inside.cutShort then ⟨.tooDeep, inside.rest, inside.diagnostics⟩
    else if inside.rest.isEmpty then
      ⟨.accepted inside.statements, inside.rest, inside.diagnostics ++ [.unclosedBlock]⟩
    else ⟨.accepted inside.statements, inside.rest, inside.diagnostics⟩
  rest_length_le tokens := by
    have bound := sequence_rest_length_le statement (· = .rightBrace) tokens.tail
    have shorter : tokens.tail.length ≤ tokens.length := by simp
    dsimp only
    split
    · exact Nat.le_trans bound shorter
    · split <;> exact Nat.le_trans bound shorter

def conditional (nested : Nested) : Parser Expr := do
  Parser.expect .leftParen
  Parser.advance
  let condition ← nested .lowest
  Parser.expect .rightParen
  Parser.expect .leftBrace
  let consequence ← block (statement nested)
  if (← Parser.nextKind) = .kwElse then
    Parser.advance
    Parser.expect .leftBrace
    return .ifElse condition consequence (← block (statement nested))
  else return .ifThen condition consequence

def function (nested : Nested) : Parser Expr := do
  Parser.expect .leftParen
  let names ← parameters
  Parser.expect .leftBrace
  return .function names (← block (statement nested))

/-- What an expression can start with. -/
def operand (nested : Nested) : Parser Expr := do
  let kind := (← Parser.current).kind
  match kind with
  | .identifier => name
  | .integer => integer
  | .string => string
  | .kwTrue | .kwFalse => boolean
  | .bang | .minus => unary nested
  | .leftParen => grouped nested
  | .kwIf => conditional nested
  | .kwFunction => function nested
  | .leftBracket => array nested
  | .illegal => illegal
  | _ => Parser.fail (.noOperand kind)

/-- Continues an expression at one of the tokens that have a precedence. -/
def continuation (nested : Nested) (left : Expr) : Parser Expr := do
  match (← Parser.current).kind with
  | .assign => assignment nested left
  | .leftParen => call nested left
  | .leftBracket => index nested left
  | _ => binary nested left

def climb (nested : Nested) (precedence : Precedence) : Parser Expr := do
  let left ← operand nested
  Parser.whileNext (fun kind => precedence < kind.precedence) (continuation nested) left

/-- Expressions at most `room` levels deep. -/
def expression : (room : Nat) → Nested
  | 0, _ => Parser.tooDeep
  | room + 1, precedence => climb (expression room) precedence

end Grammar

/-- How deeply expressions may be nested in each other. -/
def nestingLimit : Nat := 500

namespace Program

/-- All statements that are left. A parse that was cut short ends with a diagnostic that says so. -/
def ofTokens (room : Nat) (tokens : List Token) : Program × List Diagnostic :=
  let all := Grammar.sequence (Grammar.statement (Grammar.expression room)) (fun _ => false) tokens
  (⟨all.statements⟩, if all.cutShort then all.diagnostics ++ [.nestingTooDeep] else all.diagnostics)

/-- Reads a source text with a given nesting limit. The source is valid when there are no diagnostics; a program that
has some must not be evaluated. -/
def parseWithin (room : Nat) (source : String) : Program × List Diagnostic := ofTokens room (Token.scan source)

def parse (source : String) : Program × List Diagnostic := parseWithin nestingLimit source

end Program

end Treewalk
