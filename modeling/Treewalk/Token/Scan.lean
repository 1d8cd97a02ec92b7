import Treewalk.Token

/-! Scanning source text. A cursor holds the characters still to be read and the position of the first of them.
Reading a lexeme looks only at the characters ahead, never at the position, so scanning a text at another place
gives the same tokens with shifted positions. Scanning never fails: what cannot be read becomes an illegal token. -/

namespace Treewalk

def isBlank (c : Char) : Bool := c == ' ' || c == '\t' || c == '\n' || c == '\r'

def isLineBreak (c : Char) : Bool := c == '\n' || c == '\r'

/-- The letters of words are those of the ASCII alphabet and the underscore. -/
def isWordChar (c : Char) : Bool := c.isAlpha || c == '_'

/-- The piece of text that one token takes: its kind, what it stands for, and how many characters it spans. -/
structure Lexeme where
  kind : Token.Kind
  literal : String
  width : Nat
  deriving DecidableEq, Repr

namespace Lexeme

/-- Operators and delimiters, the longer ones first. -/
def symbol? : List Char → Option (Token.Kind × Nat)
  | '=' :: '=' :: _ => some (.equal, 2)
  | '!' :: '=' :: _ => some (.notEqual, 2)
  | '=' :: _ => some (.assign, 1)
  | '!' :: _ => some (.bang, 1)
  | '+' :: _ => some (.plus, 1)
  | '-' :: _ => some (.minus, 1)
  | '*' :: _ => some (.asterisk, 1)
  | '/' :: _ => some (.slash, 1)
  | '^' :: _ => some (.caret, 1)
  | '<' :: _ => some (.less, 1)
  | '>' :: _ => some (.greater, 1)
  | ',' :: _ => some (.comma, 1)
  | ';' :: _ => some (.semicolon, 1)
  | '(' :: _ => some (.leftParen, 1)
  | ')' :: _ => some (.rightParen, 1)
  | '{' :: _ => some (.leftBrace, 1)
  | '}' :: _ => some (.rightBrace, 1)
  | '[' :: _ => some (.leftBracket, 1)
  | ']' :: _ => some (.rightBracket, 1)
  | _ => none

/-- The content of a string up to its closing quote, and the number of characters read, that quote included. A
backslash before a quote makes the quote part of the content; before anything else it stands for itself. -/
def untilQuote : List Char → Option (List Char × Nat)
  | [] => none
  | '"' :: _ => some ([], 1)
  | '\\' :: '"' :: rest => (untilQuote rest).map fun (content, width) => ('"' :: content, width + 2)
  | c :: rest => (untilQuote rest).map fun (content, width) => (c :: content, width + 1)

/-- The string whose opening quote is the first character. Without a closing quote all that is left is illegal. -/
def quoted (chars : List Char) : Lexeme :=
  match untilQuote chars.tail with
  | some (content, width) => ⟨.string, String.ofList content, width + 1⟩
  | none => ⟨.illegal, String.ofList chars, max 1 chars.length⟩

/-- The lexeme at the start of a text that starts with neither a blank nor a comment. -/
def read (chars : List Char) : Lexeme :=
  match symbol? chars with
  | some (kind, width) => ⟨kind, String.ofList (chars.take width), width⟩
  | none =>
    match chars with
    | [] => ⟨.endOfInput, "", 0⟩
    | c :: _ =>
      if c == '"' then quoted chars
      else if isWordChar c then
        let word := chars.takeWhile isWordChar
        ⟨.ofWord (String.ofList word), String.ofList word, word.length⟩
      else if c.isDigit then
        let digits := chars.takeWhile Char.isDigit
        ⟨.integer, String.ofList digits, digits.length⟩
      else ⟨.illegal, c.toString, 1⟩

theorem symbol?_width_pos {chars : List Char} {kind : Token.Kind} {width : Nat}
    (found : symbol? chars = some (kind, width)) : 0 < width := by
  unfold symbol? at found
  split at found <;> simp_all <;> omega

theorem read_width_pos {chars : List Char} (some_left : chars ≠ []) : 0 < (read chars).width := by
  unfold read
  split
  next found => exact symbol?_width_pos found
  next =>
    cases chars with
    | nil => exact absurd rfl some_left
    | cons c rest =>
      simp only
      split
      · simp only [quoted]
        split <;> simp
      · split
        next word => simp [word]
        next =>
          split
          next digit => simp [digit]
          next => simp

end Lexeme

structure Cursor where
  position : Nat
  rest : List Char
  deriving DecidableEq, Repr

namespace Cursor

def ofString (source : String) : Cursor := ⟨0, source.toList⟩

/-- Moves on by a number of characters. The position grows by that number also past the end of the text. -/
def advance (cursor : Cursor) (count : Nat) : Cursor := ⟨cursor.position + count, cursor.rest.drop count⟩

def current? (cursor : Cursor) : Option Char := cursor.rest.head?

def peek? (cursor : Cursor) : Option Char := cursor.rest.tail.head?

/-- The longest run of characters that satisfy a test. -/
def run (cursor : Cursor) (test : Char → Bool) : List Char := cursor.rest.takeWhile test

def skip (cursor : Cursor) (test : Char → Bool) : Cursor :=
  ⟨cursor.position + (cursor.run test).length, cursor.rest.dropWhile test⟩

def skipBlanks (cursor : Cursor) : Cursor := cursor.skip isBlank

/-- Skips the rest of a line, but not the break that ends it. -/
def skipLine (cursor : Cursor) : Cursor := cursor.skip fun c => !isLineBreak c

theorem skip_length_le (cursor : Cursor) (test : Char → Bool) :
    (cursor.skip test).rest.length ≤ cursor.rest.length := by
  simpa [skip] using (List.dropWhile_sublist test).length_le

theorem skipLine_length_lt {cursor : Cursor} {rest : List Char} (comment : cursor.rest = '/' :: rest) :
    cursor.skipLine.rest.length < cursor.rest.length := by
  have shorter := (List.dropWhile_sublist (l := rest) fun c => !isLineBreak c).length_le
  simp only [skipLine, skip, comment, List.dropWhile_cons, List.length_cons]
  simp only [show isLineBreak '/' = false from rfl, Bool.not_false, if_true]
  omega

/-- Skips blanks and comments. A comment runs from two slashes to the end of its line. -/
def skipLayout (cursor : Cursor) : Cursor :=
  match comment : cursor.skipBlanks.rest with
  | '/' :: '/' :: _ =>
    have := Nat.lt_of_lt_of_le (skipLine_length_lt comment) (skip_length_le cursor isBlank)
    cursor.skipBlanks.skipLine.skipLayout
  | _ => cursor.skipBlanks
termination_by cursor.rest.length

/-- Reads one lexeme here, without skipping anything first. -/
def take (cursor : Cursor) (lexeme : Lexeme) : Token × Cursor :=
  (⟨lexeme.kind, lexeme.literal, cursor.position⟩, cursor.advance lexeme.width)

/-- The next token and the cursor behind it. At the end of the text that is the end token, and the cursor stays. -/
def next (cursor : Cursor) : Token × Cursor :=
  let start := cursor.skipLayout
  start.take (Lexeme.read start.rest)

theorem skipLayout_length_le (cursor : Cursor) : cursor.skipLayout.rest.length ≤ cursor.rest.length := by
  fun_induction skipLayout cursor with
  | case1 cursor rest comment shorter ih => exact Nat.le_trans ih (Nat.le_of_lt shorter)
  | case2 cursor => exact skip_length_le cursor isBlank

theorem next_length_lt {cursor : Cursor} (more : cursor.next.1.kind ≠ .endOfInput) :
    cursor.next.2.rest.length < cursor.rest.length := by
  have shorter := skipLayout_length_le cursor
  have left : cursor.skipLayout.rest ≠ [] := by
    intro none_left
    apply more
    simp [next, take, none_left, Lexeme.read, Lexeme.symbol?]
  have wide := Lexeme.read_width_pos left
  have nonempty : 0 < cursor.skipLayout.rest.length := List.length_pos_iff.mpr left
  simp only [next, take, advance, List.length_drop]
  omega

/-- All tokens from here on, the end token included. -/
def tokens (cursor : Cursor) : List Token :=
  if cursor.next.1.kind = .endOfInput then [cursor.next.1]
  else cursor.next.1 :: cursor.next.2.tokens
termination_by cursor.rest.length
decreasing_by exact next_length_lt (by assumption)

end Cursor

namespace Token

/-- The tokens of a source, the end token last. -/
def stream (source : String) : List Token := (Cursor.ofString source).tokens

/-- The tokens of a source without the end token: the list runs out where the source does. -/
def scan (source : String) : List Token := (stream source).dropLast

end Token

end Treewalk
