import Treewalk.Syntax.Render
import Treewalk.Proofs.Symbols

/-! Which characters spell which symbols. Only the symbols count, so the place where the characters stand does not, and
neither do blanks before a lexeme. A word, a number, or a text between quotes spells its symbol if what follows cannot be
read as a part of it. Conversely every token of a source is lexical. -/

namespace Treewalk

theorem Cursor.skipLayout_eq_of_skipBlanks_eq {first second : Cursor} (same : first.skipBlanks = second.skipBlanks) :
    first.skipLayout = second.skipLayout := by
  rw [skipLayout.eq_def first, skipLayout.eq_def second]
  split
  next rest comment =>
    split
    next => simp only [same]
    next plain => exact absurd (same ▸ comment) (plain rest)
  next plain =>
    split
    next rest comment => exact absurd (same ▸ comment) (plain rest)
    next => exact same

theorem Cursor.skipLayout_of_blank {c : Char} (empty : isBlank c = true) (position : Nat) (chars : List Char) :
    (Cursor.mk position (c :: chars)).skipLayout = (Cursor.mk (position + 1) chars).skipLayout := by
  refine skipLayout_eq_of_skipBlanks_eq ?_
  simp [skipBlanks, skip, run, empty]
  omega

/-- The cursor stands at neither a blank nor a comment. -/
def AtLexeme (chars : List Char) : Prop :=
  (∀ c, chars.head? = some c → isBlank c = false) ∧ ∀ rest, chars ≠ '/' :: '/' :: rest

theorem Cursor.skipLayout_eq_self {position : Nat} {chars : List Char} (start : AtLexeme chars) :
    (Cursor.mk position chars).skipLayout = ⟨position, chars⟩ := by
  have unmoved : (Cursor.mk position chars).skipBlanks = ⟨position, chars⟩ := by
    cases chars with
    | nil => rfl
    | cons c rest => simp [skipBlanks, skip, run, start.1 c rfl]
  rw [skipLayout]
  split
  next rest comment =>
    rw [unmoved] at comment
    exact absurd comment (start.2 rest)
  next => exact unmoved

/-- Read anywhere, the characters give these symbols and the end of the source behind them. -/
def Spells (chars : List Char) (symbols : List Symbol) : Prop :=
  ∀ position, (Cursor.mk position chars).tokens.map Token.symbol = symbols ++ [⟨.endOfInput, ""⟩]

namespace Spells

theorem nil : Spells [] [] := by
  intro position
  have next : (Cursor.mk position []).next = (.finish position, ⟨position, []⟩) := by
    rw [Cursor.next, Cursor.skipLayout_eq_self ⟨by simp, by simp⟩]
    rfl
  rw [Cursor.tokens, next]
  rfl

variable {chars : List Char} {symbols : List Symbol}

theorem blank {c : Char} (empty : isBlank c = true) (spelt : Spells chars symbols) : Spells (c :: chars) symbols := by
  intro position
  have same : (Cursor.mk position (c :: chars)).next = (Cursor.mk (position + 1) chars).next := by
    rw [Cursor.next, Cursor.skipLayout_of_blank empty, ← Cursor.next]
  rw [Cursor.tokens, same, ← Cursor.tokens]
  exact spelt (position + 1)

theorem space (spelt : Spells chars symbols) : Spells (' ' :: chars) symbols := spelt.blank rfl

theorem lexeme {front : List Char} {kind : Token.Kind} {literal : String} (start : AtLexeme (front ++ chars))
    (read : Lexeme.read (front ++ chars) = ⟨kind, literal, front.length⟩) (inside : kind ≠ .endOfInput)
    (spelt : Spells chars symbols) : Spells (front ++ chars) (⟨kind, literal⟩ :: symbols) := by
  intro position
  have next : (Cursor.mk position (front ++ chars)).next = (⟨kind, literal, position⟩, ⟨position + front.length, chars⟩) := by
    simp [Cursor.next, Cursor.skipLayout_eq_self start, read, Cursor.take, Cursor.advance]
  rw [Cursor.tokens]
  simp [next, inside, spelt (position + front.length), Token.symbol]

end Spells

/-! ### Single lexemes -/

/-- The characters behind an operator do not make a longer one of it, nor a comment. -/
def Token.Kind.Apart (kind : Token.Kind) (chars : List Char) : Prop :=
  match kind with
  | .assign | .bang => chars.head? ≠ some '='
  | .slash => chars.head? ≠ some '/'
  | _ => True

theorem Lexeme.symbol?_mark {kind : Token.Kind} (fixed : kind.IsMark) {chars : List Char} (apart : kind.Apart chars) :
    symbol? (kind.text.toList ++ chars) = some (kind, kind.text.toList.length) := by
  have single : chars.head? ≠ some '=' → ∀ rest, chars ≠ '=' :: rest := by
    rintro other rest rfl
    exact other rfl
  cases kind with
  | assign => exact symbol?.eq_3 _ (single apart)
  | bang => exact symbol?.eq_4 _ (single apart)
  | illegal | endOfInput | identifier | integer | string => exact absurd fixed (by decide)
  | kwFunction | kwLet | kwTrue | kwFalse | kwIf | kwElse | kwReturn => exact absurd fixed (by decide)
  | _ => rfl

theorem AtLexeme.mark {kind : Token.Kind} (fixed : kind.IsMark) {chars : List Char} (apart : kind.Apart chars) :
    AtLexeme (kind.text.toList ++ chars) := by
  cases kind with
  | slash =>
    refine ⟨fun c first => Option.some.inj first ▸ rfl, ?_⟩
    rintro rest comment
    exact apart (congrArg List.head? (List.cons.inj comment).2)
  | illegal | endOfInput | identifier | integer | string => exact absurd fixed (by decide)
  | kwFunction | kwLet | kwTrue | kwFalse | kwIf | kwElse | kwReturn => exact absurd fixed (by decide)
  | _ => exact ⟨fun c first => Option.some.inj first ▸ rfl, fun rest => by simp [Token.Kind.text, Token.Kind.name]⟩

theorem Lexeme.read_mark {kind : Token.Kind} (fixed : kind.IsMark) {chars : List Char} (apart : kind.Apart chars) :
    read (kind.text.toList ++ chars) = ⟨kind, kind.text, kind.text.toList.length⟩ := by
  simp [read, symbol?_mark fixed apart]

theorem Spells.mark (kind : Token.Kind) (fixed : kind.IsMark) {chars : List Char} {symbols : List Symbol}
    (apart : kind.Apart chars) (spelt : Spells chars symbols) :
    Spells (kind.text.toList ++ chars) (.mark kind :: symbols) := by
  refine spelt.lexeme (.mark fixed apart) (Lexeme.read_mark fixed apart) ?_
  rintro rfl
  simp [Token.Kind.IsMark] at fixed

/-! Words and numbers start with characters that start nothing else. -/

theorem Lexeme.symbol?_eq_none {c : Char} {rest : List Char} (plain : isWordChar c = true ∨ c.isDigit = true ∨ c = '"') :
    symbol? (c :: rest) = none := by
  unfold symbol?
  split <;> simp_all [isWordChar]

theorem AtLexeme.of_head {c : Char} {rest : List Char} (plain : isWordChar c = true ∨ c.isDigit = true ∨ c = '"') :
    AtLexeme (c :: rest) := by
  refine ⟨fun first same => ?_, fun rest same => ?_⟩
  · obtain rfl := Option.some.inj same
    rw [Bool.eq_false_iff]
    intro blank
    simp only [isBlank, Bool.or_eq_true, beq_iff_eq] at blank
    rcases blank with ((rfl | rfl) | rfl) | rfl <;> simp [isWordChar] at plain
  · obtain rfl := (List.cons.inj same).1
    simp [isWordChar] at plain

theorem takeWhile_append_of_head {test : Char → Bool} {front chars : List Char} (all : ∀ c ∈ front, test c = true)
    (ends : ∀ c, chars.head? = some c → test c = false) : (front ++ chars).takeWhile test = front := by
  rw [List.takeWhile_append_of_pos all]
  cases chars with
  | nil => simp
  | cons c rest => simp [ends c rfl]

theorem Lexeme.read_word {word : String} {chars : List Char} (letters : ∀ c ∈ word.toList, isWordChar c = true)
    (some_left : word.toList ≠ []) (ends : ∀ c, chars.head? = some c → isWordChar c = false) :
    AtLexeme (word.toList ++ chars) ∧ read (word.toList ++ chars) = ⟨.ofWord word, word, word.toList.length⟩ := by
  have all := takeWhile_append_of_head letters ends
  obtain ⟨c, rest, first⟩ := List.exists_cons_of_ne_nil some_left
  have letter : isWordChar c = true := letters c (first ▸ List.mem_cons_self)
  have unquoted : c ≠ '"' := by
    rintro rfl
    simp [isWordChar] at letter
  rw [first] at all ⊢
  simp only [List.cons_append] at all ⊢
  refine ⟨.of_head (Or.inl letter), ?_⟩
  simp only [read, symbol?_eq_none (Or.inl letter), beq_iff_eq, unquoted, if_false, letter, if_true, all]
  simp [← first]

theorem Spells.word {word : String} {chars : List Char} {symbols : List Symbol}
    (letters : ∀ c ∈ word.toList, isWordChar c = true) (some_left : word.toList ≠ [])
    (ends : ∀ c, chars.head? = some c → isWordChar c = false) (spelt : Spells chars symbols) :
    Spells (word.toList ++ chars) (⟨.ofWord word, word⟩ :: symbols) := by
  obtain ⟨start, read⟩ := Lexeme.read_word letters some_left ends
  refine spelt.lexeme start read ?_
  unfold Token.Kind.ofWord
  split <;> simp

theorem isWordChar_of_isDigit {c : Char} (digit : c.isDigit = true) : isWordChar c = false := by
  have below : c.toNat ≤ 57 := (Char.isDigit_iff_toNat.mp digit).2
  rw [Bool.eq_false_iff]
  intro word
  rcases Bool.or_eq_true_iff.mp word with alpha | underscore
  · rcases Bool.or_eq_true_iff.mp alpha with upper | lower
    · have above : 65 ≤ c.toNat := UInt32.le_iff_toNat_le.mp (of_decide_eq_true upper).1
      omega
    · have above : 97 ≤ c.toNat := UInt32.le_iff_toNat_le.mp (of_decide_eq_true (Bool.and_eq_true_iff.mp lower).1)
      omega
  · obtain rfl := eq_of_beq underscore
    simp at digit

theorem Lexeme.read_number {literal : String} {chars : List Char} (numeral : IsNumeral literal)
    (ends : ∀ c, chars.head? = some c → c.isDigit = false) :
    AtLexeme (literal.toList ++ chars) ∧ read (literal.toList ++ chars) = ⟨.integer, literal, literal.toList.length⟩ := by
  have all := takeWhile_append_of_head numeral.2 ends
  obtain ⟨c, rest, first⟩ := List.exists_cons_of_ne_nil numeral.1
  have digit : c.isDigit = true := numeral.2 c (first ▸ List.mem_cons_self)
  have unquoted : c ≠ '"' := by
    rintro rfl
    simp at digit
  have unlettered := isWordChar_of_isDigit digit
  rw [first] at all ⊢
  simp only [List.cons_append] at all ⊢
  refine ⟨.of_head (Or.inr (Or.inl digit)), ?_⟩
  simp only [read, symbol?_eq_none (Or.inr (Or.inl digit)), beq_iff_eq, unquoted, if_false, unlettered, digit, if_true, all]
  simp [← first]

theorem Spells.number {literal : String} {chars : List Char} {symbols : List Symbol} (numeral : IsNumeral literal)
    (ends : ∀ c, chars.head? = some c → c.isDigit = false) (spelt : Spells chars symbols) :
    Spells (literal.toList ++ chars) (⟨.integer, literal⟩ :: symbols) := by
  obtain ⟨start, read⟩ := Lexeme.read_number numeral ends
  exact spelt.lexeme start read (by simp)

theorem escapeQuotes_quote (text : List Char) : escapeQuotes ('"' :: text) = '\\' :: '"' :: escapeQuotes text := rfl

theorem escapeQuotes_plain {c : Char} (plain : c ≠ '"') (text : List Char) :
    escapeQuotes (c :: text) = c :: escapeQuotes text := by
  simp [escapeQuotes, plain]

/-- A quote in the content is escaped, so the first bare quote is the closing one. -/
theorem untilQuote_escapeQuotes (chars text : List Char) (closed : text.getLast? ≠ some '\\') :
    Lexeme.untilQuote (escapeQuotes text ++ '"' :: chars) = some (text, (escapeQuotes text).length + 1) := by
  induction text with
  | nil => rfl
  | cons c rest ih =>
    have remaining : rest.getLast? ≠ some '\\' := by
      cases rest with
      | nil => simp
      | cons => simpa [List.getLast?_cons_cons] using closed
    by_cases quote : c = '"'
    · subst quote
      simp [escapeQuotes_quote, Lexeme.untilQuote, ih remaining]
    · have unescaped : ∀ others, c = '\\' → escapeQuotes rest ++ '"' :: chars = '"' :: others → False := by
        rintro others rfl same
        cases rest with
        | nil => exact closed rfl
        | cons d rest =>
          by_cases inner : d = '"'
          · subst inner
            simp [escapeQuotes_quote] at same
          · rw [escapeQuotes_plain inner] at same
            exact inner (List.cons.inj same).1
      rw [escapeQuotes_plain quote, List.cons_append, Lexeme.untilQuote.eq_4 _ _ quote unescaped, ih remaining]
      simp

theorem renderString_append (text : String) (chars : List Char) :
    (renderString text).toList ++ chars = '"' :: (escapeQuotes text.toList ++ '"' :: chars) := by
  simp [renderString]

/-- The text of a string is read as the string, and nothing behind it is. -/
theorem Lexeme.read_renderString {text : String} (content : IsContent text) (chars : List Char) :
    read ((renderString text).toList ++ chars) = ⟨.string, text, (renderString text).toList.length⟩ := by
  have width : (renderString text).toList.length = (escapeQuotes text.toList).length + 2 := by simp [renderString]
  rw [renderString_append, width]
  simp [read, symbol?_eq_none, quoted, untilQuote_escapeQuotes chars text.toList content]

theorem AtLexeme.renderString (text : String) (chars : List Char) : AtLexeme ((renderString text).toList ++ chars) := by
  rw [renderString_append]
  exact .of_head (Or.inr (Or.inr rfl))

theorem Spells.quoted {text : String} {chars : List Char} {symbols : List Symbol} (content : IsContent text)
    (spelt : Spells chars symbols) : Spells ((renderString text).toList ++ chars) (⟨.string, text⟩ :: symbols) :=
  spelt.lexeme (.renderString text chars) (Lexeme.read_renderString content chars) (by simp)

/-! ### Tokens are lexical -/

theorem Lexeme.symbol?_lexical {chars : List Char} {kind : Token.Kind} {width : Nat}
    (found : symbol? chars = some (kind, width)) :
    Symbol.Lexical ⟨kind, String.ofList (chars.take width)⟩ := by
  unfold symbol? at found
  split at found
  case h_20 => cases found
  all_goals
    cases found
    rfl

theorem Symbol.lexical_word {word : String} (letters : ∀ c ∈ word.toList, isWordChar c = true) (some_left : word.toList ≠ []) :
    Symbol.Lexical ⟨.ofWord word, word⟩ := by
  cases kind : Token.Kind.ofWord word with
  | identifier => exact ⟨some_left, letters, kind⟩
  | _ =>
    unfold Token.Kind.ofWord at kind
    split at kind <;> cases kind <;> rfl

theorem Lexeme.exists_quote_of_untilQuote {chars : List Char} {width : Nat} (found : untilQuote chars = some ([], width)) :
    ∃ rest, chars = '"' :: rest := by
  unfold untilQuote at found
  split at found
  next => cases found
  next rest => exact ⟨rest, rfl⟩
  next => simp at found
  next => simp at found

/-- The character before the closing quote is not a backslash. -/
theorem Lexeme.untilQuote_content (chars : List Char) :
    ∀ content width, untilQuote chars = some (content, width) → content.getLast? ≠ some '\\' := by
  fun_induction untilQuote chars with
  | case1 => simp
  | case2 =>
    rintro content width found
    cases found
    simp
  | case3 rest ih =>
    intro content width found
    simp only [Option.map_eq_some_iff, Prod.mk.injEq, Prod.exists] at found
    obtain ⟨inner, _, read, rfl, -⟩ := found
    cases inner with
    | nil => simp
    | cons => simpa [List.getLast?_cons_cons] using ih _ _ read
  | case4 c rest plain unescaped ih =>
    intro content width found
    simp only [Option.map_eq_some_iff, Prod.mk.injEq, Prod.exists] at found
    obtain ⟨inner, _, read, rfl, -⟩ := found
    cases inner with
    | nil =>
      obtain ⟨others, rfl⟩ := exists_quote_of_untilQuote read
      simpa using fun backslash => unescaped others backslash rfl
    | cons => simpa [List.getLast?_cons_cons] using ih _ _ read

theorem Lexeme.read_lexical (chars : List Char) : Symbol.Lexical ⟨(read chars).kind, (read chars).literal⟩ := by
  unfold read
  split
  next found => exact symbol?_lexical found
  next =>
    split
    next => rfl
    next c rest _ =>
      split
      next =>
        unfold quoted
        split
        next found => simpa [Symbol.Lexical, IsContent] using untilQuote_content _ _ _ found
        next => trivial
      next =>
        split
        next letter => exact Symbol.lexical_word (by simpa using List.all_eq_true.mp List.all_takeWhile) (by simp [letter])
        next =>
          split
          next digit => exact ⟨by simp [digit], by simpa using List.all_eq_true.mp List.all_takeWhile⟩
          next => trivial

theorem Cursor.tokens_lexical (cursor : Cursor) : ∀ token ∈ cursor.tokens, token.symbol.Lexical := by
  fun_induction tokens cursor with
  | case1 cursor last =>
    intro token member
    obtain rfl := List.mem_singleton.mp member
    exact Lexeme.read_lexical _
  | case2 cursor more ih =>
    intro token member
    rcases List.mem_cons.mp member with rfl | member
    · exact Lexeme.read_lexical _
    · exact ih token member

theorem Cursor.tokens_ne_nil (cursor : Cursor) : cursor.tokens ≠ [] := by
  rw [tokens]
  split <;> simp

/-- The end token is the last one and has no text. -/
theorem Cursor.map_symbol_tokens (cursor : Cursor) :
    cursor.tokens.map Token.symbol = cursor.tokens.dropLast.map Token.symbol ++ [⟨.endOfInput, ""⟩] := by
  fun_induction tokens cursor with
  | case1 cursor last =>
    have lexical : Symbol.Lexical ⟨cursor.next.1.kind, cursor.next.1.literal⟩ := Lexeme.read_lexical _
    rw [last] at lexical
    have empty : cursor.next.1.literal = "" := lexical
    simp [Token.symbol, last, empty]
  | case2 cursor more ih =>
    rw [List.dropLast_cons_of_ne_nil (tokens_ne_nil _), List.map_cons, ih, List.map_cons, List.cons_append]

theorem Token.map_symbol_stream (source : String) :
    (stream source).map Token.symbol = (scan source).map Token.symbol ++ [⟨.endOfInput, ""⟩] :=
  Cursor.map_symbol_tokens _

theorem Token.scan_lexical (source : String) : ∀ symbol ∈ (scan source).map Token.symbol, symbol.Lexical := by
  intro symbol member
  obtain ⟨token, scanned, rfl⟩ := List.mem_map.mp member
  exact Cursor.tokens_lexical _ token (List.dropLast_subset _ scanned)

theorem Spells.scan {source : String} {symbols : List Symbol} (spelt : Spells source.toList symbols) :
    (Token.scan source).map Token.symbol = symbols :=
  List.append_cancel_right ((Token.map_symbol_stream source).symm.trans (spelt 0))

end Treewalk
