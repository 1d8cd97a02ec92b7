import Treewalk.Proofs.Seams

/-! A source is its tokens and the layout around them. It is cut into the spans of its tokens and gaps of blanks and comments,
so that nothing is left over; a token is spelt by its span, and no span could have gone on. -/

namespace Treewalk

/-! ### Gaps -/

/-- Blanks and comments in front of a text. A comment ends where its line ends, or else the whole text. -/
inductive Gap : (gap behind : List Char) → Prop where
  | nil : Gap [] behind
  | blank (empty : isBlank c = true) (others : Gap gap behind) : Gap (c :: gap) behind
  | comment (line : ∀ c ∈ text, isLineBreak c = false)
    (ends : ∀ c, (gap ++ behind).head? = some c → isLineBreak c = true) (others : Gap gap behind) :
    Gap ('/' :: '/' :: (text ++ gap)) behind

theorem Gap.blanks {front gap behind : List Char} (all : ∀ c ∈ front, isBlank c = true) (others : Gap gap behind) :
    Gap (front ++ gap) behind := by
  induction front with
  | nil => exact others
  | cons c front ih =>
    obtain ⟨empty, more⟩ := List.forall_mem_cons.mp all
    exact .blank empty (ih more)

theorem head?_dropWhile_fails {test : Char → Bool} {chars : List Char} {c : Char}
    (first : (chars.dropWhile test).head? = some c) : test c = false := by
  have stops := List.head?_dropWhile_not test chars
  rw [first] at stops
  simpa using stops

namespace Cursor

/-- What is skipped before a lexeme is a gap. -/
theorem skipLayout_gap (cursor : Cursor) : ∃ gap, Gap gap cursor.skipLayout.rest ∧
    cursor.rest = gap ++ cursor.skipLayout.rest ∧ cursor.skipLayout.position = cursor.position + gap.length := by
  have blanks (cursor : Cursor) : ∀ c ∈ cursor.run isBlank, isBlank c = true := List.all_eq_true.mp List.all_takeWhile
  have parted (cursor : Cursor) (test : Char → Bool) : cursor.rest = cursor.run test ++ (cursor.skip test).rest :=
    List.takeWhile_append_dropWhile.symm
  fun_induction skipLayout cursor with
  | case1 cursor rest comment shorter ih =>
    obtain ⟨gap, others, behind, place⟩ := ih
    let text := rest.takeWhile fun c => !isLineBreak c
    have line : cursor.skipBlanks.run (fun c => !isLineBreak c) = '/' :: '/' :: text := by
      rw [run, comment]
      rfl
    have ends : ∀ c, (gap ++ cursor.skipBlanks.skipLine.skipLayout.rest).head? = some c → isLineBreak c = true := by
      intro c first
      rw [← behind] at first
      simpa using head?_dropWhile_fails first
    refine ⟨cursor.run isBlank ++ '/' :: '/' :: (text ++ gap), .blanks (blanks cursor) (.comment ?_ ends others), ?_, ?_⟩
    · intro c member
      simpa using List.all_eq_true.mp List.all_takeWhile c member
    · have whole := parted cursor.skipBlanks fun c => !isLineBreak c
      change cursor.skipBlanks.rest = _ ++ cursor.skipBlanks.skipLine.rest at whole
      rw [line, behind] at whole
      rw [parted cursor isBlank]
      change _ ++ cursor.skipBlanks.rest = _
      rw [whole]
      simp
    · have position : cursor.skipBlanks.skipLine.position =
          cursor.position + (cursor.run isBlank).length + ('/' :: '/' :: text).length := by
        rw [← line]
        rfl
      rw [place, position]
      simp only [List.length_append, List.length_cons]
      omega
  | case2 cursor =>
    refine ⟨cursor.run isBlank ++ [], .blanks (blanks cursor) .nil, ?_, ?_⟩
    · rw [List.append_nil]
      exact parted cursor isBlank
    · simp [skipBlanks, skip]

theorem skipLayout_atLexeme (cursor : Cursor) : AtLexeme cursor.skipLayout.rest := by
  fun_induction skipLayout cursor with
  | case1 cursor rest comment shorter ih => exact ih
  | case2 cursor plain =>
    exact ⟨fun c first => head?_dropWhile_fails first, plain⟩

end Cursor

/-! ### Strings -/

/-- A text with every backslash taken away that stands before a quote. -/
def unescapeQuotes : List Char → List Char
  | [] => []
  | '\\' :: '"' :: rest => '"' :: unescapeQuotes rest
  | c :: rest => c :: unescapeQuotes rest

theorem unescapeQuotes_subset (chars : List Char) : unescapeQuotes chars ⊆ chars := by
  fun_induction unescapeQuotes chars with
  | case1 => exact List.nil_subset _
  | case2 rest ih => exact fun c member => List.mem_cons_of_mem _ (List.cons_subset_cons _ ih member)
  | case3 c rest _ ih => exact List.cons_subset_cons c ih

/-- Every quote in the text has a backslash directly before it. -/
def Escaped (text : List Char) : Prop := ∀ front back, text = front ++ '"' :: back → front.getLast? = some '\\'

namespace Escaped

variable {text : List Char}

theorem nil : Escaped [] := by
  intro front back same
  simp at same

theorem ne_quote (escaped : Escaped text) (rest : List Char) : text ≠ '"' :: rest := by
  rintro rfl
  cases escaped [] rest rfl

theorem getLast?_cons (escaped : Escaped text) {front back : List Char} (same : text = front ++ '"' :: back) (c : Char) :
    (c :: front).getLast? = some '\\' := by
  cases front with
  | nil => exact absurd same (escaped.ne_quote back)
  | cons d front =>
    rw [List.getLast?_cons_cons]
    exact escaped _ _ same

theorem cons (escaped : Escaped text) {c : Char} (plain : c ≠ '"') : Escaped (c :: text) := by
  intro front back same
  cases front with
  | nil => exact absurd (List.cons.inj same).1 plain
  | cons d front => exact escaped.getLast?_cons (List.cons.inj same).2 d

theorem pair (escaped : Escaped text) : Escaped ('\\' :: '"' :: text) := by
  intro front back same
  match front, same with
  | [], same => simp at same
  | [c], same => rw [← (List.cons.inj same).1]; rfl
  | c :: d :: front, same =>
    rw [List.getLast?_cons_cons]
    exact escaped.getLast?_cons (List.cons.inj (List.cons.inj same).2).2 d

end Escaped

theorem unescapeQuotes_cons {c : Char} {rest : List Char} (plain : ∀ others, c = '\\' → rest ≠ '"' :: others) :
    unescapeQuotes (c :: rest) = c :: unescapeQuotes rest :=
  unescapeQuotes.eq_3 c rest fun others backslash same => plain others backslash same

namespace Lexeme

/-- The text between the quotes, the first bare one of which is the closing one. -/
theorem untilQuote_eq_some {chars : List Char} {content : List Char} {width : Nat} :
    untilQuote chars = some (content, width) → ∃ body behind, chars = body ++ '"' :: behind ∧ width = body.length + 1 ∧
      content = unescapeQuotes body ∧ Escaped body ∧ body.getLast? ≠ some '\\' := by
  fun_induction untilQuote chars generalizing content width with
  | case1 => simp
  | case2 rest =>
    intro found
    cases found
    exact ⟨[], rest, rfl, rfl, rfl, .nil, by simp⟩
  | case3 rest ih =>
    intro found
    obtain ⟨⟨inner, less⟩, closed, same⟩ := Option.map_eq_some_iff.mp found
    cases same
    obtain ⟨body, behind, rfl, rfl, rfl, escaped, last⟩ := ih closed
    refine ⟨'\\' :: '"' :: body, behind, rfl, rfl, rfl, escaped.pair, ?_⟩
    cases body with
    | nil => simp
    | cons c body => simpa [List.getLast?_cons_cons] using last
  | case4 c rest plain unescaped ih =>
    intro found
    obtain ⟨⟨inner, less⟩, closed, same⟩ := Option.map_eq_some_iff.mp found
    cases same
    obtain ⟨body, behind, rfl, rfl, rfl, escaped, last⟩ := ih closed
    refine ⟨c :: body, behind, rfl, rfl, ?_, escaped.cons plain, ?_⟩
    · exact (unescapeQuotes_cons fun others _ => escaped.ne_quote others).symm
    · cases body with
      | nil => simpa using fun backslash => unescaped behind backslash rfl
      | cons d body => simpa [List.getLast?_cons_cons] using last

theorem escaped_of_untilQuote {chars : List Char} : untilQuote chars = none → Escaped chars := by
  fun_induction untilQuote chars with
  | case1 => exact fun _ => .nil
  | case2 => simp
  | case3 rest ih => exact fun missing => (ih (by simpa using missing)).pair
  | case4 c rest plain unescaped ih => exact fun missing => (ih (by simpa using missing)).cons plain

end Lexeme

/-! ### Spans -/

/-- The kinds of words, keywords included. -/
def Token.Kind.IsWord (kind : Token.Kind) : Prop :=
  kind ∈ [.identifier, .kwFunction, .kwLet, .kwTrue, .kwFalse, .kwIf, .kwElse, .kwReturn]

instance (kind : Token.Kind) : Decidable kind.IsWord := inferInstanceAs (Decidable (kind ∈ _))

theorem Token.Kind.isWord_of_named {kind : Token.Kind} {word : String} (named : ofWord word = kind) : kind.IsWord := by
  subst named
  unfold ofWord
  split <;> decide

theorem Token.Kind.IsWord.apart {kind : Token.Kind} (word : kind.IsWord) (chars : List Char) : kind.Apart chars := by
  unfold Apart
  split
  case h_4 => trivial
  all_goals exact absurd word (by decide)

theorem Token.Kind.IsMark.not_isWord {kind : Token.Kind} (fixed : kind.IsMark) : ¬ kind.IsWord := by
  cases kind <;> first | decide | exact absurd fixed (by decide)

/-- A character that no other lexeme can begin with. -/
structure Stray (c : Char) : Prop where
  mark : c ∉ markChars
  quote : c ≠ '"'
  word : isWordChar c = false
  digit : c.isDigit = false
  blank : isBlank c = false

/-- The span of a token, in front of the rest of the text: the characters that the token stands for. They go on as far as
they can. -/
inductive Covers : (token : Token) → (span behind : List Char) → Prop where
  | mark (fixed : kind.IsMark) (apart : kind.Apart behind) : Covers ⟨kind, kind.text, position⟩ kind.text.toList behind
  | word (named : .ofWord (String.ofList word) = kind) (some_left : word ≠ []) (letters : ∀ c ∈ word, isWordChar c = true)
    (ends : ∀ c, behind.head? = some c → isWordChar c = false) : Covers ⟨kind, String.ofList word, position⟩ word behind
  | number (some_left : number ≠ []) (digits : ∀ c ∈ number, c.isDigit = true)
    (ends : ∀ c, behind.head? = some c → c.isDigit = false) : Covers ⟨.integer, String.ofList number, position⟩ number behind
  | string (escaped : Escaped body) (last : body.getLast? ≠ some '\\') :
    Covers ⟨.string, String.ofList (unescapeQuotes body), position⟩ ('"' :: (body ++ ['"'])) behind
  | unclosed (escaped : Escaped body) : Covers ⟨.illegal, String.ofList ('"' :: body), position⟩ ('"' :: body) []
  | stray (stray : Stray c) : Covers ⟨.illegal, c.toString, position⟩ [c] behind

theorem Lexeme.symbol?_apart {chars : List Char} {kind : Token.Kind} {width : Nat} (start : AtLexeme chars)
    (found : symbol? chars = some (kind, width)) : kind.Apart (chars.drop width) := by
  unfold symbol? at found
  split at found
  case h_3 rest single | h_4 rest single =>
    cases found
    intro equals
    obtain ⟨_, more⟩ := List.head?_eq_some_iff.mp equals
    exact single _ more
  case h_8 rest =>
    cases found
    intro slash
    obtain ⟨others, more⟩ := List.head?_eq_some_iff.mp slash
    exact start.2 others (congrArg ('/' :: ·) more)
  case h_20 => cases found
  all_goals
    cases found
    trivial

theorem Lexeme.not_mem_markChars {c : Char} {rest : List Char} (found : symbol? (c :: rest) = none) : c ∉ markChars := by
  unfold symbol? at found
  split at found
  case h_20 => simp_all [markChars]
  all_goals cases found

/-- What is read where neither layout nor the end of the text is covers as many characters as it is wide. -/
theorem Lexeme.read_covers {chars : List Char} (start : AtLexeme chars) (some_left : chars ≠ []) (position : Nat) :
    ∃ span behind, chars = span ++ behind ∧ (read chars).width = span.length ∧
      Covers ⟨(read chars).kind, (read chars).literal, position⟩ span behind := by
  cases found : symbol? chars with
  | some mark =>
    obtain ⟨kind, width⟩ := mark
    have fixed := symbol?_isMark found
    have inside := symbol?_width_le found
    have text : String.ofList (chars.take width) = kind.text := by
      have lexical := symbol?_lexical found
      cases kind <;> first | exact lexical | exact absurd fixed (by decide)
    have covers : Covers ⟨kind, kind.text, position⟩ _ _ := .mark fixed (symbol?_apart start found)
    rw [← text, String.toList_ofList] at covers
    exact ⟨_, _, (List.take_append_drop width chars).symm, by simp [read, found, inside], by simpa [read, found] using covers⟩
  | none =>
    obtain ⟨c, rest, rfl⟩ := List.exists_cons_of_ne_nil some_left
    by_cases quote : c = '"'
    · subst quote
      rw [read_quote, quoted, List.tail_cons]
      cases closing : untilQuote rest with
      | none => exact ⟨_, [], (List.append_nil _).symm, by simp, .unclosed (escaped_of_untilQuote closing)⟩
      | some read =>
        obtain ⟨content, width⟩ := read
        obtain ⟨body, behind, rfl, rfl, rfl, escaped, last⟩ := untilQuote_eq_some closing
        exact ⟨'"' :: (body ++ ['"']), behind, by simp, by simp, .string escaped last⟩
    · have parted (test : Char → Bool) : c :: rest = (c :: rest).takeWhile test ++ (c :: rest).dropWhile test :=
        List.takeWhile_append_dropWhile.symm
      have all (test : Char → Bool) : ∀ d ∈ (c :: rest).takeWhile test, test d = true := List.all_eq_true.mp List.all_takeWhile
      have ends (test : Char → Bool) : ∀ d, ((c :: rest).dropWhile test).head? = some d → test d = false :=
        fun d first => head?_dropWhile_fails first
      cases letter : isWordChar c with
      | true =>
        have covers : Covers ⟨_, _, position⟩ _ _ := .word rfl (by simp [letter]) (all isWordChar) (ends isWordChar)
        refine ⟨_, _, parted isWordChar, by simp [read, found, quote, letter], ?_⟩
        simpa only [read, found, beq_iff_eq, quote, if_false, letter, if_true] using covers
      | false =>
        cases digit : c.isDigit with
        | true =>
          have covers : Covers ⟨_, _, position⟩ _ _ := .number (by simp [digit]) (all Char.isDigit) (ends Char.isDigit)
          refine ⟨_, _, parted Char.isDigit, by simp [read, found, quote, letter, digit], ?_⟩
          simpa [read, found, quote, letter, digit] using covers
        | false =>
          have covers : Covers ⟨_, _, position⟩ [c] rest := .stray ⟨not_mem_markChars found, quote, letter, digit, start.1 c rfl⟩
          exact ⟨[c], rest, rfl, by simp [read, found, quote, letter, digit], by simpa [read, found, quote, letter, digit] using covers⟩

/-! ### Tilings -/

/-- The characters from a position on are the spans of these tokens, each behind a gap, and a last gap before the end. -/
inductive Tiled : (position : Nat) → List Char → List Token → Prop where
  | finish (gap : Gap chars []) : Tiled position chars [.finish (position + chars.length)]
  | token (gap : Gap front (span ++ behind)) (placed : token.position = position + front.length)
    (covers : Covers token span behind) (others : Tiled (token.position + span.length) behind tokens) :
    Tiled position (front ++ (span ++ behind)) (token :: tokens)

theorem Cursor.tokens_tiled (cursor : Cursor) : Tiled cursor.position cursor.rest cursor.tokens := by
  induction cursor using lexeme_induction with
  | layout cursor layout =>
    obtain ⟨gap, skipped, rest, -⟩ := cursor.skipLayout_gap
    rw [layout, List.append_nil] at rest
    rw [layout, ← rest] at skipped
    rw [tokens_eq_placed, placed_of_layout layout]
    exact .finish skipped
  | lexeme cursor some_left ih =>
    obtain ⟨gap, skipped, rest, position⟩ := cursor.skipLayout_gap
    obtain ⟨span, behind, parted, wide, covers⟩ :=
      Lexeme.read_covers cursor.skipLayout_atLexeme some_left cursor.skipLayout.position
    have further : cursor.next.2 = ⟨cursor.skipLayout.position + span.length, behind⟩ := by
      change (cursor.skipLayout.take (Lexeme.read cursor.skipLayout.rest)).2 = _
      rw [take, advance, wide, parted, List.drop_left]
    have more : cursor.next.1.kind ≠ .endOfInput := Lexeme.read_kind_ne some_left
    change Tiled cursor.next.2.position cursor.next.2.rest cursor.next.2.tokens at ih
    rw [further] at ih
    rw [parted] at skipped
    rw [tokens, if_neg more, further, rest, parted]
    exact .token skipped position covers ih

namespace Covers

variable {token : Token} {span behind : List Char}

theorem some_left (covers : Covers token span behind) : span ≠ [] := by
  cases covers with
  | @mark kind _ _ fixed _ => cases kind <;> first | exact List.cons_ne_nil _ _ | exact absurd fixed (by decide)
  | word _ some_left _ _ | number some_left _ _ => exact some_left
  | string _ _ | unclosed _ | stray _ => exact List.cons_ne_nil _ _

theorem kind_ne (covers : Covers token span behind) : token.kind ≠ .endOfInput := by
  intro ended
  cases covers with
  | mark fixed _ =>
    cases ended
    exact absurd fixed (by decide)
  | word named _ _ _ =>
    cases ended
    exact absurd (Token.Kind.isWord_of_named named) (by decide)
  | number _ _ _ | string _ _ | unclosed _ | stray _ => cases ended

theorem literal_eq (covers : Covers token span behind) (other : token.kind ≠ .string) : token.literal.toList = span := by
  cases covers with
  | string _ _ => exact absurd rfl other
  | mark _ _ => rfl
  | word _ _ _ _ | number _ _ _ | unclosed _ => exact String.toList_ofList
  | stray _ => simp

theorem content_eq (covers : Covers token span behind) (quoted : token.kind = .string) :
    ∃ body, span = '"' :: (body ++ ['"']) ∧ Escaped body ∧ body.getLast? ≠ some '\\' ∧
      token.literal.toList = unescapeQuotes body := by
  cases covers with
  | string escaped last => exact ⟨_, rfl, escaped, last, String.toList_ofList⟩
  | mark fixed _ =>
    cases quoted
    exact absurd fixed (by decide)
  | word named _ _ _ =>
    cases quoted
    exact absurd (Token.Kind.isWord_of_named named) (by decide)
  | number _ _ _ | unclosed _ | stray _ => cases quoted

/-- Nothing is left behind a string that is not closed. -/
theorem behind_eq_nil (covers : Covers token span behind) (unclosed : token.isUnclosedString = true) : behind = [] := by
  obtain ⟨illegal, quote⟩ := Bool.and_eq_true_iff.mp unclosed
  have illegal : token.kind = .illegal := of_decide_eq_true illegal
  cases covers with
  | unclosed _ => rfl
  | stray stray =>
    simp only [Token.opensString, Char.toString, String.toList_singleton, List.head?_cons, beq_iff_eq, Option.some.injEq] at quote
    exact absurd quote stray.quote
  | mark fixed _ =>
    cases illegal
    exact absurd fixed (by decide)
  | word named _ _ _ =>
    cases illegal
    exact absurd (Token.Kind.isWord_of_named named) (by decide)
  | number _ _ _ | string _ _ => cases illegal

theorem word_ends (covers : Covers token span behind) (word : token.kind.IsWord) :
    (∀ c ∈ span, isWordChar c = true) ∧ ∀ c, behind.head? = some c → isWordChar c = false := by
  cases covers with
  | word _ _ letters ends => exact ⟨letters, ends⟩
  | mark fixed _ => exact absurd word fixed.not_isWord
  | number _ _ _ => exact absurd word (by decide : ¬ Token.Kind.integer.IsWord)
  | string _ _ => exact absurd word (by decide : ¬ Token.Kind.string.IsWord)
  | unclosed _ | stray _ => exact absurd word (by decide : ¬ Token.Kind.illegal.IsWord)

theorem number_ends (covers : Covers token span behind) (number : token.kind = .integer) :
    (∀ c ∈ span, c.isDigit = true) ∧ ∀ c, behind.head? = some c → c.isDigit = false := by
  cases covers with
  | number _ digits ends => exact ⟨digits, ends⟩
  | mark fixed _ =>
    cases number
    exact absurd fixed (by decide)
  | word named _ _ _ =>
    cases number
    exact absurd (Token.Kind.isWord_of_named named) (by decide)
  | string _ _ | unclosed _ | stray _ => cases number

theorem apart (covers : Covers token span behind) : token.kind.Apart behind := by
  cases covers with
  | mark _ apart => exact apart
  | word named _ _ _ => exact (Token.Kind.isWord_of_named named).apart behind
  | number _ _ _ | string _ _ | unclosed _ | stray _ => trivial

end Covers

namespace Tiled

variable {position : Nat} {chars : List Char} {tokens : List Token}

theorem ends (tiled : Tiled position chars tokens) :
    ∃ front, tokens = front ++ [.finish (position + chars.length)] ∧ ∀ token ∈ front, token.kind ≠ .endOfInput := by
  induction tiled with
  | finish _ => exact ⟨[], rfl, by simp⟩
  | @token gap span behind position token tokens _ placed covers _ ih =>
    obtain ⟨front, rfl, inner⟩ := ih
    refine ⟨token :: front, ?_, List.forall_mem_cons.mpr ⟨covers.kind_ne, inner⟩⟩
    simp only [placed, List.length_append, List.cons_append]
    rw [← Nat.add_assoc, ← Nat.add_assoc]

theorem position_le (tiled : Tiled position chars tokens) : ∀ token ∈ tokens, position ≤ token.position := by
  induction tiled with
  | finish _ => simp [Token.finish]
  | token _ placed _ _ ih =>
    refine List.forall_mem_cons.mpr ⟨by omega, fun token member => ?_⟩
    have later := ih token member
    omega

theorem increases (tiled : Tiled position chars tokens) : tokens.Pairwise (·.position < ·.position) := by
  induction tiled with
  | finish _ => exact List.pairwise_singleton _ _
  | token _ _ covers others ih =>
    refine List.pairwise_cons.mpr ⟨fun token member => ?_, ih⟩
    have later := others.position_le token member
    have wide := List.length_pos_iff.mpr covers.some_left
    omega

/-- Every token but the last covers the characters at its place. -/
theorem exists_span (tiled : Tiled position chars tokens) : ∀ token ∈ tokens, token.kind ≠ .endOfInput →
    ∃ front span behind, chars = front ++ (span ++ behind) ∧ token.position = position + front.length ∧
      Covers token span behind := by
  induction tiled with
  | finish _ => simp [Token.finish]
  | @token gap span rest position first tokens _ placed covers _ ih =>
    refine List.forall_mem_cons.mpr ⟨fun _ => ⟨gap, span, rest, rfl, placed, covers⟩, fun token member more => ?_⟩
    obtain ⟨front, inner, behind, rfl, place, inside⟩ := ih token member more
    refine ⟨gap ++ (span ++ front), inner, behind, by simp, ?_, inside⟩
    rw [place, placed]
    simp only [List.length_append]
    omega

end Tiled

/-! ### The tokens of a source -/

/-- What the literal of a token says of the characters at its position. -/
structure Token.Faithful (source : List Char) (token : Token) : Prop where
  literal : token.kind ≠ .string → (source.drop token.position).take token.literal.length = token.literal.toList
  string : token.kind = .string → ∃ body behind, source.drop token.position = '"' :: (body ++ '"' :: behind) ∧
    Escaped body ∧ body.getLast? ≠ some '\\' ∧ token.literal.toList = unescapeQuotes body
  unclosed : token.isUnclosedString = true → token.literal.toList = source.drop token.position

/-- Where tokens end that could be longer: words and numbers do not touch their like, and an operator does not stand before
the character that would make another one, or a comment, of it. -/
structure Token.Maximal (source : List Char) (tokens : List Token) : Prop where
  words : ∀ first ∈ tokens, ∀ second ∈ tokens, first.kind.IsWord → second.kind.IsWord →
    second.position ≠ first.position + first.literal.length
  numbers : ∀ first ∈ tokens, ∀ second ∈ tokens, first.kind = .integer → second.kind = .integer →
    second.position ≠ first.position + first.literal.length
  equals : ∀ token ∈ tokens, token.kind = .assign ∨ token.kind = .bang → source[token.position + 1]? ≠ some '='
  slashes : ∀ token ∈ tokens, token.kind = .slash → source[token.position + 1]? ≠ some '/'

namespace Token

variable {source : String} {token : Token}

theorem exists_span_of_mem_stream (member : token ∈ stream source) (more : token.kind ≠ .endOfInput) :
    ∃ span behind, source.toList.drop token.position = span ++ behind ∧ Covers token span behind := by
  have tiled := (Cursor.ofString source).tokens_tiled
  obtain ⟨front, span, behind, whole, place, covers⟩ := tiled.exists_span token member more
  change source.toList = _ at whole
  refine ⟨span, behind, ?_, covers⟩
  rw [whole, place]
  simp [Cursor.ofString]

theorem faithful_of_mem_stream (member : token ∈ stream source) (more : token.kind ≠ .endOfInput) :
    Faithful source.toList token := by
  obtain ⟨span, behind, here, covers⟩ := exists_span_of_mem_stream member more
  constructor
  · intro other
    rw [here, ← covers.literal_eq other, ← String.length_toList]
    exact List.take_left
  · intro quoted
    obtain ⟨body, rfl, content⟩ := covers.content_eq quoted
    exact ⟨body, behind, by simp [here], content⟩
  · intro unclosed
    have other : token.kind ≠ .string := by
      intro quoted
      simp [isUnclosedString, quoted] at unclosed
    rw [here, covers.behind_eq_nil unclosed, List.append_nil, covers.literal_eq other]

/-- Behind a token that is no string stands what stands behind its span. -/
theorem getElem?_behind (member : token ∈ stream source) (more : token.kind ≠ .endOfInput) (other : token.kind ≠ .string) :
    ∃ span behind, source.toList[token.position]? = span.head? ∧
      source.toList[token.position + token.literal.length]? = behind.head? ∧ Covers token span behind := by
  obtain ⟨span, behind, here, covers⟩ := exists_span_of_mem_stream member more
  refine ⟨span, behind, ?_, ?_, covers⟩
  · have first := congrArg List.head? here
    obtain ⟨c, rest, rfl⟩ := List.exists_cons_of_ne_nil covers.some_left
    rwa [List.head?_drop] at first
  · have further := congrArg (·.drop token.literal.length) here
    rw [List.drop_drop, ← covers.literal_eq other, ← String.length_toList, List.drop_left] at further
    rw [← further, List.head?_drop, String.length_toList]

/-- Two tokens of one kind of character do not touch, because that kind goes on to the end of a span. -/
theorem position_ne_of_run {first second : Token} (member : first ∈ stream source) (member' : second ∈ stream source)
    {test : Char → Bool} {kinds : Kind → Prop} (inner : ∀ kind, kinds kind → kind ≠ .endOfInput ∧ kind ≠ .string)
    (runs : ∀ token span behind, kinds token.kind → Covers token span behind →
      (∀ c ∈ span, test c = true) ∧ ∀ c, behind.head? = some c → test c = false)
    (kind : kinds first.kind) (kind' : kinds second.kind) : second.position ≠ first.position + first.literal.length := by
  intro touching
  obtain ⟨span, behind, -, ends, covers⟩ := getElem?_behind member (inner _ kind).1 (inner _ kind).2
  obtain ⟨span', behind', starts, -, covers'⟩ := getElem?_behind member' (inner _ kind').1 (inner _ kind').2
  obtain ⟨c, rest, rfl⟩ := List.exists_cons_of_ne_nil covers'.some_left
  rw [← touching, starts, List.head?_cons] at ends
  have passes := (runs _ _ _ kind' covers').1 c List.mem_cons_self
  have fails := (runs _ _ _ kind covers).2 c ends.symm
  exact Bool.false_ne_true (fails.symm.trans passes)

theorem apart_of_mem_stream (member : token ∈ stream source) (fixed : token.kind.IsMark) :
    ∃ behind, source.toList[token.position + token.kind.text.length]? = behind.head? ∧ token.kind.Apart behind := by
  have lexical : token.symbol.Lexical := Cursor.tokens_lexical _ token member
  have text : token.literal = token.kind.text := by
    obtain ⟨kind, literal, position⟩ := token
    have fixed : kind.IsMark := fixed
    cases kind <;> first | exact lexical | exact absurd fixed (by decide)
  have kinds : token.kind ≠ .endOfInput ∧ token.kind ≠ .string := by
    constructor <;>
    · intro same
      rw [same] at fixed
      exact absurd fixed (by decide)
  obtain ⟨span, behind, -, ends, covers⟩ := getElem?_behind member kinds.1 kinds.2
  rw [text] at ends
  exact ⟨behind, ends, covers.apart⟩

theorem stream_maximal (source : String) : Maximal source.toList (stream source) := by
  constructor
  · intro first member second member' word word'
    refine position_ne_of_run member member' (fun kind listed => ?_) (fun _ _ _ word covers => covers.word_ends word) word word'
    constructor <;>
    · rintro rfl
      exact absurd listed (by decide)
  · intro first member second member' number number'
    exact position_ne_of_run member member' (fun kind (listed : kind = .integer) => listed ▸ by decide)
      (fun _ _ _ number covers => covers.number_ends number) number number'
  · intro token member mark
    rcases mark with assign | bang
    · obtain ⟨behind, ends, apart⟩ := apart_of_mem_stream member (assign ▸ by decide)
      rw [assign] at ends apart
      exact ends ▸ apart
    · obtain ⟨behind, ends, apart⟩ := apart_of_mem_stream member (bang ▸ by decide)
      rw [bang] at ends apart
      exact ends ▸ apart
  · intro token member slash
    obtain ⟨behind, ends, apart⟩ := apart_of_mem_stream member (slash ▸ by decide)
    rw [slash] at ends apart
    exact ends ▸ apart

end Token

/-! ### Reading on -/

namespace Cursor

/-- The token that is read after a number of others, also where there are not so many. -/
def nth (cursor : Cursor) : Nat → Token
  | 0 => cursor.next.1
  | count + 1 => cursor.next.2.nth count

/-- Where the tokens have run out the end of the text is read again and again. -/
theorem nth_eq (cursor : Cursor) (count : Nat) :
    cursor.nth count = cursor.tokens.getD count (.finish (cursor.position + cursor.rest.length)) := by
  induction count generalizing cursor with
  | zero =>
    rw [nth, tokens]
    split <;> rfl
  | succ count ih =>
    rw [nth, ih]
    by_cases layout : cursor.skipLayout.rest = []
    · have next : cursor.next = (.finish (cursor.position + cursor.rest.length), ⟨cursor.position + cursor.rest.length, []⟩) := by
        rw [Cursor.next, skipLayout_eq_finish layout]
        rfl
      have last (position : Nat) : (Cursor.mk position []).tokens = [.finish position] := by
        rw [tokens_eq_placed, placed_of_layout (by rw [skipLayout_eq_self ⟨by simp, by simp⟩])]
        rfl
      rw [next, last, tokens_eq_placed, placed_of_layout layout]
      cases count <;> rfl
    · have further : cursor.tokens = cursor.next.1 :: cursor.next.2.tokens := by
        rw [tokens, if_neg]
        exact Lexeme.read_kind_ne layout
      change cursor.behindLexeme.tokens.getD count (.finish (cursor.behindLexeme.position + cursor.behindLexeme.rest.length)) = _
      rw [position_add_length_behindLexeme layout, further]
      rfl

end Cursor

/-- Nothing of a source is lost, and no token could have been longer. -/
theorem Token.stream_lossless (source : String) :
    Tiled 0 source.toList (stream source) ∧
    (∃ front, stream source = front ++ [.finish source.length] ∧ ∀ token ∈ front, token.kind ≠ .endOfInput) ∧
    (∀ count, (Cursor.ofString source).nth count = (stream source).getD count (.finish source.length)) ∧
    (stream source).Pairwise (·.position < ·.position) ∧
    (∀ token ∈ stream source, token.kind ≠ .endOfInput → Faithful source.toList token) ∧
    Maximal source.toList (stream source) := by
  have tiled : Tiled 0 source.toList (stream source) := (Cursor.ofString source).tokens_tiled
  have length : 0 + source.toList.length = source.length := by rw [Nat.zero_add, String.length_toList]
  refine ⟨tiled, ?_, fun count => ?_, tiled.increases, fun token member more => faithful_of_mem_stream member more,
    stream_maximal source⟩
  · obtain ⟨front, whole, inner⟩ := tiled.ends
    rw [length] at whole
    exact ⟨front, whole, inner⟩
  · rw [← length]
    exact (Cursor.ofString source).nth_eq count

/-- The quote inside the string does not end it, and the digit in the comment is no token. -/
theorem Token.quoted_text_lossless :
    let source := "x = \"a\\\"b\"// 1\n12"
    let token : Token := ⟨.string, "a\"b", 4⟩
    token ∈ stream source ∧ Faithful source.toList token ∧ (stream source).map position = [0, 2, 4, 15, 17] := by
  intro source token
  have member : token ∈ stream source := by decide +kernel
  obtain ⟨-, -, -, -, faithful, -⟩ := stream_lossless source
  exact ⟨member, faithful token member (by decide), by decide +kernel⟩

end Treewalk
