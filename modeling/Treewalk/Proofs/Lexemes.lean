import Treewalk.Proofs.Spelling
import Treewalk.Text.Space
import Treewalk.Entry

/-! One lexeme, read from a text that may go on. White space ends every lexeme but a string, so what stands behind white
space has no part in it. A string that is still open where a text ends may be closed in a longer one, but not at once. -/

namespace Treewalk

/-! ### White space -/

theorem ne_of_isSpace {c other : Char} (space : isSpace c = true) (plain : isSpace other = false) : c ≠ other := by
  rintro rfl
  exact Bool.false_ne_true (plain.symm.trans space)

theorem isDigit_of_isSpace {c : Char} (space : isSpace c = true) : c.isDigit = false := by
  rw [Bool.eq_false_iff]
  intro digit
  obtain ⟨low, high⟩ := Char.isDigit_iff_toNat.mp digit
  simp only [isSpace, Bool.or_eq_true, Bool.and_eq_true, decide_eq_true_eq, beq_iff_eq, Char.reduceToNat] at space low high
  omega

theorem isWordChar_of_isSpace {c : Char} (space : isSpace c = true) : isWordChar c = false := by
  rw [Bool.eq_false_iff]
  intro word
  rcases Bool.or_eq_true_iff.mp word with alpha | underscore
  · have bounds : 65 ≤ c.toNat ∧ c.toNat ≤ 122 := by
      rcases Bool.or_eq_true_iff.mp alpha with upper | lower
      · have range := of_decide_eq_true upper
        exact ⟨UInt32.le_iff_toNat_le.mp range.1, Nat.le_trans (UInt32.le_iff_toNat_le.mp range.2) (by decide)⟩
      · obtain ⟨low, high⟩ := Bool.and_eq_true_iff.mp lower
        have low : 97 ≤ c.toNat := UInt32.le_iff_toNat_le.mp (of_decide_eq_true low)
        exact ⟨by omega, UInt32.le_iff_toNat_le.mp (of_decide_eq_true high)⟩
    simp only [isSpace, Bool.or_eq_true, Bool.and_eq_true, decide_eq_true_eq, beq_iff_eq] at space
    omega
  · exact ne_of_isSpace space rfl (eq_of_beq underscore)

theorem takeWhile_append_of_stop {test : Char → Bool} {c : Char} (stops : test c = false) (chars more : List Char) :
    (chars ++ c :: more).takeWhile test = chars.takeWhile test := by
  rw [List.takeWhile_append]
  split
  next all =>
    rw [List.takeWhile_cons_of_neg (by simp [stops]), List.append_nil]
    exact ((List.takeWhile_sublist test).eq_of_length all).symm
  next => rfl

/-! ### Strings -/

theorem Lexeme.untilQuote_append {chars : List Char} {found : List Char × Nat} (more : List Char) :
    untilQuote chars = some found → untilQuote (chars ++ more) = some found := by
  fun_induction untilQuote chars generalizing found with
  | case1 => simp
  | case2 => simp [untilQuote]
  | case3 rest ih =>
    intro read
    obtain ⟨inner, closed, rfl⟩ := Option.map_eq_some_iff.mp read
    simp [untilQuote, ih closed]
  | case4 c rest plain unescaped ih =>
    intro read
    obtain ⟨inner, closed, rfl⟩ := Option.map_eq_some_iff.mp read
    have unescaped' : ∀ others, c = '\\' → rest ++ more = '"' :: others → False := by
      intro others backslash same
      cases rest with
      | nil => simp [untilQuote] at closed
      | cons d rest => exact unescaped rest backslash (by simp_all)
    rw [List.cons_append, untilQuote.eq_4 _ _ plain unescaped', ih closed]
    rfl

theorem Lexeme.untilQuote_width_pos {chars content : List Char} {width : Nat}
    (read : untilQuote chars = some (content, width)) : 0 < width := by
  unfold untilQuote at read
  split at read
  · cases read
  · cases read; decide
  · obtain ⟨_, _, same⟩ := Option.map_eq_some_iff.mp read
    cases same
    omega
  · obtain ⟨_, _, same⟩ := Option.map_eq_some_iff.mp read
    cases same
    omega

theorem Lexeme.untilQuote_width_le {chars content : List Char} {width : Nat} :
    untilQuote chars = some (content, width) → width ≤ chars.length := by
  fun_induction untilQuote chars generalizing content width with
  | case1 => simp
  | case2 => simp; omega
  | case3 rest ih =>
    intro read
    obtain ⟨⟨inner, less⟩, closed, same⟩ := Option.map_eq_some_iff.mp read
    cases same
    simpa using ih closed
  | case4 c rest plain unescaped ih =>
    intro read
    obtain ⟨⟨inner, less⟩, closed, same⟩ := Option.map_eq_some_iff.mp read
    cases same
    simpa using ih closed

/-- Where a text has no closing quote, none is found in a longer one before the longer one goes on. -/
theorem Lexeme.length_lt_of_untilQuote_append {chars more content : List Char} {width : Nat}
    (plain : more.head? ≠ some '"') :
    untilQuote chars = none → untilQuote (chars ++ more) = some (content, width) → chars.length + 1 < width := by
  fun_induction untilQuote chars generalizing content width with
  | case1 =>
    intro _ read
    rw [List.nil_append] at read
    unfold untilQuote at read
    split at read
    · cases read
    · exact absurd rfl plain
    · obtain ⟨⟨_, less⟩, closed, same⟩ := Option.map_eq_some_iff.mp read
      cases same
      simp
    · obtain ⟨⟨_, less⟩, closed, same⟩ := Option.map_eq_some_iff.mp read
      cases same
      simpa using untilQuote_width_pos closed
  | case2 => simp
  | case3 rest ih =>
    intro none read
    simp [untilQuote] at none read
    obtain ⟨inner, less, closed, rfl, rfl⟩ := read
    simpa using ih none closed
  | case4 c rest bare unescaped ih =>
    intro none read
    have unescaped' : ∀ others, c = '\\' → rest ++ more = '"' :: others → False := by
      intro others backslash same
      cases rest with
      | nil => exact plain (by simp_all)
      | cons d rest => exact unescaped rest backslash (by simp_all)
    rw [List.cons_append, untilQuote.eq_4 _ _ bare unescaped'] at read
    obtain ⟨⟨inner, less⟩, closed, same⟩ := Option.map_eq_some_iff.mp read
    cases same
    simpa using ih (by simpa using none) closed

/-! ### Marks and words -/

/-- The first characters of operators and delimiters. -/
def markChars : List Char :=
  ['=', '!', '+', '-', '*', '/', '^', '<', '>', ',', ';', '(', ')', '{', '}', '[', ']']

theorem Lexeme.symbol?_of_not_mem {first : Char} (plain : first ∉ markChars) (rest : List Char) :
    symbol? (first :: rest) = none := by
  unfold symbol?
  split
  case h_20 => rfl
  all_goals
    rename_i same
    cases same
    exact absurd (by decide) plain

theorem Lexeme.symbol?_cons {first : Char} {rest : List Char}
    (short : rest.head? = some '=' → first ≠ '=' ∧ first ≠ '!') : symbol? (first :: rest) = symbol? [first] := by
  by_cases mark : first ∈ markChars
  · have single (long : first = '=' ∨ first = '!') (others : List Char) : rest = '=' :: others → False := by
      rintro rfl
      exact long.elim (short rfl).1 (short rfl).2
    simp only [markChars, List.mem_cons, List.not_mem_nil, or_false] at mark
    rcases mark with rfl | rfl | mark
    · exact symbol?.eq_3 _ (single (Or.inl rfl))
    · exact symbol?.eq_4 _ (single (Or.inr rfl))
    · rcases mark with rfl | rfl | rfl | rfl | rfl | rfl | rfl | rfl | rfl | rfl | rfl | rfl | rfl | rfl | rfl <;> rfl
  · rw [symbol?_of_not_mem mark, symbol?_of_not_mem mark]

theorem Lexeme.symbol?_append {chars : List Char} (some_left : chars ≠ []) {c : Char} (other : c ≠ '=') (more : List Char) :
    symbol? (chars ++ c :: more) = symbol? chars := by
  match chars with
  | [] => exact absurd rfl some_left
  | [first] => exact symbol?_cons fun equals => absurd (Option.some.inj equals) other
  | first :: second :: rest =>
    by_cases long : second = '=' ∧ (first = '=' ∨ first = '!')
    · rcases long with ⟨rfl, rfl | rfl⟩ <;> rfl
    · have short (others : List Char) : (second :: others).head? = some '=' → first ≠ '=' ∧ first ≠ '!' := by
        intro equals
        exact not_or.mp fun either => long ⟨Option.some.inj equals, either⟩
      exact (symbol?_cons (short _)).trans (symbol?_cons (short _)).symm

theorem Lexeme.symbol?_isMark {chars : List Char} {kind : Token.Kind} {width : Nat}
    (found : symbol? chars = some (kind, width)) : kind.IsMark := by
  unfold symbol? at found
  split at found
  case h_20 => cases found
  all_goals
    cases found
    decide

theorem Token.Kind.ofWord_ne_illegal (word : String) : ofWord word ≠ .illegal := by
  unfold ofWord
  split <;> simp

theorem Lexeme.symbol?_width_le {chars : List Char} {kind : Token.Kind} {width : Nat}
    (found : symbol? chars = some (kind, width)) : width ≤ chars.length := by
  unfold symbol? at found
  split at found
  case h_20 => cases found
  all_goals
    cases found
    simp

theorem Lexeme.read_width_le (chars : List Char) : chars ≠ [] → (read chars).width ≤ chars.length := by
  intro some_left
  unfold read
  split
  next found => exact symbol?_width_le found
  next =>
    split
    next => exact absurd rfl some_left
    next c rest _ =>
      split
      next =>
        unfold quoted
        split
        next found => simpa using untilQuote_width_le found
        next => simp
      next =>
        split
        next => exact (List.takeWhile_sublist _).length_le
        next =>
          split
          next => exact (List.takeWhile_sublist _).length_le
          next => simp

/-- A string that is not closed runs to the end of the text. -/
def Lexeme.isOpen (lexeme : Lexeme) : Bool := lexeme.kind = .illegal && lexeme.literal.toList.head? == some '"'

theorem Lexeme.read_quote (rest : List Char) : read ('"' :: rest) = quoted ('"' :: rest) := rfl

theorem Lexeme.isOpen_quoted (rest : List Char) : (quoted ('"' :: rest)).isOpen = (untilQuote rest).isNone := by
  unfold quoted
  cases h : untilQuote rest <;> simp [isOpen, h]

theorem Lexeme.exists_of_isOpen_read {chars : List Char} (unclosed : (read chars).isOpen = true) :
    ∃ rest, chars = '"' :: rest ∧ untilQuote rest = none := by
  match chars with
  | [] => simp [read, symbol?, isOpen] at unclosed
  | c :: rest =>
    by_cases quote : c = '"'
    · subst quote
      rw [read_quote, isOpen_quoted] at unclosed
      exact ⟨rest, rfl, Option.isNone_iff_eq_none.mp unclosed⟩
    · refine absurd unclosed (Bool.eq_false_iff.mp ?_)
      rw [isOpen, Bool.and_eq_false_imp, decide_eq_true_eq]
      intro illegal
      unfold read at illegal ⊢
      split at illegal
      next kind width found =>
        have illegal : kind = .illegal := illegal
        exact absurd (illegal ▸ symbol?_isMark found) (by decide)
      next =>
        simp only [beq_iff_eq, quote, if_false] at illegal ⊢
        split at illegal
        next word => exact absurd illegal (Token.Kind.ofWord_ne_illegal _)
        next unlettered =>
          split at illegal
          next => cases illegal
          next undigited => simp [unlettered, undigited, quote]

/-- White space behind a text is no part of its first lexeme, unless that is a string which is still open there. -/
theorem Lexeme.read_append {chars : List Char} (some_left : chars ≠ []) (closed : (read chars).isOpen = false) {c : Char}
    (space : isSpace c = true) (more : List Char) : read (chars ++ c :: more) = read chars := by
  have symbols := symbol?_append some_left (ne_of_isSpace space (by decide : isSpace '=' = false)) more
  cases found : symbol? chars with
  | some mark =>
    obtain ⟨kind, width⟩ := mark
    have inside := symbol?_width_le found
    rw [found] at symbols
    simp [read, found, symbols, List.take_append_of_le_length inside]
  | none =>
    rw [found] at symbols
    obtain ⟨first, rest, rfl⟩ := List.exists_cons_of_ne_nil some_left
    rw [List.cons_append] at symbols ⊢
    by_cases quote : first = '"'
    · subst quote
      rw [read_quote, isOpen_quoted] at closed
      obtain ⟨⟨content, width⟩, read⟩ := Option.isSome_iff_exists.mp (by simpa using closed : (untilQuote rest).isSome = true)
      simp [read_quote, quoted, read, untilQuote_append _ read]
    · have words := takeWhile_append_of_stop (isWordChar_of_isSpace space) (first :: rest) more
      have digits := takeWhile_append_of_stop (isDigit_of_isSpace space) (first :: rest) more
      rw [List.cons_append] at words digits
      simp [read, found, symbols, quote, words, digits]

theorem Lexeme.read_kind_ne {chars : List Char} (some_left : chars ≠ []) : (read chars).kind ≠ .endOfInput := by
  unfold read
  split
  next kind width found =>
    rintro rfl
    exact absurd (symbol?_isMark found) (by decide)
  next =>
    split
    next => exact absurd rfl some_left
    next c rest _ =>
      split
      next =>
        unfold quoted
        split <;> simp
      next =>
        split
        next =>
          unfold Token.Kind.ofWord
          dsimp only
          split <;> simp
        next => split <;> simp

end Treewalk
