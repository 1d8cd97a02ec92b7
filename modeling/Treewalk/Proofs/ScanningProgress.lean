import Treewalk.Proofs.Seams
import Treewalk.Proofs.Spelling

/-! The loops of scanning, round by round. A loop is what one round makes of its state, with nothing said about how long it
goes on; that it ends, and in which state, is shown for each of them by following the function that says what is read. Every
round takes a character at least, and so does every token but the last. -/

namespace Treewalk

/-- One round of a loop, from one state to the next. There is no round where the loop is over. -/
abbrev Loop (σ : Type) := σ → Option σ

namespace Loop

variable {σ : Type}

/-- After finitely many rounds the loop is over. -/
inductive Ends (loop : Loop σ) : (start final : σ) → Prop where
  | finished {state : σ} (none_further : loop state = none) : Ends loop state state
  | again {state next final : σ} (round : loop state = some next) (others : Ends loop next final) : Ends loop state final

/-- Every round leads further on. -/
def Advances (loop : Loop σ) (further : σ → σ → Prop) : Prop := ∀ state next, loop state = some next → further state next

end Loop

namespace Cursor

/-- At least one character of the same text lies between the cursors. -/
structure FurtherOn (first second : Cursor) : Prop where
  before : first.Before second
  position : first.position < second.position

theorem Before.furtherOn {first second : Cursor} (before : first.Before second)
    (less : second.rest.length < first.rest.length) : first.FurtherOn second := by
  obtain ⟨between, rest, position⟩ := before
  refine ⟨⟨between, rest, position⟩, ?_⟩
  rw [rest, List.length_append] at less
  omega

theorem advance_furtherOn {cursor : Cursor} {count : Nat} (inside : count ≤ cursor.rest.length) (some_read : 0 < count) :
    cursor.FurtherOn (cursor.advance count) :=
  ⟨advance_before inside, Nat.lt_add_of_pos_right some_read⟩

/-! ### Runs of characters -/

/-- Moves on by one character as long as it satisfies a test. -/
def skipping (test : Char → Bool) : Loop Cursor := fun cursor =>
  match cursor.rest with
  | [] => none
  | c :: _ => if test c then some (cursor.advance 1) else none

theorem skipping_advances (test : Char → Bool) : (skipping test).Advances FurtherOn := by
  intro cursor next round
  unfold skipping at round
  split at round
  next => cases round
  next c rest ahead =>
    split at round
    · cases round
      exact advance_furtherOn (by simp [ahead]) Nat.one_pos
    · cases round

theorem skipping_ends (test : Char → Bool) (cursor : Cursor) : (skipping test).Ends cursor (cursor.skip test) := by
  obtain ⟨position, rest⟩ := cursor
  induction rest generalizing position with
  | nil => exact .finished rfl
  | cons c rest ih =>
    by_cases passes : test c = true
    · have same : (Cursor.mk position (c :: rest)).skip test = (Cursor.mk (position + 1) rest).skip test := by
        simp only [skip, run, List.takeWhile_cons_of_pos passes, List.dropWhile_cons_of_pos passes, List.length_cons]
        rw [Nat.add_assoc, Nat.add_comm 1]
      rw [same]
      exact .again (if_pos passes) (ih (position + 1))
    · have same : (Cursor.mk position (c :: rest)).skip test = ⟨position, c :: rest⟩ := by
        simp [skip, run, passes]
      rw [same]
      exact .finished (if_neg passes)

theorem advance_run (cursor : Cursor) (test : Char → Bool) :
    cursor.advance (cursor.run test).length = cursor.skip test := by
  have parted : cursor.run test ++ cursor.rest.dropWhile test = cursor.rest := List.takeWhile_append_dropWhile
  have drop : cursor.rest.drop (cursor.run test).length = cursor.rest.dropWhile test := calc
    _ = (cursor.run test ++ cursor.rest.dropWhile test).drop (cursor.run test).length := by rw [parted]
    _ = _ := List.drop_left
  rw [advance, drop, skip]

/-! ### Layout -/

/-- Skips a comment and the blanks behind it. -/
def commenting : Loop Cursor := fun cursor =>
  match cursor.rest with
  | '/' :: '/' :: _ => some cursor.skipLine.skipBlanks
  | _ => none

theorem commenting_advances : commenting.Advances FurtherOn := by
  intro cursor next round
  unfold commenting at round
  split at round
  next rest comment =>
    cases round
    have line := skipLine_length_lt comment
    have blanks := skip_length_le cursor.skipLine isBlank
    exact ((cursor.skip_before _).trans (cursor.skipLine.skip_before isBlank)).furtherOn (Nat.lt_of_le_of_lt blanks line)
  next => cases round

theorem commenting_ends (cursor : Cursor) : commenting.Ends cursor.skipBlanks cursor.skipLayout := by
  fun_induction skipLayout cursor with
  | case1 cursor rest comment shorter ih => exact .again (by simp [commenting, comment]) ih
  | case2 cursor plain =>
    refine .finished ?_
    unfold commenting
    split
    next rest comment => exact absurd comment (plain rest)
    next => rfl

/-! ### Strings -/

/-- Reads one more character of a string, up to the closing quote. A backslash before a quote is read with it. -/
def quoting : Loop (List Char × Cursor) := fun (content, cursor) =>
  match cursor.rest with
  | [] => none
  | '"' :: _ => none
  | '\\' :: '"' :: _ => some (content ++ ['"'], cursor.advance 2)
  | c :: _ => some (content ++ [c], cursor.advance 1)

theorem quoting_advances : quoting.Advances fun before after => before.2.FurtherOn after.2 := by
  rintro ⟨content, cursor⟩ next round
  simp only [quoting] at round
  split at round
  next => cases round
  next => cases round
  next rest ahead =>
    cases round
    exact advance_furtherOn (by simp [ahead]) Nat.two_pos
  next c rest _ _ ahead =>
    cases round
    exact advance_furtherOn (by simp [ahead]) Nat.one_pos

theorem quoting_plain {c : Char} {rest : List Char} (plain : c ≠ '"') (unescaped : ∀ others, c = '\\' → rest ≠ '"' :: others)
    (content : List Char) (position : Nat) :
    quoting (content, ⟨position, c :: rest⟩) = some (content ++ [c], ⟨position + 1, rest⟩) := by
  simp only [quoting]
  rfl

/-- A string that is closed is read up to its closing quote. -/
theorem quoting_ends_of_closed {chars more : List Char} {width : Nat} (content : List Char) (position : Nat) :
    Lexeme.untilQuote chars = some (more, width + 1) →
      quoting.Ends (content, ⟨position, chars⟩) (content ++ more, ⟨position + width, chars.drop width⟩) ∧
        (chars.drop width).head? = some '"' := by
  fun_induction Lexeme.untilQuote chars generalizing content position more width with
  | case1 => simp
  | case2 rest =>
    intro closed
    cases closed
    rw [List.append_nil]
    exact ⟨.finished rfl, rfl⟩
  | case3 rest ih =>
    intro closed
    obtain ⟨⟨inner, less⟩, found, same⟩ := Option.map_eq_some_iff.mp closed
    obtain ⟨less, rfl⟩ := Nat.exists_eq_succ_of_ne_zero (Nat.ne_of_gt (Lexeme.untilQuote_width_pos found))
    cases same
    obtain ⟨others, quote⟩ := ih (content ++ ['"']) (position + 2) found
    have place : position + (less + 2) = position + 2 + less := by omega
    rw [List.append_assoc] at others
    exact ⟨place ▸ .again rfl others, quote⟩
  | case4 c rest plain unescaped ih =>
    intro closed
    obtain ⟨⟨inner, less⟩, found, same⟩ := Option.map_eq_some_iff.mp closed
    obtain ⟨less, rfl⟩ := Nat.exists_eq_succ_of_ne_zero (Nat.ne_of_gt (Lexeme.untilQuote_width_pos found))
    cases same
    obtain ⟨others, quote⟩ := ih (content ++ [c]) (position + 1) found
    have place : position + (less + 1) = position + 1 + less := by omega
    rw [List.append_assoc] at others
    exact ⟨place ▸ .again (quoting_plain plain unescaped content position) others, quote⟩

/-- A string that is not closed takes all that is left. -/
theorem quoting_ends_of_open {chars : List Char} (content : List Char) (position : Nat) :
    Lexeme.untilQuote chars = none →
      ∃ all, quoting.Ends (content, ⟨position, chars⟩) (all, ⟨position + chars.length, []⟩) := by
  fun_induction Lexeme.untilQuote chars generalizing content position with
  | case1 => exact fun _ => ⟨content, .finished rfl⟩
  | case2 rest => simp
  | case3 rest ih =>
    intro missing
    obtain ⟨all, others⟩ := ih (content ++ ['"']) (position + 2) (Option.map_eq_none_iff.mp missing)
    have place : position + (rest.length + 2) = position + 2 + rest.length := by omega
    exact ⟨all, place ▸ .again rfl others⟩
  | case4 c rest plain unescaped ih =>
    intro missing
    obtain ⟨all, others⟩ := ih (content ++ [c]) (position + 1) (Option.map_eq_none_iff.mp missing)
    have place : position + (rest.length + 1) = position + 1 + rest.length := by omega
    exact ⟨all, place ▸ .again (quoting_plain plain unescaped content position) others⟩

/-! ### Tokens -/

/-- Takes one more token, up to the end token. -/
def streaming : Loop (List Token × Cursor) := fun (found, cursor) =>
  if cursor.next.1.kind = .endOfInput then none else some (found ++ [cursor.next.1], cursor.next.2)

theorem next_furtherOn {cursor : Cursor} (more : cursor.next.1.kind ≠ .endOfInput) : cursor.FurtherOn cursor.next.2 := by
  have some_left : cursor.skipLayout.rest ≠ [] := by
    intro none
    apply more
    simp [next, take, none, Lexeme.read, Lexeme.symbol?]
  have before := cursor.skipLayout_before.trans (take_before (Lexeme.read_width_le _ some_left))
  exact before.furtherOn (next_length_lt more)

theorem streaming_advances : streaming.Advances fun before after => before.2.FurtherOn after.2 := by
  rintro ⟨found, cursor⟩ next round
  simp only [streaming] at round
  split at round
  next => cases round
  next more =>
    cases round
    exact next_furtherOn more

theorem streaming_ends (found : List Token) (cursor : Cursor) :
    ∃ final, streaming.Ends (found, cursor) (found ++ cursor.tokens.dropLast, final) ∧ final.next.1.kind = .endOfInput := by
  fun_induction tokens cursor generalizing found with
  | case1 cursor ended =>
    have last : streaming (found, cursor) = none := if_pos ended
    exact ⟨cursor, by simpa using Loop.Ends.finished last, ended⟩
  | case2 cursor more ih =>
    have round : streaming (found, cursor) = some (found ++ [cursor.next.1], cursor.next.2) := if_neg more
    obtain ⟨final, others, ended⟩ := ih (found ++ [cursor.next.1])
    rw [List.append_assoc, List.singleton_append] at others
    rw [List.dropLast_cons_of_ne_nil (tokens_ne_nil _)]
    exact ⟨final, .again round others, ended⟩

/-! ### All loops of scanning -/

theorem exists_rest_of_current? {cursor : Cursor} {c : Char} (ahead : cursor.current? = some c) :
    ∃ rest, cursor.rest = c :: rest :=
  List.head?_eq_some_iff.mp ahead

theorem word_ends {cursor : Cursor} {c : Char} (ahead : cursor.current? = some c) (letter : isWordChar c = true) :
    (skipping isWordChar).Ends cursor (cursor.take (Lexeme.read cursor.rest)).2 := by
  obtain ⟨rest, first⟩ := exists_rest_of_current? ahead
  have unquoted : c ≠ '"' := by
    rintro rfl
    simp [isWordChar] at letter
  have read : (cursor.take (Lexeme.read cursor.rest)).2 = cursor.skip isWordChar := by
    rw [← advance_run, take, run, first]
    simp [Lexeme.read, Lexeme.symbol?_eq_none (Or.inl letter), unquoted, letter]
  exact read ▸ skipping_ends isWordChar cursor

theorem number_ends {cursor : Cursor} {c : Char} (ahead : cursor.current? = some c) (digit : c.isDigit = true) :
    (skipping Char.isDigit).Ends cursor (cursor.take (Lexeme.read cursor.rest)).2 := by
  obtain ⟨rest, first⟩ := exists_rest_of_current? ahead
  have unquoted : c ≠ '"' := by
    rintro rfl
    simp at digit
  have read : (cursor.take (Lexeme.read cursor.rest)).2 = cursor.skip Char.isDigit := by
    rw [← advance_run, take, run, first]
    simp [Lexeme.read, Lexeme.symbol?_eq_none (Or.inr (Or.inl digit)), unquoted, isWordChar_of_isDigit digit, digit]
  exact read ▸ skipping_ends Char.isDigit cursor

/-- The loop of a string ends before the closing quote, which the token still takes, or it takes all that is left of the text. -/
def StringEnds (cursor : Cursor) : Prop :=
  ∃ content final, quoting.Ends ([], cursor.advance 1) (content, final) ∧
    (final.current? = some '"' ∧
        cursor.take (Lexeme.read cursor.rest) = (⟨.string, String.ofList content, cursor.position⟩, final.advance 1) ∨
      final.current? = none ∧
        cursor.take (Lexeme.read cursor.rest) = (⟨.illegal, String.ofList cursor.rest, cursor.position⟩, final))

theorem string_ends {cursor : Cursor} (ahead : cursor.current? = some '"') : cursor.StringEnds := by
  obtain ⟨rest, first⟩ := exists_rest_of_current? ahead
  have opened : cursor.advance 1 = ⟨cursor.position + 1, rest⟩ := by rw [advance, first, List.drop_one, List.tail_cons]
  rw [StringEnds, opened, first, Lexeme.read_quote, Lexeme.quoted, List.tail_cons]
  cases read : Lexeme.untilQuote rest with
  | none =>
    obtain ⟨all, ends⟩ := quoting_ends_of_open [] (cursor.position + 1) read
    refine ⟨all, _, ends, Or.inr ⟨rfl, ?_⟩⟩
    simp [take, advance, first, Nat.add_assoc, Nat.add_comm 1]
  | some found =>
    obtain ⟨content, width⟩ := found
    obtain ⟨width, rfl⟩ := Nat.exists_eq_succ_of_ne_zero (Nat.ne_of_gt (Lexeme.untilQuote_width_pos read))
    obtain ⟨ends, quote⟩ := quoting_ends_of_closed [] (cursor.position + 1) read
    refine ⟨content, _, ends, Or.inl ⟨quote, ?_⟩⟩
    simp [take, advance, first, Nat.add_assoc, Nat.add_comm 1]

/-- How the loops of scanning end from one place of a text on, in terms of what is read there. -/
structure LoopsEnd (cursor : Cursor) : Prop where
  blanks : (skipping isBlank).Ends cursor cursor.skipBlanks
  line : (skipping fun c => !isLineBreak c).Ends cursor cursor.skipLine
  layout : commenting.Ends cursor.skipBlanks cursor.skipLayout
  word : ∀ c, cursor.current? = some c → isWordChar c = true →
    (skipping isWordChar).Ends cursor (cursor.take (Lexeme.read cursor.rest)).2
  number : ∀ c, cursor.current? = some c → c.isDigit = true →
    (skipping Char.isDigit).Ends cursor (cursor.take (Lexeme.read cursor.rest)).2
  string : cursor.current? = some '"' → cursor.StringEnds
  stream : ∃ final, streaming.Ends ([], cursor) (cursor.tokens.dropLast, final) ∧ final.next.1.kind = .endOfInput

theorem loopsEnd (cursor : Cursor) : cursor.LoopsEnd where
  blanks := skipping_ends isBlank cursor
  line := skipping_ends _ cursor
  layout := commenting_ends cursor
  word _ ahead letter := word_ends ahead letter
  number _ ahead digit := number_ends ahead digit
  string ahead := string_ends ahead
  stream := streaming_ends [] cursor

/-- Every round of them takes a character. -/
structure RoundsAdvance : Prop where
  skipping : ∀ test, (skipping test).Advances FurtherOn
  commenting : commenting.Advances FurtherOn
  quoting : quoting.Advances fun before after => before.2.FurtherOn after.2
  streaming : streaming.Advances fun before after => before.2.FurtherOn after.2

theorem roundsAdvance : RoundsAdvance := ⟨skipping_advances, commenting_advances, quoting_advances, streaming_advances⟩

end Cursor

end Treewalk
