import Treewalk.Proofs.Lexemes

/-! Texts put behind each other. The lexemes of a text with a line break behind it are its own and then those of the rest,
unless a string is still open there. -/

namespace Treewalk

/-- A lexeme and the position of its first character. -/
structure Placed where
  position : Nat
  lexeme : Lexeme
  deriving DecidableEq, Repr

namespace Placed

def token (placed : Placed) : Token := ⟨placed.lexeme.kind, placed.lexeme.literal, placed.position⟩

/-- The position behind the last character. -/
def stop (placed : Placed) : Nat := placed.position + placed.lexeme.width

def shifted (offset : Nat) (placed : Placed) : Placed := { placed with position := placed.position + offset }

end Placed

namespace Cursor

/-- The lexemes that are left, each with its place. -/
def placed (cursor : Cursor) : List Placed :=
  if cursor.next.1.kind = .endOfInput then []
  else ⟨cursor.skipLayout.position, Lexeme.read cursor.skipLayout.rest⟩ :: cursor.next.2.placed
termination_by cursor.rest.length
decreasing_by exact next_length_lt (by assumption)

/-- The second cursor stands further on in the same text. -/
def Before (first second : Cursor) : Prop :=
  ∃ between, first.rest = between ++ second.rest ∧ second.position = first.position + between.length

theorem Before.trans {first second third : Cursor} (front : first.Before second) (back : second.Before third) :
    first.Before third := by
  obtain ⟨between, rest, position⟩ := front
  obtain ⟨further, rest', position'⟩ := back
  refine ⟨between ++ further, ?_, ?_⟩
  · rw [rest, rest', List.append_assoc]
  · rw [position', position, List.length_append, Nat.add_assoc]

theorem skip_before (cursor : Cursor) (test : Char → Bool) : cursor.Before (cursor.skip test) :=
  ⟨cursor.run test, List.takeWhile_append_dropWhile.symm, rfl⟩

theorem skipLayout_of_comment {cursor : Cursor} (rest : List Char) (comment : cursor.skipBlanks.rest = '/' :: '/' :: rest) :
    cursor.skipLayout = cursor.skipBlanks.skipLine.skipLayout := by
  rw [skipLayout]
  split
  next => rfl
  next plain => exact absurd comment (plain rest)

theorem skipLayout_of_plain {cursor : Cursor} (plain : ∀ rest, cursor.skipBlanks.rest ≠ '/' :: '/' :: rest) :
    cursor.skipLayout = cursor.skipBlanks := by
  rw [skipLayout]
  split
  next rest comment => exact absurd comment (plain rest)
  next => rfl

theorem skipLayout_before (cursor : Cursor) : cursor.Before cursor.skipLayout := by
  fun_induction skipLayout cursor with
  | case1 cursor rest comment shorter ih => exact (cursor.skip_before _).trans ((skip_before _ _).trans ih)
  | case2 cursor => exact cursor.skip_before isBlank

theorem advance_before {cursor : Cursor} {count : Nat} (inside : count ≤ cursor.rest.length) :
    cursor.Before (cursor.advance count) :=
  ⟨cursor.rest.take count, (List.take_append_drop _ _).symm, by simp [advance, Nat.min_eq_left inside]⟩

theorem take_before {cursor : Cursor} {lexeme : Lexeme} (inside : lexeme.width ≤ cursor.rest.length) :
    cursor.Before (cursor.take lexeme).2 :=
  advance_before inside

theorem skipLayout_eq_finish {cursor : Cursor} (layout : cursor.skipLayout.rest = []) :
    cursor.skipLayout = ⟨cursor.position + cursor.rest.length, []⟩ := by
  obtain ⟨between, rest, position⟩ := cursor.skipLayout_before
  rw [layout, List.append_nil] at rest
  rw [← rest] at position
  exact Cursor.mk.injEq .. ▸ ⟨position, layout⟩

end Cursor

namespace Cursor

variable {cursor : Cursor}

/-- Behind the layout here and the lexeme that follows it. -/
def behindLexeme (cursor : Cursor) : Cursor := (cursor.skipLayout.take (Lexeme.read cursor.skipLayout.rest)).2

theorem placed_of_layout (layout : cursor.skipLayout.rest = []) : cursor.placed = [] := by
  rw [placed, if_pos]
  simp [next, take, layout, Lexeme.read, Lexeme.symbol?]

theorem placed_of_lexeme (some_left : cursor.skipLayout.rest ≠ []) :
    cursor.placed = ⟨cursor.skipLayout.position, Lexeme.read cursor.skipLayout.rest⟩ :: cursor.behindLexeme.placed := by
  rw [placed, if_neg]
  · rfl
  · exact Lexeme.read_kind_ne some_left

/-- Every text is layout to its end, or layout, a lexeme, and another text. -/
theorem lexeme_induction {motive : Cursor → Prop} (layout : ∀ cursor, cursor.skipLayout.rest = [] → motive cursor)
    (lexeme : ∀ cursor, cursor.skipLayout.rest ≠ [] → motive cursor.behindLexeme → motive cursor) (cursor : Cursor) :
    motive cursor := by
  fun_induction placed cursor with
  | case1 cursor ended =>
    exact layout cursor (Classical.byContradiction fun some_left => Lexeme.read_kind_ne some_left ended)
  | case2 cursor more ih =>
    refine lexeme cursor (fun none => more ?_) ih
    simp [next, take, none, Lexeme.read, Lexeme.symbol?]

theorem tokens_eq_placed (cursor : Cursor) :
    cursor.tokens = cursor.placed.map Placed.token ++ [.finish (cursor.position + cursor.rest.length)] := by
  induction cursor using lexeme_induction with
  | layout cursor layout =>
    have ended := skipLayout_eq_finish layout
    have next : cursor.next = (.finish (cursor.position + cursor.rest.length), ⟨cursor.position + cursor.rest.length, []⟩) := by
      rw [Cursor.next, ended]
      rfl
    rw [tokens, next, placed_of_layout layout]
    rfl
  | lexeme cursor some_left ih =>
    have more : cursor.next.1.kind ≠ .endOfInput := Lexeme.read_kind_ne some_left
    obtain ⟨between, rest, position⟩ := cursor.skipLayout_before.trans (take_before (Lexeme.read_width_le _ some_left))
    rw [tokens, if_neg more, placed_of_lexeme some_left, List.map_cons, List.cons_append]
    change _ :: cursor.behindLexeme.tokens = _
    rw [ih]
    change cursor.rest = between ++ cursor.behindLexeme.rest at rest
    change cursor.behindLexeme.position = _ at position
    rw [position, rest, List.length_append, Nat.add_assoc]
    rfl

end Cursor

namespace Cursor

def shifted (offset : Nat) (cursor : Cursor) : Cursor := { cursor with position := cursor.position + offset }

theorem skip_shifted (cursor : Cursor) (offset : Nat) (test : Char → Bool) :
    (cursor.shifted offset).skip test = (cursor.skip test).shifted offset := by
  simp only [shifted, skip, run, Cursor.mk.injEq, and_true]
  omega

theorem skipLayout_shifted (cursor : Cursor) (offset : Nat) :
    (cursor.shifted offset).skipLayout = cursor.skipLayout.shifted offset := by
  fun_induction skipLayout cursor with
  | case1 cursor rest comment shorter ih =>
    have blanks : (cursor.shifted offset).skipBlanks = cursor.skipBlanks.shifted offset := cursor.skip_shifted offset _
    have line : (cursor.skipBlanks.shifted offset).skipLine = cursor.skipBlanks.skipLine.shifted offset :=
      cursor.skipBlanks.skip_shifted offset _
    rw [skipLayout_of_comment rest (by rw [blanks]; exact comment), blanks, line, ih]
  | case2 cursor plain =>
    have blanks : (cursor.shifted offset).skipBlanks = cursor.skipBlanks.shifted offset := cursor.skip_shifted offset _
    rw [skipLayout_of_plain (by rw [blanks]; exact plain), blanks]

/-- Scanning does not depend on where a text stands. -/
theorem placed_shifted (cursor : Cursor) (offset : Nat) :
    (cursor.shifted offset).placed = cursor.placed.map (Placed.shifted offset) := by
  induction cursor using lexeme_induction with
  | layout cursor layout =>
    rw [placed_of_layout layout, placed_of_layout (by rw [skipLayout_shifted]; exact layout)]
    rfl
  | lexeme cursor some_left ih =>
    have start := cursor.skipLayout_shifted offset
    have behind : (cursor.shifted offset).behindLexeme = cursor.behindLexeme.shifted offset := by
      rw [behindLexeme, start]
      simp only [behindLexeme, take, advance, shifted, Cursor.mk.injEq, and_true]
      omega
    rw [placed_of_lexeme some_left, placed_of_lexeme (by rw [start]; exact some_left), behind, ih, start]
    rfl

/-! ### Seams -/

theorem skip_append_of_ne_nil (cursor : Cursor) (test : Char → Bool) (some_left : (cursor.skip test).rest ≠ [])
    (more : List Char) :
    (Cursor.mk cursor.position (cursor.rest ++ more)).skip test =
      ⟨(cursor.skip test).position, (cursor.skip test).rest ++ more⟩ := by
  have some_left : cursor.rest.dropWhile test ≠ [] := some_left
  have partial_ : (cursor.rest.takeWhile test).length ≠ cursor.rest.length := by
    intro all
    have whole := (List.takeWhile_sublist test).eq_of_length all
    have parts := List.takeWhile_append_dropWhile (p := test) (l := cursor.rest)
    rw [whole] at parts
    exact some_left (List.append_right_eq_self.mp parts)
  simp [skip, run, List.dropWhile_append, List.takeWhile_append, partial_, some_left]

theorem skip_append_of_nil (cursor : Cursor) (test : Char → Bool) (none_left : (cursor.skip test).rest = [])
    (more : List Char) :
    (Cursor.mk cursor.position (cursor.rest ++ more)).skip test =
      (Cursor.mk (cursor.position + cursor.rest.length) more).skip test := by
  have none_left : cursor.rest.dropWhile test = [] := none_left
  have whole : cursor.rest.takeWhile test = cursor.rest := by
    simpa [none_left] using List.takeWhile_append_dropWhile (p := test) (l := cursor.rest)
  simp only [skip, run, List.dropWhile_append, List.takeWhile_append, whole, none_left, List.isEmpty_nil, if_true,
    List.length_append, Cursor.mk.injEq, and_true]
  omega

/-- Layout that ends before the text does ends there in any longer text, unless it makes a comment of a slash. -/
theorem skipLayout_append_of_ne_nil {cursor : Cursor} (some_left : cursor.skipLayout.rest ≠ []) {c : Char} (apart : c ≠ '/')
    (more : List Char) :
    (Cursor.mk cursor.position (cursor.rest ++ c :: more)).skipLayout =
      ⟨cursor.skipLayout.position, cursor.skipLayout.rest ++ c :: more⟩ := by
  fun_induction skipLayout cursor with
  | case1 cursor rest comment shorter ih =>
    have blanks := skip_append_of_ne_nil cursor isBlank (by rw [← skipBlanks, comment]; simp) (c :: more)
    have unfinished : cursor.skipBlanks.skipLine.rest ≠ [] := by
      intro none
      obtain ⟨between, same, -⟩ := cursor.skipBlanks.skipLine.skipLayout_before
      rw [none] at same
      exact some_left (List.append_eq_nil_iff.mp same.symm).2
    have line := skip_append_of_ne_nil cursor.skipBlanks _ unfinished (c :: more)
    rw [skipLayout_of_comment (rest ++ c :: more)]
    · rw [skipBlanks, blanks]
      exact (congrArg skipLayout line).trans (ih some_left)
    · rw [skipBlanks, blanks]
      change cursor.skipBlanks.rest ++ _ = _
      rw [comment]
      rfl
  | case2 cursor plain =>
    have blanks := skip_append_of_ne_nil cursor _ some_left (c :: more)
    rw [skipLayout_of_plain]
    · exact blanks
    · rw [skipBlanks, blanks]
      intro rest comment
      change cursor.skipBlanks.rest ++ _ = _ at comment
      rcases left : cursor.skipBlanks.rest with _ | ⟨first, _ | ⟨second, others⟩⟩
      · exact some_left left
      · rw [left] at comment
        simp only [List.singleton_append, List.cons.injEq] at comment
        exact apart comment.2.1
      · rw [left] at comment
        simp only [List.cons_append, List.cons.injEq] at comment
        obtain ⟨rfl, rfl, -⟩ := comment
        exact plain others left

/-- Behind layout that fills a text the next text begins, or else a comment goes on to the end of its line there. -/
theorem skipLayout_append_of_nil {cursor : Cursor} (layout : cursor.skipLayout.rest = []) :
    (∀ more, (Cursor.mk cursor.position (cursor.rest ++ more)).skipLayout =
      (Cursor.mk (cursor.position + cursor.rest.length) more).skipLayout) ∨
    ∀ more, (Cursor.mk cursor.position (cursor.rest ++ more)).skipLayout =
      (Cursor.mk (cursor.position + cursor.rest.length) more).skipLine.skipLayout := by
  fun_induction skipLayout cursor with
  | case1 cursor rest comment shorter ih =>
    have unfolded (more : List Char) : (Cursor.mk cursor.position (cursor.rest ++ more)).skipLayout =
        (Cursor.mk cursor.skipBlanks.position (cursor.skipBlanks.rest ++ more)).skipLine.skipLayout := by
      have blanks := skip_append_of_ne_nil cursor isBlank (by rw [← skipBlanks, comment]; simp) more
      rw [skipLayout_of_comment (rest ++ more)]
      · rw [skipBlanks, blanks]
        rfl
      · rw [skipBlanks, blanks]
        change cursor.skipBlanks.rest ++ _ = _
        rw [comment]
        rfl
    have place {later : Cursor} (before : cursor.Before later) :
        later.position + later.rest.length = cursor.position + cursor.rest.length := by
      obtain ⟨between, same, position⟩ := before
      rw [position, same, List.length_append, Nat.add_assoc]
    have blanks := cursor.skip_before isBlank
    by_cases finished : cursor.skipBlanks.skipLine.rest = []
    · right
      intro more
      rw [unfolded, skipLine, skip_append_of_nil cursor.skipBlanks _ finished more, ← skipLine]
      exact congrArg (fun position => (Cursor.mk position more).skipLine.skipLayout) (place blanks)
    · have line (more : List Char) := skip_append_of_ne_nil cursor.skipBlanks _ finished more
      have whole : cursor.skipBlanks.skipLine.position + cursor.skipBlanks.skipLine.rest.length =
          cursor.position + cursor.rest.length := place (blanks.trans (skip_before _ _))
      rw [whole] at ih
      refine (ih layout).imp (fun ends more => ?_) (fun goes_on more => ?_)
      · rw [unfolded, skipLine, line]
        exact ends more
      · rw [unfolded, skipLine, line]
        exact goes_on more
  | case2 cursor plain =>
    left
    intro more
    exact skipLayout_eq_of_skipBlanks_eq (skip_append_of_nil cursor _ layout more)

theorem placed_eq_of_skipLayout_eq {first second : Cursor} (same : first.skipLayout = second.skipLayout) :
    first.placed = second.placed := by
  have next : first.next = second.next := by rw [Cursor.next, same, ← Cursor.next]
  rw [placed.eq_def first, placed.eq_def second]
  simp only [next, same]

theorem placed_of_blank {c : Char} (blank : isBlank c = true) (position : Nat) (chars : List Char) :
    (Cursor.mk position (c :: chars)).placed = (Cursor.mk (position + 1) chars).placed :=
  placed_eq_of_skipLayout_eq (skipLayout_of_blank blank position chars)

/-- No string is still open where the text ends. -/
def Closed (cursor : Cursor) : Prop := ∀ placed ∈ cursor.placed, placed.lexeme.isOpen = false

theorem behindLexeme_append {cursor : Cursor} (some_left : cursor.skipLayout.rest ≠ [])
    (closed : (Lexeme.read cursor.skipLayout.rest).isOpen = false) {c : Char} (space : isSpace c = true) (more : List Char) :
    let longer := Cursor.mk cursor.position (cursor.rest ++ c :: more)
    longer.placed = ⟨cursor.skipLayout.position, Lexeme.read cursor.skipLayout.rest⟩ ::
      (Cursor.mk cursor.behindLexeme.position (cursor.behindLexeme.rest ++ c :: more)).placed := by
  have layout := skipLayout_append_of_ne_nil some_left (ne_of_isSpace space (by decide : isSpace '/' = false)) more
  have read := Lexeme.read_append some_left closed space more
  have inside := Lexeme.read_width_le _ some_left
  have behind : (Cursor.mk cursor.position (cursor.rest ++ c :: more)).behindLexeme =
      ⟨cursor.behindLexeme.position, cursor.behindLexeme.rest ++ c :: more⟩ := by
    simp only [behindLexeme, layout, read, take, advance, List.drop_append_of_le_length inside]
  dsimp only
  rw [placed_of_lexeme (by rw [layout]; simp), layout, read, behind]

theorem position_add_length_behindLexeme {cursor : Cursor} (some_left : cursor.skipLayout.rest ≠ []) :
    cursor.behindLexeme.position + cursor.behindLexeme.rest.length = cursor.position + cursor.rest.length := by
  obtain ⟨between, rest, position⟩ := cursor.skipLayout_before.trans (take_before (Lexeme.read_width_le _ some_left))
  change cursor.rest = between ++ cursor.behindLexeme.rest at rest
  change cursor.behindLexeme.position = _ at position
  rw [position, rest, List.length_append, Nat.add_assoc]

/-- Where no string is open, white space parts a text from what follows. Only a comment goes on behind it. -/
theorem placed_append (cursor : Cursor) (closed : cursor.Closed) :
    (∀ c more, isSpace c = true → (Cursor.mk cursor.position (cursor.rest ++ c :: more)).placed =
      cursor.placed ++ (Cursor.mk (cursor.position + cursor.rest.length) (c :: more)).placed) ∨
    ∀ c more, isSpace c = true → (Cursor.mk cursor.position (cursor.rest ++ c :: more)).placed =
      cursor.placed ++ (Cursor.mk (cursor.position + cursor.rest.length) (c :: more)).skipLine.placed := by
  induction cursor using lexeme_induction with
  | layout cursor layout =>
    rw [placed_of_layout layout]
    exact (skipLayout_append_of_nil layout).imp (fun ends c more _ => placed_eq_of_skipLayout_eq (ends _))
      (fun goes_on c more _ => placed_eq_of_skipLayout_eq (goes_on _))
  | lexeme cursor some_left ih =>
    rw [Closed, placed_of_lexeme some_left, List.forall_mem_cons] at closed
    rw [placed_of_lexeme some_left, ← position_add_length_behindLexeme some_left]
    refine (ih closed.2).imp (fun ends c more space => ?_) (fun goes_on c more space => ?_)
    · rw [behindLexeme_append some_left closed.1 space, ends c more space]
      rfl
    · rw [behindLexeme_append some_left closed.1 space, goes_on c more space]
      rfl

/-- A line break parts a text from what follows wherever no string is open. -/
theorem placed_append_newline {cursor : Cursor} (closed : cursor.Closed) (more : List Char) :
    (Cursor.mk cursor.position (cursor.rest ++ '\n' :: more)).placed =
      cursor.placed ++ (Cursor.mk (cursor.position + cursor.rest.length + 1) more).placed := by
  rw [← placed_of_blank (by rfl : isBlank '\n' = true)]
  rcases placed_append cursor closed with ends | goes_on
  · exact ends '\n' more (by rfl)
  · exact goes_on '\n' more (by rfl)

theorem placed_bounds (cursor : Cursor) : ∀ placed ∈ cursor.placed,
    cursor.position ≤ placed.position ∧ placed.stop ≤ cursor.position + cursor.rest.length := by
  induction cursor using lexeme_induction with
  | layout cursor layout => simp [placed_of_layout layout]
  | lexeme cursor some_left ih =>
    obtain ⟨between, rest, position⟩ := cursor.skipLayout_before
    have inside := Lexeme.read_width_le _ some_left
    have whole := position_add_length_behindLexeme some_left
    have further : cursor.behindLexeme.position = cursor.skipLayout.position + (Lexeme.read cursor.skipLayout.rest).width := rfl
    rw [placed_of_lexeme some_left, List.forall_mem_cons]
    refine ⟨⟨?_, ?_⟩, fun placed member => ?_⟩
    · exact Nat.le.intro position.symm
    · simp only [Placed.stop, rest, List.length_append]
      omega
    · obtain ⟨low, high⟩ := ih placed member
      exact ⟨by omega, by omega⟩

theorem placed_ofString_append {first : String} (closed : (ofString first).Closed) (second : String) :
    (ofString (first ++ "\n" ++ second)).placed =
      (ofString first).placed ++ (Cursor.mk (first.length + 1) second.toList).placed := by
  have seam := placed_append_newline closed second.toList
  simpa [ofString, String.length_toList] using seam

/-- A string that is open at the end of a text holds the white space behind it, and is closed later if ever. -/
theorem exists_string_of_not_closed {cursor : Cursor} {c : Char} (space : isSpace c = true) (more : List Char)
    (unclosed : ¬ cursor.Closed) :
    ∃ placed ∈ (Cursor.mk cursor.position (cursor.rest ++ c :: more)).placed,
      placed.lexeme.isOpen = true ∨ placed.lexeme.kind = .string ∧
        placed.position < cursor.position + cursor.rest.length ∧ cursor.position + cursor.rest.length + 1 < placed.stop := by
  induction cursor using lexeme_induction with
  | layout cursor layout => exact absurd (by simp [Closed, placed_of_layout layout]) unclosed
  | lexeme cursor some_left ih =>
    cases whole : (Lexeme.read cursor.skipLayout.rest).isOpen with
    | false =>
      have unclosed : ¬ cursor.behindLexeme.Closed := by
        intro closed
        refine unclosed ?_
        rw [Closed, placed_of_lexeme some_left, List.forall_mem_cons]
        exact ⟨whole, closed⟩
      rw [behindLexeme_append some_left whole space, ← position_add_length_behindLexeme some_left]
      obtain ⟨placed, member, found⟩ := ih unclosed
      exact ⟨placed, List.mem_cons_of_mem _ member, found⟩
    | true =>
      obtain ⟨inside, starts, none⟩ := Lexeme.exists_of_isOpen_read whole
      have layout := skipLayout_append_of_ne_nil some_left (ne_of_isSpace space (by decide : isSpace '/' = false)) more
      obtain ⟨between, rest, position⟩ := cursor.skipLayout_before
      rw [placed_of_lexeme (by rw [layout]; simp), layout]
      refine ⟨_, List.mem_cons_self, ?_⟩
      dsimp only
      rw [starts, List.cons_append, Lexeme.read_quote, Lexeme.isOpen_quoted]
      cases closing : Lexeme.untilQuote (inside ++ c :: more) with
      | none => exact Or.inl rfl
      | some found =>
        obtain ⟨content, width⟩ := found
        have plain : (c :: more).head? ≠ some '"' := fun quote =>
          ne_of_isSpace space (by decide : isSpace '"' = false) (Option.some.inj quote)
        have later := Lexeme.length_lt_of_untilQuote_append plain none closing
        rw [starts] at rest
        refine Or.inr ⟨?_, ?_, ?_⟩
        · simp [Lexeme.quoted, closing]
        · simp only [rest, List.length_append, List.length_cons]
          omega
        · simp only [Placed.stop, Lexeme.quoted, List.tail_cons, closing, rest, List.length_append, List.length_cons]
          omega

end Cursor

theorem Token.scan_eq_placed (source : String) : scan source = (Cursor.ofString source).placed.map Placed.token := by
  rw [scan, stream, Cursor.tokens_eq_placed, List.dropLast_concat]

end Treewalk
