import Treewalk.Proofs.BracketNesting

/-! White space at the ends of lines. Where a text has no illegal token, its lines may be stripped, and the blank ones left
out, without another symbol being read, as long as every string that goes on over a line break has none beside it. -/

namespace Treewalk

/-- The symbols of a text, wherever it stands. -/
def symbolsOf (chars : List Char) : List Symbol := (Cursor.mk 0 chars).placed.map (·.token.symbol)

/-- The symbol of a string that is not closed. -/
def Symbol.isOpen (symbol : Symbol) : Bool := symbol.kind = .illegal && symbol.literal.toList.head? == some '"'

/-- No token of the text is illegal. -/
def Legible (chars : List Char) : Prop := ∀ symbol ∈ symbolsOf chars, symbol.kind ≠ .illegal

theorem symbolsOf_nil : symbolsOf [] = [] := by
  have none_left : AtLexeme [] := by simp [AtLexeme]
  rw [symbolsOf, Cursor.placed_of_layout (by rw [Cursor.skipLayout_eq_self none_left])]
  rfl

namespace Cursor

theorem map_symbol_placed (position : Nat) (chars : List Char) :
    (Cursor.mk position chars).placed.map (·.token.symbol) = symbolsOf chars := by
  have moved := (Cursor.mk 0 chars).placed_shifted position
  rw [shifted, Nat.zero_add] at moved
  rw [moved, List.map_map]
  rfl

theorem closed_iff (chars : List Char) :
    (Cursor.mk 0 chars).Closed ↔ ∀ symbol ∈ symbolsOf chars, symbol.isOpen = false := by
  rw [symbolsOf, List.forall_mem_map]
  rfl

theorem closed_congr {first second : List Char} (same : symbolsOf first = symbolsOf second) :
    (Cursor.mk 0 first).Closed ↔ (Cursor.mk 0 second).Closed := by
  rw [closed_iff, closed_iff, same]

theorem closed_nil : (Cursor.mk 0 []).Closed := by simp [closed_iff, symbolsOf_nil]

end Cursor

theorem Legible.closed {chars : List Char} (legible : Legible chars) : (Cursor.mk 0 chars).Closed := by
  rw [Cursor.closed_iff]
  intro symbol member
  simp [Symbol.isOpen, legible symbol member]

theorem Legible.of_symbolsOf_eq {chars : List Char} {front back : List Symbol} (legible : Legible chars)
    (same : symbolsOf chars = front ++ back) : ∀ symbol ∈ back, symbol.kind ≠ .illegal := fun symbol member =>
  legible symbol (same ▸ List.mem_append_right front member)

/-! ### White space in front -/

theorem symbolsOf_of_blank {c : Char} (blank : isBlank c = true) (chars : List Char) :
    symbolsOf (c :: chars) = symbolsOf chars := by
  rw [symbolsOf, Cursor.placed_of_blank blank, Cursor.map_symbol_placed]

/-- White space that no blank is makes an illegal token. -/
theorem illegal_of_space {c : Char} (space : isSpace c = true) (solid : isBlank c = false) (chars : List Char) :
    ¬ Legible (c :: chars) := by
  have start : AtLexeme (c :: chars) := by
    refine ⟨fun d first => Option.some.inj first ▸ solid, fun rest comment => ?_⟩
    exact ne_of_isSpace space (by decide : isSpace '/' = false) (List.cons.inj comment).1
  have unmarked : c ∉ markChars := by
    intro mark
    have plain : markChars.all (!isSpace ·) = true := by decide
    simpa [space] using List.all_eq_true.mp plain c mark
  have read : Lexeme.read (c :: chars) = ⟨.illegal, c.toString, 1⟩ := by
    have other := ne_of_isSpace space (by decide : isSpace '"' = false)
    simp [Lexeme.read, Lexeme.symbol?_of_not_mem unmarked, other, isWordChar_of_isSpace space, isDigit_of_isSpace space]
  have layout : (Cursor.mk 0 (c :: chars)).skipLayout = ⟨0, c :: chars⟩ := Cursor.skipLayout_eq_self start
  intro legible
  refine legible ⟨.illegal, c.toString⟩ ?_ rfl
  rw [symbolsOf, Cursor.placed_of_lexeme (by rw [layout]; simp), layout, read]
  exact List.mem_cons_self

theorem symbolsOf_spaces {spaces : List Char} (all : ∀ c ∈ spaces, isSpace c = true) {rest : List Char}
    (legible : Legible (spaces ++ rest)) (more : List Char) : symbolsOf (spaces ++ more) = symbolsOf more := by
  induction spaces with
  | nil => rfl
  | cons c spaces ih =>
    obtain ⟨space, others⟩ := List.forall_mem_cons.mp all
    cases blank : isBlank c with
    | false => exact absurd legible (illegal_of_space space blank _)
    | true =>
      rw [List.cons_append, symbolsOf_of_blank blank]
      rw [List.cons_append, Legible, symbolsOf_of_blank blank] at legible
      exact ih others legible

/-! ### White space behind -/

/-- The text has come to the end of a line. -/
def EndsLine (chars : List Char) : Prop := ∀ c, chars.head? = some c → c = '\n'

theorem EndsLine.nil : EndsLine [] := fun _ none => by cases none

theorem EndsLine.newline (chars : List Char) : EndsLine ('\n' :: chars) := fun _ first => (Option.some.inj first).symm

theorem EndsLine.cases {chars : List Char} (ends : EndsLine chars) : chars = [] ∨ ∃ rest, chars = '\n' :: rest := by
  cases chars with
  | nil => exact Or.inl rfl
  | cons c rest => exact Or.inr ⟨rest, by rw [ends c rfl]⟩

theorem symbolsOf_append_newline {front : List Char} (closed : (Cursor.mk 0 front).Closed) (more : List Char) :
    symbolsOf (front ++ '\n' :: more) = symbolsOf front ++ symbolsOf more := by
  have seam := Cursor.placed_append_newline closed more
  simp only at seam
  rw [symbolsOf, seam, List.map_append, Cursor.map_symbol_placed, Cursor.map_symbol_placed]

theorem symbolsOf_append {front : List Char} (closed : (Cursor.mk 0 front).Closed) {rest : List Char} (ends : EndsLine rest) :
    symbolsOf (front ++ rest) = symbolsOf front ++ symbolsOf rest := by
  rcases ends.cases with rfl | ⟨more, rfl⟩
  · simp [symbolsOf_nil]
  · rw [symbolsOf_append_newline closed, symbolsOf_of_blank (by rfl)]

/-- A comment goes on over the white space behind it, if that breaks no line. -/
theorem dropWhile_spaces_append {spaces rest : List Char} (ends : EndsLine rest) :
    (spaces ++ rest).dropWhile (fun c => !isLineBreak c) = spaces.dropWhile (fun c => !isLineBreak c) ++ rest := by
  rw [List.dropWhile_append]
  split
  next none =>
    rw [List.isEmpty_iff.mp none, List.nil_append]
    rcases ends.cases with rfl | ⟨more, rfl⟩ <;> rfl
  next => rfl

/-- Two texts have the same symbols, whatever lines follow. -/
def ReadAlike (first second : List Char) : Prop :=
  ∀ rest, EndsLine rest → symbolsOf (first ++ rest) = symbolsOf (second ++ rest)

theorem ReadAlike.trans {first second third : List Char} (alike : ReadAlike first second) (alike' : ReadAlike second third) :
    ReadAlike first third := fun rest ends => (alike rest ends).trans (alike' rest ends)

theorem ReadAlike.symbolsOf_eq {first second : List Char} (alike : ReadAlike first second) :
    symbolsOf first = symbolsOf second := by
  simpa using alike [] .nil

theorem readAlike_of_spaces {front spaces rest : List Char} (all : ∀ c ∈ spaces, isSpace c = true)
    (closed : (Cursor.mk 0 front).Closed) (ends : EndsLine rest) (legible : Legible (front ++ spaces ++ rest)) :
    ReadAlike (front ++ spaces) front := by
  intro more ends'
  rw [symbolsOf_append closed ends', List.append_assoc]
  cases spaces with
  | nil => exact symbolsOf_append closed ends'
  | cons c spaces =>
    have space := all c List.mem_cons_self
    rcases Cursor.placed_append _ closed with parted | goes_on
    · have same (others : List Char) : symbolsOf (front ++ (c :: spaces ++ others)) =
          symbolsOf front ++ symbolsOf (c :: spaces ++ others) := by
        simpa [Cursor.map_symbol_placed] using congrArg (List.map (·.token.symbol)) (parted c (spaces ++ others) space)
      rw [List.append_assoc] at legible
      rw [same, symbolsOf_spaces all (legible.of_symbolsOf_eq (same rest))]
    · have same {others : List Char} (ends : EndsLine others) : symbolsOf (front ++ (c :: spaces ++ others)) =
          symbolsOf front ++ symbolsOf ((c :: spaces).dropWhile (fun c => !isLineBreak c) ++ others) := by
        rw [← dropWhile_spaces_append ends]
        simpa [Cursor.skipLine, Cursor.skip, Cursor.map_symbol_placed] using
          congrArg (List.map (·.token.symbol)) (goes_on c (spaces ++ others) space)
      have behind (d : Char) (member : d ∈ (c :: spaces).dropWhile fun c => !isLineBreak c) : isSpace d = true :=
        all d ((List.dropWhile_sublist _).subset member)
      rw [List.append_assoc] at legible
      rw [same ends', symbolsOf_spaces behind (legible.of_symbolsOf_eq (same ends))]

/-- White space does not close a string. -/
theorem not_closed_append {front spaces : List Char} (all : ∀ c ∈ spaces, isSpace c = true)
    (unclosed : ¬ (Cursor.mk 0 front).Closed) : ¬ (Cursor.mk 0 (front ++ spaces)).Closed := by
  induction spaces generalizing front with
  | nil => rwa [List.append_nil]
  | cons c spaces ih =>
    obtain ⟨space, others⟩ := List.forall_mem_cons.mp all
    have longer : ¬ (Cursor.mk 0 (front ++ [c])).Closed := by
      intro closed
      obtain ⟨placed, member, still | ⟨-, -, beyond⟩⟩ := Cursor.exists_string_of_not_closed space [] unclosed
      · exact Bool.false_ne_true ((closed placed member).symm.trans still)
      · have bound := (Cursor.placed_bounds _ placed member).2
        simp only [List.length_append, List.length_singleton] at beyond bound
        omega
    simpa using ih others longer

/-! ### Lines -/

/-- No string goes on over a line break with white space beside it. -/
def Tight (chars : List Char) : Prop :=
  ∀ before after, chars = before ++ '\n' :: after → ¬ (Cursor.mk 0 before).Closed →
    (∀ c, before.getLast? = some c → isSpace c = false) ∧ ∀ c, after.head? = some c → isSpace c = false

theorem exists_of_trimmed (test : Char → Bool) (chars : List Char) :
    ∃ lead trail, chars = lead ++ trimmed test chars ++ trail ∧ (∀ c ∈ lead, test c = true) ∧ ∀ c ∈ trail, test c = true := by
  refine ⟨chars.takeWhile test, ((chars.dropWhile test).reverse.takeWhile test).reverse, ?_, ?_, ?_⟩
  · rw [trimmed, List.append_assoc, ← List.reverse_append, List.takeWhile_append_dropWhile, List.reverse_reverse,
      List.takeWhile_append_dropWhile]
  · exact List.all_eq_true.mp List.all_takeWhile
  · intro c member
    exact List.all_eq_true.mp List.all_takeWhile c (List.mem_reverse.mp member)

section Line

variable {front front' lead trail rest : List Char}

theorem readAlike_lead (alike : ReadAlike front front') (all : ∀ c ∈ lead, isSpace c = true)
    (legible : Legible (front ++ '\n' :: (lead ++ rest))) (tight : Tight (front ++ '\n' :: (lead ++ rest)))
    (core : List Char) : ReadAlike (front ++ '\n' :: (lead ++ core)) (front' ++ '\n' :: core) := by
  intro more _
  by_cases closed : (Cursor.mk 0 front).Closed
  · have closed' := (Cursor.closed_congr alike.symbolsOf_eq).mp closed
    have legible' := legible.of_symbolsOf_eq (symbolsOf_append_newline closed _)
    simp only [List.append_assoc, List.cons_append, symbolsOf_append_newline closed, symbolsOf_append_newline closed',
      symbolsOf_spaces all legible', alike.symbolsOf_eq]
  · cases lead with
    | nil => simpa using alike ('\n' :: (core ++ more)) (.newline _)
    | cons c lead =>
      have solid := (tight front _ rfl closed).2 c rfl
      exact absurd (all c List.mem_cons_self) (by simp [solid])

theorem readAlike_trail (all : ∀ c ∈ trail, isSpace c = true) (ends : EndsLine rest)
    (legible : Legible (front ++ trail ++ rest)) (tight : Tight (front ++ trail ++ rest)) :
    ReadAlike (front ++ trail) front := by
  by_cases closed : (Cursor.mk 0 front).Closed
  · exact readAlike_of_spaces all closed ends legible
  have unclosed := not_closed_append all closed
  rcases ends.cases with rfl | ⟨more, rfl⟩
  · rw [List.append_nil] at legible
    exact absurd legible.closed unclosed
  · rcases List.eq_nil_or_concat trail with rfl | ⟨others, c, rfl⟩
    · rw [List.append_nil]
      exact fun _ _ => rfl
    · have solid := (tight _ more rfl unclosed).1 c (by simp)
      exact absurd (all c (by simp)) (by simp [solid])

end Line

/-- Lines, each with a line break before it. -/
def broken (lines : List String) : List Char := lines.flatMap fun line => '\n' :: line.toList

theorem EndsLine.broken_append {rest : List Char} (ends : EndsLine rest) (lines : List String) :
    EndsLine (broken lines ++ rest) := by
  cases lines with
  | nil => exact ends
  | cons line lines => exact .newline _

/-- A line without the white space around it, if it is not blank. -/
def content? (line : String) : Option String := if strip line = "" then none else some (strip line)

def stripped (lines : List String) : List String := lines.filterMap content?

theorem readAlike_line {front front' : List Char} (alike : ReadAlike front front') (line : String) {rest : List Char}
    (ends : EndsLine rest) (legible : Legible (front ++ '\n' :: line.toList ++ rest))
    (tight : Tight (front ++ '\n' :: line.toList ++ rest)) :
    ReadAlike (front ++ '\n' :: line.toList) (front' ++ broken (stripped [line])) := by
  obtain ⟨lead, trail, parts, before, behind⟩ := exists_of_trimmed isSpace line.toList
  have text : (strip line).toList = trimmed isSpace line.toList := String.toList_ofList
  by_cases blank : strip line = ""
  · rw [blank, String.toList_empty] at text
    have all : ∀ c ∈ line.toList, isSpace c = true := by
      rw [parts, ← text, List.append_nil]
      exact List.forall_mem_append.mpr ⟨before, behind⟩
    have whole := readAlike_trail (List.forall_mem_cons.mpr ⟨by rfl, all⟩) ends legible tight
    simpa [stripped, content?, blank, broken] using whole.trans alike
  · rw [← text] at parts
    rw [parts] at legible tight ⊢
    have trailing : ReadAlike (front ++ '\n' :: (lead ++ (strip line).toList) ++ trail)
        (front ++ '\n' :: (lead ++ (strip line).toList)) :=
      readAlike_trail behind ends (by simpa using legible) (by simpa using tight)
    have apart : front ++ '\n' :: (lead ++ (strip line).toList ++ trail) ++ rest =
        front ++ '\n' :: (lead ++ ((strip line).toList ++ trail ++ rest)) := by simp
    rw [apart] at legible tight
    have both := trailing.trans (readAlike_lead alike before legible tight (strip line).toList)
    simpa [stripped, content?, blank, broken] using both

/-- Lines may be stripped one after the other. -/
theorem readAlike_stripped {lines : List String} {front front' rest : List Char} (alike : ReadAlike front front')
    (ends : EndsLine rest) (legible : Legible (front ++ broken lines ++ rest))
    (tight : Tight (front ++ broken lines ++ rest)) : ReadAlike (front ++ broken lines) (front' ++ broken (stripped lines)) := by
  induction lines generalizing front front' with
  | nil => simpa [broken, stripped] using alike
  | cons line lines ih =>
    have front_line : front ++ broken (line :: lines) = front ++ '\n' :: line.toList ++ broken lines := by simp [broken]
    have back_line : broken (stripped (line :: lines)) = broken (stripped [line]) ++ broken (stripped lines) := by
      rw [broken, broken, broken, ← List.flatMap_append, stripped, stripped, stripped, ← List.filterMap_append,
        List.singleton_append]
    rw [front_line] at legible tight ⊢
    have first := readAlike_line alike line (ends.broken_append lines) (by simpa using legible) (by simpa using tight)
    rw [back_line, ← List.append_assoc]
    exact ih first legible tight

end Treewalk
