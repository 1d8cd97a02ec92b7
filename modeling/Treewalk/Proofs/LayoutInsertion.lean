import Treewalk.Proofs.Relocation
import Treewalk.Proofs.TokenSpans

/-! Layout that is put into a source. A tiling says all there is to say about tokens: no source has two of them. Blanks and
comments in front of a token make a longer gap there, and a blank ends the token before them just as what followed it did.
So all tokens stay, and those from there on move. -/

namespace Treewalk

/-- Blanks, and comments with the line break that ends them. -/
inductive ClosedLayout : List Char → Prop where
  | nil : ClosedLayout []
  | blank (empty : isBlank c = true) (others : ClosedLayout rest) : ClosedLayout (c :: rest)
  | comment (line : ∀ c ∈ text, isLineBreak c = false) (ends : isLineBreak c = true) (others : ClosedLayout rest) :
    ClosedLayout ('/' :: '/' :: (text ++ c :: rest))

/-- Where a position goes when `width` characters are put in at `place`. -/
def makeRoom (place width position : Nat) : Nat := if position < place then position else position + width

theorem isBlank_of_isLineBreak {c : Char} (ends : isLineBreak c = true) : isBlank c = true := by
  rcases Bool.or_eq_true_iff.mp ends with feed | carriage
  · obtain rfl := eq_of_beq feed
    rfl
  · obtain rfl := eq_of_beq carriage
    rfl

theorem isSpace_of_isBlank {c : Char} (blank : isBlank c = true) : isSpace c = true := by
  simp only [isBlank, Bool.or_eq_true, beq_iff_eq] at blank
  rcases blank with ((rfl | rfl) | rfl) | rfl <;> rfl

/-! ### A tiling determines the tokens -/

/-- Only the first character behind a gap matters to it. -/
theorem Gap.congr {gap behind behind' : List Char} (gapped : Gap gap behind) (same : behind'.head? = behind.head?) :
    Gap gap behind' := by
  induction gapped with
  | nil => exact .nil
  | blank empty _ ih => exact .blank empty (ih same)
  | comment line ends _ ih =>
    refine .comment line ?_ (ih same)
    rwa [List.head?_append, same, ← List.head?_append]

theorem Gap.skipLayout {gap behind : List Char} (gapped : Gap gap behind) (start : AtLexeme behind) (position : Nat) :
    (Cursor.mk position (gap ++ behind)).skipLayout = ⟨position + gap.length, behind⟩ := by
  induction gapped generalizing position with
  | nil => exact Cursor.skipLayout_eq_self start
  | @blank c gap behind empty _ ih =>
    rw [List.cons_append, Cursor.skipLayout_of_blank empty, ih start, List.length_cons]
    congr 1
    omega
  | @comment text gap behind line ends _ ih =>
    let test := fun c => !isLineBreak c
    have plain : ∀ c ∈ '/' :: '/' :: text, test c = true := by
      simp only [List.forall_mem_cons, test, Bool.not_eq_true']
      exact ⟨rfl, rfl, line⟩
    have stops : ∀ c, (gap ++ behind).head? = some c → test c = false := by
      simpa only [test, Bool.not_eq_false'] using ends
    have parted : '/' :: '/' :: (text ++ gap) ++ behind = ('/' :: '/' :: text) ++ (gap ++ behind) := by simp
    have read : ('/' :: '/' :: text ++ (gap ++ behind)).takeWhile test = '/' :: '/' :: text :=
      takeWhile_append_of_head plain stops
    have left : ('/' :: '/' :: text ++ (gap ++ behind)).dropWhile test = gap ++ behind := by
      have whole := List.takeWhile_append_dropWhile (p := test) (l := '/' :: '/' :: text ++ (gap ++ behind))
      rw [read] at whole
      exact List.append_cancel_left whole
    have skipped : (Cursor.mk position ('/' :: '/' :: text ++ (gap ++ behind))).skipLine =
        ⟨position + ('/' :: '/' :: text).length, gap ++ behind⟩ := by
      rw [Cursor.skipLine, Cursor.skip, Cursor.run, read, left]
    rw [parted, Cursor.skipLayout_of_comment (text ++ (gap ++ behind)) rfl]
    change (Cursor.mk position ('/' :: '/' :: text ++ (gap ++ behind))).skipLine.skipLayout = _
    rw [skipped, ih start]
    simp only [List.length_cons, List.length_append, Cursor.mk.injEq, and_true]
    omega

namespace Escaped

variable {text : List Char} {c : Char}

theorem of_pair (escaped : Escaped ('\\' :: '"' :: text)) : Escaped text := by
  rintro (_ | ⟨c, front⟩) back rfl
  · exact absurd (escaped ['\\', '"'] back rfl) (by decide)
  · simpa [List.getLast?_cons_cons] using escaped ('\\' :: '"' :: c :: front) back rfl

theorem of_cons (escaped : Escaped (c :: text)) (plain : ∀ others, c = '\\' → text ≠ '"' :: others) : Escaped text := by
  rintro (_ | ⟨d, front⟩) back rfl
  · have backslash := escaped [c] back rfl
    exact absurd rfl (plain back (by simpa using backslash))
  · simpa [List.getLast?_cons_cons] using escaped (c :: d :: front) back rfl

end Escaped

/-- A string is read up to the first quote without a backslash before it. -/
theorem Lexeme.untilQuote_of_escaped {body : List Char} (behind : List Char) (last : body.getLast? ≠ some '\\') :
    Escaped body → untilQuote (body ++ '"' :: behind) = some (unescapeQuotes body, body.length + 1) := by
  fun_induction unescapeQuotes body with
  | case1 => exact fun _ => rfl
  | case2 rest ih =>
    intro escaped
    have last : rest.getLast? ≠ some '\\' := by
      cases rest with
      | nil => simp
      | cons d rest => simpa [List.getLast?_cons_cons] using last
    simp [untilQuote, ih last escaped.of_pair]
  | case3 c rest plain ih =>
    intro escaped
    have inner : ∀ others, c = '\\' → rest ≠ '"' :: others := fun others backslash same => plain others backslash same
    have unquoted : c ≠ '"' := by
      rintro rfl
      exact escaped.ne_quote rest rfl
    have bare : ∀ others, c = '\\' → rest ++ '"' :: behind = '"' :: others → False := by
      intro others backslash same
      cases rest with
      | nil => exact last (by simp [backslash])
      | cons d rest => exact inner rest backslash (congrArg (· :: rest) (List.cons.inj same).1)
    have last : rest.getLast? ≠ some '\\' := by
      cases rest with
      | nil => simp
      | cons d rest => simpa [List.getLast?_cons_cons] using last
    rw [List.cons_append, untilQuote.eq_4 _ _ unquoted bare, ih last (escaped.of_cons inner)]
    rfl

theorem Lexeme.untilQuote_eq_none {chars : List Char} : Escaped chars → untilQuote chars = none := by
  fun_induction untilQuote chars with
  | case1 => exact fun _ => rfl
  | case2 rest => exact fun escaped => absurd rfl (escaped.ne_quote rest)
  | case3 rest ih => exact fun escaped => by simp [ih escaped.of_pair]
  | case4 c rest plain unescaped ih =>
    exact fun escaped => by simp [ih (escaped.of_cons fun others backslash same => unescaped others backslash same)]

namespace Stray

variable {c : Char} {chars : List Char}

theorem atLexeme (stray : Stray c) : AtLexeme (c :: chars) := by
  refine ⟨fun first same => Option.some.inj same ▸ stray.blank, fun rest same => ?_⟩
  obtain rfl := (List.cons.inj same).1
  exact stray.mark (by decide)

theorem read (stray : Stray c) : Lexeme.read (c :: chars) = ⟨.illegal, c.toString, 1⟩ := by
  simp [Lexeme.read, Lexeme.symbol?_of_not_mem stray.mark, stray.quote, stray.word, stray.digit]

end Stray

/-- What covers a span is read there. -/
theorem Covers.read {token : Token} {span behind : List Char} (covers : Covers token span behind) :
    AtLexeme (span ++ behind) ∧ Lexeme.read (span ++ behind) = ⟨token.kind, token.literal, span.length⟩ := by
  cases covers with
  | mark fixed apart => exact ⟨.mark fixed apart, Lexeme.read_mark fixed apart⟩
  | word named some_left letters ends =>
    have letters : ∀ c ∈ (String.ofList span).toList, isWordChar c = true := by simpa using letters
    simpa [named] using Lexeme.read_word letters (by simpa using some_left) ends
  | number some_left digits ends =>
    have numeral : IsNumeral (String.ofList span) := ⟨by simpa using some_left, by simpa using digits⟩
    simpa using Lexeme.read_number numeral ends
  | @string body _ _ escaped last =>
    refine ⟨.of_head (Or.inr (Or.inr rfl)), ?_⟩
    have read := Lexeme.untilQuote_of_escaped behind last escaped
    simp [Lexeme.read_quote, Lexeme.quoted, read]
  | @unclosed body _ escaped =>
    refine ⟨.of_head (Or.inr (Or.inr rfl)), ?_⟩
    have read := Lexeme.untilQuote_eq_none escaped
    simp [Lexeme.read_quote, Lexeme.quoted, read]
  | stray stray => exact ⟨stray.atLexeme, stray.read⟩

/-- No text has two tilings. -/
theorem Tiled.tokens_eq {position : Nat} {chars : List Char} {tokens : List Token} (tiled : Tiled position chars tokens) :
    (Cursor.mk position chars).tokens = tokens := by
  induction tiled with
  | @finish chars position gap =>
    have layout := gap.skipLayout ⟨by simp, by simp⟩ position
    rw [List.append_nil] at layout
    rw [Cursor.tokens_eq_placed, Cursor.placed_of_layout (by rw [layout])]
    rfl
  | @token front span behind position token tokens gap placed covers _ ih =>
    obtain ⟨start, read⟩ := covers.read
    have layout := gap.skipLayout start position
    have next : (Cursor.mk position (front ++ (span ++ behind))).next = (token, ⟨token.position + span.length, behind⟩) := by
      simp [Cursor.next, layout, read, Cursor.take, Cursor.advance, ← placed]
    rw [Cursor.tokens, if_neg (by rw [next]; exact covers.kind_ne), next, ih]

/-! ### A longer gap -/

theorem ClosedLayout.gap {layout : List Char} (laid : ClosedLayout layout) (behind : List Char) : Gap layout behind := by
  induction laid with
  | nil => exact .nil
  | blank empty _ ih => exact .blank empty ih
  | comment line ends _ ih =>
    exact .comment line (fun c first => Option.some.inj first ▸ ends) (.blank (isBlank_of_isLineBreak ends) ih)

/-- The rest of a line and the layout from its end on. -/
theorem ClosedLayout.exists_line {layout : List Char} (laid : ClosedLayout layout) :
    ∃ line rest, layout = line ++ rest ∧ (∀ c ∈ line, isLineBreak c = false) ∧
      (∀ c, rest.head? = some c → isLineBreak c = true) ∧ ClosedLayout rest := by
  induction laid with
  | nil => exact ⟨[], [], rfl, by simp, by simp, .nil⟩
  | @blank c rest empty others ih =>
    cases ends : isLineBreak c with
    | true => exact ⟨[], c :: rest, rfl, by simp, fun d first => Option.some.inj first ▸ ends, .blank empty others⟩
    | false =>
      obtain ⟨line, left, rfl, plain, stops, laid⟩ := ih
      exact ⟨c :: line, left, rfl, List.forall_mem_cons.mpr ⟨ends, plain⟩, stops, laid⟩
  | @comment text c rest line ends others _ =>
    refine ⟨'/' :: '/' :: text, c :: rest, by simp, ?_, fun d first => Option.some.inj first ▸ ends, ?_⟩
    · exact List.forall_mem_cons.mpr ⟨rfl, List.forall_mem_cons.mpr ⟨rfl, line⟩⟩
    · exact .blank (isBlank_of_isLineBreak ends) others

/-- A comment that ends a source goes on to the end of the line that is put behind it. -/
theorem Gap.append {gap behind layout : List Char} (gapped : Gap gap behind) (start : AtLexeme behind) (laid : ClosedLayout layout) :
    Gap (gap ++ layout) behind := by
  induction gapped with
  | nil => exact laid.gap _
  | blank empty _ ih => exact .blank empty (ih start)
  | @comment text gap behind line ends _ ih =>
    have further : Gap (gap ++ layout) behind := ih start
    rw [List.cons_append, List.cons_append, List.append_assoc]
    rcases gap with _ | ⟨c, gap⟩
    · rcases behind with _ | ⟨c, behind⟩
      · obtain ⟨more, rest, rfl, plain, stops, laid⟩ := laid.exists_line
        rw [List.nil_append, ← List.append_assoc]
        exact .comment (List.forall_mem_append.mpr ⟨line, plain⟩) (by simpa using stops) (laid.gap [])
      · have blank := isBlank_of_isLineBreak (ends c rfl)
        rw [start.1 c rfl] at blank
        cases blank
    · exact .comment line ends further

/-! ### Tokens in a longer source -/

namespace Covers

variable {token : Token} {span behind : List Char}

theorem moved (covers : Covers token span behind) (place : Nat → Nat) : Covers (token.moved place) span behind := by
  cases covers with
  | mark fixed apart => exact .mark fixed apart
  | word named some_left letters ends => exact .word named some_left letters ends
  | number some_left digits ends => exact .number some_left digits ends
  | string escaped last => exact .string escaped last
  | unclosed escaped => exact .unclosed escaped
  | stray stray => exact .stray stray

/-- A blank ends a token just as what comes behind it does, unless that is a string which is still open. -/
theorem congr (covers : Covers token span behind) (closed : token.isUnclosedString = false) {behind' : List Char}
    (seam : ∀ c, behind'.head? = some c → behind.head? = some c ∨ isBlank c = true) : Covers token span behind' := by
  have ends {test : Char → Bool} (stops : ∀ c, behind.head? = some c → test c = false)
      (blanks : ∀ c, isBlank c = true → test c = false) : ∀ c, behind'.head? = some c → test c = false :=
    fun c first => (seam c first).elim (stops c) (blanks c)
  cases covers with
  | @mark kind _ _ fixed apart =>
    have other (c : Char) (plain : isBlank c = false) (unlike : behind.head? ≠ some c) : behind'.head? ≠ some c := by
      intro first
      exact (seam c first).elim unlike fun blank => Bool.false_ne_true (plain.symm.trans blank)
    refine .mark fixed ?_
    cases kind with
    | assign | bang => exact other '=' (by decide) apart
    | slash => exact other '/' (by decide) apart
    | _ => trivial
  | word named some_left letters stops =>
    exact .word named some_left letters (ends stops fun c blank => isWordChar_of_isSpace (isSpace_of_isBlank blank))
  | number some_left digits stops =>
    exact .number some_left digits (ends stops fun c blank => isDigit_of_isSpace (isSpace_of_isBlank blank))
  | string escaped last => exact .string escaped last
  | unclosed _ => simp [Token.isUnclosedString, Token.opensString] at closed
  | stray stray => exact .stray stray

end Covers

namespace Tiled

variable {position : Nat} {chars : List Char} {tokens : List Token}

theorem shift (tiled : Tiled position chars tokens) (offset : Nat) :
    Tiled (position + offset) chars (tokens.map (Token.moved (· + offset))) := by
  induction tiled with
  | @finish chars position gap =>
    have last : (Token.finish (position + chars.length)).moved (· + offset) = .finish (position + offset + chars.length) := by
      simp only [Token.moved, Token.finish, Token.mk.injEq, true_and]
      omega
    rw [List.map_singleton, last]
    exact .finish gap
  | @token front span behind position token tokens gap placed covers _ ih =>
    refine .token gap ?_ (covers.moved _) ?_
    · simp only [Token.moved, placed]
      omega
    · simp only [Token.moved]
      rwa [Nat.add_right_comm]

theorem kind_of_nil (tiled : Tiled position [] tokens) : ∀ token ∈ tokens, token.kind = .endOfInput := by
  intro token member
  refine Classical.byContradiction fun more => ?_
  obtain ⟨front, span, behind, none_left, -, covers⟩ := tiled.exists_span token member more
  exact covers.some_left (List.append_eq_nil_iff.mp (List.append_eq_nil_iff.mp none_left.symm).2).1

/-- Of a text that is cut where one of its tokens begins, what stands behind the first token is cut there too. -/
theorem cut {gap span behind front back : List Char} (whole : gap ++ (span ++ behind) = front ++ back)
    (further : gap.length + span.length ≤ front.length) :
    ∃ more, front = gap ++ (span ++ more) ∧ behind = more ++ back := by
  rw [← List.append_assoc] at whole
  rcases List.append_eq_append_iff.mp whole with ⟨more, rfl, same⟩ | ⟨more, same, rfl⟩
  · exact ⟨more, List.append_assoc .., same⟩
  · have lengths := congrArg List.length same
    simp only [List.length_append] at lengths
    obtain rfl := List.length_eq_zero_iff.mp (by omega : more.length = 0)
    exact ⟨[], by rw [List.append_nil] at same ⊢; rw [← same], rfl⟩

variable {layout gap span behind : List Char} {first : Token}

theorem insert_last (laid : ClosedLayout layout) (gapped : Gap gap []) (position : Nat) :
    Tiled position (gap ++ layout)
      [(Token.finish (position + gap.length)).moved (makeRoom (position + gap.length) layout.length)] := by
  have last : (Token.finish (position + gap.length)).moved (makeRoom (position + gap.length) layout.length) =
      .finish (position + (gap ++ layout).length) := by
    simp only [Token.moved, Token.finish, makeRoom, Nat.lt_irrefl, if_false, List.length_append, Token.mk.injEq, true_and]
    omega
  rw [last]
  exact .finish (gapped.append ⟨by simp, by simp⟩ laid)

/-- Layout in front of the first token moves all tokens. -/
theorem insert_first (laid : ClosedLayout layout) (gapped : Gap gap (span ++ behind))
    (placed : first.position = position + gap.length) (covers : Covers first span behind)
    (others : Tiled (first.position + span.length) behind tokens) :
    Tiled position (gap ++ (layout ++ (span ++ behind)))
      ((first :: tokens).map (Token.moved (makeRoom (position + gap.length) layout.length))) := by
  have moved : ∀ other ∈ tokens, other.moved (makeRoom (position + gap.length) layout.length) =
      other.moved (· + layout.length) := by
    intro other member
    have behindFirst := others.position_le other member
    simp only [Token.moved, makeRoom, if_neg (by omega : ¬ other.position < position + gap.length)]
  rw [List.map_cons, List.map_congr_left moved, ← List.append_assoc]
  refine .token (gapped.append covers.read.1 laid) ?_ (covers.moved _) ?_
  · simp only [Token.moved, makeRoom, placed, Nat.lt_irrefl, if_false, List.length_append]
    omega
  · have shifted := others.shift layout.length
    simpa only [Token.moved, makeRoom, placed, Nat.lt_irrefl, if_false, Nat.add_right_comm] using shifted

/-- The first token stays where only what stands behind it is changed, unless that could go on with it. -/
theorem keeps_first {changed : List Char} (gapped : Gap gap (span ++ behind)) (placed : first.position = position + gap.length)
    (covers : Covers first span behind) (closed : first.isUnclosedString = false)
    (seam : ∀ c, changed.head? = some c → behind.head? = some c ∨ isBlank c = true)
    (others : Tiled (first.position + span.length) changed tokens) :
    Tiled position (gap ++ (span ++ changed)) (first :: tokens) := by
  have same : (span ++ changed).head? = (span ++ behind).head? := by
    obtain ⟨c, rest, rfl⟩ := List.exists_cons_of_ne_nil covers.some_left
    rfl
  exact .token (gapped.congr same) placed (covers.congr closed seam) others

/-- Layout further on leaves the first token where it is. -/
theorem insert_further (blank : ∀ c, layout.head? = some c → isBlank c = true) {more back : List Char} {place : Nat}
    (gapped : Gap gap (span ++ (more ++ back))) (placed : first.position = position + gap.length)
    (covers : Covers first span (more ++ back)) (closed : first.isUnclosedString = false) (further : first.position < place)
    (others : Tiled (first.position + span.length) (more ++ (layout ++ back))
      (tokens.map (Token.moved (makeRoom place layout.length)))) :
    Tiled position (gap ++ (span ++ (more ++ (layout ++ back))))
      ((first :: tokens).map (Token.moved (makeRoom place layout.length))) := by
  have seam : ∀ c, (more ++ (layout ++ back)).head? = some c → (more ++ back).head? = some c ∨ isBlank c = true := by
    intro c
    rcases more with _ | ⟨d, more⟩
    · rcases layout with _ | ⟨e, layout⟩
      · exact Or.inl
      · exact fun here => Or.inr (blank c here)
    · exact Or.inl
  have unmoved : first.moved (makeRoom place layout.length) = first := by
    simp only [Token.moved, makeRoom, if_pos further]
  rw [List.map_cons, unmoved]
  exact keeps_first gapped placed covers closed seam others

/-- Layout may be put in wherever a token begins. It may be put behind the last one if no string is still open there. -/
theorem insert (laid : ClosedLayout layout) (blank : ∀ c, layout.head? = some c → isBlank c = true)
    (tiled : Tiled position chars tokens) {front back : List Char} (whole : chars = front ++ back)
    (start : ∃ token ∈ tokens, token.position = position + front.length ∧
      (token.kind = .endOfInput → ∀ other ∈ tokens, other.isUnclosedString = false)) :
    Tiled position (front ++ (layout ++ back))
      (tokens.map (Token.moved (makeRoom (position + front.length) layout.length))) := by
  induction tiled generalizing front with
  | @finish chars position gap =>
    obtain ⟨token, member, place, -⟩ := start
    obtain rfl := List.mem_singleton.mp member
    have lengths := congrArg List.length whole
    simp only [Token.finish, List.length_append] at place lengths
    obtain rfl := List.length_eq_zero_iff.mp (by omega : back.length = 0)
    obtain rfl := whole.trans (List.append_nil front)
    rw [List.append_nil, List.map_singleton]
    exact insert_last laid gap position
  | @token gap span behind position first tokens gapped placed covers others ih =>
    obtain ⟨token, member, place, closed⟩ := start
    rcases List.mem_cons.mp member with rfl | later
    · obtain ⟨rfl, rfl⟩ := List.append_inj whole (by omega : gap.length = front.length)
      exact insert_first laid gapped placed covers others
    · have after := others.position_le token later
      have wide := List.length_pos_iff.mpr covers.some_left
      obtain ⟨more, rfl, rfl⟩ := cut whole (by omega)
      have ended : first.isUnclosedString = false := by
        refine Bool.eq_false_iff.mpr fun unclosed => ?_
        rw [covers.behind_eq_nil unclosed] at others
        rw [closed (others.kind_of_nil token later) first List.mem_cons_self] at unclosed
        cases unclosed
      have spot : position + (gap ++ (span ++ more)).length = first.position + span.length + more.length := by
        simp only [placed, List.length_append]
        omega
      rw [spot, List.append_assoc, List.append_assoc]
      refine insert_further blank gapped placed covers ended (by omega) (ih rfl ⟨token, later, ?_, fun last => ?_⟩)
      · rw [place, spot]
      · exact fun other member => closed last other (List.mem_cons_of_mem _ member)

end Tiled

namespace Token

variable {before layout after : String}

/-- A place where layout may be put in: a token begins there, or the source ends there without a string that is still open. -/
def IsBoundary (before after : String) : Prop :=
  (∃ token ∈ stream (before ++ after), token.kind ≠ .endOfInput ∧ token.position = before.length) ∨
    after = "" ∧ ∀ token ∈ stream before, token.isUnclosedString = false

theorem stream_insert (laid : ClosedLayout layout.toList) (blank : ∀ c, layout.toList.head? = some c → isBlank c = true)
    (boundary : IsBoundary before after) :
    stream (before ++ layout ++ after) = (stream (before ++ after)).map (moved (makeRoom before.length layout.length)) := by
  have tiled : Tiled 0 (before ++ after).toList (stream (before ++ after)) := (Cursor.ofString (before ++ after)).tokens_tiled
  have start : ∃ token ∈ stream (before ++ after), token.position = 0 + before.toList.length ∧
      (token.kind = .endOfInput → ∀ other ∈ stream (before ++ after), other.isUnclosedString = false) := by
    rw [Nat.zero_add, String.length_toList]
    rcases boundary with ⟨token, member, more, place⟩ | ⟨rfl, closed⟩
    · exact ⟨token, member, place, fun last => absurd last more⟩
    · rw [String.append_empty]
      refine ⟨.finish before.length, ?_, rfl, fun _ => closed⟩
      rw [stream, Cursor.tokens_eq_placed]
      simp [Cursor.ofString, String.length_toList]
  have longer := tiled.insert laid blank (String.toList_append) start
  have same : (before ++ layout ++ after).toList = before.toList ++ (layout.toList ++ after.toList) := by
    simp only [String.toList_append, List.append_assoc]
  rw [stream, Cursor.ofString, same]
  simpa only [Nat.zero_add, String.length_toList] using longer.tokens_eq

end Token

namespace Program

/-- Layout between tokens says nothing. With it a source is read as the same program, with the same diagnostics in the same
order; only the places behind it are further on by its length. -/
theorem parse_ignores_layout {before layout after : String} (laid : ClosedLayout layout.toList)
    (blank : ∀ c, layout.toList.head? = some c → isBlank c = true) (boundary : Token.IsBoundary before after) (room : Nat) :
    parseWithin room (before ++ layout ++ after) =
      ((parseWithin room (before ++ after)).1,
        (parseWithin room (before ++ after)).2.map (Diagnostic.moved (makeRoom before.length layout.length))) := by
  rw [parseWithin, Token.scan, Token.stream_insert laid blank boundary, ← List.map_dropLast, ofTokens_moved]
  rfl

/-- Two slashes and a quote that say nothing, between a statement and two lexical faults. -/
theorem comment_before_faults :
    let before := "let x=1;"
    let layout := " // \"\n\t"
    let after := "@ \"ab"
    ClosedLayout layout.toList ∧ (∀ c, layout.toList.head? = some c → isBlank c = true) ∧ Token.IsBoundary before after ∧
      (parseWithin 20 (before ++ layout ++ after)).1.render = "let x = 1" ∧
      (parseWithin 20 (before ++ layout ++ after)).2.map Diagnostic.message =
        ["illegal character '@' at position 15", "unterminated string literal at position 17"] := by
  intro before layout after
  have chars : layout.toList = ' ' :: '/' :: '/' :: ([' ', '"'] ++ '\n' :: ['\t']) := by decide
  have laid : ClosedLayout layout.toList := by
    rw [chars]
    have line : ∀ c ∈ [' ', '"'], isLineBreak c = false := List.forall_mem_cons.mpr ⟨rfl, List.forall_mem_singleton.mpr rfl⟩
    exact .blank rfl (.comment line rfl (.blank rfl .nil))
  have blank : ∀ c, layout.toList.head? = some c → isBlank c = true := by
    rw [chars]
    exact fun c first => Option.some.inj first ▸ rfl
  have boundary : Token.IsBoundary before after :=
    Or.inl ⟨⟨.illegal, "@", 8⟩, by decide +kernel, by decide, by decide +kernel⟩
  have same := parse_ignores_layout laid blank boundary 20
  refine ⟨laid, blank, boundary, ?_, ?_⟩
  · rw [same]
    decide +kernel
  · rw [same]
    decide +kernel

end Program

end Treewalk
