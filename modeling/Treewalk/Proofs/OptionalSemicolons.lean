import Treewalk.Proofs.LayoutInsertion
import Treewalk.Proofs.OmittedSemicolons
import Treewalk.Syntax.Equality

/-! Semicolons are optional. Where the character of a semicolon is turned into a blank, the gaps on both sides of it grow
together and all other tokens stay, at their places. What is read without it is the same program, unless the next token
would go on with the expression or become the value of a `return`. -/

namespace Treewalk

/-! ### Gaps that meet -/

/-- A gap in front of something in its line has all its comments closed. -/
theorem Gap.closedLayout {gap behind : List Char} (gapped : Gap gap behind) {c : Char} (first : behind.head? = some c)
    (inside : isLineBreak c = false) : ClosedLayout gap := by
  induction gapped with
  | nil => exact .nil
  | blank empty _ ih => exact .blank empty (ih first)
  | @comment text gap behind line ends _ ih =>
    rcases gap with _ | ⟨d, gap⟩
    · exact absurd (ends c first) (by simp [inside])
    · cases ih first with
      | blank _ others => exact .comment line (ends d rfl) others
      | comment _ _ _ => exact absurd (ends '/' rfl) (by decide)

theorem ClosedLayout.append_gap {layout gap behind : List Char} (laid : ClosedLayout layout) (gapped : Gap gap behind) :
    Gap (layout ++ gap) behind := by
  induction laid with
  | nil => exact gapped
  | blank empty _ ih => exact .blank empty ih
  | @comment text c rest line ends _ ih =>
    rw [List.cons_append, List.cons_append, List.append_assoc]
    exact .comment line (fun d first => Option.some.inj first ▸ ends) (.blank (isBlank_of_isLineBreak ends) ih)

theorem ClosedLayout.append {front back : List Char} (first : ClosedLayout front) (second : ClosedLayout back) :
    ClosedLayout (front ++ back) := by
  induction first with
  | nil => exact second
  | blank empty _ ih => exact .blank empty ih
  | comment line ends _ ih =>
    rw [List.cons_append, List.cons_append, List.append_assoc]
    exact .comment line ends ih

/-! ### A blank in place of a semicolon -/

theorem head?_set_blank (chars : List Char) (place : Nat) :
    ∀ c, (chars.set place ' ').head? = some c → chars.head? = some c ∨ isBlank c = true := by
  intro c head
  rcases chars with _ | ⟨d, chars⟩
  · exact Or.inl head
  · rcases place with _ | place
    · exact Or.inr (Option.some.inj head ▸ rfl)
    · exact Or.inl head

theorem Covers.eq_semicolon {token : Token} {span behind : List Char} (covers : Covers token span behind)
    (ends : token.kind = .semicolon) : span = [';'] := by
  cases covers with
  | mark _ _ =>
    cases ends
    rfl
  | word named _ _ _ =>
    cases ends
    exact absurd (Token.Kind.isWord_of_named named) (by decide)
  | number _ _ _ | string _ _ | unclosed _ | stray _ => cases ends

namespace Tiled

variable {position : Nat} {chars : List Char} {tokens : List Token}

/-- Layout in front of a text belongs to its first gap. -/
theorem behind_layout {layout : List Char} (laid : ClosedLayout layout)
    (tiled : Tiled (position + layout.length) chars tokens) : Tiled position (layout ++ chars) tokens := by
  cases tiled with
  | finish gap =>
    rw [Nat.add_assoc, ← List.length_append]
    exact .finish (laid.append_gap gap)
  | token gap placed covers others =>
    rw [← List.append_assoc]
    exact .token (laid.append_gap gap) (by rw [placed, List.length_append, Nat.add_assoc]) covers others

/-- The token of a semicolon is gone where its character is turned into a blank. No other token changes. -/
theorem omit_semicolon {before behind : List Token} {semicolon : Token} (tiled : Tiled position chars tokens)
    (parted : tokens = before ++ semicolon :: behind) (ends : semicolon.kind = .semicolon) :
    Tiled position (chars.set (semicolon.position - position) ' ') (before ++ behind) := by
  induction tiled generalizing before with
  | @finish chars position _ =>
    have member : semicolon ∈ [Token.finish (position + chars.length)] := parted ▸ List.mem_append_cons_self
    obtain rfl := List.mem_singleton.mp member
    cases ends
  | @token gap span further position first tokens gapped placed covers others ih =>
    rcases before with _ | ⟨token, before⟩
    · obtain ⟨rfl, rfl⟩ := List.cons.inj parted
      obtain rfl := covers.eq_semicolon ends
      have spot : (gap ++ ([';'] ++ further)).set (first.position - position) ' ' = (gap ++ [' ']) ++ further := by
        rw [placed, Nat.add_sub_cancel_left, List.set_append_right _ _ (Nat.le_refl _), Nat.sub_self, List.append_assoc]
        rfl
      have closed : ClosedLayout gap := gapped.closedLayout (show _ = some ';' from rfl) rfl
      rw [spot]
      refine behind_layout (closed.append (.blank rfl .nil)) ?_
      rwa [List.length_append, ← Nat.add_assoc, ← placed]
    · obtain ⟨rfl, rest⟩ := List.cons.inj parted
      have later : semicolon ∈ tokens := rest ▸ List.mem_append_cons_self
      have place := others.position_le semicolon later
      have spot : (gap ++ (span ++ further)).set (semicolon.position - position) ' ' =
          gap ++ (span ++ further.set (semicolon.position - (first.position + span.length)) ' ') := by
        rw [List.set_append_right _ _ (by omega), List.set_append_right _ _ (by omega)]
        congr 3
        omega
      have closed : first.isUnclosedString = false := by
        refine Bool.eq_false_iff.mpr fun unclosed => ?_
        rw [covers.behind_eq_nil unclosed] at others
        cases ends.symm.trans (others.kind_of_nil semicolon later)
      rw [spot]
      exact keeps_first gapped placed covers closed (head?_set_blank _ _) (ih rest)

end Tiled

/-- A source with the character at one place turned into a blank. -/
def blankedAt (source : String) (position : Nat) : String := String.ofList (source.toList.set position ' ')

namespace Token

theorem getElem?_semicolon {source : String} {semicolon : Token} (member : semicolon ∈ scan source)
    (ends : semicolon.kind = .semicolon) : source.toList[semicolon.position]? = some ';' := by
  have listed : semicolon ∈ stream source := List.dropLast_subset _ member
  obtain ⟨span, _, here, -, covers⟩ := getElem?_behind listed (by simp [ends]) (by simp [ends])
  rw [here, covers.eq_semicolon ends]
  rfl

theorem scan_blankedAt {source : String} {before behind : List Token} {semicolon : Token}
    (parted : scan source = before ++ semicolon :: behind) (ends : semicolon.kind = .semicolon) :
    scan (blankedAt source semicolon.position) = before ++ behind := by
  have some_left : stream source ≠ [] := (Cursor.ofString source).tokens_ne_nil
  have whole : stream source = before ++ semicolon :: (behind ++ [(stream source).getLast some_left]) := by
    rw [← List.cons_append, ← List.append_assoc, ← parted]
    exact (List.dropLast_concat_getLast some_left).symm
  have tiled := (Cursor.ofString source).tokens_tiled.omit_semicolon whole ends
  have same : stream (blankedAt source semicolon.position) = before ++ (behind ++ [(stream source).getLast some_left]) := by
    rw [stream, Cursor.ofString, blankedAt, String.toList_ofList]
    exact tiled.tokens_eq
  rw [scan, same, ← List.append_assoc, List.dropLast_concat]

end Token

namespace Program

open Treewalk.Derivation

/-- In a source without mistakes any semicolon may be turned into a blank, at any depth, and the source is still read as the
same program without a diagnostic. The next token must be none that goes on with an expression, and none that a `return`
before the semicolon would take as its value. -/
theorem parse_without_semicolon {room : Nat} {source : String} (silent : (parseWithin room source).2 = [])
    {before behind : List Token} {semicolon : Token} (parted : Token.scan source = before ++ semicolon :: behind)
    (ends : semicolon.kind = .semicolon) (plain : kindOf behind ∉ [.minus, .leftParen, .leftBracket])
    (bare : before.getLast?.map Token.kind = some .kwReturn → kindOf behind ∈ [.rightBrace, .endOfInput]) :
    source.toList[semicolon.position]? = some ';' ∧
      parseWithin room (blankedAt source semicolon.position) = parseWithin room source := by
  have member : semicolon ∈ Token.scan source := parted ▸ List.mem_append_cons_self
  have silent : (ofTokens room (before ++ semicolon :: behind)).2 = [] := parted ▸ silent
  have separated := (ofTokens_sound silent).wellSeparated (Or.inr (Or.inr rfl))
  rw [List.map_append, List.map_cons] at separated
  have anew := separated.startsAnew ends
  rw [headKind_map_symbol] at anew
  let omission : Omission := {
    before, semicolon, behind
    kind_eq := ends
    idle := anew.continuesNothing plain
    bare := fun word => List.mem_cons_of_mem _ (bare word) }
  refine ⟨Token.getElem?_semicolon member ends, ?_⟩
  rw [parseWithin, parseWithin, Token.scan_blankedAt parted ends, parted]
  exact ofTokens_omission omission silent

/-- One semicolon between two statements of a block inside another one, and one behind a `return` at the end of a block. -/
theorem nested_blocks_without_semicolons :
    let source := "fn(a) \x7b if (a) \x7b let b = a; fn(c) \x7b return; \x7d \x7d \x7d; 2"
    (parse source).2 = [] ∧ blankedAt source 26 = "fn(a) \x7b if (a) \x7b let b = a  fn(c) \x7b return; \x7d \x7d \x7d; 2" ∧
      parse (blankedAt source 26) = parse source ∧ parse (blankedAt source 42) = parse source := by
  intro source
  have silent : (parseWithin nestingLimit source).2 = [] := List.isEmpty_iff.mp (by decide +kernel)
  let tokens := Token.scan source
  have binding : tokens = tokens.take 14 ++ ⟨.semicolon, ";", 26⟩ :: tokens.drop 15 := by decide +kernel
  have leaving : tokens = tokens.take 21 ++ ⟨.semicolon, ";", 42⟩ :: tokens.drop 22 := by decide +kernel
  have first := parse_without_semicolon silent binding rfl (by decide +kernel) (by decide +kernel)
  have second := parse_without_semicolon silent leaving rfl (by decide +kernel) (by decide +kernel)
  exact ⟨silent, by decide +kernel, first.2, second.2⟩

/-- Where the next token is a bracket, or a value behind a `return`, the semicolon is needed. -/
example : (parseWithin 9 "a;(b)").1 ≠ (parseWithin 9 (blankedAt "a;(b)" 1)).1 ∧
    (parseWithin 9 "return;b").1 ≠ (parseWithin 9 (blankedAt "return;b" 6)).1 := by
  decide +kernel

end Program

end Treewalk
