import Treewalk.Text.Hexadecimal
import Treewalk.Text.Styled

/-! Text without control sequences. A text is clear when the character that begins such a sequence does not occur in it. Out of
a styled text the sequences can be taken again, and where its spans are clear nothing else goes with them. -/

namespace Treewalk

/-- No control sequence begins anywhere in the text. -/
def ClearText (text : String) : Prop := '\x1b' ∉ text.toList

instance (text : String) : Decidable (ClearText text) := inferInstanceAs (Decidable (_ ∉ _))

@[simp] theorem clearText_append {front back : String} : ClearText (front ++ back) ↔ ClearText front ∧ ClearText back := by
  simp [ClearText]

@[simp] theorem clearText_ofList {chars : List Char} : ClearText (String.ofList chars) ↔ '\x1b' ∉ chars := by
  simp [ClearText]

@[simp] theorem clearText_join {texts : List String} : ClearText (String.join texts) ↔ ∀ text ∈ texts, ClearText text := by
  simp [ClearText, String.toList_join]

theorem clearText_intercalate {separator : String} (clear : ClearText separator) {texts : List String} :
    ClearText (separator.intercalate texts) ↔ ∀ text ∈ texts, ClearText text := by
  induction texts with
  | nil => simp [ClearText]
  | cons text texts ih =>
    cases texts with
    | nil => simp
    | cons next texts => simp only [String.intercalate_cons_cons, clearText_append, clear, and_true, ih, List.forall_mem_cons]

theorem escape_not_mem_toDigits {base : Nat} (more : 1 < base) (value : Nat) : '\x1b' ∉ Nat.toDigits base value := by
  induction value using Nat.strongRecOn with
  | ind value ih =>
    rw [Nat.toDigits_eq_if more]
    split
    next => simp
    next large =>
      have less : value / base < value := Nat.div_lt_self (by omega) more
      simpa using ih _ less

@[simp] theorem clearText_nat (value : Nat) : ClearText (toString value) := by
  simpa [ClearText] using escape_not_mem_toDigits (by decide) value

@[simp] theorem clearText_int (value : Int) : ClearText (toString value) := by
  cases value with
  | ofNat value => exact clearText_nat value
  | negSucc value => exact clearText_append.mpr ⟨by decide, clearText_nat (value + 1)⟩

@[simp] theorem clearText_hexadecimal (width value : Nat) : ClearText (hexadecimal width value) := by
  simpa [hexadecimal] using escape_not_mem_toDigits (by decide) value

/-! ### Control sequences -/

/-- What may stand between the bracket and the letter of a sequence that selects a rendition. -/
def isParameter (c : Char) : Bool := c.isDigit || c == ';'

/-- What is behind a sequence that selects a rendition, if the text begins with one. -/
def behindRendition? : List Char → Option (List Char)
  | '\x1b' :: '[' :: rest =>
    match rest.dropWhile isParameter with
    | 'm' :: behind => some behind
    | _ => none
  | _ => none

theorem behindRendition?_length_lt {chars behind : List Char} (found : behindRendition? chars = some behind) :
    behind.length < chars.length := by
  unfold behindRendition? at found
  split at found
  next rest =>
    split at found
    next last ahead =>
      have shorter := (List.dropWhile_sublist (l := rest) isParameter).length_le
      cases found
      simp only [ahead, List.length_cons] at shorter ⊢
      omega
    next => cases found
  next => cases found

/-- The text without the sequences in it that select a rendition. -/
def withoutRenditions (chars : List Char) : List Char :=
  match found : behindRendition? chars with
  | some behind =>
    have := behindRendition?_length_lt found
    withoutRenditions behind
  | none =>
    match chars with
    | [] => []
    | c :: rest => c :: withoutRenditions rest
termination_by chars.length

theorem withoutRenditions_of_some {chars behind : List Char} (found : behindRendition? chars = some behind) :
    withoutRenditions chars = withoutRenditions behind := by
  rw [withoutRenditions]
  split
  next found' => rw [Option.some.inj (found.symm.trans found')]
  next none_found => cases found.symm.trans none_found

theorem withoutRenditions_nil : withoutRenditions [] = [] := by
  rw [withoutRenditions]
  rfl

theorem withoutRenditions_cons {c : Char} (other : c ≠ '\x1b') (rest : List Char) :
    withoutRenditions (c :: rest) = c :: withoutRenditions rest := by
  have none_found : behindRendition? (c :: rest) = none := by
    unfold behindRendition?
    split
    next same => exact absurd (List.cons.inj same).1 other
    next => rfl
  rw [withoutRenditions]
  split
  next found => cases none_found.symm.trans found
  next => rfl

theorem withoutRenditions_append {text : String} (clear : ClearText text) (behind : List Char) :
    withoutRenditions (text.toList ++ behind) = text.toList ++ withoutRenditions behind := by
  unfold ClearText at clear
  generalize text.toList = chars at clear ⊢
  induction chars with
  | nil => rfl
  | cons c chars ih =>
    obtain ⟨other, clear⟩ := List.ne_and_not_mem_of_not_mem_cons clear
    rw [List.cons_append, withoutRenditions_cons other.symm, ih clear, List.cons_append]

theorem withoutRenditions_selectRendition {code : String} (parameters : code.toList.all isParameter = true)
    (behind : List Char) : withoutRenditions ((selectRendition code).toList ++ behind) = withoutRenditions behind := by
  have passed : (code.toList ++ 'm' :: behind).dropWhile isParameter = 'm' :: behind := by
    rw [List.dropWhile_append_of_pos (List.all_eq_true.mp parameters)]
    rfl
  apply withoutRenditions_of_some
  simp [selectRendition, behindRendition?, passed]

/-! ### Marks -/

/-- Control sequences in a row, each of which selects a rendition. -/
def IsDecoration (text : String) : Prop :=
  ∃ codes : List String, (∀ code ∈ codes, code.toList.all isParameter = true) ∧ text = String.join (codes.map selectRendition)

theorem withoutRenditions_decoration {text : String} (decoration : IsDecoration text) (behind : List Char) :
    withoutRenditions (text.toList ++ behind) = withoutRenditions behind := by
  obtain ⟨codes, parameters, rfl⟩ := decoration
  induction codes with
  | nil => rfl
  | cons code codes ih =>
    obtain ⟨first, others⟩ := List.forall_mem_cons.mp parameters
    rw [List.map_cons, String.join_cons, String.toList_append, List.append_assoc, withoutRenditions_selectRendition first,
      ih others]

/-- How a text is marked that is in some style. -/
abbrev Marking := Style → String → String

/-- All that a marking does is to put control sequences around a text. -/
def Marking.Decorates (mark : Marking) : Prop :=
  ∀ style text, ∃ front back, IsDecoration front ∧ IsDecoration back ∧ mark style text = front ++ text ++ back

/-- A span as it is printed with these marks. Plain text is not marked at all. -/
def Span.markedBy (mark : Marking) (span : Span) : String :=
  match span.style with
  | .plain => span.text
  | style => mark style span.text

def StyledText.markedBy (mark : Marking) (text : StyledText) : String := String.join (text.map (Span.markedBy mark))

theorem StyledText.markedBy_cons (mark : Marking) (span : Span) (text : StyledText) :
    markedBy mark (span :: text) = span.markedBy mark ++ text.markedBy mark := by
  simp [markedBy]

/-- The marks of a terminal, with or without colours. -/
def Marking.terminal (coloured : Bool) : Marking := fun style text => (Span.mk style text).render coloured

theorem StyledText.markedBy_terminal (coloured : Bool) (text : StyledText) :
    text.markedBy (.terminal coloured) = text.render coloured := by
  refine congrArg String.join (List.map_congr_left fun span _ => ?_)
  obtain ⟨style, text⟩ := span
  cases style with
  | plain => simp [Span.markedBy, Span.render, Style.opening, Style.closing]
  | bold | boldRed | boldMagenta => rfl

theorem isDecoration_opening (style : Style) : IsDecoration style.opening := by
  cases style with
  | plain => exact ⟨[], by decide, rfl⟩
  | bold => exact ⟨["1"], by decide, by simp [Style.opening]⟩
  | boldRed => exact ⟨["1", "31"], by decide, by simp [Style.opening]⟩
  | boldMagenta => exact ⟨["1", "35"], by decide, by simp [Style.opening]⟩

theorem isDecoration_closing (style : Style) : IsDecoration style.closing := by
  cases style with
  | plain => exact ⟨[], by decide, rfl⟩
  | bold | boldRed | boldMagenta => exact ⟨["0"], by decide, by simp [Style.closing]⟩

theorem Marking.terminal_decorates (coloured : Bool) : (terminal coloured).Decorates := by
  intro style text
  cases coloured with
  | false => exact ⟨"", "", ⟨[], by decide, rfl⟩, ⟨[], by decide, rfl⟩, by simp [terminal, Span.render]⟩
  | true => exact ⟨_, _, isDecoration_opening style, isDecoration_closing style, rfl⟩

variable {mark : Marking}

theorem withoutRenditions_span (decorates : mark.Decorates) {span : Span} (clear : ClearText span.text) (behind : List Char) :
    withoutRenditions ((span.markedBy mark).toList ++ behind) = span.text.toList ++ withoutRenditions behind := by
  unfold Span.markedBy
  split
  next => exact withoutRenditions_append clear behind
  next =>
    obtain ⟨front, back, opening, closing, marked⟩ := decorates span.style span.text
    simp only [marked, String.toList_append, List.append_assoc]
    rw [withoutRenditions_decoration opening, withoutRenditions_append clear, withoutRenditions_decoration closing]

/-- No span of the text has a control sequence of its own. -/
def StyledText.IsClear (text : StyledText) : Prop := ∀ span ∈ text, ClearText span.text

/-- Marks are all that is lost of a clear text. -/
theorem StyledText.withoutRenditions_markedBy (decorates : mark.Decorates) {text : StyledText} (clear : text.IsClear) :
    withoutRenditions (text.markedBy mark).toList = (text.render false).toList := by
  induction text with
  | nil => exact withoutRenditions_nil
  | cons span spans ih =>
    obtain ⟨first, others⟩ := List.forall_mem_cons.mp clear
    rw [markedBy_cons, String.toList_append, withoutRenditions_span decorates first, ih others]
    simp [render, Span.render]

end Treewalk
