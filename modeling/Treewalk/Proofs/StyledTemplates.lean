import Treewalk.Proofs.ClearText
import Treewalk.Proofs.MessageTemplates

/-! Templates that are filled twice. Holes, and braces that stand for themselves, are all there is to most templates. Filled with
marked arguments, such a template makes the same text as with the arguments themselves, but for the marks. -/

namespace Treewalk

namespace Template

/-- A character, which may be a brace that stands for itself, or a hole. -/
inductive Part where
  | char (c : Char)
  | hole
  deriving DecidableEq, Repr, Inhabited

/-- A brace that stands for itself is written twice. -/
def Part.spell : Part → List Char
  | .char '\x7b' => ['\x7b', '\x7b']
  | .char '\x7d' => ['\x7d', '\x7d']
  | .char c => [c]
  | .hole => ['\x7b', '\x7d']

/-- The template of some parts. -/
def ofParts (parts : List Part) : String := String.ofList (parts.flatMap Part.spell)

/-- What the parts tell with the arguments in place of the holes, if there are enough of these. -/
def tellParts? : (parts : List Part) → (arguments : List Argument) → Option String
  | [], _ => some ""
  | .char c :: parts, arguments => (tellParts? parts arguments).map (c.toString ++ ·)
  | .hole :: parts, argument :: arguments => (tellParts? parts arguments).map (argument.shown ++ ·)
  | .hole :: _, [] => none

variable {expand : List Char → Filling String} {arguments : List Argument} {numbering : Numbering}

theorem pieces_char (c : Char) (chars : List Char) :
    pieces .outside ((Part.char c).spell ++ chars) = .char c :: pieces .outside chars := by
  by_cases opening : c = '\x7b'
  · subst opening
    rfl
  by_cases closing : c = '\x7d'
  · subst closing
    rfl
  have spelled : (Part.char c).spell = [c] := by
    unfold Part.spell
    split <;> simp_all
  have step : Position.step .outside c = (.outside, [.char c]) := by
    unfold Position.step
    split <;> simp_all
  rw [spelled, List.singleton_append, pieces, step]
  rfl

theorem pieces_hole (chars : List Char) :
    pieces .outside (Part.hole.spell ++ chars) = .field ⟨[], none, []⟩ :: pieces .outside chars := rfl

theorem fillPieces_char (c : Char) (others : List Piece) :
    fillPieces expand arguments (.char c :: others) numbering =
      (fillPieces expand arguments others numbering).map fun filled => (c.toString ++ filled.1, filled.2) := by
  change (do
    let (text, last) ← fillPieces expand arguments others numbering
    pure (c.toString ++ text, last)) = _
  cases fillPieces expand arguments others numbering <;> rfl

theorem fillPieces_next {index : Nat} {argument : Argument} (comes : numbering.IsAt index)
    (given : arguments[index]? = some argument) (others : List Piece) :
    fillPieces expand arguments (.field ⟨[], none, []⟩ :: others) numbering =
      (fillPieces expand arguments others (.automatic (index + 1))).map fun filled =>
        (argument.shown ++ filled.1, filled.2) := by
  change (do
    let (shown, numbering) ← fillField expand arguments ⟨[], none, []⟩ numbering
    let (text, last) ← fillPieces expand arguments others numbering
    pure (shown ++ text, last)) = _
  rw [Fills.fillField_next comes given]
  change (do
    let (text, last) ← fillPieces expand arguments others (.automatic (index + 1))
    pure (argument.shown ++ text, last)) = _
  cases fillPieces expand arguments others (.automatic (index + 1)) <;> rfl

theorem fillPieces_missing {index : Nat} (comes : numbering.IsAt index) (missing : arguments[index]? = none)
    (others : List Piece) :
    fillPieces expand arguments (.field ⟨[], none, []⟩ :: others) numbering = .error (.missingArgument index) := by
  have counted : nextNumber numbering = .ok (index, .automatic (index + 1)) := by
    cases comes <;> rfl
  have lacking : Template.argument arguments [] numbering = .error (.missingArgument index) := by
    unfold Template.argument
    change Except.bind (nextNumber numbering) _ = _
    rw [counted]
    simp only [Except.bind, missing]
    rfl
  change (do
    let (shown, numbering) ← (do
      let (found, numbering) ← Template.argument arguments [] numbering
      pure (found.shown, numbering) : Except TemplateFault (String × Numbering))
    let (text, last) ← fillPieces expand arguments others numbering
    pure (shown ++ text, last)) = _
  rw [lacking]
  rfl

/-- The arguments that come next go into the holes in order, and those that are left over into none. The first hole without an
argument is where filling fails. -/
theorem fillPieces_parts (earlier : List Argument) {parts : List Part} (comes : numbering.IsAt earlier.length) :
    ∃ last, fillPieces expand (earlier ++ arguments) (pieces .outside (parts.flatMap Part.spell)) numbering =
      match tellParts? parts arguments with
      | some text => .ok (text, last)
      | none => .error (.missingArgument (earlier ++ arguments).length) := by
  induction parts generalizing earlier arguments numbering with
  | nil => exact ⟨numbering, rfl⟩
  | cons part parts ih =>
    rw [List.flatMap_cons]
    cases part with
    | char c =>
      obtain ⟨last, filled⟩ := ih earlier comes
      rw [pieces_char, fillPieces_char, filled, tellParts?]
      exact ⟨last, by cases tellParts? parts arguments <;> rfl⟩
    | hole =>
      rw [pieces_hole]
      cases arguments with
      | nil => exact ⟨numbering, fillPieces_missing (by simpa using comes) (by simp) _⟩
      | cons argument arguments =>
        have comes' : (Numbering.automatic (earlier.length + 1)).IsAt (earlier ++ [argument]).length := by
          simpa using Numbering.IsAt.next (earlier.length + 1)
        obtain ⟨last, filled⟩ := @ih arguments _ _ comes'
        rw [List.append_assoc, List.singleton_append] at filled
        have given : (earlier ++ argument :: arguments)[earlier.length]? = some argument := by simp
        rw [fillPieces_next comes given, filled, tellParts?]
        exact ⟨last, by cases tellParts? parts arguments <;> rfl⟩

theorem fill_ofParts (parts : List Part) (arguments : List Argument) :
    fill (ofParts parts) arguments =
      match tellParts? parts arguments with
      | some text => .ok text
      | none => .error (.missingArgument arguments.length) := by
  obtain ⟨last, filled⟩ :=
    @fillPieces_parts (fillLevels arguments 1) arguments .undecided [] parts .first
  rw [List.nil_append] at filled
  rw [fill, ofParts, String.toList_ofList]
  change (·.1) <$> fillPieces (fillLevels arguments 1) arguments (pieces .outside (parts.flatMap Part.spell)) .undecided = _
  rw [filled]
  cases tellParts? parts arguments <;> rfl

/-- The same as a styled text, with the arguments in bold. -/
def wordParts? : (parts : List Part) → (arguments : List Argument) → Option StyledText
  | [], _ => some []
  | .char c :: parts, arguments => (wordParts? parts arguments).map (.plain c.toString :: ·)
  | .hole :: parts, argument :: arguments => (wordParts? parts arguments).map (.bold argument.shown :: ·)
  | .hole :: _, [] => none

theorem tellParts?_eq (parts : List Part) (arguments : List Argument) :
    tellParts? parts arguments = (wordParts? parts arguments).map (StyledText.render false) := by
  fun_induction wordParts? parts arguments with
  | case1 => rfl
  | case2 c parts arguments ih | case3 parts argument arguments ih =>
    rw [tellParts?, ih]
    cases wordParts? parts arguments <;> simp [StyledText.render, Span.render, Span.plain, Span.bold]
  | case4 => rfl

theorem tellParts?_marked (mark : Marking) (parts : List Part) (arguments : List Argument) :
    tellParts? parts (arguments.map fun argument => .text (mark .bold argument.shown)) =
      (wordParts? parts arguments).map (StyledText.markedBy mark) := by
  fun_induction wordParts? parts arguments with
  | case1 => rfl
  | case2 c parts arguments ih =>
    rw [tellParts?, ih]
    cases wordParts? parts arguments <;> simp [StyledText.markedBy_cons, Span.markedBy, Span.plain]
  | case3 parts argument arguments ih =>
    rw [List.map_cons, tellParts?, ih]
    cases wordParts? parts arguments <;> simp [StyledText.markedBy_cons, Span.markedBy, Span.bold, Argument.shown]
  | case4 => rfl

/-- A character of a template is one of its parts, braces included. -/
theorem ne_of_clear {parts : List Part} (template : ClearText (ofParts parts)) {c : Char} (member : .char c ∈ parts) :
    c ≠ '\x1b' := by
  rintro rfl
  rw [ofParts, clearText_ofList] at template
  exact template (List.mem_flatMap.mpr ⟨_, member, List.mem_singleton_self _⟩)

theorem wordParts?_clear {parts : List Part} {arguments : List Argument} {text : StyledText}
    (template : ∀ c, .char c ∈ parts → c ≠ '\x1b') (given : ∀ argument ∈ arguments, ClearText argument.shown)
    (worded : wordParts? parts arguments = some text) : text.IsClear := by
  fun_induction wordParts? parts arguments generalizing text with
  | case1 =>
    cases worded
    exact List.forall_mem_nil _
  | case2 c parts arguments ih =>
    obtain ⟨others, further, rfl⟩ := Option.map_eq_some_iff.mp worded
    have first : ClearText c.toString := by simpa [ClearText, eq_comm] using template c (by simp)
    exact List.forall_mem_cons.mpr ⟨first, ih (fun c member => template c (List.mem_cons_of_mem _ member)) given further⟩
  | case3 parts argument arguments ih =>
    obtain ⟨others, further, rfl⟩ := Option.map_eq_some_iff.mp worded
    obtain ⟨first, given⟩ := List.forall_mem_cons.mp given
    exact List.forall_mem_cons.mpr ⟨first, ih (fun c member => template c (List.mem_cons_of_mem _ member)) given further⟩
  | case4 => cases worded

/-- There are arguments enough exactly if there is one for every hole. -/
theorem wordParts?_eq_none_iff (parts : List Part) (arguments : List Argument) :
    wordParts? parts arguments = none ↔ arguments.length < parts.count .hole := by
  fun_induction wordParts? parts arguments with
  | case1 => simp
  | case2 c parts arguments ih => simpa using ih
  | case3 parts argument arguments ih => simpa using ih
  | case4 => simp

end Template

namespace Complaint

open Template

/-- The complaint that a template words where bold text is marked like this. -/
def ofTemplateMarked (mark : Marking) (template : String) (arguments : List Argument) (internal : Bool) :
    Except TemplateFault Complaint := do
  let shown ← fill template (arguments.map fun argument => .text (mark .bold argument.shown))
  let plain ← fill template arguments
  return .worded shown plain internal

theorem ofTemplateMarked_terminal (coloured : Bool) (template : String) (arguments : List Argument) (internal : Bool) :
    ofTemplateMarked (.terminal coloured) template arguments internal = ofTemplate coloured template arguments internal := rfl

theorem ofTemplateMarked_ofParts (mark : Marking) (parts : List Part) (arguments : List Argument) (internal : Bool) :
    ofTemplateMarked mark (ofParts parts) arguments internal =
      match wordParts? parts arguments with
      | some text => .ok (.worded (text.markedBy mark) (text.render false) internal)
      | none => .error (.missingArgument arguments.length) := by
  have shown := fill_ofParts parts (arguments.map fun argument => .text (mark .bold argument.shown))
  rw [tellParts?_marked, List.length_map] at shown
  rw [ofTemplateMarked, shown, fill_ofParts, tellParts?_eq]
  cases wordParts? parts arguments <;> rfl

/-- Without its marks a message is the plain one. There is one exactly if there are arguments enough. -/
theorem ofTemplate_styled {mark : Marking} (decorates : mark.Decorates) {parts : List Part} {arguments : List Argument}
    (template : ClearText (ofParts parts)) (given : ∀ argument ∈ arguments, ClearText argument.shown) (internal : Bool) :
    (parts.count .hole ≤ arguments.length → ∃ shown plain,
      ofTemplateMarked mark (ofParts parts) arguments internal = .ok (.worded shown plain internal) ∧
      ofTemplate false (ofParts parts) arguments internal = .ok (.worded plain plain internal) ∧
      withoutRenditions shown.toList = plain.toList) ∧
    (arguments.length < parts.count .hole →
      ofTemplateMarked mark (ofParts parts) arguments internal = .error (.missingArgument arguments.length) ∧
      ofTemplate false (ofParts parts) arguments internal = .error (.missingArgument arguments.length)) := by
  simp only [← ofTemplateMarked_terminal, ofTemplateMarked_ofParts]
  refine ⟨fun enough => ?_, fun few => ?_⟩
  · cases worded : wordParts? parts arguments with
    | none => exact absurd enough (Nat.not_le.mpr ((wordParts?_eq_none_iff parts arguments).mp worded))
    | some text =>
      have clear := wordParts?_clear (fun c => ne_of_clear template) given worded
      refine ⟨_, _, rfl, ?_, StyledText.withoutRenditions_markedBy decorates clear⟩
      simp only [StyledText.markedBy_terminal]
  · rw [(wordParts?_eq_none_iff parts arguments).mpr few]
    exact ⟨rfl, rfl⟩

end Complaint

end Treewalk
