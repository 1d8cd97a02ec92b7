import Treewalk.Report.Failure

/-! What goes into the holes of a template is never read as a template itself. So a complaint says what it was given word for
word, whatever braces stand in that. -/

namespace Treewalk

namespace Template

/-- A text without braces. -/
def Literal (text : String) : Prop := (text.toList.all fun c => c != '\x7b' && c != '\x7d') = true

instance (text : String) : Decidable (Literal text) := inferInstanceAs (Decidable (_ = true))

theorem literal_empty : Literal "" := rfl

/-- The template in which this text comes first and then, for each argument, a hole and the text behind it. -/
def spell (front : String) : (holes : List (Argument × String)) → String
  | [] => front
  | (_, text) :: holes => front ++ "\x7b\x7d" ++ spell text holes

theorem spell_map (change : Argument → Argument) (front : String) (holes : List (Argument × String)) :
    spell front (holes.map fun hole => (change hole.1, hole.2)) = spell front holes := by
  induction holes generalizing front with
  | nil => rfl
  | cons hole holes ih => exact congrArg (front ++ "\x7b\x7d" ++ ·) (ih hole.2)

/-- The same with the arguments in place of the holes. -/
def tell (front : String) : (holes : List (Argument × String)) → String
  | [] => front
  | (argument, text) :: holes => front ++ argument.shown ++ tell text holes

/-- Where the argument of this number comes next in order. -/
inductive Numbering.IsAt : Nat → Numbering → Prop where
  | first : IsAt 0 .undecided
  | next (index : Nat) : IsAt index (.automatic index)

/-- Pieces that are filled with a text. -/
def Fills (expand : List Char → Filling String) (arguments : List Argument) (numbering : Numbering) (pieces : List Piece)
    (text : String) : Prop :=
  ∃ last, fillPieces expand arguments pieces numbering = .ok (text, last)

namespace Fills

variable {expand : List Char → Filling String} {arguments : List Argument} {numbering : Numbering} {chars : List Char}
  {text : String}

theorem nil : Fills expand arguments numbering [] "" := ⟨numbering, rfl⟩

theorem char (c : Char) {pieces : List Piece} (others : Fills expand arguments numbering pieces text) :
    Fills expand arguments numbering (.char c :: pieces) (c.toString ++ text) := by
  obtain ⟨last, filled⟩ := others
  refine ⟨last, ?_⟩
  change (do let (text, last) ← fillPieces expand arguments pieces numbering; pure (c.toString ++ text, last)) = _
  rw [filled]
  rfl

theorem literal {front : String} (plain : Literal front) (others : Fills expand arguments numbering (pieces .outside chars) text) :
    Fills expand arguments numbering (pieces .outside (front.toList ++ chars)) (front ++ text) := by
  rw [← String.ofList_toList (s := front), String.toList_ofList]
  have plain : ∀ c ∈ front.toList, c ≠ '\x7b' ∧ c ≠ '\x7d' := by simpa [Literal] using plain
  generalize front.toList = letters at plain
  induction letters with
  | nil => simpa using others
  | cons c letters ih =>
    obtain ⟨⟨opening, closing⟩, plain⟩ := List.forall_mem_cons.mp plain
    have step : Position.step .outside c = (.outside, [.char c]) := by
      unfold Position.step
      split <;> simp_all
    rw [List.cons_append, pieces, step, String.ofList_cons, String.append_assoc]
    exact (ih plain).char c

/-- A hole takes the argument that comes next. -/
theorem argument_next {index : Nat} {argument : Argument} (comes : numbering.IsAt index)
    (given : arguments[index]? = some argument) :
    Template.argument arguments [] numbering = .ok (argument, .automatic (index + 1)) := by
  have counted : nextNumber numbering = .ok (index, .automatic (index + 1)) := by
    cases comes <;> rfl
  unfold Template.argument
  change Except.bind (nextNumber numbering) _ = _
  rw [counted]
  simp only [Except.bind, given]
  rfl

theorem fillField_next {index : Nat} {argument : Argument} (comes : numbering.IsAt index)
    (given : arguments[index]? = some argument) :
    fillField expand arguments ⟨[], none, []⟩ numbering = .ok (argument.shown, .automatic (index + 1)) := by
  change (do
    let (found, numbering) ← Template.argument arguments [] numbering
    pure (found.shown, numbering)) = _
  rw [argument_next comes given]
  rfl

theorem hole {index : Nat} {argument : Argument} (comes : numbering.IsAt index) (given : arguments[index]? = some argument)
    (others : Fills expand arguments (.automatic (index + 1)) (pieces .outside chars) text) :
    Fills expand arguments numbering (pieces .outside ('\x7b' :: '\x7d' :: chars)) (argument.shown ++ text) := by
  obtain ⟨last, filled⟩ := others
  refine ⟨last, ?_⟩
  change (do
    let (shown, numbering) ← fillField expand arguments ⟨[], none, []⟩ numbering
    let (text, last) ← fillPieces expand arguments (pieces .outside chars) numbering
    pure (shown ++ text, last)) = _
  rw [fillField_next comes given]
  change (do
    let (text, last) ← fillPieces expand arguments (pieces .outside chars) (.automatic (index + 1))
    pure (argument.shown ++ text, last)) = _
  rw [filled]
  rfl

/-- The arguments are numbered behind those whose holes came before. -/
theorem holes (earlier : List Argument) {front : String} {holes : List (Argument × String)}
    (comes : numbering.IsAt earlier.length) (plain : Literal front) (plains : ∀ hole ∈ holes, Literal hole.2) :
    Fills expand (earlier ++ holes.map Prod.fst) numbering (pieces .outside (spell front holes).toList) (tell front holes) := by
  induction holes generalizing earlier front numbering with
  | nil =>
    have whole : Fills expand (earlier ++ []) numbering (pieces .outside (front.toList ++ [])) (front ++ "") :=
      literal plain .nil
    simpa [spell, tell] using whole
  | cons first holes ih =>
    obtain ⟨argument, behind⟩ := first
    obtain ⟨plain', plains⟩ := List.forall_mem_cons.mp plains
    have others := ih (earlier ++ [argument]) (by simpa using Numbering.IsAt.next (earlier.length + 1)) plain' plains
    rw [List.append_assoc, List.singleton_append] at others
    have given : (earlier ++ argument :: holes.map Prod.fst)[earlier.length]? = some argument := by simp
    have filled := hole comes given others
    rw [spell, tell, String.toList_append, String.toList_append, List.append_assoc, String.append_assoc]
    exact literal plain filled

end Fills

/-- Holes are filled with the arguments in order, word for word. -/
theorem fill_spell (front : String) (holes : List (Argument × String)) (plain : Literal front)
    (plains : ∀ hole ∈ holes, Literal hole.2) : fill (spell front holes) (holes.map Prod.fst) = .ok (tell front holes) := by
  have whole : Fills (fillLevels (holes.map Prod.fst) 1) ([] ++ holes.map Prod.fst) .undecided
      (pieces .outside (spell front holes).toList) (tell front holes) := .holes [] .first plain plains
  obtain ⟨last, filled⟩ := whole
  change (·.1) <$> fillPieces (fillLevels (holes.map Prod.fst) 1) ([] ++ holes.map Prod.fst)
    (pieces .outside (spell front holes).toList) .undecided = _
  rw [filled]
  rfl

end Template

namespace Complaint

/-- The template of a complaint and what goes into its holes, each with the text behind it. -/
def wording? : Complaint → Option (String × List (Template.Argument × String))
  | .reservedName => some ("'<in>' is a reserved filename", [])
  | .cannotOpen path => some ("'", [(.text path, "' could not be opened")])
  | .syntaxErrors count => some ("", [(.integer count, " syntax error(s), nothing was evaluated")])
  | .evaluationFailed fault => some ("", [(.text fault.message, "")])
  | .interrupted => some ("keyboard interrupt", [])
  | .nestingTooDeep => some ("maximum nesting depth exceeded", [])
  | .unexpected cause => some ("unknown error: '", [(.text cause.kind, ": "), (.text cause.message, "'")])
  | .worded _ _ _ => none

/-- Every complaint of the program itself is what its template makes of the values in it, which are told word for word. -/
theorem ofTemplate_wording (coloured : Bool) {complaint : Complaint} {front : String}
    {holes : List (Template.Argument × String)} (worded : complaint.wording? = some (front, holes)) :
    ofTemplate coloured (Template.spell front holes) (holes.map Prod.fst) complaint.isInternal =
      .ok (.worded (complaint.message.render coloured) complaint.plainMessage complaint.isInternal) := by
  have numeral (count : Nat) : (count : Int).repr = count.repr := rfl
  let bold (argument : Template.Argument) : Template.Argument := .text ((Span.bold argument.shown).render coloured)
  let bolds := holes.map fun hole => (bold hole.1, hole.2)
  have plains : ∀ hole ∈ holes, Template.Literal hole.2 := by
    cases complaint <;> cases worded <;> simp <;> decide
  have plain : Template.Literal front := by
    cases complaint <;> cases worded <;> decide
  have shown : Template.fill (Template.spell front holes) ((holes.map Prod.fst).map bold) =
      .ok (complaint.message.render coloured) := by
    have plains : ∀ hole ∈ bolds, Template.Literal hole.2 := List.forall_mem_map.mpr plains
    have filled := Template.fill_spell _ _ plain plains
    have arguments : bolds.map Prod.fst = (holes.map Prod.fst).map bold := by simp [bolds]
    have told : Template.tell front bolds = complaint.message.render coloured := by
      cases complaint <;> cases worded <;>
        simp [bolds, bold, Template.tell, message, StyledText.render, Span.render, Span.plain, Span.bold, Style.opening,
          Style.closing, String.join, Template.Argument.shown, String.append_assoc, numeral]
    rwa [arguments, Template.spell_map, told] at filled
  have told : Template.tell front holes = complaint.plainMessage := by
    cases complaint <;> cases worded <;>
      simp [Template.tell, plainMessage, message, StyledText.plain, StyledText.render, Span.render, Span.plain, Span.bold,
        String.join, Template.Argument.shown, String.append_assoc, numeral]
  simp only [ofTemplate]
  rw [shown, Template.fill_spell _ _ plain plains, told]
  rfl

end Complaint

end Treewalk
