import Treewalk.Proofs.ScanningProgress
import Treewalk.Proofs.UnlimitedNesting

/-! Progress in parsing. Statements that cannot be read are gone over like others, and the loops inside expressions do not even
look out for the end of the source; still every round moves on by a token, and every expression begins further on than the one
that it is nested in. So nothing goes on for longer than there are tokens, and a program ends where its source does. -/

namespace Treewalk

/-- What is behind comes strictly later: one token at least has been passed. -/
structure Passes (tokens behind : List Token) : Prop where
  some_left : tokens ≠ []
  later : behind <:+ tokens.tail

theorem Passes.length_lt {tokens behind : List Token} (passes : Passes tokens behind) : behind.length < tokens.length := by
  have positive := List.length_pos_iff.mpr passes.some_left
  have bound := passes.later.length_le
  rw [List.length_tail] at bound
  omega

theorem Passes.of_suffix {tokens behind : List Token} (further : behind <:+ tokens) (less : behind.length < tokens.length) :
    Passes tokens behind := by
  cases tokens with
  | nil => exact absurd less (Nat.not_lt_zero _)
  | cons token others =>
    refine ⟨List.cons_ne_nil _ _, (List.suffix_cons_iff.mp further).resolve_left ?_⟩
    rintro rfl
    exact Nat.lt_irrefl _ less

namespace Parsed

variable {α β γ : Type}

/-- With the diagnostics that were found before. -/
def recorded (found : List Diagnostic) (parsed : Parsed α) : Parsed α :=
  { parsed with diagnostics := found ++ parsed.diagnostics }

theorem followedBy_of_accepted {first : Parsed α} {value : α} (accepted : first.outcome = .accepted value)
    (next : α → List Token → Parsed β) : first.followedBy next = (next value first.rest).recorded first.diagnostics := by
  simp only [followedBy, accepted, recorded]

theorem recorded_followedBy (found : List Diagnostic) (first : Parsed α) (next : α → List Token → Parsed β) :
    (first.recorded found).followedBy next = (first.followedBy next).recorded found := by
  obtain ⟨outcome, rest, diagnostics⟩ := first
  cases outcome with
  | accepted value => simp [followedBy, recorded]
  | rejected => rfl
  | tooDeep => rfl

theorem followedBy_assoc (first : Parsed α) (next : α → List Token → Parsed β) (last : β → List Token → Parsed γ) :
    (first.followedBy next).followedBy last = first.followedBy fun value rest => (next value rest).followedBy last := by
  cases outcome : first.outcome with
  | accepted value => rw [followedBy_of_accepted outcome, recorded_followedBy, followedBy_of_accepted outcome]
  | rejected => simp [followedBy, outcome]
  | tooDeep => simp [followedBy, outcome]

end Parsed

def Outcome.isTooDeep {α : Type} : Outcome α → Bool
  | .tooDeep => true
  | .accepted _ | .rejected => false

theorem Outcome.isTooDeep_iff {α : Type} {outcome : Outcome α} : outcome.isTooDeep = true ↔ outcome = .tooDeep := by
  cases outcome <;> simp [isTooDeep]

/-! ### Rounds -/

namespace Parser

variable {α β γ : Type}

theorem bind_assoc (first : Parser α) (next : α → Parser β) (last : β → Parser γ) :
    first >>= next >>= last = first >>= fun value => next value >>= last :=
  Parser.ext fun tokens => (first.run tokens).followedBy_assoc (fun value => (next value).run) fun value => (last value).run

theorem pure_bind (value : α) (next : α → Parser β) : (pure value : Parser α) >>= next = next value :=
  Parser.ext fun _ => rfl

/-- One round of `whileNext`, as long as nothing has been rejected. -/
def repeating (continues : Token.Kind → Bool) (step : α → Parser α) : Loop (Parsed α) := fun parsed =>
  match parsed.outcome with
  | .accepted value =>
    if continues (kindOf parsed.rest.tail) then some (((step value).run parsed.rest.tail).recorded parsed.diagnostics)
    else none
  | .rejected => none
  | .tooDeep => none

section

variable {continues : Token.Kind → Bool} {step : α → Parser α} (idle : continues .endOfInput = false)

include idle

theorem repeating_advances (steps : ∀ value, (step value).Orderly fun _ => False) :
    (repeating continues step).Advances fun before after => Passes before.rest after.rest := by
  intro before after round
  unfold repeating at round
  split at round
  next value _ =>
    split at round
    next going =>
      cases round
      refine ⟨fun none => tail_ne_nil idle going ?_, (steps value before.rest.tail).rest⟩
      rw [none, List.tail_nil]
    next => cases round
  next => cases round
  next => cases round

/-- The end of the source is not looked out for: nothing that goes on stands there. -/
theorem repeating_ends (first : Parsed α) :
    (repeating continues step).Ends first (first.followedBy fun value => (whileNext continues step value).run) := by
  induction size : first.rest.length using Nat.strongRecOn generalizing first with
  | ind size ih =>
    obtain ⟨outcome, rest, diagnostics⟩ := first
    cases outcome with
    | accepted value =>
      rw [Parsed.followedBy_of_accepted rfl]
      change (repeating continues step).Ends _ ((runWhile continues step value rest).recorded diagnostics)
      rw [runWhile_eq]
      by_cases going : continues (kindOf rest.tail) = true
      · have more := tail_ne_nil idle going
        rw [if_pos ⟨more, going⟩, ← Parsed.recorded_followedBy]
        refine .again (if_pos going) (ih _ ?_ _ rfl)
        exact size ▸ (step value).length_run_tail_lt more
      · rw [if_neg fun both => going both.2, Parsed.recorded, List.append_nil]
        exact .finished (if_neg going)
    | rejected => exact .finished rfl
    | tooDeep => exact .finished rfl

end

end Parser

namespace Grammar

open Treewalk.Parser

/-- Reads one more statement, or goes over one that cannot be read. -/
def repeatingStatements (statement : Parser Stmt) (stops : Token.Kind → Bool) : Loop Sequence := fun all =>
  if all.cutShort then none
  else
    match all.rest with
    | [] => none
    | token :: _ =>
      if stops token.kind then none
      else
        let first := statement.run all.rest
        match first.outcome with
        | .accepted stmt => some ⟨all.statements ++ [stmt], first.rest.tail, all.diagnostics ++ first.diagnostics, false⟩
        | .rejected => some ⟨all.statements, first.rest.tail, all.diagnostics ++ first.diagnostics, false⟩
        | .tooDeep => some ⟨all.statements, first.rest, all.diagnostics ++ first.diagnostics, true⟩

section

variable {statement : Parser Stmt} {stops : Token.Kind → Bool}

theorem repeatingStatements_ends (stmts : List Stmt) (found : List Diagnostic) (tokens : List Token) :
    (repeatingStatements statement stops).Ends ⟨stmts, tokens, found, false⟩
      { sequence statement stops tokens with
        statements := stmts ++ (sequence statement stops tokens).statements
        diagnostics := found ++ (sequence statement stops tokens).diagnostics } := by
  fun_induction sequence statement stops tokens generalizing stmts found with
  | case1 =>
    rw [List.append_nil, List.append_nil]
    exact .finished rfl
  | case2 token behind stopped =>
    rw [List.append_nil, List.append_nil]
    exact .finished (by simp [repeatingStatements, stopped])
  | case3 token behind going first stmt outcome others ih =>
    have round := ih (stmts ++ [stmt]) (found ++ first.diagnostics)
    rw [List.append_assoc, List.append_assoc] at round
    exact .again (by simp [repeatingStatements, going, first, outcome]) round
  | case4 token behind going first outcome others ih =>
    have round := ih stmts (found ++ first.diagnostics)
    rw [List.append_assoc] at round
    exact .again (by simp [repeatingStatements, going, first, outcome]) round
  | case5 token behind going first outcome =>
    have round : repeatingStatements statement stops ⟨stmts, token :: behind, found, false⟩ =
        some ⟨stmts, first.rest, found ++ first.diagnostics, true⟩ := by
      simp [repeatingStatements, going, first, outcome]
    rw [List.append_nil]
    exact .again round (.finished rfl)

theorem repeatingStatements_advances (orderly : statement.Orderly fun _ => False) :
    (repeatingStatements statement stops).Advances fun before after => Passes before.rest after.rest := by
  intro before after round
  simp only [repeatingStatements] at round
  split at round
  next => cases round
  next =>
    split at round
    next => cases round
    next token behind ahead =>
      -- Whatever the statement leaves, the current token is stepped over.
      have passes : Passes before.rest (statement.run before.rest).rest.tail := by
        have further := (orderly before.rest).rest
        refine .of_suffix ((List.tail_suffix _).trans further) ?_
        have bound := further.length_le
        simp only [ahead, List.length_cons, List.length_tail] at bound ⊢
        omega
      split at round
      next => cases round
      next =>
        split at round
        next => cases round; exact passes
        next => cases round; exact passes
        next stopped => exact ((orderly before.rest).deep stopped).elim fun _ nowhere => nowhere.2.elim

end

/-! ### Lists -/

/-- One more item of a list, read or not. -/
def anotherItem (nested : Nested) (items : List (Option Expr)) : Parser (List (Option Expr)) := do
  Parser.advance
  let item ← Parser.attempt (nested .lowest)
  return item :: items

def closeItems (close : Token.Kind) (items : List (Option Expr)) : Parser (List Expr) := do
  Parser.expect close
  match items.reverse.mapM id with
  | some exprs => return exprs
  | none => Parser.reject

def anotherName (names : List String) : Parser (List String) := do
  Parser.expect .identifier
  return (← Parser.current).literal :: names

def closeNames (names : List String) : Parser (List String) := do
  Parser.expect .rightParen
  return names.reverse

theorem expressions_run {nested : Nested} {close : Token.Kind} {tokens : List Token} (more : kindOf tokens.tail ≠ close) :
    (expressions nested close).run tokens =
      (((anotherItem nested []).run tokens).followedBy fun items =>
        (moreItems nested items).run).followedBy fun items => (closeItems close items).run := by
  have whole : (expressions nested close).run tokens =
      (if kindOf tokens.tail = close then advance >>= fun _ => pure []
        else anotherItem nested [] >>= whileNext (· = .comma) (anotherItem nested) >>= closeItems close).run tokens := by
    simp only [anotherItem, Parser.bind_assoc, Parser.pure_bind]
    rfl
  rw [whole, if_neg more]
  rfl

theorem parameters_run {tokens : List Token} (more : kindOf tokens.tail ≠ .rightParen) :
    parameters.run tokens =
      (((anotherName []).run tokens).followedBy fun names =>
        (moreNames names).run).followedBy fun names => (closeNames names).run := by
  have whole : parameters.run tokens =
      (if kindOf tokens.tail = .rightParen then advance >>= fun _ => pure []
        else anotherName [] >>= whileNext (· = .comma) anotherName >>= closeNames).run tokens := by
    simp only [anotherName, Parser.bind_assoc, Parser.pure_bind]
    rfl
  rw [whole, if_neg more]
  rfl

/-! ### Nested expressions -/

/-- Reaches the limit at one place, and reads as before everywhere else. -/
def Nested.reachingAt (nested : Nested) (inner : Precedence) (place : List Token) : Nested := fun precedence =>
  { run := fun tokens => if precedence = inner ∧ tokens = place then ⟨.tooDeep, tokens, []⟩ else (nested precedence).run tokens
    rest_length_le := fun tokens => by
      split
      · exact Nat.le_refl _
      · exact (nested precedence).rest_length_le tokens }

/-- To read an expression from the tokens on, another one is read from the given place on. This shows when the limit is reached
right there, since nothing recovers from that. -/
def Begins (precedence : Precedence) (tokens : List Token) (inner : Precedence) (place : List Token) : Prop :=
  ((climb (unlimited.reachingAt inner place) precedence).run tokens).outcome = .tooDeep

instance (precedence : Precedence) (tokens : List Token) (inner : Precedence) (place : List Token) :
    Decidable (Begins precedence tokens inner place) :=
  decidable_of_iff _ Outcome.isTooDeep_iff

theorem reachingAt_orderly (inner : Precedence) (place : List Token) (precedence : Precedence) :
    (unlimited.reachingAt inner place precedence).Orderly (· = place) := by
  intro tokens
  simp only [Nested.reachingAt]
  split
  next there => exact ⟨List.suffix_rfl, List.not_mem_nil, fun _ => ⟨tokens, List.suffix_rfl, there.2⟩⟩
  next => exact unlimited_orderly _ precedence tokens

theorem reachingAt_judges {size : Nat} {place : List Token} (far : size ≤ place.length) (inner precedence : Precedence) :
    (unlimited.reachingAt inner place precedence).FromCurrent size := by
  intro tokens
  simp only [Nested.reachingAt]
  split
  next there =>
    refine ⟨by simp, fun few => ?_, fun finished => absurd rfl finished⟩
    exact absurd (there.2 ▸ few) (Nat.not_lt_of_le far)
  next => exact unlimited_judges size precedence tokens

/-- A nested expression begins at a later token. At the end of the source nothing is nested any more. -/
theorem Begins.passes {precedence inner : Precedence} {tokens place : List Token}
    (begins : Begins precedence tokens inner place) : Passes tokens place := by
  obtain ⟨_, further, rfl⟩ := (climb_orderly (reachingAt_orderly inner place) precedence tokens).deep begins
  refine .of_suffix further (Nat.lt_of_not_le fun far => ?_)
  exact (climb_judges (reachingAt_judges far inner) precedence tokens).fits (Nat.lt_succ_self _) begins

/-- So every chain of nested expressions ends. -/
theorem begins_wellFounded :
    WellFounded fun inner outer : Precedence × List Token => Begins outer.1 outer.2 inner.1 inner.2 :=
  Subrelation.wf (fun begins => begins.passes.length_lt) (measure fun call : Precedence × List Token => call.2.length).wf

/-- What does not begin plays no part: all is read as if it could not be. -/
theorem begins_or_eq (precedence : Precedence) (tokens : List Token) (inner : Precedence) (place : List Token) :
    Begins precedence tokens inner place ∨
      (climb (unlimited.reachingAt inner place) precedence).run tokens = (unlimited precedence).run tokens := by
  have truncates (precedence : Precedence) : (unlimited.reachingAt inner place precedence).Truncates (unlimited precedence) := by
    intro tokens
    simp only [Nested.reachingAt]
    split
    · exact Or.inr ⟨rfl, List.nil_prefix⟩
    · exact Or.inl rfl
  rw [unlimited_eq precedence]
  exact (climb_truncates truncates precedence tokens).symm.imp_left And.left

/-! ### All loops of parsing -/

/-- How the loops of the rules end from some tokens on, in terms of what is read there. -/
structure LoopsEnd (tokens : List Token) : Prop where
  operators : ∀ precedence, (repeating (fun kind => precedence < kind.precedence) (continuation unlimited)).Ends
    ((operand unlimited).run tokens) ((unlimited precedence).run tokens)
  items : ∀ close, kindOf tokens.tail ≠ close → ∃ final,
    (repeating (· = .comma) (anotherItem unlimited)).Ends ((anotherItem unlimited []).run tokens) final ∧
      (expressions unlimited close).run tokens = final.followedBy fun items => (closeItems close items).run
  names : kindOf tokens.tail ≠ .rightParen → ∃ final,
    (repeating (· = .comma) anotherName).Ends ((anotherName []).run tokens) final ∧
      parameters.run tokens = final.followedBy fun names => (closeNames names).run
  statements : ∀ stops, (repeatingStatements (statement unlimited) stops).Ends ⟨[], tokens, [], false⟩
    (sequence (statement unlimited) stops tokens)
  stopped : ∀ stops, (sequence (statement unlimited) stops tokens).rest = [] ∨
    stops (kindOf (sequence (statement unlimited) stops tokens).rest) = true

theorem unlimited_statement_orderly : (statement unlimited).Orderly fun _ => False :=
  statement_orderly (unlimited_orderly _)

theorem cutShort_unlimited (stops : Token.Kind → Bool) (tokens : List Token) :
    (sequence (statement unlimited) stops tokens).cutShort = false :=
  Bool.eq_false_iff.mpr fun cut =>
    ((sequence_orderly unlimited_statement_orderly stops tokens).deep cut).elim fun _ nowhere => nowhere.2

theorem loopsEnd (tokens : List Token) : LoopsEnd tokens where
  operators precedence := by
    rw [unlimited_eq precedence]
    exact repeating_ends rfl _
  items close more := ⟨_, repeating_ends rfl _, expressions_run more⟩
  names more := ⟨_, repeating_ends rfl _, parameters_run more⟩
  statements stops := repeatingStatements_ends [] [] tokens
  stopped stops := sequence_rest_stops _ stops tokens (cutShort_unlimited stops tokens)

/-- Every round of them passes a token. -/
structure RoundsPass : Prop where
  operators : ∀ precedence, (repeating (fun kind => precedence < kind.precedence) (continuation unlimited)).Advances
    fun before after => Passes before.rest after.rest
  items : (repeating (· = .comma) (anotherItem unlimited)).Advances fun before after => Passes before.rest after.rest
  names : (repeating (· = .comma) anotherName).Advances fun before after => Passes before.rest after.rest
  statements : ∀ stops, (repeatingStatements (statement unlimited) stops).Advances
    fun before after => Passes before.rest after.rest

theorem roundsPass : RoundsPass where
  operators _ := repeating_advances rfl (continuation_orderly (unlimited_orderly _))
  items := repeating_advances rfl fun _ =>
    .bind .advance fun _ => .bind (.attempt (unlimited_orderly _ _)) fun _ => .pure _
  names := repeating_advances rfl fun _ => .bind (.expect _) fun _ => .bind .current fun _ => .pure _
  statements _ := repeatingStatements_advances unlimited_statement_orderly

end Grammar

/-- Parsing gets on and comes to an end, whatever the source is. The loops of scanning end in what is read, each of their rounds
takes a character, and so does each token before the end of the text. The loops of the rules end in what the rules read, and
each of their rounds passes a token; so does a step into a nested expression, which is why there are no more levels than
characters. Where no limit is reached, a program is read until nothing is left. -/
theorem Program.parsing_makes_progress (source : String) :
    (∀ cursor : Cursor, cursor.LoopsEnd) ∧ Cursor.RoundsAdvance ∧
    (∀ cursor : Cursor, cursor.next.1.kind ≠ .endOfInput → cursor.FurtherOn cursor.next.2) ∧
    (∀ tokens, Grammar.LoopsEnd tokens) ∧ Grammar.RoundsPass ∧
    (∀ precedence tokens inner place, Grammar.Begins precedence tokens inner place → Passes tokens place) ∧
    (WellFounded fun inner outer : Precedence × List Token => Grammar.Begins outer.1 outer.2 inner.1 inner.2) ∧
    (∀ room, .nestingTooDeep ∉ (parseWithin room source).2 →
      (Grammar.sequence (Grammar.statement (Grammar.expression room)) (fun _ => false) (Token.scan source)).rest = []) ∧
    ∀ room, source.length < room →
      parseWithin room source = parseFreely source ∧ .nestingTooDeep ∉ (parseWithin room source).2 := by
  refine ⟨Cursor.loopsEnd, Cursor.roundsAdvance, fun _ => Cursor.next_furtherOn, Grammar.loopsEnd, Grammar.roundsPass,
    fun _ _ _ _ begins => begins.passes, Grammar.begins_wellFounded, fun room uncut => ?_, fun room enough => ?_⟩
  · have stopped := Grammar.sequence_rest_stops (Grammar.statement (Grammar.expression room)) (fun _ => false)
      (Token.scan source) (cutShort_eq_false (.inl uncut))
    exact stopped.resolve_right Bool.false_ne_true
  · have same := parseWithin_eq_parseFreely enough
    exact ⟨same, same ▸ nestingTooDeep_not_mem_parseFreely source⟩

/-- Brackets that are never closed and an operator without an operand, where the source ends. -/
theorem Program.broken_list_parsed_to_end :
    let source := "f(1, [-"
    let tokens := Token.scan source
    (Grammar.Begins .lowest tokens .lowest (tokens.drop 4) ∧ Passes tokens (tokens.drop 4)) ∧
    (Grammar.Begins .lowest (tokens.drop 4) .lowest (tokens.drop 5) ∧ Passes (tokens.drop 4) (tokens.drop 5)) ∧
    (Grammar.Begins .lowest (tokens.drop 5) .unary [] ∧ Passes (tokens.drop 5) []) ∧
    ((Cursor.ofString source).next.1.kind ≠ .endOfInput ∧ (Cursor.ofString source).FurtherOn (Cursor.ofString source).next.2) ∧
    (.nestingTooDeep ∉ (parseWithin 8 source).2 ∧
      (Grammar.sequence (Grammar.statement (Grammar.expression 8)) (fun _ => false) tokens).rest = []) ∧
    source.length < 8 ∧ parseWithin 8 source = parseFreely source ∧
    (parseFreely source).2.map Diagnostic.message = ["no prefix parse function for token EOF",
      "expected next token to be ], got EOF instead", "expected next token to be ), got EOF instead"] := by
  intro source tokens
  obtain ⟨-, -, next, -, -, nested, -, whole, enough⟩ := parsing_makes_progress source
  obtain ⟨same, uncut⟩ := enough 8 (by decide)
  have argument : Grammar.Begins .lowest tokens .lowest (tokens.drop 4) := by decide +kernel
  have item : Grammar.Begins .lowest (tokens.drop 4) .lowest (tokens.drop 5) := by decide +kernel
  have operand : Grammar.Begins .lowest (tokens.drop 5) .unary [] := by decide +kernel
  have more : (Cursor.ofString source).next.1.kind ≠ .endOfInput := by decide +kernel
  exact ⟨⟨argument, nested _ _ _ _ argument⟩, ⟨item, nested _ _ _ _ item⟩, ⟨operand, nested _ _ _ _ operand⟩,
    ⟨more, next _ more⟩, ⟨uncut, whole 8 uncut⟩, by decide, same, by decide +kernel⟩

end Treewalk
