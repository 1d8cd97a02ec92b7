import Treewalk.Proofs.NestingLimit
import Treewalk.Proofs.ParserAcceptance
import Treewalk.Proofs.Symbols

/-! Where tokens stand does not matter to what is read from them. Tokens that are moved to other places give the same
statements, and diagnostics that name the new places. All combinators keep this; only the complaint about an illegal token
looks at a place at all. -/

namespace Treewalk

variable {place : Nat → Nat}

def Token.moved (place : Nat → Nat) (token : Token) : Token := { token with position := place token.position }

/-- The diagnostic about the same thing at its new place. -/
def Diagnostic.moved (place : Nat → Nat) : Diagnostic → Diagnostic
  | .unterminatedString position => .unterminatedString (place position)
  | .illegalCharacter literal position => .illegalCharacter literal (place position)
  | other => other

@[simp] theorem kindOf_map_moved (tokens : List Token) : kindOf (tokens.map (Token.moved place)) = kindOf tokens := by
  cases tokens <;> rfl

namespace Parsed

variable {α β : Type}

def moved (place : Nat → Nat) (parsed : Parsed α) : Parsed α :=
  ⟨parsed.outcome, parsed.rest.map (Token.moved place), parsed.diagnostics.map (Diagnostic.moved place)⟩

theorem moved_followedBy {first : Parsed α} {next : α → List Token → Parsed β}
    (more : ∀ value, first.outcome = .accepted value →
      next value (first.rest.map (Token.moved place)) = (next value first.rest).moved place) :
    (first.moved place).followedBy next = (first.followedBy next).moved place := by
  obtain ⟨outcome, rest, diagnostics⟩ := first
  cases outcome with
  | accepted value => simp [followedBy, moved, more value rfl]
  | rejected => rfl
  | tooDeep => rfl

end Parsed

namespace Parser

variable {α β : Type}

/-- The parser treats tokens in any place alike. -/
def Moves (place : Nat → Nat) (parser : Parser α) : Prop :=
  ∀ tokens, parser.run (tokens.map (Token.moved place)) = (parser.run tokens).moved place

theorem Moves.pure (value : α) : (pure value : Parser α).Moves place := fun _ => rfl

theorem Moves.reject : (reject : Parser α).Moves place := fun _ => rfl

theorem Moves.tooDeep : (tooDeep : Parser α).Moves place := fun _ => rfl

theorem Moves.fail {diagnostic : Diagnostic} (placeless : diagnostic.moved place = diagnostic) :
    (fail diagnostic : Parser α).Moves place := fun tokens => by simp [Parser.fail, Parsed.moved, placeless]

theorem Moves.advance : advance.Moves place := fun tokens => by simp [Parser.advance, Parsed.moved]

theorem Moves.nextKind : nextKind.Moves place := fun tokens => by
  simp only [Parser.nextKind, Parsed.moved, ← List.map_tail, kindOf_map_moved, List.map_nil]

theorem Moves.bind {first : Parser α} {next : α → Parser β} (head : first.Moves place)
    (more : ∀ value, (next value).Moves place) : (first >>= next).Moves place := by
  intro tokens
  change (first.run _).followedBy (fun value => (next value).run) = _
  rw [head tokens]
  exact Parsed.moved_followedBy fun value _ => more value _

/-- The current token may decide what comes next by anything but its place. -/
theorem Moves.current {next : Token → Parser β} (blind : ∀ token position, next { token with position } = next token)
    (more : ∀ token, (next token).Moves place) : (current >>= next).Moves place := by
  intro tokens
  cases tokens with
  | nil => exact more _ []
  | cons token behind =>
    change (next (token.moved place)).run _ = _
    rw [Token.moved, blind]
    exact more token (token :: behind)

theorem Moves.expect (want : Token.Kind) : (expect want).Moves place := by
  refine .bind .nextKind fun got => ?_
  split
  · exact .advance
  · exact .fail rfl

theorem Moves.skipNext (kind : Token.Kind) : (skipNext kind).Moves place := by
  refine .bind .nextKind fun got => ?_
  split
  · exact .advance
  · exact .pure ()

theorem Moves.attempt {parser : Parser α} (moves : parser.Moves place) : parser.attempt.Moves place := by
  intro tokens
  simp only [Parser.attempt, moves tokens]
  generalize parser.run tokens = parsed
  obtain ⟨outcome, rest, diagnostics⟩ := parsed
  cases outcome <;> rfl

theorem Moves.whileNext {continues : Token.Kind → Bool} {step : α → Parser α} (start : α)
    (steps : ∀ value, (step value).Moves place) : (whileNext continues step start).Moves place := by
  intro tokens
  change runWhile continues step start _ = (runWhile continues step start tokens).moved place
  induction size : tokens.length using Nat.strongRecOn generalizing start tokens with
  | ind size ih =>
    rw [runWhile_eq, runWhile_eq continues step start tokens]
    simp only [← List.map_tail, kindOf_map_moved, ne_eq, List.map_eq_nil_iff, steps start tokens.tail]
    split
    next going =>
      refine Parsed.moved_followedBy fun value _ => ih _ ?_ value _ rfl
      have shorter := (step start).length_run_tail_lt going.1
      omega
    next => rfl

end Parser

def Sequence.moved (place : Nat → Nat) (all : Sequence) : Sequence :=
  { all with
    rest := all.rest.map (Token.moved place)
    diagnostics := all.diagnostics.map (Diagnostic.moved place) }

namespace Grammar

open Treewalk.Parser

theorem sequence_moved {statement : Parser Stmt} (moves : statement.Moves place) (stops : Token.Kind → Bool)
    (tokens : List Token) :
    sequence statement stops (tokens.map (Token.moved place)) = (sequence statement stops tokens).moved place := by
  have run (token : Token) (behind : List Token) :
      statement.run (token.moved place :: behind.map (Token.moved place)) = (statement.run (token :: behind)).moved place :=
    moves (token :: behind)
  have rest (parsed : Parsed Stmt) : (parsed.moved place).rest.tail = parsed.rest.tail.map (Token.moved place) :=
    List.map_tail.symm
  fun_induction sequence statement stops tokens with
  | case1 =>
    rw [List.map_nil, sequence.eq_def]
    rfl
  | case2 token behind stopped =>
    rw [List.map_cons, sequence.eq_def]
    simp only [show stops (token.moved place).kind = true from stopped, if_true]
    rfl
  | case3 token behind going first stmt outcome others ih =>
    have run : _ = first.moved place := run token behind
    have accepted : (first.moved place).outcome = .accepted stmt := outcome
    rw [List.map_cons, sequence.eq_def]
    simp only [show ¬ stops (token.moved place).kind = true from going, run, accepted, rest, ih]
    simp [Sequence.moved, Parsed.moved, others]
  | case4 token behind going first outcome others ih =>
    have run : _ = first.moved place := run token behind
    have rejected : (first.moved place).outcome = .rejected := outcome
    rw [List.map_cons, sequence.eq_def]
    simp only [show ¬ stops (token.moved place).kind = true from going, run, rejected, rest, ih]
    simp [Sequence.moved, Parsed.moved, others]
  | case5 token behind going first outcome =>
    have run : _ = first.moved place := run token behind
    have deep : (first.moved place).outcome = .tooDeep := outcome
    rw [List.map_cons, sequence.eq_def]
    simp only [show ¬ stops (token.moved place).kind = true from going, run, deep]
    rfl

theorem block_moves {statement : Parser Stmt} (moves : statement.Moves place) : (block statement).Moves place := by
  intro tokens
  simp only [block, ← List.map_tail, sequence_moved moves]
  generalize sequence statement _ tokens.tail = inside
  obtain ⟨stmts, rest, diagnostics, cutShort⟩ := inside
  cases cutShort with
  | true => rfl
  | false =>
    cases rest with
    | nil => simp [Sequence.moved, Parsed.moved, Diagnostic.moved]
    | cons => rfl

section Rules

variable {nested : Nested} (moves : ∀ precedence, (nested precedence).Moves place)

include moves

theorem expressions_moves (close : Token.Kind) : (expressions nested close).Moves place := by
  refine .bind .nextKind fun kind => ?_
  split
  · exact .bind .advance fun _ => .pure _
  · refine .bind .advance fun _ => .bind (.attempt (moves _)) fun _ => .bind (.whileNext _ fun _ => ?_) fun items => ?_
    · exact .bind .advance fun _ => .bind (.attempt (moves _)) fun _ => .pure _
    · refine .bind (.expect _) fun _ => ?_
      split
      · exact .pure _
      · exact .reject

theorem statement_moves : (statement nested).Moves place := by
  refine .current (fun _ _ => rfl) fun token => ?_
  split
  · refine .bind (.expect _) fun _ => .current (fun _ _ => rfl) fun _ => .bind (.expect _) fun _ => .bind .advance fun _ => ?_
    exact .bind (moves _) fun _ => .bind (.skipNext _) fun _ => .pure _
  · refine .bind .nextKind fun kind => ?_
    split
    · exact .bind .advance fun _ => .pure _
    · exact .pure _
    · exact .pure _
    · exact .bind .advance fun _ => .bind (moves _) fun _ => .bind (.skipNext _) fun _ => .pure _
  · exact .bind (moves _) fun _ => .bind (.skipNext _) fun _ => .pure _

omit moves in
theorem parameters_moves : parameters.Moves place := by
  refine .bind .nextKind fun kind => ?_
  split
  · exact .bind .advance fun _ => .pure _
  · refine .bind (.expect _) fun _ => .current (fun _ _ => rfl) fun _ => .bind (.whileNext _ fun _ => ?_) fun _ => ?_
    · exact .bind (.expect _) fun _ => .current (fun _ _ => rfl) fun _ => .pure _
    · exact .bind (.expect _) fun _ => .pure _

theorem conditional_moves : (conditional nested).Moves place := by
  have body := block_moves (statement_moves moves)
  refine .bind (.expect _) fun _ => .bind .advance fun _ => .bind (moves _) fun _ => .bind (.expect _) fun _ => ?_
  refine .bind (.expect _) fun _ => .bind body fun _ => .bind .nextKind fun _ => ?_
  split
  · exact .bind .advance fun _ => .bind (.expect _) fun _ => .bind body fun _ => .pure _
  · exact .pure _

omit moves in
/-- The one place where positions are looked at. -/
theorem illegal_moved (token : Token) (behind : List Token) :
    illegal.run ((token :: behind).map (Token.moved place)) = (illegal.run (token :: behind)).moved place := by
  have quote : (token.moved place).opensString = token.opensString := rfl
  simp only [illegal, List.map_cons, run_current_bind, quote]
  cases token.opensString <;> rfl

theorem operand_moves : (operand nested).Moves place := by
  intro tokens
  cases tokens with
  | nil => rfl
  | cons token behind =>
    have kind : (token.moved place).kind = token.kind := rfl
    rw [operand, List.map_cons, run_current_bind, run_current_bind, kind]
    dsimp only
    split
    case h_12 => exact illegal_moved token behind
    case h_1 | h_3 | h_4 | h_5 => rfl
    case h_2 =>
      refine Moves.current (fun _ _ => rfl) (fun token => ?_) (token :: behind)
      dsimp only
      split
      · exact .pure _
      · exact .fail rfl
    case h_6 | h_7 =>
      exact Moves.current (fun _ _ => rfl) (fun _ => .bind .advance fun _ => .bind (moves _) fun _ => .pure _) (token :: behind)
    case h_8 =>
      exact Moves.bind .advance (fun _ => .bind (moves _) fun _ => .bind (.expect _) fun _ => .pure _) (token :: behind)
    case h_9 => exact conditional_moves moves (token :: behind)
    case h_10 =>
      have body := block_moves (statement_moves moves)
      refine Moves.bind (.expect _) (fun _ => .bind parameters_moves fun _ => .bind (.expect _) fun _ => ?_) (token :: behind)
      exact .bind body fun _ => .pure _
    case h_11 => exact Moves.bind (expressions_moves moves _) (fun _ => .pure _) (token :: behind)
    case h_13 => exact Moves.fail rfl (token :: behind)

theorem continuation_moves (left : Expr) : (continuation nested left).Moves place := by
  refine .current (fun _ _ => rfl) fun token => ?_
  split
  · unfold assignment
    split
    · exact .bind .advance fun _ => .bind (moves _) fun _ => .pure _
    · exact .fail rfl
  · exact .bind (expressions_moves moves _) fun _ => .pure _
  · exact .bind .advance fun _ => .bind (moves _) fun _ => .bind (.expect _) fun _ => .pure _
  · exact .current (fun _ _ => rfl) fun _ => .bind .advance fun _ => .bind (moves _) fun _ => .pure _

theorem climb_moves (precedence : Precedence) : (climb nested precedence).Moves place :=
  .bind (operand_moves moves) fun _ => .whileNext _ (continuation_moves moves)

end Rules

theorem expression_moves (place : Nat → Nat) (room : Nat) (precedence : Precedence) :
    (expression room precedence).Moves place := by
  induction room generalizing precedence with
  | zero => exact .tooDeep
  | succ room ih => exact climb_moves ih precedence

end Grammar

theorem Program.ofTokens_moved (place : Nat → Nat) (room : Nat) (tokens : List Token) :
    ofTokens room (tokens.map (Token.moved place)) =
      ((ofTokens room tokens).1, (ofTokens room tokens).2.map (Diagnostic.moved place)) := by
  have moves := Grammar.statement_moves (Grammar.expression_moves place room)
  simp only [ofTokens, Grammar.sequence_moved moves, Sequence.moved]
  split
  · simp [Diagnostic.moved]
  · rfl

/-- Only the symbols of a source decide what it is read as. -/
theorem Program.ofTokens_of_map_symbol {first second : List Token} (same : first.map Token.symbol = second.map Token.symbol)
    (room : Nat) : (ofTokens room first).1 = (ofTokens room second).1 ∧
      ((ofTokens room first).2 = [] ↔ (ofTokens room second).2 = []) := by
  have nowhere (tokens : List Token) : tokens.map (Token.moved fun _ => 0) =
      (tokens.map Token.symbol).map fun symbol => ⟨symbol.kind, symbol.literal, 0⟩ := by
    rw [List.map_map]
    rfl
  have equal : ((ofTokens room first).1, (ofTokens room first).2.map (Diagnostic.moved fun _ => 0)) =
      ((ofTokens room second).1, (ofTokens room second).2.map (Diagnostic.moved fun _ => 0)) := by
    rw [← ofTokens_moved, ← ofTokens_moved, nowhere, nowhere, same]
  obtain ⟨programs, diagnostics⟩ := Prod.mk.inj equal
  refine ⟨programs, ?_⟩
  rw [← List.map_eq_nil_iff (f := Diagnostic.moved fun _ => 0), diagnostics, List.map_eq_nil_iff]

end Treewalk
