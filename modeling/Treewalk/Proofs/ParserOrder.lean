import Treewalk.Proofs.NestingLimit

/-! What all parsers have in common, whatever they read. They hand back the last of the tokens that they were given, they reach
the nesting limit only where a nested parser does, and they say nothing about that themselves. All combinators keep this, so
that it is known of every rule. -/

namespace Treewalk

namespace Parsed

variable {α β : Type}

/-- What is true of all results, given where nested parsers reach the limit. Tokens are only handed back as they are, from
somewhere on. The limit is reached where a nested parser reaches it, and then the diagnostic about it is left to the program. -/
structure Orderly (reached : List Token → Prop) (tokens : List Token) (parsed : Parsed α) : Prop where
  rest : parsed.rest <:+ tokens
  report : .nestingTooDeep ∉ parsed.diagnostics
  deep : parsed.outcome = .tooDeep → ∃ place, place <:+ tokens ∧ reached place

namespace Orderly

variable {reached : List Token → Prop} {tokens behind : List Token}

theorem mono {parsed : Parsed α} (orderly : parsed.Orderly reached behind) (further : behind <:+ tokens) :
    parsed.Orderly reached tokens where
  rest := orderly.rest.trans further
  report := orderly.report
  deep stopped := by
    obtain ⟨place, later, found⟩ := orderly.deep stopped
    exact ⟨place, later.trans further, found⟩

theorem accepted (value : α) (further : behind <:+ tokens) : Orderly reached tokens ⟨.accepted value, behind, []⟩ :=
  ⟨further, List.not_mem_nil, by simp⟩

theorem followedBy {first : Parsed α} {next : α → List Token → Parsed β} (head : first.Orderly reached tokens)
    (more : ∀ value, (next value first.rest).Orderly reached first.rest) : (first.followedBy next).Orderly reached tokens := by
  unfold Parsed.followedBy
  split
  next value _ =>
    obtain ⟨rest, report, deep⟩ := (more value).mono head.rest
    exact ⟨rest, fun reported => (List.mem_append.mp reported).elim head.report report, deep⟩
  next => exact ⟨head.rest, head.report, by simp⟩
  next stopped => exact ⟨head.rest, head.report, fun _ => head.deep stopped⟩

end Orderly

end Parsed

namespace Parser

variable {α β : Type} {reached : List Token → Prop}

def Orderly (reached : List Token → Prop) (parser : Parser α) : Prop := ∀ tokens, (parser.run tokens).Orderly reached tokens

theorem Orderly.pure (value : α) : (pure value : Parser α).Orderly reached := fun _ => .accepted value List.suffix_rfl

theorem Orderly.current : Parser.current.Orderly reached := fun _ => .accepted _ List.suffix_rfl

theorem Orderly.nextKind : Parser.nextKind.Orderly reached := fun _ => .accepted _ List.suffix_rfl

theorem Orderly.advance : Parser.advance.Orderly reached := fun tokens => .accepted () (List.tail_suffix tokens)

theorem Orderly.reject : (reject : Parser α).Orderly reached :=
  fun _ => ⟨List.suffix_rfl, List.not_mem_nil, by simp [Parser.reject]⟩

theorem Orderly.fail {diagnostic : Diagnostic} (other : .nestingTooDeep ≠ diagnostic) :
    (fail diagnostic : Parser α).Orderly reached :=
  fun _ => ⟨List.suffix_rfl, fun reported => other (List.mem_singleton.mp reported), by simp [Parser.fail]⟩

theorem Orderly.bind {first : Parser α} {next : α → Parser β} (head : first.Orderly reached)
    (more : ∀ value, (next value).Orderly reached) : (first >>= next).Orderly reached :=
  fun tokens => (head tokens).followedBy fun value => more value _

theorem Orderly.expect (want : Token.Kind) : (Parser.expect want).Orderly reached := by
  refine .bind .nextKind fun got => ?_
  split
  · exact .advance
  · exact .fail (by simp)

theorem Orderly.skipNext (kind : Token.Kind) : (Parser.skipNext kind).Orderly reached := by
  refine .bind .nextKind fun got => ?_
  split
  · exact .advance
  · exact .pure ()

theorem Orderly.attempt {parser : Parser α} (orderly : parser.Orderly reached) : parser.attempt.Orderly reached := by
  intro tokens
  obtain ⟨rest, report, deep⟩ := orderly tokens
  simp only [Parser.attempt]
  split
  next => exact ⟨rest, report, by simp⟩
  next => exact ⟨rest, report, by simp⟩
  next stopped => exact ⟨rest, report, fun _ => deep stopped⟩

theorem Orderly.whileNext {continues : Token.Kind → Bool} {step : α → Parser α} (start : α)
    (steps : ∀ value, (step value).Orderly reached) : (whileNext continues step start).Orderly reached := by
  intro tokens
  change (runWhile continues step start tokens).Orderly reached tokens
  induction size : tokens.length using Nat.strongRecOn generalizing start tokens with
  | ind size ih =>
    rw [runWhile_eq]
    split
    next going =>
      refine ((steps start tokens.tail).mono (List.tail_suffix tokens)).followedBy fun value => ih _ ?_ value _ rfl
      have shorter := (step start).length_run_tail_lt going.1
      omega
    next => exact .accepted start List.suffix_rfl

end Parser

/-- The same of the statements of a sequence. -/
structure Sequence.Orderly (reached : List Token → Prop) (tokens : List Token) (all : Sequence) : Prop where
  rest : all.rest <:+ tokens
  report : .nestingTooDeep ∉ all.diagnostics
  deep : all.cutShort = true → ∃ place, place <:+ tokens ∧ reached place

/-- Going on one token behind a statement, whatever is made of it. -/
theorem Sequence.Orderly.after {reached : List Token → Prop} {tokens : List Token} {first : Parsed Stmt} {others : Sequence}
    (orderly : others.Orderly reached first.rest.tail) (head : first.Orderly reached tokens) (stmts : List Stmt) :
    Sequence.Orderly reached tokens
      { others with statements := stmts, diagnostics := first.diagnostics ++ others.diagnostics } := by
  have further := (List.tail_suffix first.rest).trans head.rest
  refine ⟨orderly.rest.trans further, fun reported => (List.mem_append.mp reported).elim head.report orderly.report, ?_⟩
  intro cut
  obtain ⟨place, later, found⟩ := orderly.deep cut
  exact ⟨place, later.trans further, found⟩

namespace Grammar

open Treewalk.Parser

section Rules

variable {reached : List Token → Prop}

theorem sequence_orderly {statement : Parser Stmt} (orderly : statement.Orderly reached) (stops : Token.Kind → Bool)
    (tokens : List Token) : (sequence statement stops tokens).Orderly reached tokens := by
  fun_induction sequence statement stops tokens with
  | case1 | case2 => exact ⟨List.suffix_rfl, List.not_mem_nil, by simp⟩
  | case3 token behind going first stmt outcome others ih => exact ih.after (orderly _) (stmt :: others.statements)
  | case4 token behind going first outcome others ih => exact ih.after (orderly _) others.statements
  | case5 token behind going first outcome =>
    obtain ⟨rest, report, deep⟩ := orderly (token :: behind)
    exact ⟨rest, report, fun _ => deep outcome⟩

theorem block_orderly {statement : Parser Stmt} (orderly : statement.Orderly reached) : (block statement).Orderly reached := by
  intro tokens
  obtain ⟨rest, report, deep⟩ := sequence_orderly orderly (· = .rightBrace) tokens.tail
  have further := List.tail_suffix tokens
  simp only [block]
  split
  next cut =>
    obtain ⟨place, later, found⟩ := deep cut
    exact ⟨rest.trans further, report, fun _ => ⟨place, later.trans further, found⟩⟩
  next =>
    split
    · exact ⟨rest.trans further, fun reported => (List.mem_append.mp reported).elim report (by simp), by simp⟩
    · exact ⟨rest.trans further, report, by simp⟩

theorem parameters_orderly : parameters.Orderly reached := by
  refine .bind .nextKind fun kind => ?_
  split
  · exact .bind .advance fun _ => .pure _
  · refine .bind (.expect _) fun _ => .bind .current fun first => .bind (.whileNext _ fun names => ?_) fun names => ?_
    · exact .bind (.expect _) fun _ => .bind .current fun _ => .pure _
    · exact .bind (.expect _) fun _ => .pure _

variable {nested : Nested} (orderly : ∀ precedence, (nested precedence).Orderly reached)

include orderly

theorem expressions_orderly (close : Token.Kind) : (expressions nested close).Orderly reached := by
  refine .bind .nextKind fun kind => ?_
  split
  · exact .bind .advance fun _ => .pure _
  · refine .bind .advance fun _ => .bind (.attempt (orderly _)) fun _ => .bind (.whileNext _ fun _ => ?_) fun items => ?_
    · exact .bind .advance fun _ => .bind (.attempt (orderly _)) fun _ => .pure _
    · refine .bind (.expect _) fun _ => ?_
      split
      · exact .pure _
      · exact .reject

theorem statement_orderly : (statement nested).Orderly reached := by
  have ending (build : Expr → Stmt) : Parser.Orderly reached (do
      let value ← nested .lowest
      Parser.skipNext .semicolon
      return build value) :=
    .bind (orderly _) fun _ => .bind (.skipNext _) fun _ => .pure _
  refine .bind .current fun token => ?_
  split
  · exact .bind (.expect _) fun _ => .bind .current fun _ => .bind (.expect _) fun _ => .bind .advance fun _ => ending _
  · refine .bind .nextKind fun kind => ?_
    split
    · exact .bind .advance fun _ => .pure _
    · exact .pure _
    · exact .pure _
    · exact .bind .advance fun _ => ending _
  · exact ending _

theorem conditional_orderly : (conditional nested).Orderly reached := by
  have body := block_orderly (statement_orderly orderly)
  refine .bind (.expect _) fun _ => .bind .advance fun _ => .bind (orderly _) fun _ => .bind (.expect _) fun _ => ?_
  refine .bind (.expect _) fun _ => .bind body fun _ => .bind .nextKind fun kind => ?_
  split
  · exact .bind .advance fun _ => .bind (.expect _) fun _ => .bind body fun _ => .pure _
  · exact .pure _

theorem function_orderly : (function nested).Orderly reached :=
  .bind (.expect _) fun _ => .bind parameters_orderly fun _ => .bind (.expect _) fun _ =>
    .bind (block_orderly (statement_orderly orderly)) fun _ => .pure _

theorem operand_orderly : (operand nested).Orderly reached := by
  have prefixed : (unary nested).Orderly reached :=
    .bind .current fun _ => .bind .advance fun _ => .bind (orderly _) fun _ => .pure _
  refine .bind .current fun token => ?_
  dsimp only
  split
  case h_2 =>
    refine .bind .current fun token => ?_
    dsimp only
    split
    · exact .pure _
    · exact .fail (by simp)
  case h_6 | h_7 => exact prefixed
  case h_8 => exact .bind .advance fun _ => .bind (orderly _) fun _ => .bind (.expect _) fun _ => .pure _
  case h_9 => exact conditional_orderly orderly
  case h_10 => exact function_orderly orderly
  case h_11 => exact .bind (expressions_orderly orderly _) fun _ => .pure _
  case h_12 =>
    refine .bind .current fun token => ?_
    split <;> exact .fail (by simp)
  case h_13 => exact .fail (by simp)
  all_goals exact .bind .current fun _ => .pure _

theorem continuation_orderly (left : Expr) : (continuation nested left).Orderly reached := by
  refine .bind .current fun token => ?_
  split
  · unfold assignment
    split
    · exact .bind .advance fun _ => .bind (orderly _) fun _ => .pure _
    · exact .fail (by simp)
  · exact .bind (expressions_orderly orderly _) fun _ => .pure _
  · exact .bind .advance fun _ => .bind (orderly _) fun _ => .bind (.expect _) fun _ => .pure _
  · exact .bind .current fun _ => .bind .advance fun _ => .bind (orderly _) fun _ => .pure _

theorem climb_orderly (precedence : Precedence) : (climb nested precedence).Orderly reached :=
  .bind (operand_orderly orderly) fun _ => .whileNext _ (continuation_orderly orderly)

end Rules

theorem expression_orderly (room : Nat) (precedence : Precedence) : (expression room precedence).Orderly fun _ => True := by
  induction room generalizing precedence with
  | zero => exact fun tokens => ⟨List.suffix_rfl, List.not_mem_nil, fun _ => ⟨tokens, List.suffix_rfl, trivial⟩⟩
  | succ room ih => exact climb_orderly ih precedence

end Grammar

end Treewalk
