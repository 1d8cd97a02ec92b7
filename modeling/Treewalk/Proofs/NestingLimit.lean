import Treewalk.Grammar

/-! The nesting limit only cuts a parse short. With less room a parser either does exactly what it does with more, or
stops at the limit with the first of the diagnostics that more room would have brought. All combinators keep this, so it
is shown once for every rule, for any two parsers of nested expressions that are related in the same way. -/

namespace Treewalk

namespace Parsed

variable {α β : Type}

/-- The first result is the second one, or what there was of it when the limit was reached. -/
def Truncates (short full : Parsed α) : Prop :=
  short = full ∨ short.outcome = .tooDeep ∧ short.diagnostics <+: full.diagnostics

/-- Goes on with what was accepted, where it was accepted. -/
def followedBy (first : Parsed α) (next : α → List Token → Parsed β) : Parsed β :=
  match first.outcome with
  | .accepted value =>
    ⟨(next value first.rest).outcome, (next value first.rest).rest, first.diagnostics ++ (next value first.rest).diagnostics⟩
  | .rejected => ⟨.rejected, first.rest, first.diagnostics⟩
  | .tooDeep => ⟨.tooDeep, first.rest, first.diagnostics⟩

theorem diagnostics_prefix_followedBy (first : Parsed α) (next : α → List Token → Parsed β) :
    first.diagnostics <+: (first.followedBy next).diagnostics := by
  unfold followedBy
  split
  · exact List.prefix_append _ _
  · exact List.prefix_rfl
  · exact List.prefix_rfl

theorem Truncates.followedBy {short full : Parsed α} {next next' : α → List Token → Parsed β} (first : short.Truncates full)
    (more : ∀ value, short.outcome = .accepted value → (next value short.rest).Truncates (next' value short.rest)) :
    (short.followedBy next).Truncates (full.followedBy next') := by
  rcases first with rfl | ⟨deep, less⟩
  · unfold Parsed.followedBy
    split
    next value accepted =>
      rcases more value accepted with same | ⟨deep, less⟩
      · exact Or.inl (by rw [same])
      · exact Or.inr ⟨deep, (List.prefix_append_right_inj _).mpr less⟩
    next => exact Or.inl rfl
    next => exact Or.inl rfl
  · refine Or.inr ⟨by simp [Parsed.followedBy, deep], ?_⟩
    have stopped : (short.followedBy next).diagnostics = short.diagnostics := by simp [Parsed.followedBy, deep]
    exact stopped ▸ less.trans (diagnostics_prefix_followedBy full next')

end Parsed

namespace Parser

variable {α β : Type}

def Truncates (short full : Parser α) : Prop := ∀ tokens, (short.run tokens).Truncates (full.run tokens)

theorem Truncates.refl (parser : Parser α) : parser.Truncates parser := fun _ => Or.inl rfl

theorem tooDeep_truncates (full : Parser α) : tooDeep.Truncates full := fun _ => Or.inr ⟨rfl, List.nil_prefix⟩

theorem Truncates.bind {short full : Parser α} {next next' : α → Parser β} (first : short.Truncates full)
    (more : ∀ value, (next value).Truncates (next' value)) : (short >>= next).Truncates (full >>= next') :=
  fun tokens => (first tokens).followedBy fun value _ => more value _

theorem Truncates.attempt {short full : Parser α} (truncates : short.Truncates full) :
    short.attempt.Truncates full.attempt := by
  intro tokens
  rcases truncates tokens with same | ⟨deep, less⟩
  · exact Or.inl (by simp [Parser.attempt, same])
  · refine Or.inr ⟨by simp [Parser.attempt, deep], ?_⟩
    simp only [Parser.attempt, deep]
    cases (full.run tokens).outcome <;> exact less

theorem runWhile_eq (continues : Token.Kind → Bool) (step : α → Parser α) (start : α) (tokens : List Token) :
    runWhile continues step start tokens =
      if tokens.tail ≠ [] ∧ continues (kindOf tokens.tail) = true then
        ((step start).run tokens.tail).followedBy (runWhile continues step)
      else ⟨.accepted start, tokens, []⟩ := by
  rw [runWhile]
  split
  next none => simp [none]
  next next others ahead =>
    simp only [ahead, kindOf]
    cases continues next.kind with
    | false => simp
    | true =>
      rw [if_pos rfl, if_pos ⟨List.cons_ne_nil _ _, rfl⟩]
      unfold Parsed.followedBy
      cases ((step start).run (next :: others)).outcome <;> rfl

theorem Truncates.whileNext {continues : Token.Kind → Bool} {short full : α → Parser α} (start : α)
    (truncates : ∀ value, (short value).Truncates (full value)) :
    (whileNext continues short start).Truncates (whileNext continues full start) := by
  intro tokens
  change (runWhile continues short start tokens).Truncates (runWhile continues full start tokens)
  induction size : tokens.length using Nat.strongRecOn generalizing start tokens with
  | ind size ih =>
    rw [runWhile_eq, runWhile_eq]
    split
    next going =>
      refine (truncates start tokens.tail).followedBy fun value _ => ih _ ?_ value _ rfl
      have shorter := (short start).length_run_tail_lt going.1
      omega
    next => exact Or.inl rfl

end Parser

/-- Statements are only missing where the sequence is cut short, and those before are whole. -/
def Sequence.Truncates (short full : Sequence) : Prop :=
  short = full ∨ short.cutShort = true ∧ short.diagnostics <+: full.diagnostics ∧ short.statements <+: full.statements

namespace Grammar

open Treewalk.Parser

theorem sequence_truncates {short full : Parser Stmt} (truncates : short.Truncates full) (stops : Token.Kind → Bool)
    (tokens : List Token) : (sequence short stops tokens).Truncates (sequence full stops tokens) := by
  fun_induction sequence short stops tokens with
  | case1 =>
    rw [sequence.eq_def]
    exact Or.inl rfl
  | case2 token behind stopped =>
    rw [sequence.eq_def]
    simp only [stopped, if_true]
    exact Or.inl rfl
  | case3 token behind going first stmt outcome others ih =>
    have same : first = full.run (token :: behind) := (truncates _).resolve_right fun stopped => by
      simp [first, outcome] at stopped
    rw [sequence.eq_def full]
    simp only [going, ← same, outcome]
    rcases ih with same | ⟨cut, less, fewer⟩
    · exact Or.inl (by simp [others, same])
    · exact Or.inr ⟨cut, (List.prefix_append_right_inj _).mpr less, (List.prefix_cons_inj _).mpr fewer⟩
  | case4 token behind going first outcome others ih =>
    have same : first = full.run (token :: behind) := (truncates _).resolve_right fun stopped => by
      simp [first, outcome] at stopped
    rw [sequence.eq_def full]
    simp only [going, ← same, outcome]
    rcases ih with same | ⟨cut, less, fewer⟩
    · exact Or.inl (by simp [others, same])
    · exact Or.inr ⟨cut, (List.prefix_append_right_inj _).mpr less, fewer⟩
  | case5 token behind going first outcome =>
    refine Or.inr ⟨rfl, ?_, List.nil_prefix⟩
    have less : first.diagnostics <+: (full.run (token :: behind)).diagnostics := by
      rcases truncates (token :: behind) with same | ⟨_, less⟩
      · exact same ▸ List.prefix_rfl
      · exact less
    refine less.trans ?_
    rw [sequence.eq_def full]
    simp only [going]
    cases (full.run (token :: behind)).outcome with
    | accepted => exact List.prefix_append _ _
    | rejected => exact List.prefix_append _ _
    | tooDeep => exact List.prefix_rfl

theorem block_truncates {short full : Parser Stmt} (truncates : short.Truncates full) :
    (block short).Truncates (block full) := by
  intro tokens
  simp only [block]
  rcases sequence_truncates truncates (· = .rightBrace) tokens.tail with same | ⟨cut, less, -⟩
  · exact Or.inl (by rw [same])
  · refine Or.inr ⟨by simp [cut], ?_⟩
    simp only [cut, if_true]
    split
    · exact less
    · split
      · exact less.trans (List.prefix_append _ _)
      · exact less

section Rules

variable {short full : Nested} (truncates : ∀ precedence, (short precedence).Truncates (full precedence))

include truncates

theorem expressions_truncates (close : Token.Kind) : (expressions short close).Truncates (expressions full close) := by
  refine .bind (.refl _) fun kind => ?_
  split
  · exact .refl _
  · refine .bind (.refl _) fun _ => .bind (.attempt (truncates _)) fun _ => .bind (.whileNext _ fun _ => ?_) fun _ => .refl _
    exact .bind (.refl _) fun _ => .bind (.attempt (truncates _)) fun _ => .refl _

theorem statement_truncates : (statement short).Truncates (statement full) := by
  refine .bind (.refl _) fun token => ?_
  split
  · refine .bind (.refl _) fun _ => .bind (.refl _) fun _ => .bind (.refl _) fun _ => .bind (.refl _) fun _ => ?_
    exact .bind (truncates _) fun _ => .refl _
  · refine .bind (.refl _) fun kind => ?_
    split
    · exact .refl _
    · exact .refl _
    · exact .refl _
    · exact .bind (.refl _) fun _ => .bind (truncates _) fun _ => .refl _
  · exact .bind (truncates _) fun _ => .refl _

theorem conditional_truncates : (conditional short).Truncates (conditional full) := by
  have body := block_truncates (statement_truncates truncates)
  refine .bind (.refl _) fun _ => .bind (.refl _) fun _ => .bind (truncates _) fun _ => .bind (.refl _) fun _ => ?_
  refine .bind (.refl _) fun _ => .bind body fun _ => .bind (.refl _) fun _ => ?_
  split
  · exact .bind (.refl _) fun _ => .bind (.refl _) fun _ => .bind body fun _ => .refl _
  · exact .refl _

theorem operand_truncates : (operand short).Truncates (operand full) := by
  refine .bind (.refl _) fun token => ?_
  dsimp only
  split
  case h_6 | h_7 => exact .bind (.refl _) fun _ => .bind (.refl _) fun _ => .bind (truncates _) fun _ => .refl _
  case h_8 => exact .bind (.refl _) fun _ => .bind (truncates _) fun _ => .refl _
  case h_9 => exact conditional_truncates truncates
  case h_10 =>
    refine .bind (.refl _) fun _ => .bind (.refl _) fun _ => .bind (.refl _) fun _ => ?_
    exact .bind (block_truncates (statement_truncates truncates)) fun _ => .refl _
  case h_11 => exact .bind (expressions_truncates truncates _) fun _ => .refl _
  all_goals exact .refl _

theorem continuation_truncates (left : Expr) : (continuation short left).Truncates (continuation full left) := by
  refine .bind (.refl _) fun token => ?_
  split
  · unfold assignment
    split
    · exact .bind (.refl _) fun _ => .bind (truncates _) fun _ => .refl _
    · exact .refl _
  · exact .bind (expressions_truncates truncates _) fun _ => .refl _
  · exact .bind (.refl _) fun _ => .bind (truncates _) fun _ => .refl _
  · exact .bind (.refl _) fun _ => .bind (.refl _) fun _ => .bind (truncates _) fun _ => .refl _

theorem climb_truncates (precedence : Precedence) : (climb short precedence).Truncates (climb full precedence) :=
  .bind (operand_truncates truncates) fun _ => .whileNext _ (continuation_truncates truncates)

end Rules

theorem expression_truncates {short full : Nat} (less : short ≤ full) (precedence : Precedence) :
    (expression short precedence).Truncates (expression full precedence) := by
  induction short generalizing full precedence with
  | zero => exact tooDeep_truncates _
  | succ short ih =>
    obtain ⟨full, rfl⟩ := Nat.exists_eq_add_of_le' (Nat.le_trans (Nat.le_add_left 1 short) less)
    exact climb_truncates (fun precedence => ih (Nat.le_of_succ_le_succ less) precedence) precedence

end Grammar

/-- With less room a program is read as with more, or is cut short with a diagnostic that says so. -/
theorem Program.ofTokens_truncates {short full : Nat} (less : short ≤ full) (tokens : List Token) :
    ofTokens short tokens = ofTokens full tokens ∨
      ∃ found, (ofTokens short tokens).2 = found ++ [.nestingTooDeep] ∧ found <+: (ofTokens full tokens).2 ∧
        (ofTokens short tokens).1.statements <+: (ofTokens full tokens).1.statements := by
  have statements := Grammar.statement_truncates (Grammar.expression_truncates less)
  rcases Grammar.sequence_truncates statements (fun _ => false) tokens with same | ⟨cut, less, fewer⟩
  · exact Or.inl (by simp only [ofTokens, same])
  · refine Or.inr ⟨_, by simp only [ofTokens, cut, if_true]; rfl, ?_, fewer⟩
    simp only [ofTokens]
    split
    · exact less.trans (List.prefix_append _ _)
    · exact less

end Treewalk
