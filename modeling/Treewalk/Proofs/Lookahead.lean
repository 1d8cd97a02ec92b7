import Treewalk.Proofs.GrammarSoundness
import Treewalk.Proofs.GrammarCompleteness

/-! Reading looks one token ahead. Whatever is read without a diagnostic depends on the tokens up to the last one of it and on
the kind of the one behind that, and of this kind only whether it continues what was read. The right end of an expression may
lie in several rules at once, each of which asks for its own precedence there; none of them asks for less than the rule around
it, and none for more than a sign does. -/

namespace Treewalk

/-- The kind neither continues an expression of this precedence nor a conditional without an alternative. -/
def Token.Kind.Ends (precedence : Precedence) (kind : Token.Kind) : Prop := kind.precedence ≤ precedence ∧ kind ≠ .kwElse

/-- The others start with the same kind, or with one that fits. -/
def Replaces (fits : Token.Kind → Prop) (others behind : List Token) : Prop :=
  kindOf others = kindOf behind ∨ fits (kindOf others)

theorem kindOf_append_cons (front : List Token) (last : Token) (behind others : List Token) :
    kindOf (front ++ last :: behind) = kindOf (front ++ last :: others) := by
  cases front <;> rfl

namespace Parser

variable {α β : Type}

/-- What is accepted from these tokens is accepted as well with others behind the last token read. -/
def SteadyAt (fits : Token.Kind → Prop) (parser : Parser α) (tokens : List Token) : Prop :=
  ∀ value last behind, parser.Accepts tokens value (last :: behind) →
    ∃ front, tokens = front ++ last :: behind ∧
      ∀ others, Replaces fits others behind → parser.Accepts (front ++ last :: others) value (last :: others)

def Steady (fits : Token.Kind → Prop) (parser : Parser α) : Prop := ∀ tokens, parser.SteadyAt fits tokens

/-- Nothing fits, so that the kind behind has to stay the same. -/
abbrev Rigid (parser : Parser α) : Prop := parser.Steady fun _ => False

/-- What is accepted takes at least one token, unless it ends with the source. -/
def Takes (parser : Parser α) : Prop :=
  ∀ tokens value last behind, parser.Accepts tokens value (last :: behind) → (last :: behind).length < tokens.length

/-- What is accepted takes no token. -/
def Stays (parser : Parser α) : Prop := ∀ tokens value rest, parser.Accepts tokens value rest → tokens = rest

/-- What is accepted ends at a token. -/
def Lands (parser : Parser α) : Prop := ∀ tokens value rest, parser.Accepts tokens value rest → rest ≠ []

section Combinators

variable {fits wide : Token.Kind → Prop} {tokens middle behind : List Token}

theorem SteadyAt.mono {parser : Parser α} (steady : parser.SteadyAt wide tokens) (implies : ∀ kind, fits kind → wide kind) :
    parser.SteadyAt fits tokens := by
  intro value last behind accepted
  obtain ⟨front, same, again⟩ := steady value last behind accepted
  exact ⟨front, same, fun others replaces => again others (replaces.imp_right (implies _))⟩

theorem Steady.rigid {parser : Parser α} (steady : parser.Steady wide) : parser.Rigid :=
  fun tokens => (steady tokens).mono fun _ => False.elim

/-- What comes second is read up to the last token. What comes first ends at the same token only if nothing was read after
it; otherwise the token behind it is one of those that stay. -/
theorem SteadyAt.followedBy {first : Parser α} {next : Parser β} {value : α} {result : β} {last : Token}
    (head : first.SteadyAt wide tokens) (tail : next.SteadyAt fits middle) (begun : first.Accepts tokens value middle)
    (ended : next.Accepts middle result (last :: behind))
    (joint : middle = last :: behind → ∀ kind, fits kind → wide kind) :
    ∃ front, tokens = front ++ last :: behind ∧ ∀ others, Replaces fits others behind →
      ∃ between, first.Accepts (front ++ last :: others) value between ∧ next.Accepts between result (last :: others) := by
  obtain ⟨between, rfl, again⟩ := tail result last behind ended
  cases between with
  | nil =>
    obtain ⟨front, same, before⟩ := head value last behind begun
    refine ⟨front, same, fun others replaces => ⟨last :: others, ?_, again others replaces⟩⟩
    exact before others (replaces.imp_right (joint rfl _))
  | cons token between =>
    obtain ⟨front, same, before⟩ := head value token (between ++ last :: behind) begun
    refine ⟨front ++ token :: between, by simp [same], fun others replaces => ?_⟩
    refine ⟨token :: between ++ last :: others, ?_, again others replaces⟩
    simpa using before (between ++ last :: others) (Or.inl (kindOf_append_cons _ _ _ _))

theorem SteadyAt.bindOf {first : Parser α} {next : α → Parser β} (head : first.SteadyAt wide tokens)
    (tail : ∀ value, (next value).Steady fits) (joint : (∀ kind, fits kind → wide kind) ∨ ∀ value, (next value).Takes) :
    (first >>= next).SteadyAt fits tokens := by
  intro result last behind accepted
  obtain ⟨value, middle, begun, ended⟩ := accepts_bind.mp accepted
  obtain ⟨front, same, again⟩ := head.followedBy (tail value middle) begun ended fun same =>
    joint.elim id fun takes => absurd (takes value _ _ _ _ ended) (by simp [same])
  refine ⟨front, same, fun others replaces => ?_⟩
  obtain ⟨between, begun, ended⟩ := again others replaces
  exact accepts_bind.mpr ⟨value, between, begun, ended⟩

theorem SteadyAt.bind {first : Parser α} {next : α → Parser β} (head : first.SteadyAt fits tokens)
    (tail : ∀ value, (next value).Steady fits) : (first >>= next).SteadyAt fits tokens :=
  head.bindOf tail (Or.inl fun _ => id)

theorem Steady.bind {first : Parser α} {next : α → Parser β} (head : first.Steady fits)
    (tail : ∀ value, (next value).Steady fits) : (first >>= next).Steady fits :=
  fun tokens => (head tokens).bind tail

/-- What is sure to be followed by something else need not bear any replacement itself. -/
theorem Steady.before {first : Parser α} {next : α → Parser β} (head : first.Rigid) (tail : ∀ value, (next value).Steady fits)
    (takes : ∀ value, (next value).Takes) : (first >>= next).Steady fits :=
  fun tokens => (head tokens).bindOf tail (Or.inr takes)

theorem Steady.pure (value : α) : (Pure.pure value : Parser α).Steady fits := by
  intro tokens result last behind accepted
  obtain ⟨rfl, rfl⟩ := accepts_pure.mp accepted
  exact ⟨[], rfl, fun others _ => accepts_pure.mpr ⟨rfl, rfl⟩⟩

theorem Steady.fail (diagnostic : Diagnostic) : (Parser.fail diagnostic : Parser α).Steady fits :=
  fun _ _ _ _ accepted => absurd accepted not_accepts_fail

theorem Steady.reject : (Parser.reject : Parser α).Steady fits :=
  fun _ _ _ _ accepted => absurd accepted not_accepts_reject

theorem Steady.tooDeep : (Parser.tooDeep : Parser α).Steady fits :=
  fun _ _ _ _ accepted => absurd accepted not_accepts_tooDeep

theorem Steady.current : current.Steady fits := by
  intro tokens token last behind accepted
  obtain ⟨rfl, rfl⟩ := accepts_current.mp accepted
  exact ⟨[], rfl, fun others _ => accepts_current.mpr ⟨rfl, rfl⟩⟩

/-- The current token is the same whatever stands behind the last one. -/
theorem SteadyAt.ofCurrent {chosen : Token → Parser α} (steady : (chosen (tokens.headD (.finish 0))).SteadyAt fits tokens) :
    (Parser.current >>= chosen).SteadyAt fits tokens := by
  intro value last behind accepted
  obtain ⟨front, rfl, again⟩ := steady value last behind (accepts_current_bind.mp accepted)
  refine ⟨front, rfl, fun others replaces => accepts_current_bind.mpr ?_⟩
  cases front <;> exact again others replaces

theorem Steady.advance : advance.Steady fits := by
  intro tokens done last behind accepted
  have moved := accepts_advance.mp accepted
  obtain ⟨token, rfl⟩ : ∃ token, tokens = token :: last :: behind := by
    cases tokens with
    | nil => cases moved
    | cons token more => exact ⟨token, congrArg (token :: ·) moved⟩
  exact ⟨[token], rfl, fun others _ => accepts_advance.mpr rfl⟩

theorem Steady.expect (want : Token.Kind) : (expect want).Steady fits := by
  intro tokens done last behind accepted
  obtain ⟨found, moved⟩ := accepts_expect.mp accepted
  obtain ⟨front, rfl, again⟩ := (Steady.advance : Parser.advance.Steady fits) tokens done last behind (accepts_advance.mpr moved)
  refine ⟨front, rfl, fun others replaces => ?_⟩
  have moved' := accepts_advance.mp (again others replaces)
  refine accepts_expect.mpr ⟨?_, moved'⟩
  rw [moved']
  rwa [moved] at found

theorem Takes.advance : advance.Takes := by
  intro tokens done last behind accepted
  have moved := congrArg List.length (accepts_advance.mp accepted)
  simp only [List.length_tail, List.length_cons] at moved ⊢
  omega

theorem Takes.expect (want : Token.Kind) : (expect want).Takes := fun tokens done last behind accepted =>
  Takes.advance tokens done last behind (accepts_advance.mpr (accepts_expect.mp accepted).2)

theorem Takes.first {first : Parser α} {next : α → Parser β} (takes : first.Takes) : (first >>= next).Takes := by
  intro tokens result last behind accepted
  obtain ⟨value, middle, begun, ended⟩ := accepts_bind.mp accepted
  have shorter := (next value).rest_length_le middle
  rw [ended] at shorter
  cases middle with
  | nil => exact absurd shorter (by simp)
  | cons token others => exact Nat.lt_of_le_of_lt shorter (takes tokens value token others begun)

theorem Takes.second {first : Parser α} {next : α → Parser β} (takes : ∀ value, (next value).Takes) :
    (first >>= next).Takes := by
  intro tokens result last behind accepted
  obtain ⟨value, middle, begun, ended⟩ := accepts_bind.mp accepted
  have shorter := first.rest_length_le tokens
  rw [begun] at shorter
  exact Nat.lt_of_lt_of_le (takes value middle result last behind ended) shorter

/-- The kind of the next token is the same whatever stands behind the last one, unless nothing at all is read. -/
theorem Steady.ofNextKind {chosen : Token.Kind → Parser α} (steady : ∀ kind, (chosen kind).Steady fits)
    (agree : ∀ kind other, fits other → chosen other = chosen kind ∨ (chosen kind).Takes) :
    (Parser.nextKind >>= chosen).Steady fits := by
  intro tokens value last behind accepted
  rw [accepts_nextKind_bind] at accepted
  obtain ⟨front, rfl, again⟩ := steady _ tokens value last behind accepted
  refine ⟨front, rfl, fun others replaces => accepts_nextKind_bind.mpr ?_⟩
  cases front with
  | cons token front =>
    rw [List.cons_append, List.tail_cons, kindOf_append_cons front last behind others] at again
    exact again others replaces
  | nil =>
    rcases replaces with same | other
    · simpa [same] using again others (Or.inl same)
    · rcases agree (kindOf behind) (kindOf others) other with same | takes
      · simpa [same] using again others (Or.inr other)
      · exact absurd (takes _ _ _ _ accepted) (Nat.lt_irrefl _)

theorem Steady.ifNext {want : Token.Kind} {chosen otherwise : Parser α} (head : chosen.Steady fits)
    (tail : otherwise.Steady fits) (takes : chosen.Takes) (apart : (∀ kind, fits kind → kind ≠ want) ∨ otherwise.Takes) :
    (Parser.nextKind >>= fun kind => if kind = want then chosen else otherwise).Steady fits := by
  refine .ofNextKind (fun kind => ?_) fun kind other replaces => ?_
  · split
    · exact head
    · exact tail
  · by_cases found : kind = want
    · simp only [if_pos found]
      exact Or.inr takes
    · simp only [if_neg found]
      exact apart.imp_left fun apart => if_neg (apart other replaces)

theorem Steady.skipNext (kind : Token.Kind) : (Parser.skipNext kind).Rigid :=
  .ifNext .advance (.pure ()) .advance (Or.inl fun _ => False.elim)

theorem Steady.attempt {parser : Parser α} (honest : parser.Honest) (steady : parser.Steady fits) :
    parser.attempt.Steady fits := by
  intro tokens answer last behind accepted
  obtain ⟨value, rfl, read⟩ := (accepts_attempt honest).mp accepted
  obtain ⟨front, same, again⟩ := steady tokens value last behind read
  exact ⟨front, same, fun others replaces => (again others replaces).attempt⟩

/-- A loop stops at the same token before any kind that does not make it go on. -/
theorem SteadyAt.whileNext {continues : Token.Kind → Bool} {step : α → Parser α}
    (stops : ∀ kind, fits kind → continues kind = false) (idle : continues .endOfInput = false)
    (steps : ∀ value tokens, continues (kindOf tokens) = true → (step value).SteadyAt fits tokens) (start : α)
    (tokens : List Token) : (Parser.whileNext continues step start).SteadyAt fits tokens := by
  induction size : tokens.length using Nat.strongRecOn generalizing start tokens with
  | ind size ih =>
    intro result last behind accepted
    by_cases going : continues (kindOf tokens.tail) = true
    · have more := tail_ne_nil idle going
      obtain ⟨following, middle, stepped, looped⟩ := (accepts_whileNext_step more going).mp accepted
      have shorter := (step start).length_run_tail_lt more
      rw [stepped] at shorter
      obtain ⟨front, same, again⟩ := (steps start tokens.tail going).followedBy (ih _ (size ▸ shorter) following middle rfl)
        stepped looped fun _ _ => id
      obtain ⟨token, rfl⟩ : ∃ token, tokens = token :: (front ++ last :: behind) := by
        cases tokens with
        | nil => exact absurd rfl more
        | cons token further => exact ⟨token, congrArg (token :: ·) same⟩
      refine ⟨token :: front, rfl, fun others replaces => ?_⟩
      obtain ⟨between, stepped, looped⟩ := again others replaces
      rw [List.tail_cons, kindOf_append_cons front last behind others] at going
      exact (accepts_whileNext_step (by simp) going).mpr ⟨following, between, stepped, looped⟩
    · have stopped : continues (kindOf tokens.tail) = false := by simpa using going
      obtain ⟨rfl, rfl⟩ := (accepts_whileNext_stop stopped).mp accepted
      refine ⟨[], rfl, fun others replaces => (accepts_whileNext_stop ?_).mpr ⟨rfl, rfl⟩⟩
      exact replaces.elim (fun same => same.symm ▸ stopped) (stops _)

/-! ### Where reading ends -/

theorem Stays.pure (value : α) : (Pure.pure value : Parser α).Stays :=
  fun _ _ _ accepted => (accepts_pure.mp accepted).2

theorem Stays.fail (diagnostic : Diagnostic) : (Parser.fail diagnostic : Parser α).Stays :=
  fun _ _ _ accepted => absurd accepted not_accepts_fail

theorem Stays.reject : (Parser.reject : Parser α).Stays :=
  fun _ _ _ accepted => absurd accepted not_accepts_reject

theorem Stays.ofCurrent {chosen : Token → Parser α} (stays : ∀ token, (chosen token).Stays) :
    (Parser.current >>= chosen).Stays :=
  fun tokens value rest accepted => stays _ tokens value rest (accepts_current_bind.mp accepted)

theorem Lands.expect {want : Token.Kind} (inside : want ≠ .endOfInput) : (expect want).Lands := by
  rintro tokens done _ accepted rfl
  obtain ⟨found, moved⟩ := accepts_expect.mp accepted
  exact inside (by rw [← found, moved]; rfl)

theorem Lands.second {first : Parser α} {next : α → Parser β} (tail : ∀ value, (next value).Lands) :
    (first >>= next).Lands := by
  intro tokens result rest accepted
  obtain ⟨value, middle, -, ended⟩ := accepts_bind.mp accepted
  exact tail value middle result rest ended

theorem Lands.first {first : Parser α} {next : α → Parser β} (head : first.Lands) (stays : ∀ value, (next value).Stays) :
    (first >>= next).Lands := by
  intro tokens result rest accepted
  obtain ⟨value, middle, begun, ended⟩ := accepts_bind.mp accepted
  obtain rfl := stays value middle result rest ended
  exact head tokens value middle begun

end Combinators

end Parser

/-! ### The rules -/

namespace Grammar

open Treewalk.Parser Treewalk.Derivation

variable {fits : Token.Kind → Prop}

/-- A sequence ends at the token that stops it, whatever stands behind that one. -/
theorem sequence_steady {statement : Parser Stmt} {stops : Token.Kind → Bool} (honest : statement.Honest)
    (steady : statement.Rigid) {tokens behind : List Token} {last : Token}
    (finished : (sequence statement stops tokens).cutShort = false)
    (silent : (sequence statement stops tokens).diagnostics = [])
    (ended : (sequence statement stops tokens).rest = last :: behind) :
    ∃ front, tokens = front ++ last :: behind ∧ ∀ others, sequence statement stops (front ++ last :: others) =
      ⟨(sequence statement stops tokens).statements, last :: others, [], false⟩ := by
  fun_induction sequence statement stops tokens
  case case1 => cases ended
  case case2 token behind' stopped =>
    obtain ⟨rfl, rfl⟩ := List.cons.inj ended
    exact ⟨[], rfl, fun others => sequence_stop (Or.inr stopped)⟩
  case case3 token further going first stmt outcome following ih =>
    obtain ⟨quiet, silent⟩ := List.append_eq_nil_iff.mp silent
    obtain ⟨front, same, again⟩ := ih finished silent ended
    obtain ⟨final, ahead⟩ : ∃ final, first.rest = final :: (front ++ last :: behind) := by
      cases ahead : first.rest with
      | nil => simp [ahead] at same
      | cons final more => exact ⟨final, congrArg (final :: ·) (by rw [← same, ahead, List.tail_cons])⟩
    have accepted : statement.Accepts (token :: further) stmt (final :: (front ++ last :: behind)) :=
      Parsed.ext outcome ahead quiet
    obtain ⟨start, begun, reread⟩ := steady _ _ _ _ accepted
    refine ⟨start ++ final :: front, by simp [begun], fun others => ?_⟩
    have reread := reread (front ++ last :: others) (Or.inl (kindOf_append_cons _ _ _ _))
    have going : stops (kindOf (start ++ final :: (front ++ last :: others))) = false := by
      rw [kindOf_append_cons start final _ (front ++ last :: behind), ← begun]
      exact (Bool.not_eq_true _).mp going
    rw [List.append_assoc, List.cons_append]
    exact sequence_step (by simp) going reread (again others)
  case case4 token further going first outcome following ih =>
    obtain ⟨quiet, -⟩ := List.append_eq_nil_iff.mp silent
    exact (honest (token :: further) first.rest (Parsed.ext outcome rfl quiet)).elim
  case case5 => cases finished

theorem block_steady {statement : Parser Stmt} (honest : statement.Honest) (steady : statement.Rigid) :
    (block statement).Steady fits := by
  intro tokens stmts last behind accepted
  obtain ⟨read, -⟩ := accepts_block.mp accepted
  obtain ⟨front, same, again⟩ := sequence_steady honest steady (by rw [read]) (by rw [read]) (by rw [read])
  obtain ⟨token, rfl⟩ : ∃ token, tokens = token :: (front ++ last :: behind) := by
    cases tokens with
    | nil => simp at same
    | cons token further => exact ⟨token, congrArg (token :: ·) same⟩
  refine ⟨token :: front, rfl, fun others _ => accepts_block.mpr ⟨?_, List.cons_ne_nil _ _⟩⟩
  rw [read] at again
  exact again others

theorem block_lands (statement : Parser Stmt) : (block statement).Lands :=
  fun _ _ _ accepted => (accepts_block.mp accepted).2

theorem parameters_steady : parameters.Steady fits := by
  refine .ifNext ?_ ?_ (.first .advance) (Or.inr ?_)
  · exact .bind .advance fun _ => .pure _
  · refine .bind (.expect _) fun _ => .bind .current fun _ => .before ?_ (fun _ => ?_) fun _ => .first (.expect _)
    · refine fun tokens => .whileNext (fun _ => False.elim) rfl (fun names tokens _ => ?_) _ tokens
      exact Steady.bind (.expect _) (fun _ => .bind .current fun _ => .pure _) tokens
    · exact .bind (.expect _) fun _ => .pure _
  · exact .first (.expect _)

/-- An operator asks no less of its right operand than was asked of itself, and no more than a sign does. -/
theorem rightPrecedence_bounds {precedence : Precedence} {kind : Token.Kind} (binds : precedence < kind.precedence)
    (call : kind ≠ .leftParen) (index : kind ≠ .leftBracket) :
    precedence ≤ kind.rightPrecedence ∧ kind.rightPrecedence ≤ .unary := by
  refine ⟨?_, by cases kind <;> first | contradiction | decide⟩
  unfold Token.Kind.rightPrecedence
  split
  · exact Nat.le_sub_one_of_lt binds
  · exact Nat.le_of_lt binds

section Rules

variable {nested : Nested} (honest : ∀ precedence, (nested precedence).Honest)
variable (steady : ∀ precedence, precedence ≤ .unary → (nested precedence).Steady (Token.Kind.Ends precedence))

include steady

theorem nested_rigid : (nested .lowest).Rigid := (steady .lowest (Nat.zero_le _)).rigid

theorem bindStatement_rigid : (bindStatement nested).Rigid := by
  refine .bind (.expect _) fun _ => .bind .current fun _ => .bind (.expect _) fun _ => .bind .advance fun _ => ?_
  exact .bind (nested_rigid steady) fun _ => .bind (.skipNext _) fun _ => .pure _

theorem returnStatement_rigid : (returnStatement nested).Rigid := by
  refine .ofNextKind (fun kind => ?_) fun _ _ => False.elim
  split
  · exact .bind .advance fun _ => .pure _
  · exact .pure _
  · exact .pure _
  · exact .bind .advance fun _ => .bind (nested_rigid steady) fun _ => .bind (.skipNext _) fun _ => .pure _

theorem statement_rigid : (statement nested).Rigid := by
  refine fun tokens => .ofCurrent ?_
  split
  · exact bindStatement_rigid steady tokens
  · exact returnStatement_rigid steady tokens
  · exact Steady.bind (nested_rigid steady) (fun _ => .bind (.skipNext _) fun _ => .pure _) tokens

/-- A sign asks as much of what stands behind its operand as any expression around it does. -/
theorem unary_steady {precedence : Precedence} (low : precedence ≤ .unary) :
    (unary nested).Steady (Token.Kind.Ends precedence) := by
  refine .bind .current fun _ => .bind .advance fun _ => .bind (fun tokens => ?_) fun _ => .pure _
  exact (steady .unary (Nat.le_refl _) tokens).mono fun kind ends => ⟨Nat.le_trans ends.1 low, ends.2⟩

theorem grouped_steady : (grouped nested).Steady fits := by
  refine .bind .advance fun _ => .before (nested_rigid steady) (fun _ => ?_) fun _ => .first (.expect _)
  exact .bind (.expect _) fun _ => .pure _

theorem index_steady (collection : Expr) : (index nested collection).Steady fits := by
  refine .bind .advance fun _ => .before (nested_rigid steady) (fun _ => ?_) fun _ => .first (.expect _)
  exact .bind (.expect _) fun _ => .pure _

/-- Only what binds less tightly than an assignment is continued by one, and so it asks for the same as the value. -/
theorem assignment_steady {precedence : Precedence} (binds : precedence < .assign) (target : Expr) :
    (assignment nested target).Steady (Token.Kind.Ends precedence) := by
  obtain rfl : precedence = .lowest := Nat.lt_one_iff.mp binds
  unfold assignment
  split
  · exact .bind .advance fun _ => .bind (steady _ (Nat.zero_le _)) fun _ => .pure _
  · exact .fail _

theorem binary_steady {precedence : Precedence} {tokens : List Token} (binds : precedence < (kindOf tokens).precedence)
    (call : kindOf tokens ≠ .leftParen) (index : kindOf tokens ≠ .leftBracket) (left : Expr) :
    (binary nested left).SteadyAt (Token.Kind.Ends precedence) tokens := by
  refine .ofCurrent ?_
  rw [headD_kind]
  obtain ⟨more, less⟩ := rightPrecedence_bounds binds call index
  have right : (nested (kindOf tokens).rightPrecedence).Steady (Token.Kind.Ends precedence) := fun tokens =>
    (steady _ less tokens).mono fun kind ends => ⟨Nat.le_trans ends.1 more, ends.2⟩
  exact Steady.bind .advance (fun _ => .bind right fun _ => .pure _) tokens

include honest

theorem expressions_steady (close : Token.Kind) : (expressions nested close).Steady fits := by
  have item := Steady.attempt (honest .lowest) (nested_rigid steady)
  refine .ifNext (.bind .advance fun _ => .pure _) ?_ (.first .advance) (Or.inr (.first .advance))
  refine .bind .advance fun _ => .before item (fun first => ?_) fun _ => .second fun _ => .first (.expect _)
  refine .before ?_ (fun _ => ?_) fun _ => .first (.expect _)
  · refine fun tokens => .whileNext (fun _ => False.elim) rfl (fun items tokens _ => ?_) _ tokens
    exact Steady.bind .advance (fun _ => .bind item fun _ => .pure _) tokens
  · refine .bind (.expect _) fun _ => ?_
    split
    · exact .pure _
    · exact .reject

/-- Without an alternative, what stands behind the block must not be one. -/
theorem conditional_steady (alone : ∀ kind, fits kind → kind ≠ .kwElse) : (conditional nested).Steady fits := by
  have body {fits : Token.Kind → Prop} : (block (statement nested)).Steady fits :=
    block_steady (statement_honest honest) (statement_rigid steady)
  refine .bind (.expect _) fun _ => .bind .advance fun _ => .before (nested_rigid steady) (fun _ => ?_) fun _ => .first (.expect _)
  refine .bind (.expect _) fun _ => .bind (.expect _) fun _ => .bind body fun _ => ?_
  refine .ifNext ?_ (.pure _) (.first .advance) (Or.inl alone)
  exact .bind .advance fun _ => .bind (.expect _) fun _ => .bind body fun _ => .pure _

theorem function_steady : (function nested).Steady fits := by
  refine .bind (.expect _) fun _ => .bind parameters_steady fun _ => .bind (.expect _) fun _ => ?_
  exact .bind (block_steady (statement_honest honest) (statement_rigid steady)) fun _ => .pure _

theorem operand_steady {precedence : Precedence} (low : precedence ≤ .unary) :
    (operand nested).Steady (Token.Kind.Ends precedence) := by
  refine .bind .current fun token => ?_
  dsimp only
  split
  · exact .bind .current fun _ => .pure _
  · refine .bind .current fun token => ?_
    dsimp only
    split
    · exact .pure _
    · exact .fail _
  · exact .bind .current fun _ => .pure _
  · exact .bind .current fun _ => .pure _
  · exact .bind .current fun _ => .pure _
  · exact unary_steady steady low
  · exact unary_steady steady low
  · exact grouped_steady steady
  · exact conditional_steady honest steady fun _ ends => ends.2
  · exact function_steady honest steady
  · exact .bind (expressions_steady honest steady _) fun _ => .pure _
  · refine .bind .current fun token => ?_
    split
    · exact .fail _
    · exact .fail _
  · exact .fail _

theorem continuation_steady {precedence : Precedence} {tokens : List Token} (binds : precedence < (kindOf tokens).precedence)
    (left : Expr) : (continuation nested left).SteadyAt (Token.Kind.Ends precedence) tokens := by
  refine .ofCurrent ?_
  rw [headD_kind]
  split
  next found =>
    rw [found] at binds
    exact assignment_steady steady binds left tokens
  next => exact Steady.bind (expressions_steady honest steady _) (fun _ => .pure _) tokens
  next => exact index_steady steady left tokens
  next plain call index => exact binary_steady steady binds call index left

theorem climb_steady {precedence : Precedence} (low : precedence ≤ .unary) :
    (climb nested precedence).Steady (Token.Kind.Ends precedence) := by
  refine .bind (operand_steady honest steady low) fun left tokens =>
    .whileNext (fun kind ends => ?_) ?_ (fun left tokens going => ?_) left tokens
  · exact decide_eq_false (Nat.not_lt_of_le ends.1)
  · exact decide_eq_false (Nat.not_lt_zero _)
  · exact continuation_steady honest steady (of_decide_eq_true going) left

end Rules

section Landing

variable {nested : Nested} (lands : ∀ precedence, (nested precedence).Lands)

theorem expressions_lands {close : Token.Kind} (inside : close ≠ .endOfInput) : (expressions nested close).Lands := by
  intro tokens exprs rest accepted
  rw [expressions, accepts_nextKind_bind] at accepted
  split at accepted
  next found =>
    simp only [accepts_bind, accepts_advance, accepts_pure] at accepted
    obtain ⟨_, _, rfl, -, rfl⟩ := accepted
    obtain ⟨literal, position, behind, ahead⟩ := exists_cons_of_kindOf found inside
    exact ahead ▸ List.cons_ne_nil _ _
  next =>
    revert accepted
    refine Lands.second (fun _ => .second fun _ => .second fun items => .first (.expect inside) fun _ => ?_) tokens exprs rest
    split
    · exact .pure _
    · exact .reject

theorem conditional_lands : (conditional nested).Lands := by
  refine .second fun _ => .second fun _ => .second fun _ => .second fun _ => .second fun _ => ?_
  intro tokens expr rest accepted
  obtain ⟨consequence, middle, begun, accepted⟩ := accepts_bind.mp accepted
  rw [accepts_nextKind_bind] at accepted
  split at accepted
  · exact Lands.second (fun _ => .second fun _ => .first (block_lands _) fun _ => .pure _) _ _ _ accepted
  · obtain ⟨-, rfl⟩ := accepts_pure.mp accepted
    exact block_lands _ _ _ _ begun

include lands

theorem operand_lands : (operand nested).Lands := by
  intro tokens expr rest accepted
  rw [operand, accepts_current_bind] at accepted
  cases tokens with
  | nil => exact absurd accepted not_accepts_fail
  | cons token behind =>
    have here {parser : Parser Expr} (stays : parser.Stays) (read : parser.Accepts (token :: behind) expr rest) : rest ≠ [] :=
      stays _ _ _ read ▸ List.cons_ne_nil _ _
    dsimp only at accepted
    split at accepted
    · exact here (.ofCurrent fun _ => .pure _) accepted
    · refine here (.ofCurrent fun _ => ?_) accepted
      dsimp only
      split
      · exact .pure _
      · exact .fail _
    · exact here (.ofCurrent fun _ => .pure _) accepted
    · exact here (.ofCurrent fun _ => .pure _) accepted
    · exact here (.ofCurrent fun _ => .pure _) accepted
    · exact Lands.second (fun _ => .second fun _ => .first (lands _) fun _ => .pure _) _ _ _ accepted
    · exact Lands.second (fun _ => .second fun _ => .first (lands _) fun _ => .pure _) _ _ _ accepted
    · exact Lands.second (fun _ => .second fun _ => .first (.expect (by decide)) fun _ => .pure _) _ _ _ accepted
    · exact conditional_lands _ _ _ accepted
    · exact Lands.second (fun _ => .second fun _ => .second fun _ => .first (block_lands _) fun _ => .pure _) _ _ _ accepted
    · exact Lands.first (expressions_lands (by decide)) (fun _ => .pure _) _ _ _ accepted
    · refine here (.ofCurrent fun token => ?_) accepted
      split
      · exact .fail _
      · exact .fail _
    · exact absurd accepted not_accepts_fail

theorem continuation_lands (left : Expr) : (continuation nested left).Lands := by
  refine .second fun token => ?_
  split
  · unfold assignment
    split
    · exact .second fun _ => .first (lands _) fun _ => .pure _
    · exact fun _ _ _ accepted => absurd accepted not_accepts_fail
  · exact .first (expressions_lands (by decide)) fun _ => .pure _
  · exact .second fun _ => .second fun _ => .first (.expect (by decide)) fun _ => .pure _
  · exact .second fun _ => .second fun _ => .first (lands _) fun _ => .pure _

theorem climb_lands (precedence : Precedence) : (climb nested precedence).Lands := by
  intro tokens expr rest accepted
  obtain ⟨first, middle, begun, looped⟩ := accepts_bind.mp accepted
  refine (accepts_whileNext_induction (fun _ rest => rest ≠ []) ?_ ?_ ?_ looped).1
  · exact operand_lands lands tokens first middle begun
  · exact fun value middle following after _ _ stepped => continuation_lands lands value _ _ _ stepped
  · exact decide_eq_false (Nat.not_lt_zero _)

end Landing

theorem expression_steady (room : Nat) {precedence : Precedence} (low : precedence ≤ .unary) :
    (expression room precedence).Steady (Token.Kind.Ends precedence) := by
  induction room generalizing precedence with
  | zero => exact .tooDeep
  | succ room ih => exact climb_steady (expression_honest room) (fun _ low => ih low) low

theorem expression_lands (room : Nat) (precedence : Precedence) : (expression room precedence).Lands := by
  induction room generalizing precedence with
  | zero => exact fun _ _ _ accepted => absurd accepted not_accepts_tooDeep
  | succ room ih => exact climb_lands ih precedence

/-- An expression that is read without a diagnostic ends before a token that does not bind tighter than it has to; a semicolon is
among these. It is read alike, up to the same token, before any others of which the first is of such a kind, but not an `else`. -/
theorem expression_looks_one_ahead {room : Nat} {precedence : Precedence} (low : precedence ≤ .unary) {tokens rest : List Token}
    {expr : Expr} (accepted : (expression room precedence).Accepts tokens expr rest) :
    ∃ front last behind, tokens = front ++ last :: behind ∧ rest = last :: behind ∧
      (kindOf behind = .semicolon ∨ (kindOf behind).precedence ≤ precedence) ∧
      ∀ others, (kindOf others).precedence ≤ precedence → kindOf others ≠ .kwElse →
        (expression room precedence).Accepts (front ++ last :: others) expr (last :: others) := by
  obtain ⟨-, -, -, ends⟩ := expression_sound room precedence tokens expr rest accepted
  cases rest with
  | nil => exact absurd rfl (expression_lands room precedence tokens expr [] accepted)
  | cons last behind =>
    obtain ⟨front, same, again⟩ := expression_steady room low tokens expr last behind accepted
    exact ⟨front, last, behind, same, rfl, Or.inr ends, fun others less other => again others (Or.inr ⟨less, other⟩)⟩

/-- A negated name to the power of a conditional: three rules look at the same token behind it. -/
def powerOfConditional : List Token :=
  [⟨.minus, "-", 0⟩, ⟨.identifier, "a", 1⟩, ⟨.caret, "^", 3⟩, ⟨.kwIf, "if", 5⟩, ⟨.leftParen, "(", 8⟩, ⟨.identifier, "c", 9⟩,
    ⟨.rightParen, ")", 10⟩, ⟨.leftBrace, "\x7b", 12⟩, ⟨.identifier, "d", 13⟩, ⟨.rightBrace, "\x7d", 14⟩]

theorem power_read_alike_before_product :
    (expression 10 .product).Accepts (powerOfConditional ++ [⟨.asterisk, "*", 16⟩, ⟨.illegal, "?", 17⟩])
      (.binary (.unary .negate (.name "a")) .power (.ifThen (.name "c") [.expr (.name "d")]))
      [⟨.rightBrace, "\x7d", 14⟩, ⟨.asterisk, "*", 16⟩, ⟨.illegal, "?", 17⟩] := by
  have sign : Expression .product [⟨.minus, "-"⟩, ⟨.identifier, "a"⟩] .caret (.unary .negate (.name "a")) :=
    .operand (.unary (Or.inr rfl) (.operand .name) (by decide))
  have exponent : Expression .product [⟨.kwIf, "if"⟩, ⟨.leftParen, "("⟩, ⟨.identifier, "c"⟩, ⟨.rightParen, ")"⟩,
      ⟨.leftBrace, "\x7b"⟩, ⟨.identifier, "d"⟩, ⟨.rightBrace, "\x7d"⟩] .semicolon (.ifThen (.name "c") [.expr (.name "d")]) := by
    refine .operand (.ifThen (.operand .name) (.braces (.cons (.plain (.expr (.operand .name) ?_) ?_) .none)) ?_) <;> decide
  have power : Expression .product (powerOfConditional.map Token.symbol) .semicolon
      (.binary (.unary .negate (.name "a")) .power (.ifThen (.name "c") [.expr (.name "d")])) :=
    .binary sign (by simp [Token.Kind.IsOperator]) (by decide) exponent (by decide)
  obtain ⟨last, accepted⟩ := expression_complete 10 _ _ [⟨.semicolon, ";", 15⟩] _ power (by decide) (by decide)
  obtain ⟨front, last', behind, same, ends, -, again⟩ := expression_looks_one_ahead (by decide) accepted
  obtain ⟨rfl, rfl⟩ := List.cons.inj ends
  have split : powerOfConditional ++ [⟨.semicolon, ";", 15⟩] = (front ++ [last]) ++ [⟨.semicolon, ";", 15⟩] := by
    simpa using same
  have whole := List.append_cancel_right split
  obtain rfl : ⟨.rightBrace, "\x7d", 14⟩ = last := by simpa [powerOfConditional] using congrArg List.getLast? whole
  simpa [whole] using again [⟨.asterisk, "*", 16⟩, ⟨.illegal, "?", 17⟩] (by decide) (by decide)

end Grammar

end Treewalk
