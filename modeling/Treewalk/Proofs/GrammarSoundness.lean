import Treewalk.Proofs.ParserAcceptance
import Treewalk.Proofs.Derivation

/-! Whatever is read without a diagnostic derives. Each rule is followed once, for any parser of nested expressions that
is sound itself and never gives up silently; the nesting limit enters only where these are put together. -/

namespace Treewalk.Grammar

open Treewalk.Parser Treewalk.Derivation

/-- What was read up to `behind` derives before the kind of symbol found there. -/
def Derives (relation : List Symbol → Token.Kind → Prop) (tokens behind : List Token) : Prop :=
  ∃ consumed, tokens = consumed ++ behind ∧ relation (consumed.map Token.symbol) (kindOf behind)

/-- An expression is read to where the next symbol does not continue it. -/
def Sound (nested : Nested) : Prop :=
  ∀ precedence tokens expr rest, (nested precedence).Accepts tokens expr rest →
    Derives (fun symbols next => Expression precedence symbols next expr ∧ next.precedence ≤ precedence) tokens rest.tail

section Rules

variable {nested : Nested} (sound : Sound nested) (honest : ∀ precedence, (nested precedence).Honest)
variable {tokens rest : List Token} {literal : String} {position : Nat} {expr : Expr}

include sound

theorem unary_sound {kind : Token.Kind} (sign : kind = .bang ∨ kind = .minus)
    (accepted : (unary nested).Accepts (⟨kind, literal, position⟩ :: tokens) expr rest) :
    Derives (fun symbols next => Operand symbols next expr) (⟨kind, literal, position⟩ :: tokens) rest.tail := by
  simp only [unary, accepts_bind, accepts_current, accepts_advance, accepts_pure] at accepted
  obtain ⟨_, _, ⟨rfl, rfl⟩, _, _, rfl, inner, _, read, rfl, rfl⟩ := accepted
  obtain ⟨consumed, rfl, derived, ends⟩ := sound _ _ _ _ read
  exact ⟨⟨kind, literal, position⟩ :: consumed, by simp, .unary sign derived ends⟩

theorem grouped_sound (accepted : (grouped nested).Accepts (⟨.leftParen, literal, position⟩ :: tokens) expr rest) :
    Derives (fun symbols next => Operand symbols next expr) (⟨.leftParen, literal, position⟩ :: tokens) rest.tail := by
  simp only [grouped, accepts_bind, accepts_advance, accepts_expect, accepts_pure] at accepted
  obtain ⟨_, _, rfl, inner, middle, read, _, _, ⟨closed, rfl⟩, rfl, rfl⟩ := accepted
  obtain ⟨consumed, rfl, derived, -⟩ := sound _ _ _ _ read
  obtain ⟨right, place, behind, ahead⟩ := exists_cons_of_kindOf closed (by decide)
  rw [ahead] at derived ⊢
  exact ⟨⟨.leftParen, literal, position⟩ :: consumed ++ [⟨.rightParen, right, place⟩], by simp,
    by simpa using! .grouped derived⟩

theorem index_sound {collection : Expr}
    (accepted : (index nested collection).Accepts (⟨.leftBracket, literal, position⟩ :: tokens) expr rest) :
    ∃ place consumed right spot behind, expr = .index collection place ∧
      tokens = consumed ++ ⟨.rightBracket, right, spot⟩ :: behind ∧ rest.tail = behind ∧
      Expression .lowest (consumed.map Token.symbol) .rightBracket place := by
  simp only [index, accepts_bind, accepts_advance, accepts_expect, accepts_pure] at accepted
  obtain ⟨_, _, rfl, place, middle, read, _, _, ⟨closed, rfl⟩, rfl, rfl⟩ := accepted
  obtain ⟨consumed, rfl, derived, -⟩ := sound _ _ _ _ read
  obtain ⟨right, spot, behind, ahead⟩ := exists_cons_of_kindOf closed (by decide)
  rw [ahead] at derived ⊢
  exact ⟨place, consumed, right, spot, behind, rfl, rfl, rfl, derived⟩

include honest

theorem expressions_sound {close : Token.Kind} (inside : close ≠ .endOfInput) {exprs : List Expr} {opening : Token}
    (accepted : (expressions nested close).Accepts (opening :: tokens) exprs rest) :
    ∃ consumed right place behind, tokens = consumed ++ ⟨close, right, place⟩ :: behind ∧ rest.tail = behind ∧
      Arguments close (consumed.map Token.symbol) exprs := by
  simp only [expressions, accepts_bind, accepts_nextKind, List.tail_cons] at accepted
  obtain ⟨_, _, ⟨rfl, rfl⟩, accepted⟩ := accepted
  split at accepted
  next closed =>
    simp only [accepts_bind, accepts_advance, accepts_pure, List.tail_cons] at accepted
    obtain ⟨_, _, rfl, rfl, rfl⟩ := accepted
    obtain ⟨right, place, behind, rfl⟩ := exists_cons_of_kindOf closed inside
    exact ⟨[], right, place, behind, rfl, rfl, .none⟩
  next =>
    simp only [accepts_bind, accepts_advance, List.tail_cons, accepts_attempt (honest _), accepts_expect] at accepted
    obtain ⟨_, _, rfl, _, first, ⟨expr, rfl, read⟩, items, last, looped, _, _, ⟨closed, rfl⟩, accepted⟩ := accepted
    -- The loop holds its items in reverse order. None of them is missing, for a missing one would have been reported.
    let holds (items : List (Option Expr)) (middle : List Token) : Prop := ∃ exprs,
      items = (exprs.map some).reverse ∧ Derives (fun symbols next => Items symbols next exprs) tokens middle.tail
    have kept : holds items last := by
      refine (accepts_whileNext_induction holds ?_ ?_ (by decide) looped).1
      · obtain ⟨consumed, same, derived, ends⟩ := sound _ _ _ _ read
        exact ⟨[expr], rfl, consumed, same, .single derived ends⟩
      · rintro _ middle _ after ⟨exprs, rfl, consumed, same, derived⟩ going stepped
        obtain ⟨comma, place, behind, ahead⟩ := exists_cons_of_kindOf (of_decide_eq_true going) (by decide)
        simp only [ahead, accepts_bind, accepts_advance, accepts_attempt (honest _), accepts_pure, List.tail_cons] at stepped
        obtain ⟨_, _, rfl, _, _, ⟨item, rfl, read⟩, rfl, rfl⟩ := stepped
        obtain ⟨others, rfl, another, ends⟩ := sound _ _ _ _ read
        rw [ahead] at derived same
        exact ⟨exprs ++ [item], by simp, consumed ++ ⟨.comma, comma, place⟩ :: others, by simp [same],
          by simpa using! Items.snoc derived another ends⟩
    obtain ⟨exprs, rfl, consumed, same, derived⟩ := kept
    obtain ⟨right, place, behind, ahead⟩ := exists_cons_of_kindOf closed inside
    rw [List.reverse_reverse, mapM_id_map_some] at accepted
    obtain ⟨rfl, rfl⟩ := accepts_pure.mp accepted
    rw [ahead] at derived same
    exact ⟨consumed, right, place, behind, same, by rw [ahead]; rfl, .some derived⟩

theorem array_sound (accepted : (array nested).Accepts (⟨.leftBracket, literal, position⟩ :: tokens) expr rest) :
    Derives (fun symbols next => Operand symbols next expr) (⟨.leftBracket, literal, position⟩ :: tokens) rest.tail := by
  simp only [array, accepts_bind, accepts_pure] at accepted
  obtain ⟨exprs, _, listed, rfl, rfl⟩ := accepted
  obtain ⟨consumed, right, place, behind, rfl, ahead, derived⟩ := expressions_sound sound honest (by decide) listed
  exact ⟨⟨.leftBracket, literal, position⟩ :: consumed ++ [⟨.rightBracket, right, place⟩], by simp [ahead],
    by simpa using! .array derived⟩

end Rules

theorem isOperator_of_precedence {kind : Token.Kind} (binds : 0 < kind.precedence) (plain : kind ≠ .assign)
    (call : kind ≠ .leftParen) (index : kind ≠ .leftBracket) : kind.IsOperator := by
  cases kind <;> simp_all [Token.Kind.IsOperator, Token.Kind.precedence, Precedence.lowest]

/-! ### Honesty -/

theorem block_honest (statement : Parser Stmt) : (block statement).Honest := by
  intro tokens rest silent
  simp only [GivesUp, block] at silent
  generalize sequence statement (· = .rightBrace) tokens.tail = inside at silent
  obtain ⟨read, behind, diagnostics, cutShort⟩ := inside
  cases cutShort <;> cases behind <;> simp at silent

theorem parameters_honest : parameters.Honest := by
  refine .bind .nextKind fun kind => ?_
  split
  · exact .bind .advance fun _ => .pure _
  · refine .bind (.expect _) fun _ => .bind .current fun _ => .bind (.whileNext _ fun _ => ?_) fun _ => ?_
    · exact .bind (.expect _) fun _ => .bind .current fun _ => .pure _
    · exact .bind (.expect _) fun _ => .pure _

section Honesty

variable {nested : Nested} (honest : ∀ precedence, (nested precedence).Honest)

include honest

theorem statement_honest : (statement nested).Honest := by
  refine .bind .current fun token => ?_
  split
  · refine .bind (.expect _) fun _ => .bind .current fun _ => .bind (.expect _) fun _ => .bind .advance fun _ => ?_
    exact .bind (honest _) fun _ => .bind (.skipNext _) fun _ => .pure _
  · refine .bind .nextKind fun kind => ?_
    split
    · exact .bind .advance fun _ => .pure _
    · exact .pure _
    · exact .pure _
    · exact .bind .advance fun _ => .bind (honest _) fun _ => .bind (.skipNext _) fun _ => .pure _
  · exact .bind (honest _) fun _ => .bind (.skipNext _) fun _ => .pure _

/-- A missing item has been reported before the list is given up. -/
theorem expressions_honest (close : Token.Kind) : (expressions nested close).Honest := by
  refine .bind .nextKind fun kind => ?_
  split
  · exact .bind .advance fun _ => .pure _
  · refine .bind .advance fun _ tokens rest silent => ?_
    rcases givesUp_bind silent with silent | ⟨first, middle, read, silent⟩
    · exact Honest.attempt _ tokens rest silent
    rcases givesUp_bind silent with silent | ⟨items, last, looped, silent⟩
    · refine Honest.whileNext _ (fun items => ?_) middle rest silent
      exact .bind .advance fun _ => .bind (.attempt _) fun _ => .pure _
    rcases givesUp_bind silent with silent | ⟨_, _, _, silent⟩
    · exact Honest.expect close last rest silent
    obtain ⟨expr, rfl, -⟩ := (accepts_attempt (honest _)).mp read
    have complete : ∃ exprs : List Expr, items = exprs.map some := by
      refine (accepts_whileNext_induction (fun items _ => ∃ exprs : List Expr, items = exprs.map some) ⟨[expr], rfl⟩
        ?_ (by decide) looped).1
      rintro _ middle _ after ⟨exprs, rfl⟩ - stepped
      simp only [accepts_bind, accepts_advance, accepts_attempt (honest _), accepts_pure] at stepped
      obtain ⟨_, _, rfl, _, _, ⟨item, rfl, -⟩, rfl, -⟩ := stepped
      exact ⟨item :: exprs, rfl⟩
    obtain ⟨exprs, rfl⟩ := complete
    rw [← List.map_reverse, mapM_id_map_some] at silent
    exact Honest.pure _ _ _ silent

theorem conditional_honest : (conditional nested).Honest := by
  refine .bind (.expect _) fun _ => .bind .advance fun _ => .bind (honest _) fun _ => .bind (.expect _) fun _ => ?_
  refine .bind (.expect _) fun _ => .bind (block_honest _) fun _ => .bind .nextKind fun _ => ?_
  split
  · exact .bind .advance fun _ => .bind (.expect _) fun _ => .bind (block_honest _) fun _ => .pure _
  · exact .pure _

theorem operand_honest : (operand nested).Honest := by
  refine .bind .current fun token => ?_
  dsimp only
  split
  · exact .bind .current fun _ => .pure _
  · refine .bind .current fun token => ?_
    dsimp only
    split
    · exact .pure _
    · exact .fail _
  · exact .bind .current fun _ => .pure _
  · exact .bind .current fun _ => .pure _
  · exact .bind .current fun _ => .pure _
  · exact .bind .current fun _ => .bind .advance fun _ => .bind (honest _) fun _ => .pure _
  · exact .bind .current fun _ => .bind .advance fun _ => .bind (honest _) fun _ => .pure _
  · exact .bind .advance fun _ => .bind (honest _) fun _ => .bind (.expect _) fun _ => .pure _
  · exact conditional_honest honest
  · refine .bind (.expect _) fun _ => .bind parameters_honest fun _ => .bind (.expect _) fun _ => ?_
    exact .bind (block_honest _) fun _ => .pure _
  · exact .bind (expressions_honest honest _) fun _ => .pure _
  · refine .bind .current fun token => ?_
    split
    · exact .fail _
    · exact .fail _
  · exact .fail _

theorem continuation_honest (left : Expr) : (continuation nested left).Honest := by
  refine .bind .current fun token => ?_
  split
  · unfold assignment
    split
    · exact .bind .advance fun _ => .bind (honest _) fun _ => .pure _
    · exact .fail _
  · exact .bind (expressions_honest honest _) fun _ => .pure _
  · exact .bind .advance fun _ => .bind (honest _) fun _ => .bind (.expect _) fun _ => .pure _
  · exact .bind .current fun _ => .bind .advance fun _ => .bind (honest _) fun _ => .pure _

theorem climb_honest (precedence : Precedence) : (climb nested precedence).Honest :=
  .bind (operand_honest honest) fun _ => .whileNext _ (continuation_honest honest)

end Honesty

theorem expression_honest (room : Nat) (precedence : Precedence) : (expression room precedence).Honest := by
  induction room generalizing precedence with
  | zero => exact .tooDeep
  | succ room ih => exact climb_honest ih precedence

/-! ### Names, statements and blocks -/

theorem parameters_sound {tokens rest : List Token} {opening : Token} {names : List String}
    (accepted : parameters.Accepts (opening :: tokens) names rest) :
    ∃ consumed right place behind, tokens = consumed ++ ⟨.rightParen, right, place⟩ :: behind ∧
      rest = ⟨.rightParen, right, place⟩ :: behind ∧ Parameters (consumed.map Token.symbol) names := by
  simp only [parameters, accepts_bind, accepts_nextKind, List.tail_cons] at accepted
  obtain ⟨_, _, ⟨rfl, rfl⟩, accepted⟩ := accepted
  split at accepted
  next closed =>
    simp only [accepts_bind, accepts_advance, accepts_pure, List.tail_cons] at accepted
    obtain ⟨_, _, rfl, rfl, rfl⟩ := accepted
    obtain ⟨right, place, behind, rfl⟩ := exists_cons_of_kindOf closed (by decide)
    exact ⟨[], right, place, behind, rfl, rfl, .none⟩
  next =>
    simp only [accepts_bind, accepts_expect, accepts_current, accepts_pure, List.tail_cons] at accepted
    obtain ⟨_, _, ⟨named, rfl⟩, _, _, ⟨rfl, rfl⟩, found, last, looped, _, _, ⟨closed, rfl⟩, rfl, rfl⟩ := accepted
    obtain ⟨name, spot, others, rfl⟩ := exists_cons_of_kindOf named (by decide)
    let holds (names : List String) (middle : List Token) : Prop :=
      Derives (fun symbols _ => Names symbols names.reverse) (⟨.identifier, name, spot⟩ :: others) middle.tail
    have kept : holds found last := by
      refine (accepts_whileNext_induction holds ?_ ?_ (by decide) looped).1
      · exact ⟨[⟨.identifier, name, spot⟩], rfl, .single⟩
      · rintro names middle _ after ⟨consumed, same, derived⟩ going stepped
        obtain ⟨comma, place, behind, ahead⟩ := exists_cons_of_kindOf (of_decide_eq_true going) (by decide)
        simp only [ahead, accepts_expect, accepts_bind, accepts_current, accepts_pure, List.tail_cons] at stepped
        obtain ⟨_, _, ⟨named, rfl⟩, _, _, ⟨rfl, rfl⟩, rfl, rfl⟩ := stepped
        obtain ⟨another, spot, behind, rfl⟩ := exists_cons_of_kindOf named (by decide)
        rw [ahead] at same
        exact ⟨consumed ++ [⟨.comma, comma, place⟩, ⟨.identifier, another, spot⟩], by simp [same],
          by simpa using! Names.snoc derived⟩
    obtain ⟨consumed, same, derived⟩ := kept
    obtain ⟨right, place, behind, ahead⟩ := exists_cons_of_kindOf closed (by decide)
    rw [ahead] at same ⊢
    exact ⟨consumed, right, place, behind, same, rfl, .some derived⟩

/-- A clause and the semicolon behind it, if there is one. -/
theorem ended_sound {stmt : Stmt} {tokens middle rest : List Token}
    (clause : Derives (fun symbols next => Clause symbols next stmt) tokens middle.tail)
    (moved : (if kindOf middle.tail = .semicolon then middle.tail else middle) = rest) :
    Derives (fun symbols next => Statement symbols next stmt) tokens rest.tail := by
  obtain ⟨consumed, same, derived⟩ := clause
  split at moved
  next found =>
    subst rest
    obtain ⟨literal, place, behind, ahead⟩ := exists_cons_of_kindOf found (by decide)
    rw [ahead] at derived same ⊢
    exact ⟨consumed ++ [⟨.semicolon, literal, place⟩], by simp [same], by simpa using! .ended derived⟩
  next bare =>
    subst rest
    exact ⟨consumed, same, .plain derived bare⟩

section Statements

variable {nested : Nested} (sound : Sound nested) {tokens rest : List Token} {literal : String} {position : Nat} {stmt : Stmt}

include sound

theorem bindStatement_sound (accepted : (bindStatement nested).Accepts (⟨.kwLet, literal, position⟩ :: tokens) stmt rest) :
    Derives (fun symbols next => Statement symbols next stmt) (⟨.kwLet, literal, position⟩ :: tokens) rest.tail := by
  simp only [bindStatement, accepts_bind, accepts_expect, accepts_current, accepts_advance, accepts_skipNext,
    accepts_pure, List.tail_cons] at accepted
  obtain ⟨_, _, ⟨named, rfl⟩, _, _, ⟨rfl, rfl⟩, _, _, ⟨signed, rfl⟩, _, _, rfl, expr, middle, read, _, _, moved, rfl, rfl⟩ :=
    accepted
  obtain ⟨name, spot, others, rfl⟩ := exists_cons_of_kindOf named (by decide)
  obtain ⟨sign, place, behind, rfl⟩ := exists_cons_of_kindOf signed (by decide)
  obtain ⟨consumed, same, derived, ends⟩ := sound _ _ _ _ read
  refine ended_sound ⟨⟨.kwLet, literal, position⟩ :: ⟨.identifier, name, spot⟩ :: ⟨.assign, sign, place⟩ :: consumed, ?_,
    .bind derived ends⟩ moved
  simpa using same

theorem returnStatement_sound
    (accepted : (returnStatement nested).Accepts (⟨.kwReturn, literal, position⟩ :: tokens) stmt rest) :
    Derives (fun symbols next => Statement symbols next stmt) (⟨.kwReturn, literal, position⟩ :: tokens) rest.tail := by
  simp only [returnStatement, accepts_bind, accepts_nextKind, List.tail_cons] at accepted
  obtain ⟨kind, _, ⟨ahead, rfl⟩, accepted⟩ := accepted
  have leaves (found : kind.EndsReturn) : Derives (fun symbols next => Clause symbols next .leave)
      (⟨.kwReturn, literal, position⟩ :: tokens) (Token.mk .kwReturn literal position :: tokens).tail :=
    ⟨[⟨.kwReturn, literal, position⟩], rfl, .leave (ahead ▸ found)⟩
  split at accepted
  case h_1 =>
    simp only [accepts_bind, accepts_advance, accepts_pure, List.tail_cons] at accepted
    obtain ⟨_, _, rfl, rfl, rfl⟩ := accepted
    exact ended_sound (leaves (by simp [Token.Kind.EndsReturn])) (if_pos ahead)
  case h_2 | h_3 =>
    obtain ⟨rfl, rfl⟩ := accepts_pure.mp accepted
    exact ended_sound (leaves (by simp [Token.Kind.EndsReturn])) (if_neg (by simp [ahead]))
  case h_4 =>
    simp only [accepts_bind, accepts_advance, accepts_skipNext, accepts_pure, List.tail_cons] at accepted
    obtain ⟨_, _, rfl, expr, middle, read, _, _, moved, rfl, rfl⟩ := accepted
    obtain ⟨consumed, same, derived, ends⟩ := sound _ _ _ _ read
    refine ended_sound ⟨⟨.kwReturn, literal, position⟩ :: consumed, ?_, .leaveWith derived ends⟩ moved
    simpa using same

theorem expressionStatement_sound (accepted : (expressionStatement nested).Accepts tokens stmt rest) :
    Derives (fun symbols next => Statement symbols next stmt) tokens rest.tail := by
  simp only [expressionStatement, accepts_bind, accepts_skipNext, accepts_pure] at accepted
  obtain ⟨expr, middle, read, _, _, moved, rfl, rfl⟩ := accepted
  obtain ⟨consumed, same, derived, ends⟩ := sound _ _ _ _ read
  exact ended_sound ⟨consumed, same, .expr derived ends⟩ moved

theorem statement_sound (accepted : (statement nested).Accepts tokens stmt rest) :
    Derives (fun symbols next => Statement symbols next stmt) tokens rest.tail := by
  simp only [statement, accepts_bind, accepts_current] at accepted
  obtain ⟨_, _, ⟨rfl, rfl⟩, accepted⟩ := accepted
  split at accepted
  next first =>
    obtain ⟨literal, position, behind, rfl⟩ := exists_cons_of_kindOf ((headD_kind tokens 0).symm.trans first) (by decide)
    exact bindStatement_sound sound accepted
  next first =>
    obtain ⟨literal, position, behind, rfl⟩ := exists_cons_of_kindOf ((headD_kind tokens 0).symm.trans first) (by decide)
    exact returnStatement_sound sound accepted
  next => exact expressionStatement_sound sound accepted

end Statements

/-- A sequence in which every statement is read derives up to where it stops. -/
theorem sequence_sound {statement : Parser Stmt} {stops : Token.Kind → Bool} (honest : statement.Honest)
    (sound : ∀ tokens stmt rest, statement.Accepts tokens stmt rest →
      Derives (fun symbols next => Statement symbols next stmt) tokens rest.tail)
    (tokens : List Token) (finished : (sequence statement stops tokens).cutShort = false)
    (silent : (sequence statement stops tokens).diagnostics = []) :
    Derives (fun symbols next => Statements symbols next (sequence statement stops tokens).statements) tokens
        (sequence statement stops tokens).rest ∧
      ((sequence statement stops tokens).rest = [] ∨ stops (kindOf (sequence statement stops tokens).rest) = true) := by
  fun_induction sequence statement stops tokens with
  | case1 => exact ⟨⟨[], rfl, .none⟩, Or.inl rfl⟩
  | case2 token behind stopped => exact ⟨⟨[], rfl, .none⟩, Or.inr stopped⟩
  | case3 token behind going first stmt outcome others ih =>
    obtain ⟨quiet, silent⟩ := List.append_eq_nil_iff.mp silent
    obtain ⟨consumed, same, derived⟩ := sound (token :: behind) stmt first.rest (Parsed.ext outcome rfl quiet)
    obtain ⟨⟨following, remaining, more⟩, stopped⟩ := ih finished silent
    refine ⟨⟨consumed ++ following, by rw [same, List.append_assoc, ← remaining], ?_⟩, stopped⟩
    rw [remaining, kindOf_append] at derived
    simpa using .cons derived more
  | case4 token behind going first outcome others ih =>
    obtain ⟨quiet, -⟩ := List.append_eq_nil_iff.mp silent
    exact (honest (token :: behind) first.rest (Parsed.ext outcome rfl quiet)).elim
  | case5 => cases finished

section Bodies

variable {nested : Nested} (sound : Sound nested) (honest : ∀ precedence, (nested precedence).Honest)
variable {tokens rest : List Token} {literal : String} {position : Nat} {expr : Expr}

include sound honest

theorem block_sound {stmts : List Stmt}
    (accepted : (block (statement nested)).Accepts (⟨.leftBrace, literal, position⟩ :: tokens) stmts rest) :
    Derives (fun symbols _ => Block symbols stmts) (⟨.leftBrace, literal, position⟩ :: tokens) rest.tail := by
  obtain ⟨read, inside⟩ := accepts_block.mp accepted
  rw [List.tail_cons] at read
  obtain ⟨⟨consumed, same, derived⟩, stopped⟩ := sequence_sound (statement_honest honest) (fun _ _ _ => statement_sound sound)
    tokens (by rw [read]) (by rw [read])
  rw [read] at same derived stopped
  obtain ⟨right, place, behind, rfl⟩ :=
    exists_cons_of_kindOf (of_decide_eq_true (stopped.resolve_left inside)) (by decide)
  exact ⟨⟨.leftBrace, literal, position⟩ :: consumed ++ [⟨.rightBrace, right, place⟩], by simp [same],
    by simpa using! .braces derived⟩

theorem conditional_sound (accepted : (conditional nested).Accepts (⟨.kwIf, literal, position⟩ :: tokens) expr rest) :
    Derives (fun symbols next => Operand symbols next expr) (⟨.kwIf, literal, position⟩ :: tokens) rest.tail := by
  simp only [conditional, accepts_bind, accepts_expect, accepts_advance, accepts_nextKind, List.tail_cons] at accepted
  obtain ⟨_, _, ⟨parens, rfl⟩, _, _, rfl, condition, middle, test, _, _, ⟨closed, rfl⟩, _, _, ⟨braces, rfl⟩, consequence, last,
    body, _, _, ⟨rfl, rfl⟩, accepted⟩ := accepted
  obtain ⟨left, spot, others, rfl⟩ := exists_cons_of_kindOf parens (by decide)
  obtain ⟨consumed, same, derived, -⟩ := sound _ _ _ _ test
  obtain ⟨right, place, behind, ahead⟩ := exists_cons_of_kindOf closed (by decide)
  rw [List.tail_cons] at same
  rw [ahead, List.tail_cons] at braces body
  rw [ahead] at same derived
  obtain ⟨brace, origin, within, rfl⟩ := exists_cons_of_kindOf braces (by decide)
  obtain ⟨block, same', blockDerived⟩ := block_sound sound honest body
  split at accepted
  next other =>
    simp only [accepts_bind, accepts_advance, accepts_expect, accepts_pure] at accepted
    obtain ⟨_, _, rfl, _, _, ⟨braces, rfl⟩, alternative, _, read, rfl, rfl⟩ := accepted
    obtain ⟨otherwise, start, behind, ahead⟩ := exists_cons_of_kindOf other (by decide)
    rw [ahead, List.tail_cons] at braces read
    obtain ⟨brace, origin, within, rfl⟩ := exists_cons_of_kindOf braces (by decide)
    obtain ⟨remaining, same'', otherDerived⟩ := block_sound sound honest read
    refine ⟨⟨.kwIf, literal, position⟩ :: ⟨.leftParen, left, spot⟩ :: consumed ++ ⟨.rightParen, right, place⟩ :: block
      ++ ⟨.kwElse, otherwise, start⟩ :: remaining, ?_, ?_⟩
    · simp [same, same', ahead, same'']
    · simp only [List.map_append, List.map_cons]
      exact .ifElse derived blockDerived otherDerived
  next alone =>
    obtain ⟨rfl, rfl⟩ := accepts_pure.mp accepted
    refine ⟨⟨.kwIf, literal, position⟩ :: ⟨.leftParen, left, spot⟩ :: consumed ++ ⟨.rightParen, right, place⟩ :: block, ?_, ?_⟩
    · simp [same, same']
    · simpa using! .ifThen derived blockDerived alone

theorem function_sound (accepted : (function nested).Accepts (⟨.kwFunction, literal, position⟩ :: tokens) expr rest) :
    Derives (fun symbols next => Operand symbols next expr) (⟨.kwFunction, literal, position⟩ :: tokens) rest.tail := by
  simp only [function, accepts_bind, accepts_expect, accepts_pure, List.tail_cons] at accepted
  obtain ⟨_, _, ⟨parens, rfl⟩, names, _, named, _, _, ⟨braces, rfl⟩, body, _, read, rfl, rfl⟩ := accepted
  obtain ⟨left, spot, others, rfl⟩ := exists_cons_of_kindOf parens (by decide)
  obtain ⟨consumed, right, place, behind, rfl, rfl, derived⟩ := parameters_sound named
  obtain ⟨brace, origin, within, rfl⟩ := exists_cons_of_kindOf braces (by decide)
  obtain ⟨block, same, blockDerived⟩ := block_sound sound honest read
  refine ⟨⟨.kwFunction, literal, position⟩ :: ⟨.leftParen, left, spot⟩ :: consumed ++ ⟨.rightParen, right, place⟩ :: block,
    ?_, ?_⟩
  · simp [same]
  · simpa using! .function derived blockDerived

theorem operand_sound (accepted : (operand nested).Accepts tokens expr rest) :
    Derives (fun symbols next => Operand symbols next expr) tokens rest.tail := by
  simp only [operand, accepts_bind, accepts_current] at accepted
  obtain ⟨_, _, ⟨rfl, rfl⟩, accepted⟩ := accepted
  cases tokens with
  | nil => exact absurd accepted not_accepts_fail
  | cons token behind =>
    obtain ⟨kind, literal, position⟩ := token
    dsimp only [List.headD_cons] at accepted
    split at accepted
    case h_1 =>
      simp only [name, accepts_bind, accepts_current, accepts_pure] at accepted
      obtain ⟨_, _, ⟨rfl, rfl⟩, rfl, rfl⟩ := accepted
      exact ⟨[⟨.identifier, literal, position⟩], rfl, .name⟩
    case h_2 =>
      simp only [integer, accepts_bind, accepts_current] at accepted
      obtain ⟨_, _, ⟨rfl, rfl⟩, accepted⟩ := accepted
      split at accepted
      next small =>
        obtain ⟨rfl, rfl⟩ := accepts_pure.mp accepted
        exact ⟨[⟨.integer, literal, position⟩], rfl, .integer small⟩
      next => exact absurd accepted not_accepts_fail
    case h_3 =>
      simp only [string, accepts_bind, accepts_current, accepts_pure] at accepted
      obtain ⟨_, _, ⟨rfl, rfl⟩, rfl, rfl⟩ := accepted
      exact ⟨[⟨.string, literal, position⟩], rfl, .string⟩
    case h_4 =>
      simp only [boolean, accepts_bind, accepts_current, accepts_pure] at accepted
      obtain ⟨_, _, ⟨rfl, rfl⟩, rfl, rfl⟩ := accepted
      exact ⟨[⟨.kwTrue, literal, position⟩], rfl, .kwTrue⟩
    case h_5 =>
      simp only [boolean, accepts_bind, accepts_current, accepts_pure] at accepted
      obtain ⟨_, _, ⟨rfl, rfl⟩, rfl, rfl⟩ := accepted
      exact ⟨[⟨.kwFalse, literal, position⟩], rfl, .kwFalse⟩
    case h_6 => exact unary_sound sound (Or.inl rfl) accepted
    case h_7 => exact unary_sound sound (Or.inr rfl) accepted
    case h_8 => exact grouped_sound sound accepted
    case h_9 => exact conditional_sound sound honest accepted
    case h_10 => exact function_sound sound honest accepted
    case h_11 => exact array_sound sound honest accepted
    case h_12 =>
      simp only [illegal, accepts_bind, accepts_current] at accepted
      obtain ⟨_, _, ⟨rfl, rfl⟩, accepted⟩ := accepted
      split at accepted <;> exact absurd accepted not_accepts_fail
    case h_13 => exact absurd accepted not_accepts_fail

theorem continuation_sound {precedence : Precedence} {left : Expr} {consumed behind : List Token} {token : Token}
    (derived : Expression precedence (consumed.map Token.symbol) token.kind left) (binds : precedence < token.kind.precedence)
    (accepted : (continuation nested left).Accepts (token :: behind) expr rest) :
    Derives (fun symbols next => Expression precedence symbols next expr) (consumed ++ token :: behind) rest.tail := by
  obtain ⟨kind, literal, position⟩ := token
  simp only [continuation, accepts_bind, accepts_current, List.headD_cons] at accepted
  obtain ⟨_, _, ⟨rfl, rfl⟩, accepted⟩ := accepted
  dsimp only at derived binds accepted
  split at accepted
  next =>
    unfold assignment at accepted
    split at accepted
    next =>
      simp only [accepts_bind, accepts_advance, accepts_pure, List.tail_cons] at accepted
      obtain ⟨_, _, rfl, value, _, read, rfl, rfl⟩ := accepted
      obtain ⟨others, rfl, another, ends⟩ := sound _ _ _ _ read
      exact ⟨consumed ++ ⟨.assign, literal, position⟩ :: others, by simp,
        by simpa using! .assign derived binds another ends⟩
    next => exact absurd accepted not_accepts_fail
  next =>
    simp only [call, accepts_bind, accepts_pure] at accepted
    obtain ⟨exprs, _, listed, rfl, rfl⟩ := accepted
    obtain ⟨others, right, place, behind, rfl, ahead, items⟩ := expressions_sound sound honest (by decide) listed
    refine ⟨consumed ++ ⟨.leftParen, literal, position⟩ :: others ++ [⟨.rightParen, right, place⟩], by simp [ahead], ?_⟩
    simp only [List.map_append, List.map_cons, List.map_nil]
    exact .call derived binds items
  next =>
    obtain ⟨place, others, right, spot, behind, rfl, rfl, ahead, another⟩ := index_sound sound accepted
    refine ⟨consumed ++ ⟨.leftBracket, literal, position⟩ :: others ++ [⟨.rightBracket, right, spot⟩], by simp [ahead], ?_⟩
    simp only [List.map_append, List.map_cons, List.map_nil]
    exact .index derived binds another
  next plain call index =>
    simp only [binary, accepts_bind, accepts_current, accepts_advance, accepts_pure, List.headD_cons] at accepted
    obtain ⟨_, _, ⟨rfl, rfl⟩, _, _, rfl, right, _, read, rfl, rfl⟩ := accepted
    obtain ⟨others, rfl, another, ends⟩ := sound _ _ _ _ read
    have operator : kind.IsOperator := isOperator_of_precedence (Nat.zero_lt_of_lt binds) plain call index
    exact ⟨consumed ++ ⟨kind, literal, position⟩ :: others, by simp,
      by simpa using! .binary derived operator binds another ends⟩

theorem climb_sound {precedence : Precedence} (accepted : (climb nested precedence).Accepts tokens expr rest) :
    Derives (fun symbols next => Expression precedence symbols next expr ∧ next.precedence ≤ precedence) tokens rest.tail := by
  obtain ⟨first, middle, started, looped⟩ := accepts_bind.mp accepted
  let holds (expr : Expr) (middle : List Token) : Prop :=
    Derives (fun symbols next => Expression precedence symbols next expr) tokens middle.tail
  obtain ⟨⟨consumed, same, derived⟩, stopped⟩ :
      holds expr rest ∧ decide (precedence < (kindOf rest.tail).precedence) = false := by
    refine accepts_whileNext_induction holds ?_ ?_ (by simp [Token.Kind.precedence, Precedence.lowest]) looped
    · obtain ⟨consumed, same, derived⟩ := operand_sound sound honest started
      exact ⟨consumed, same, .operand derived⟩
    · rintro left middle _ after ⟨consumed, same, derived⟩ going stepped
      have binds : precedence < (kindOf middle.tail).precedence := of_decide_eq_true going
      cases ahead : middle.tail with
      | nil => simp [ahead, kindOf, Token.Kind.precedence, Precedence.lowest] at binds
      | cons token behind =>
        rw [ahead] at same derived binds stepped
        simp only [holds, same]
        exact continuation_sound sound honest derived binds stepped
  exact ⟨consumed, same, derived, Nat.le_of_not_lt (of_decide_eq_false stopped)⟩

end Bodies

theorem expression_sound (room : Nat) : Sound (expression room) := by
  induction room with
  | zero => exact fun _ _ _ _ accepted => absurd accepted not_accepts_tooDeep
  | succ room ih => exact fun _ _ _ _ accepted => climb_sound ih (expression_honest room) accepted

end Treewalk.Grammar

namespace Treewalk.Program

open Grammar Treewalk.Derivation

/-- A source without diagnostics derives as a whole. -/
theorem ofTokens_sound {room : Nat} {tokens : List Token} (silent : (ofTokens room tokens).2 = []) :
    Statements (tokens.map Token.symbol) .endOfInput (ofTokens room tokens).1.statements := by
  simp only [ofTokens] at silent ⊢
  split at silent
  next => simp at silent
  next finished =>
    obtain ⟨⟨consumed, same, derived⟩, stopped⟩ := sequence_sound (statement_honest (expression_honest room))
      (fun _ _ _ => statement_sound (expression_sound room)) tokens (by simpa using finished) silent
    have all := stopped.resolve_right (by simp)
    rw [all, List.append_nil] at same
    rw [all] at derived
    exact same ▸ derived

end Treewalk.Program
