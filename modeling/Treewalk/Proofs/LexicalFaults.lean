import Treewalk.Proofs.RoundTrip

/-! What is wrong with the tokens of a source themselves is reported once for each, in order, whatever else is wrong
around them. A token is judged where an operand is read from it, and recovery never steps over one that is still to be
judged: every rule stops with the current token judged and the tokens behind it not. So the lexical diagnostics of a rule
and the faults it leaves behind are together the faults it was given, which is kept by all combinators. -/

namespace Treewalk

/-- What is wrong with a token by itself. -/
def Token.fault? (token : Token) : Option Diagnostic :=
  match token.kind with
  | .illegal =>
    some (if token.opensString then .unterminatedString token.position
      else .illegalCharacter token.literal token.position)
  | .integer =>
    if maxInteger < Nat.ofDigitChars 10 token.literal.toList 0 then some (.integerTooLarge token.literal) else none
  | _ => none

/-- Diagnostics about a single token. -/
def Diagnostic.isLexical : Diagnostic → Bool
  | .integerTooLarge _ | .unterminatedString _ | .illegalCharacter _ _ => true
  | _ => false

/-- How the texts of diagnostics about a single token begin. -/
def lexicalPhrases : List String :=
  ["illegal character '", "unterminated string literal at position ", "could not parse "]

def isLexicalText (text : String) : Bool := lexicalPhrases.any fun phrase => phrase.toList.isPrefixOf text.toList

/-- The texts of diagnostics show which of them are about a single token. -/
theorem Diagnostic.isLexicalText_message (diagnostic : Diagnostic) :
    isLexicalText diagnostic.message = diagnostic.isLexical := by
  unfold message
  cases diagnostic <;> simp [isLexicalText, lexicalPhrases, isLexical, List.isPrefixOf_cons_cons]

def lexical (diagnostics : List Diagnostic) : List Diagnostic := diagnostics.filter Diagnostic.isLexical

@[simp] theorem lexical_nil : lexical [] = [] := rfl

@[simp] theorem lexical_append (front back : List Diagnostic) : lexical (front ++ back) = lexical front ++ lexical back :=
  List.filter_append _ _

theorem lexical_single {diagnostic : Diagnostic} (other : diagnostic.isLexical = false) : lexical [diagnostic] = [] := by
  simp [lexical, other]

def faults (tokens : List Token) : List Diagnostic := tokens.filterMap Token.fault?

@[simp] theorem faults_nil : faults [] = [] := rfl

/-- Nothing can be wrong with a token of another kind than these. -/
def Token.Kind.Harmless (kind : Token.Kind) : Prop := kind ≠ .illegal ∧ kind ≠ .integer

instance (kind : Token.Kind) : Decidable kind.Harmless := inferInstanceAs (Decidable (_ ∧ _))

theorem Token.fault?_eq_none {token : Token} (harmless : token.kind.Harmless) : token.fault? = none := by
  unfold fault?
  split
  next illegal => exact absurd illegal harmless.1
  next integer => exact absurd integer harmless.2
  next => rfl

theorem faults_tail {tokens : List Token} (harmless : (kindOf tokens).Harmless) : faults tokens.tail = faults tokens := by
  cases tokens with
  | nil => rfl
  | cons token behind => simp [faults, Token.fault?_eq_none harmless]

/-- With `ahead` still to be judged at the start, what was recorded and what is left add up to the faults of `ahead`. The
limit on nesting is not reached where fewer than `size` tokens are ahead. -/
structure Parsed.Accounts {α : Type} (size : Nat) (ahead : List Token) (parsed : Parsed α) : Prop where
  shorter : parsed.rest.tail.length ≤ ahead.length
  fits : ahead.length < size → parsed.outcome ≠ .tooDeep
  tallies : parsed.outcome ≠ .tooDeep → lexical parsed.diagnostics ++ faults parsed.rest.tail = faults ahead

namespace Parsed.Accounts

variable {α β : Type} {size : Nat} {tokens ahead : List Token}

theorem weaken {less : Nat} {parsed : Parsed α} (accounts : parsed.Accounts size ahead) (smaller : less ≤ size) :
    parsed.Accounts less ahead :=
  { accounts with fits := fun few => accounts.fits (Nat.lt_of_lt_of_le few smaller) }

/-- A harmless token in front makes room for one more level of nesting. -/
theorem ofTail {parsed : Parsed α} (accounts : parsed.Accounts size tokens.tail) (harmless : (kindOf tokens).Harmless)
    (more : tokens ≠ []) : parsed.Accounts (size + 1) tokens where
  shorter := Nat.le_trans accounts.shorter (by simp)
  fits few := accounts.fits (by
    have positive := List.length_pos_iff.mpr more
    simp only [List.length_tail]
    omega)
  tallies finished := (accounts.tallies finished).trans (faults_tail harmless)

theorem ofHead {kind : Token.Kind} {parsed : Parsed α} (accounts : parsed.Accounts size tokens.tail)
    (found : (tokens.headD (.finish 0)).kind = kind) (harmless : kind.Harmless ∧ kind ≠ .endOfInput) :
    parsed.Accounts (size + 1) tokens := by
  have found : kindOf tokens = kind := (headD_kind tokens 0).symm.trans found
  obtain ⟨_, _, _, same⟩ := exists_cons_of_kindOf found harmless.2
  exact accounts.ofTail (found ▸ harmless.1) (by simp [same])

theorem followedBy {first : Parsed α} {next : α → List Token → Parsed β} (head : first.Accounts size ahead)
    (more : ∀ value, first.outcome = .accepted value → (next value first.rest).Accounts size first.rest.tail) :
    (first.followedBy next).Accounts size ahead := by
  unfold Parsed.followedBy
  split
  next value accepted =>
    have finished : first.outcome ≠ .tooDeep := by simp [accepted]
    have others := more value accepted
    refine ⟨Nat.le_trans others.shorter head.shorter, fun few => others.fits (Nat.lt_of_le_of_lt head.shorter few), ?_⟩
    intro done
    rw [lexical_append, List.append_assoc, others.tallies done, head.tallies finished]
  next rejected => exact ⟨head.shorter, fun _ => by simp, fun _ => head.tallies (by simp [rejected])⟩
  next deep => exact ⟨head.shorter, fun few => absurd deep (head.fits few), fun finished => absurd rfl finished⟩

theorem accepted (value : α) (size : Nat) (tokens : List Token) :
    Parsed.Accounts size tokens.tail ⟨.accepted value, tokens, []⟩ :=
  ⟨Nat.le_refl _, fun _ => by simp, fun _ => rfl⟩

/-- Moving on to a token that is harmless needs no word about it. -/
theorem advanced (value : α) (size : Nat) (harmless : (kindOf tokens.tail).Harmless) :
    Parsed.Accounts size tokens.tail ⟨.accepted value, tokens.tail, []⟩ :=
  ⟨by simp, fun _ => by simp, fun _ => faults_tail harmless⟩

theorem failed {diagnostic : Diagnostic} (other : diagnostic.isLexical = false) (size : Nat) (tokens : List Token) :
    Parsed.Accounts size tokens.tail (⟨.rejected, tokens, [diagnostic]⟩ : Parsed α) :=
  ⟨Nat.le_refl _, fun _ => by simp, fun _ => by simp [lexical_single other]⟩

theorem faultless {token : Token} (value : α) (fault : token.fault? = none) (size : Nat) (behind : List Token) :
    Parsed.Accounts size (token :: behind) ⟨.accepted value, token :: behind, []⟩ :=
  ⟨by simp, fun _ => by simp, fun _ => by simp [faults, fault]⟩

/-- Complaining about the current token. -/
theorem blamed {token : Token} {diagnostic : Diagnostic} (fault : token.fault? = some diagnostic)
    (own : diagnostic.isLexical = true) (size : Nat) (behind : List Token) :
    Parsed.Accounts size (token :: behind) (⟨.rejected, token :: behind, [diagnostic]⟩ : Parsed α) :=
  ⟨by simp, fun _ => by simp, fun _ => by simp [lexical, faults, fault, own]⟩

end Parsed.Accounts

namespace Parser

variable {α β : Type} {size : Nat}

/-- The parser starts with the current token still to be judged. -/
def FromCurrent (size : Nat) (parser : Parser α) : Prop := ∀ tokens, (parser.run tokens).Accounts size tokens

/-- The parser starts with the current token judged already. -/
def FromNext (size : Nat) (parser : Parser α) : Prop := ∀ tokens, (parser.run tokens).Accounts size tokens.tail

theorem FromCurrent.bind {first : Parser α} {next : α → Parser β} (head : first.FromCurrent size)
    (more : ∀ value, (next value).FromNext size) : (first >>= next).FromCurrent size :=
  fun tokens => (head tokens).followedBy fun value _ => more value _

theorem FromNext.bind {first : Parser α} {next : α → Parser β} (head : first.FromNext size)
    (more : ∀ value, (next value).FromNext size) : (first >>= next).FromNext size :=
  fun tokens => (head tokens).followedBy fun value _ => more value _

theorem FromNext.weaken {less : Nat} {parser : Parser α} (judges : parser.FromNext size) (smaller : less ≤ size) :
    parser.FromNext less :=
  fun tokens => (judges tokens).weaken smaller

theorem FromNext.pure (value : α) : (pure value : Parser α).FromNext size := Parsed.Accounts.accepted value size

theorem FromNext.reject : (reject : Parser α).FromNext size :=
  fun _ => ⟨Nat.le_refl _, fun _ => by simp [Parser.reject], fun _ => rfl⟩

theorem FromNext.fail {diagnostic : Diagnostic} (other : diagnostic.isLexical = false) :
    (fail diagnostic : Parser α).FromNext size :=
  Parsed.Accounts.failed other size

theorem FromNext.current : Parser.current.FromNext size := fun _ => Parsed.Accounts.accepted _ _ _

/-- Moving on leaves the token that is then the current one to the parser that comes next. -/
theorem FromNext.advance {parser : Parser α} (judges : parser.FromCurrent size) :
    (Parser.advance >>= fun _ => parser).FromNext size :=
  fun tokens => judges tokens.tail

/-- What is done next may depend on the kind of the token behind the current one. -/
theorem FromNext.nextKind {next : Token.Kind → Parser α}
    (more : ∀ tokens, ((next (kindOf tokens.tail)).run tokens).Accounts size tokens.tail) :
    (Parser.nextKind >>= next).FromNext size :=
  more

/-- What is done first may depend on the current token, which is then still to be judged. -/
theorem FromCurrent.ofCurrent {next : Token → Parser α}
    (more : ∀ tokens, ((next (tokens.headD (.finish 0))).run tokens).Accounts size tokens) :
    (Parser.current >>= next).FromCurrent size :=
  more

theorem FromNext.skip {parser : Parser α} (judges : parser.FromNext size) {tokens : List Token}
    (harmless : (kindOf tokens.tail).Harmless) :
    ((Parser.advance >>= fun _ => parser).run tokens).Accounts size tokens.tail :=
  (Parsed.Accounts.advanced () size harmless).followedBy fun _ _ => judges tokens.tail

theorem FromNext.expect {want : Token.Kind} (harmless : want.Harmless) : (Parser.expect want).FromNext size := by
  refine .nextKind fun tokens => ?_
  split
  next found => exact .advanced () size (found ▸ harmless)
  next => exact .failed rfl size tokens

theorem FromNext.skipNext {kind : Token.Kind} (harmless : kind.Harmless) : (Parser.skipNext kind).FromNext size := by
  refine .nextKind fun tokens => ?_
  split
  next found => exact .advanced () size (found ▸ harmless)
  next => exact .accepted () size tokens

theorem FromCurrent.attempt {parser : Parser α} (judges : parser.FromCurrent size) : parser.attempt.FromCurrent size := by
  intro tokens
  have accounts := judges tokens
  simp only [Parser.attempt]
  split
  next accepted => exact ⟨accounts.shorter, fun _ => by simp, fun _ => accounts.tallies (by simp [accepted])⟩
  next rejected => exact ⟨accounts.shorter, fun _ => by simp, fun _ => accounts.tallies (by simp [rejected])⟩
  next deep => exact ⟨accounts.shorter, fun few => absurd deep (accounts.fits few), fun finished => absurd rfl finished⟩

/-- A loop that goes on at harmless tokens only. -/
theorem FromNext.whileNext {continues : Token.Kind → Bool} {step : α → Parser α}
    (harmless : ∀ kind, continues kind = true → kind.Harmless) (steps : ∀ value, (step value).FromNext size)
    (start : α) :
    (whileNext continues step start).FromNext (size + 1) := by
  intro tokens
  change (runWhile continues step start tokens).Accounts (size + 1) tokens.tail
  induction length : tokens.length using Nat.strongRecOn generalizing start tokens with
  | ind length ih =>
    rw [runWhile_eq]
    split
    next going =>
      have round := (steps start tokens.tail).ofTail (harmless _ going.2) going.1
      refine round.followedBy fun value _ => ih _ ?_ value _ rfl
      have shorter := (step start).length_run_tail_lt going.1
      omega
    next => exact .accepted start (size + 1) tokens

end Parser

namespace Grammar

open Treewalk.Parser

/-- A sequence is only left at a token that stops it or at the end of the source. -/
theorem sequence_rest_stops (statement : Parser Stmt) (stops : Token.Kind → Bool) (tokens : List Token) :
    (sequence statement stops tokens).cutShort = false →
      (sequence statement stops tokens).rest = [] ∨ stops (kindOf (sequence statement stops tokens).rest) = true := by
  fun_induction sequence statement stops tokens with
  | case1 => exact fun _ => Or.inl rfl
  | case2 token behind stopped => exact fun _ => Or.inr stopped
  | case3 token behind going first stmt outcome others ih => exact ih
  | case4 token behind going first outcome others ih => exact ih
  | case5 => exact fun whole => Bool.noConfusion whole

section Sequences

variable {size : Nat} {statement : Parser Stmt} (judges : statement.FromCurrent size)

include judges

/-- Going on one token behind the place of a failure loses nothing: the token stepped over is judged. -/
theorem sequence_accounts (stops : Token.Kind → Bool) (tokens : List Token) :
    (tokens.length < size → (sequence statement stops tokens).cutShort = false) ∧
      ((sequence statement stops tokens).cutShort = false →
        lexical (sequence statement stops tokens).diagnostics ++ faults (sequence statement stops tokens).rest =
          faults tokens) := by
  fun_induction sequence statement stops tokens with
  | case1 => exact ⟨fun _ => rfl, fun _ => rfl⟩
  | case2 => exact ⟨fun _ => rfl, fun _ => rfl⟩
  | case3 token behind going first stmt outcome others ih =>
    have accounts := judges (token :: behind)
    have finished : first.outcome ≠ .tooDeep := by simp [outcome]
    refine ⟨fun few => ih.1 (Nat.lt_of_le_of_lt accounts.shorter few), fun whole => ?_⟩
    rw [lexical_append, List.append_assoc, ih.2 whole, accounts.tallies finished]
  | case4 token behind going first outcome others ih =>
    have accounts := judges (token :: behind)
    have finished : first.outcome ≠ .tooDeep := by simp [outcome]
    refine ⟨fun few => ih.1 (Nat.lt_of_le_of_lt accounts.shorter few), fun whole => ?_⟩
    rw [lexical_append, List.append_assoc, ih.2 whole, accounts.tallies finished]
  | case5 token behind going first outcome =>
    exact ⟨fun few => absurd outcome ((judges _).fits few), fun whole => Bool.noConfusion whole⟩

theorem block_judges : (block statement).FromNext size := by
  intro tokens
  obtain ⟨fits, tallies⟩ := sequence_accounts judges (· = .rightBrace) tokens.tail
  have bound := sequence_rest_length_le statement (· = .rightBrace) tokens.tail
  have stopped := sequence_rest_stops statement (· = .rightBrace) tokens.tail
  simp only [block]
  generalize sequence statement (· = .rightBrace) tokens.tail = inside at *
  have shorter : inside.rest.tail.length ≤ tokens.tail.length := Nat.le_trans (by simp) bound
  cases cut : inside.cutShort with
  | true =>
    refine ⟨shorter, fun few => ?_, fun finished => absurd rfl finished⟩
    simp [fits few] at cut
  | false =>
    -- The closing brace is the current token in the end, and harmless.
    have closed : faults inside.rest.tail = faults inside.rest := by
      rcases stopped cut with none | brace
      · rw [none, List.tail_nil]
      · exact faults_tail (of_decide_eq_true brace ▸ by decide)
    have total := tallies cut
    rw [← closed] at total
    simp only [Bool.false_eq_true, if_false]
    split
    next =>
      refine ⟨shorter, fun _ => by simp, fun _ => ?_⟩
      rw [lexical_append, lexical_single rfl, List.append_nil, total]
    next => exact ⟨shorter, fun _ => by simp, fun _ => total⟩

end Sequences

theorem comma_harmless (kind : Token.Kind) (comma : decide (kind = .comma) = true) : kind.Harmless :=
  of_decide_eq_true comma ▸ by decide

theorem parameters_judges (size : Nat) : parameters.FromNext size := by
  refine .nextKind fun tokens => ?_
  split
  next found => exact FromNext.skip (.pure _) (found ▸ by decide)
  next =>
    have further (names : List String) : FromNext size (do
        Parser.expect .identifier
        return (← Parser.current).literal :: names) :=
      .bind (.expect (by decide)) fun _ => .bind .current fun _ => .pure _
    have others (names : List String) := (FromNext.whileNext comma_harmless further names).weaken (Nat.le_succ size)
    refine FromNext.bind (.expect (by decide)) (fun _ => .bind .current fun first => .bind (others _) fun names => ?_) tokens
    exact .bind (.expect (by decide)) fun _ => .pure _

/-- A literal that is too large is blamed; any other is taken as it is. -/
theorem integer_judges (size : Nat) {tokens : List Token} (found : kindOf tokens = .integer) :
    (integer.run tokens).Accounts size tokens := by
  obtain ⟨literal, position, behind, rfl⟩ := exists_cons_of_kindOf found (by decide)
  unfold integer
  rw [run_current_bind]
  dsimp only
  split
  next small => exact .faultless _ (by simp [Token.fault?, Nat.not_lt.mpr small]) size behind
  next large => exact .blamed (by simp [Token.fault?, Nat.lt_of_not_le large]) rfl size behind

theorem illegal_judges (size : Nat) {tokens : List Token} (found : kindOf tokens = .illegal) :
    (illegal.run tokens).Accounts size tokens := by
  obtain ⟨literal, position, behind, rfl⟩ := exists_cons_of_kindOf found (by decide)
  unfold illegal
  rw [run_current_bind]
  split
  next opens => exact .blamed (by simp [Token.fault?, opens]) rfl size behind
  next plain => exact .blamed (by simp [Token.fault?, plain]) rfl size behind

section Rules

variable {size : Nat} {nested : Nested} (judges : ∀ precedence, (nested precedence).FromCurrent size)

include judges

theorem expressions_judges {close : Token.Kind} (harmless : close.Harmless) : (expressions nested close).FromNext size := by
  refine .nextKind fun tokens => ?_
  split
  next found => exact FromNext.skip (.pure _) (found ▸ harmless)
  next =>
    have item := FromCurrent.attempt (judges .lowest)
    have further (items : List (Option Expr)) : FromNext size (do
        Parser.advance
        let item ← Parser.attempt (nested .lowest)
        return item :: items) :=
      FromNext.advance (.bind item fun _ => .pure _)
    refine FromNext.advance (.bind item fun first => .bind ?_ fun items => .bind (.expect harmless) fun _ => ?_) tokens
    · exact FromNext.weaken (.whileNext comma_harmless further _) (Nat.le_succ size)
    · split
      · exact .pure _
      · exact .reject

theorem bindStatement_judges : (bindStatement nested).FromNext size :=
  .bind (.expect (by decide)) fun _ => .bind .current fun _ => .bind (.expect (by decide)) fun _ =>
    .advance (.bind (judges _) fun _ => .bind (.skipNext (by decide)) fun _ => .pure _)

theorem returnStatement_judges : (returnStatement nested).FromNext size := by
  refine .nextKind fun tokens => ?_
  split
  next found => exact FromNext.skip (.pure _) (found ▸ by decide)
  next => exact .accepted _ size tokens
  next => exact .accepted _ size tokens
  next => exact FromNext.advance (.bind (judges _) fun _ => .bind (.skipNext (by decide)) fun _ => .pure _) tokens

theorem expressionStatement_judges : (expressionStatement nested).FromCurrent size :=
  .bind (judges _) fun _ => .bind (.skipNext (by decide)) fun _ => .pure _

theorem statement_judges : (statement nested).FromCurrent size := by
  refine .ofCurrent fun tokens => ?_
  split
  next found => exact ((bindStatement_judges judges tokens).ofHead found (by decide)).weaken (Nat.le_succ size)
  next found => exact ((returnStatement_judges judges tokens).ofHead found (by decide)).weaken (Nat.le_succ size)
  next => exact expressionStatement_judges judges tokens

theorem conditional_judges : (conditional nested).FromNext size := by
  have body := block_judges (statement_judges judges)
  refine .bind (.expect (by decide)) fun _ => .advance (.bind (judges _) fun condition => ?_)
  refine .bind (.expect (by decide)) fun _ => .bind (.expect (by decide)) fun _ => .bind body fun consequence => ?_
  refine .nextKind fun tokens => ?_
  split
  next found => exact FromNext.skip (.bind (.expect (by decide)) fun _ => .bind body fun _ => .pure _) (found ▸ by decide)
  next => exact .accepted _ size tokens

theorem function_judges : (function nested).FromNext size :=
  .bind (.expect (by decide)) fun _ => .bind (parameters_judges size) fun _ => .bind (.expect (by decide)) fun _ =>
    .bind (block_judges (statement_judges judges)) fun _ => .pure _

theorem unary_judges : (unary nested).FromNext size :=
  .bind .current fun _ => .advance (.bind (judges _) fun _ => .pure _)

theorem grouped_judges : (grouped nested).FromNext size :=
  .advance (.bind (judges _) fun _ => .bind (.expect (by decide)) fun _ => .pure _)

theorem assignment_judges (target : Expr) : (assignment nested target).FromNext size := by
  unfold assignment
  split
  · exact .advance (.bind (judges _) fun _ => .pure _)
  · exact .fail rfl

theorem continuation_judges (left : Expr) : (continuation nested left).FromNext size := by
  refine .bind .current fun token => ?_
  split
  · exact assignment_judges judges left
  · exact .bind (expressions_judges judges (by decide)) fun _ => .pure _
  · exact .advance (.bind (judges _) fun _ => .bind (.expect (by decide)) fun _ => .pure _)
  · exact .bind .current fun _ => .advance (.bind (judges _) fun _ => .pure _)

theorem operand_judges : (operand nested).FromCurrent (size + 1) := by
  refine .ofCurrent fun tokens => ?_
  dsimp only
  split
  next found => exact (Parsed.Accounts.accepted _ size tokens).ofHead found (by decide)
  next found => exact integer_judges (size + 1) ((headD_kind tokens 0).symm.trans found)
  next found => exact (Parsed.Accounts.accepted _ size tokens).ofHead found (by decide)
  next found => exact (Parsed.Accounts.accepted _ size tokens).ofHead found (by decide)
  next found => exact (Parsed.Accounts.accepted _ size tokens).ofHead found (by decide)
  next found => exact (unary_judges judges tokens).ofHead found (by decide)
  next found => exact (unary_judges judges tokens).ofHead found (by decide)
  next found => exact (grouped_judges judges tokens).ofHead found (by decide)
  next found => exact (conditional_judges judges tokens).ofHead found (by decide)
  next found => exact (function_judges judges tokens).ofHead found (by decide)
  next found => exact (FromNext.bind (expressions_judges judges (by decide)) (fun _ => .pure _) tokens).ofHead found (by decide)
  next found => exact illegal_judges (size + 1) ((headD_kind tokens 0).symm.trans found)
  next =>
    have harmless : (kindOf tokens).Harmless := by
      rw [← headD_kind tokens 0]
      exact ⟨by assumption, by assumption⟩
    refine ⟨by simp [Parser.fail], fun _ => by simp [Parser.fail], fun _ => ?_⟩
    rw [← faults_tail harmless]
    exact congrArg (· ++ faults tokens.tail) (lexical_single rfl)

theorem climb_judges (precedence : Precedence) : (climb nested precedence).FromCurrent (size + 1) := by
  refine .bind (operand_judges judges) fun left => .whileNext (fun kind binds => ?_) (continuation_judges judges) left
  have binds := of_decide_eq_true binds
  cases kind <;> first | decide | exact absurd binds (Nat.not_lt_zero _)

end Rules

theorem expression_judges (room : Nat) (precedence : Precedence) : (expression room precedence).FromCurrent room := by
  induction room generalizing precedence with
  | zero =>
    intro tokens
    exact ⟨by simp [expression, tooDeep], fun few => absurd few (Nat.not_lt_zero _), fun finished => absurd rfl finished⟩
  | succ room ih => exact climb_judges ih precedence

end Grammar

/-- Nothing is wrong with the end token. -/
theorem Cursor.faults_tokens (cursor : Cursor) : faults cursor.tokens.dropLast = faults cursor.tokens := by
  fun_induction tokens cursor with
  | case1 cursor ended => simp [faults, Token.fault?_eq_none (ended ▸ by decide : cursor.next.1.kind.Harmless)]
  | case2 cursor more ih =>
    rw [List.dropLast_cons_of_ne_nil (tokens_ne_nil _)]
    simp only [faults, List.filterMap_cons] at ih ⊢
    rw [ih]

namespace Program

theorem cutShort_eq_false {room : Nat} {tokens : List Token}
    (uncut : .nestingTooDeep ∉ (ofTokens room tokens).2 ∨ tokens.length < room) :
    (Grammar.sequence (Grammar.statement (Grammar.expression room)) (fun _ => false) tokens).cutShort = false := by
  rcases uncut with silent | few
  · simp only [ofTokens] at silent
    cases cut : (Grammar.sequence (Grammar.statement (Grammar.expression room)) (fun _ => false) tokens).cutShort with
    | false => rfl
    | true => simp [cut] at silent
  · exact (Grammar.sequence_accounts (Grammar.statement_judges (Grammar.expression_judges room)) _ tokens).1 few

theorem lexical_ofTokens {room : Nat} {tokens : List Token}
    (uncut : .nestingTooDeep ∉ (ofTokens room tokens).2 ∨ tokens.length < room) :
    lexical (ofTokens room tokens).2 = faults tokens := by
  have statements := Grammar.statement_judges (Grammar.expression_judges room)
  have tallies := (Grammar.sequence_accounts statements (fun _ => false) tokens).2
  have stopped := Grammar.sequence_rest_stops (Grammar.statement (Grammar.expression room)) (fun _ => false) tokens
  have whole := cutShort_eq_false uncut
  simp only [ofTokens]
  generalize Grammar.sequence (Grammar.statement (Grammar.expression room)) (fun _ => false) tokens = all at *
  have ended : all.rest = [] := (stopped whole).resolve_right Bool.false_ne_true
  simpa [whole, ended] using tallies whole

/-- The diagnostics about single tokens are those that the tokens of the source give cause for, in the order of the
tokens, and their texts are the only ones of that form. -/
structure ReportsFaults (room : Nat) (source : String) : Prop where
  diagnostics : (parseWithin room source).2.filter Diagnostic.isLexical = (Token.stream source).filterMap Token.fault?
  texts : ((parseWithin room source).2.map Diagnostic.message).filter isLexicalText =
    ((Token.stream source).filterMap Token.fault?).map Diagnostic.message

theorem reportsFaults {room : Nat} {source : String}
    (uncut : .nestingTooDeep ∉ (parseWithin room source).2 ∨ source.length < room) : ReportsFaults room source := by
  have few : source.length < room → (Token.scan source).length < room := Nat.lt_of_le_of_lt (Token.scan_length_le source)
  have reported := (lexical_ofTokens (uncut.imp_right few)).trans (Cursor.faults_tokens (.ofString source))
  refine ⟨reported, ?_⟩
  have same : isLexicalText ∘ Diagnostic.message = Diagnostic.isLexical := funext Diagnostic.isLexicalText_message
  rw [List.filter_map, same]
  exact congrArg _ reported

theorem parse_reports_faults (source : String) :
    (∀ room, .nestingTooDeep ∉ (parseWithin room source).2 → ReportsFaults room source) ∧
      (∀ room, source.length < room → ReportsFaults room source) ∧
      ∀ room, ∀ token ∈ Token.stream source, token.fault? ≠ none → (parseWithin room source).2 ≠ [] := by
  refine ⟨fun _ uncut => reportsFaults (.inl uncut), fun _ enough => reportsFaults (.inr enough), ?_⟩
  intro room token member faulty silent
  obtain ⟨fault, found⟩ := Option.ne_none_iff_exists'.mp faulty
  have reported := (reportsFaults (.inl (by simp [silent])) : ReportsFaults room source).diagnostics
  have blamed : fault ∈ (Token.stream source).filterMap Token.fault? := List.mem_filterMap.mpr ⟨token, member, found⟩
  simp [← reported, silent] at blamed

theorem broken_source_reports_faults :
    let source := "let 5 = %; (99999999999999999999 fn(7) \x7b @ 8; [\"open"
    ((parseWithin 60 source).2.map Diagnostic.message).filter isLexicalText =
        ["illegal character '%' at position 8", "could not parse 99999999999999999999 as integer",
          "illegal character '@' at position 41", "unterminated string literal at position 47"] ∧
      (parseWithin 60 source).2.length = 11 ∧ (parseWithin 1 source).2 ≠ [] := by
  obtain ⟨-, reported, refused⟩ := parse_reports_faults "let 5 = %; (99999999999999999999 fn(7) \x7b @ 8; [\"open"
  refine ⟨(reported 60 (by decide +kernel)).texts.trans (by decide +kernel), by decide +kernel, ?_⟩
  exact refused 1 ⟨.illegal, "%", 8⟩ (by decide +kernel) (by decide)

end Program

end Treewalk
