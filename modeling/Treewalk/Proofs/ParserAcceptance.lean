import Treewalk.Grammar

/-! When parsers accept without complaint, and that none of them rejects without one. A parser that accepts leaves the
last token it read as the current one, so what is still ahead is the tail of what it hands back. -/

namespace Treewalk

@[simp] theorem headD_kind (tokens : List Token) (position : Nat) :
    (tokens.headD (.finish position)).kind = kindOf tokens := by
  cases tokens <;> rfl

theorem exists_cons_of_kindOf {tokens : List Token} {kind : Token.Kind} (found : kindOf tokens = kind)
    (inside : kind ≠ .endOfInput) : ∃ literal position behind, tokens = ⟨kind, literal, position⟩ :: behind := by
  cases tokens with
  | nil => exact absurd found.symm inside
  | cons token behind => exact ⟨token.literal, token.position, behind, by rw [← found]; rfl⟩

theorem Parsed.ext {α : Type} {first second : Parsed α} (outcome : first.outcome = second.outcome)
    (rest : first.rest = second.rest) (diagnostics : first.diagnostics = second.diagnostics) : first = second := by
  cases first
  cases second
  simp_all

theorem mapM_id_map_some {α : Type} (values : List α) : (values.map some).mapM id = some values := by
  induction values with
  | nil => rfl
  | cons value values ih => simp [ih]

namespace Parser

variable {α β : Type}

/-- The parser takes a value from the tokens and records nothing. -/
def Accepts (parser : Parser α) (tokens : List Token) (value : α) (rest : List Token) : Prop :=
  parser.run tokens = ⟨.accepted value, rest, []⟩

/-- The parser gives up and records nothing, so that nobody would learn of it. -/
def GivesUp (parser : Parser α) (tokens rest : List Token) : Prop :=
  parser.run tokens = ⟨.rejected, rest, []⟩

def Honest (parser : Parser α) : Prop := ∀ tokens rest, ¬ parser.GivesUp tokens rest

@[simp] theorem accepts_pure {value result : α} {tokens rest : List Token} :
    (pure value : Parser α).Accepts tokens result rest ↔ value = result ∧ tokens = rest := by
  simp [Accepts, pure, accept]

theorem run_bind (first : Parser α) (next : α → Parser β) (tokens : List Token) :
    (first >>= next).run tokens = match (first.run tokens).outcome with
      | .accepted value =>
        ⟨((next value).run (first.run tokens).rest).outcome, ((next value).run (first.run tokens).rest).rest,
          (first.run tokens).diagnostics ++ ((next value).run (first.run tokens).rest).diagnostics⟩
      | .rejected => ⟨.rejected, (first.run tokens).rest, (first.run tokens).diagnostics⟩
      | .tooDeep => ⟨.tooDeep, (first.run tokens).rest, (first.run tokens).diagnostics⟩ := rfl

theorem run_current_bind (next : Token → Parser β) (token : Token) (behind : List Token) :
    (current >>= next).run (token :: behind) = (next token).run (token :: behind) := rfl

@[simp] theorem accepts_bind {first : Parser α} {next : α → Parser β} {tokens rest : List Token} {result : β} :
    (first >>= next).Accepts tokens result rest ↔
      ∃ value middle, first.Accepts tokens value middle ∧ (next value).Accepts middle result rest := by
  simp only [Accepts, run_bind]
  rcases first.run tokens with ⟨value | _ | _, middle, diagnostics⟩
  · simp only [Parsed.mk.injEq, List.append_eq_nil_iff, Outcome.accepted.injEq]
    constructor
    · rintro ⟨accepted, rfl, rfl, silent⟩
      exact ⟨value, middle, ⟨rfl, rfl, rfl⟩, Parsed.ext accepted rfl silent⟩
    · rintro ⟨_, _, ⟨rfl, rfl, rfl⟩, again⟩
      simp [again]
  · simp
  · simp

@[simp] theorem accepts_current {tokens rest : List Token} {token : Token} :
    current.Accepts tokens token rest ↔ tokens.headD (.finish 0) = token ∧ tokens = rest := by
  simp [Accepts, current]

@[simp] theorem accepts_nextKind {tokens rest : List Token} {kind : Token.Kind} :
    nextKind.Accepts tokens kind rest ↔ kindOf tokens.tail = kind ∧ tokens = rest := by
  simp [Accepts, nextKind]

@[simp] theorem accepts_advance {tokens rest : List Token} {done : Unit} :
    advance.Accepts tokens done rest ↔ tokens.tail = rest := by
  simp [Accepts, advance]

theorem accepts_nextKind_bind {next : Token.Kind → Parser β} {tokens rest : List Token} {result : β} :
    (nextKind >>= next).Accepts tokens result rest ↔ (next (kindOf tokens.tail)).Accepts tokens result rest := by
  rw [accepts_bind]
  constructor
  · rintro ⟨_, _, read, accepted⟩
    obtain ⟨rfl, rfl⟩ := accepts_nextKind.mp read
    exact accepted
  · exact fun accepted => ⟨_, _, accepts_nextKind.mpr ⟨rfl, rfl⟩, accepted⟩

theorem accepts_current_bind {next : Token → Parser β} {tokens rest : List Token} {result : β} :
    (current >>= next).Accepts tokens result rest ↔ (next (tokens.headD (.finish 0))).Accepts tokens result rest := by
  rw [accepts_bind]
  constructor
  · rintro ⟨_, _, read, accepted⟩
    obtain ⟨rfl, rfl⟩ := accepts_current.mp read
    exact accepted
  · exact fun accepted => ⟨_, _, accepts_current.mpr ⟨rfl, rfl⟩, accepted⟩

@[simp] theorem not_accepts_fail {diagnostic : Diagnostic} {tokens rest : List Token} {value : α} :
    ¬ (fail diagnostic).Accepts tokens value rest := by
  simp [Accepts, fail]

@[simp] theorem not_accepts_reject {tokens rest : List Token} {value : α} :
    ¬ (reject : Parser α).Accepts tokens value rest := by
  simp [Accepts, reject]

@[simp] theorem not_accepts_tooDeep {tokens rest : List Token} {value : α} :
    ¬ (tooDeep : Parser α).Accepts tokens value rest := by
  simp [Accepts, tooDeep]

@[simp] theorem accepts_expect {want : Token.Kind} {tokens rest : List Token} {done : Unit} :
    (expect want).Accepts tokens done rest ↔ kindOf tokens.tail = want ∧ tokens.tail = rest := by
  simp only [expect, accepts_bind, accepts_nextKind]
  constructor
  · rintro ⟨kind, _, ⟨rfl, rfl⟩, accepted⟩
    split at accepted
    next found => exact ⟨found, accepts_advance.mp accepted⟩
    next => exact absurd accepted not_accepts_fail
  · rintro ⟨rfl, moved⟩
    exact ⟨_, _, ⟨rfl, rfl⟩, by simpa using moved⟩

/-- Moving over a token of an optional kind never fails. -/
@[simp] theorem accepts_skipNext {kind : Token.Kind} {tokens rest : List Token} {done : Unit} :
    (skipNext kind).Accepts tokens done rest ↔ (if kindOf tokens.tail = kind then tokens.tail else tokens) = rest := by
  simp only [skipNext, accepts_bind, accepts_nextKind]
  constructor
  · rintro ⟨found, _, ⟨rfl, rfl⟩, accepted⟩
    split at accepted
    next same => simpa [same] using accepted
    next other => simpa [Accepts, accept, other] using accepted
  · intro moved
    refine ⟨_, _, ⟨rfl, rfl⟩, ?_⟩
    split at moved
    next same => simpa [same] using moved
    next other => simpa [Accepts, accept, other] using moved

theorem accepts_attempt {parser : Parser α} (honest : parser.Honest) {tokens rest : List Token} {answer : Option α} :
    parser.attempt.Accepts tokens answer rest ↔ ∃ value, answer = some value ∧ parser.Accepts tokens value rest := by
  have spoken := honest tokens
  simp only [Accepts, GivesUp, attempt] at spoken ⊢
  generalize parser.run tokens = parsed at spoken ⊢
  rcases parsed with ⟨value | _ | _, last, diagnostics⟩
  · simp only [Parsed.mk.injEq, Outcome.accepted.injEq]
    constructor
    · rintro ⟨rfl, rfl, rfl⟩
      exact ⟨value, rfl, rfl, rfl, rfl⟩
    · rintro ⟨_, rfl, rfl, rfl, rfl⟩
      exact ⟨rfl, rfl, rfl⟩
  · simp at spoken
    simp [spoken]
  · simp

theorem Accepts.attempt {parser : Parser α} {tokens rest : List Token} {value : α} (accepted : parser.Accepts tokens value rest) :
    parser.attempt.Accepts tokens (some value) rest := by
  simp only [Accepts] at accepted
  simp [Accepts, Parser.attempt, accepted]

/-! ### Loops -/

section Loop

variable {continues : Token.Kind → Bool} {step : α → Parser α} {start result : α} {tokens rest : List Token}

theorem accepts_whileNext_stop (done : continues (kindOf tokens.tail) = false) :
    (whileNext continues step start).Accepts tokens result rest ↔ start = result ∧ tokens = rest := by
  simp only [Accepts, whileNext]
  rw [runWhile]
  split
  next => simp
  next next more ahead =>
    have stopped : continues next.kind = false := by simpa [ahead, kindOf] using done
    simp [stopped]

theorem accepts_whileNext_step (more : tokens.tail ≠ []) (going : continues (kindOf tokens.tail) = true) :
    (whileNext continues step start).Accepts tokens result rest ↔
      ∃ following middle, (step start).Accepts tokens.tail following middle ∧
        (whileNext continues step following).Accepts middle result rest := by
  simp only [Accepts, whileNext]
  rw [runWhile]
  split
  next none => exact absurd none more
  next next others ahead =>
    have goes : continues next.kind = true := by simpa [ahead, kindOf] using going
    simp only [goes, if_true]
    rcases (step start).run tokens.tail with ⟨value | _ | _, middle, diagnostics⟩
    · simp only [Parsed.mk.injEq, List.append_eq_nil_iff, Outcome.accepted.injEq]
      constructor
      · rintro ⟨accepted, rfl, rfl, silent⟩
        exact ⟨value, middle, ⟨rfl, rfl, rfl⟩, Parsed.ext accepted rfl silent⟩
      · rintro ⟨_, _, ⟨rfl, rfl, rfl⟩, again⟩
        simp [again]
    · simp
    · simp

theorem accepts_whileNext_cons {last token : Token} {others : List Token} (going : continues token.kind = true) :
    (whileNext continues step start).Accepts (last :: token :: others) result rest ↔
      ∃ following middle, (step start).Accepts (token :: others) following middle ∧
        (whileNext continues step following).Accepts middle result rest :=
  accepts_whileNext_step (List.cons_ne_nil _ _) going

end Loop

/-- A loop that does not go on at the end of the source has a token to go on at. -/
theorem tail_ne_nil {continues : Token.Kind → Bool} {tokens : List Token} (idle : continues .endOfInput = false)
    (going : continues (kindOf tokens.tail) = true) : tokens.tail ≠ [] := by
  intro none
  simp [none, kindOf, idle] at going

/-- What every round keeps holds in the end, and then the loop has no reason to go on. -/
theorem accepts_whileNext_induction {continues : Token.Kind → Bool} {step : α → Parser α} {start result : α}
    {tokens rest : List Token} (holds : α → List Token → Prop) (first : holds start tokens)
    (keeps : ∀ value middle following after, holds value middle → continues (kindOf middle.tail) = true →
      (step value).Accepts middle.tail following after → holds following after)
    (idle : continues .endOfInput = false)
    (accepted : (whileNext continues step start).Accepts tokens result rest) :
    holds result rest ∧ continues (kindOf rest.tail) = false := by
  by_cases going : continues (kindOf tokens.tail) = true
  · have more := tail_ne_nil idle going
    obtain ⟨following, middle, stepped, others⟩ := (accepts_whileNext_step more going).mp accepted
    have shorter : middle.length < tokens.length := by
      have shorter := (step start).length_run_tail_lt more
      rwa [stepped] at shorter
    exact accepts_whileNext_induction holds (keeps _ _ _ _ first going stepped) keeps idle others
  · have stopped : continues (kindOf tokens.tail) = false := by simpa using going
    obtain ⟨rfl, rfl⟩ := (accepts_whileNext_stop stopped).mp accepted
    exact ⟨first, stopped⟩
termination_by tokens.length

/-! ### Honesty -/

theorem Honest.pure (value : α) : (pure value : Parser α).Honest := by
  intro tokens rest
  simp [GivesUp, Pure.pure, accept]

theorem givesUp_bind {first : Parser α} {next : α → Parser β} {tokens rest : List Token}
    (silent : (first >>= next).GivesUp tokens rest) :
    first.GivesUp tokens rest ∨ ∃ value middle, first.Accepts tokens value middle ∧ (next value).GivesUp middle rest := by
  simp only [GivesUp, Accepts, run_bind] at silent ⊢
  generalize first.run tokens = parsed at silent ⊢
  rcases parsed with ⟨value | _ | _, middle, diagnostics⟩
  · simp only [Parsed.mk.injEq, List.append_eq_nil_iff] at silent
    obtain ⟨rejected, last, rfl, nothing⟩ := silent
    exact Or.inr ⟨value, middle, rfl, Parsed.ext rejected last nothing⟩
  · exact Or.inl (by simpa using silent)
  · simp at silent

theorem Honest.bind {first : Parser α} {next : α → Parser β} (head : first.Honest) (tail : ∀ value, (next value).Honest) :
    (first >>= next).Honest := by
  intro tokens rest silent
  rcases givesUp_bind silent with silent | ⟨value, middle, -, silent⟩
  · exact head tokens rest silent
  · exact tail value middle rest silent

theorem Honest.fail (diagnostic : Diagnostic) : (fail diagnostic : Parser α).Honest := by
  intro tokens rest
  simp [GivesUp, Parser.fail]

theorem Honest.tooDeep : (tooDeep : Parser α).Honest := by
  intro tokens rest
  simp [GivesUp, Parser.tooDeep]

theorem Honest.current : Parser.current.Honest := by
  intro tokens rest
  simp [GivesUp, Parser.current]

theorem Honest.nextKind : Parser.nextKind.Honest := by
  intro tokens rest
  simp [GivesUp, Parser.nextKind]

theorem Honest.advance : Parser.advance.Honest := by
  intro tokens rest
  simp [GivesUp, Parser.advance]

theorem Honest.expect (want : Token.Kind) : (Parser.expect want).Honest := by
  refine .bind .nextKind fun got => ?_
  split
  · exact .advance
  · exact .fail _

theorem Honest.skipNext (kind : Token.Kind) : (Parser.skipNext kind).Honest := by
  refine .bind .nextKind fun got => ?_
  split
  · exact .advance
  · exact .pure ()

theorem Honest.attempt (parser : Parser α) : parser.attempt.Honest := by
  intro tokens rest silent
  simp only [GivesUp, Parser.attempt] at silent
  generalize parser.run tokens = parsed at silent
  rcases parsed with ⟨value | _ | _, middle, diagnostics⟩ <;> simp at silent

theorem Honest.whileNext {continues : Token.Kind → Bool} {step : α → Parser α} (start : α)
    (steps : ∀ value, (step value).Honest) : (Parser.whileNext continues step start).Honest := by
  intro tokens rest silent
  simp only [GivesUp, Parser.whileNext] at silent
  fun_induction runWhile continues step start tokens with
  | case1 => simp at silent
  | case2 value tokens next others ahead going stepped following outcome shorter more ih =>
    simp only [Parsed.mk.injEq, List.append_eq_nil_iff] at silent
    obtain ⟨rejected, last, -, nothing⟩ := silent
    exact ih (Parsed.ext rejected last nothing)
  | case3 value tokens next others ahead going stepped outcome =>
    simp only [Parsed.mk.injEq] at silent
    obtain ⟨-, last, nothing⟩ := silent
    exact steps value tokens.tail _ (Parsed.ext outcome last nothing)
  | case4 => simp at silent
  | case5 => simp at silent

end Parser

/-! ### Sequences -/

namespace Grammar

variable {statement : Parser Stmt} {stops : Token.Kind → Bool} {tokens rest : List Token} {stmts : List Stmt}

theorem sequence_stop (stopped : tokens = [] ∨ stops (kindOf tokens) = true) :
    sequence statement stops tokens = ⟨[], tokens, [], false⟩ := by
  rw [sequence.eq_def]
  cases tokens with
  | nil => rfl
  | cons token behind =>
    have stopped : stops token.kind = true := stopped.resolve_left (List.cons_ne_nil _ _)
    simp only [stopped, if_true]

theorem sequence_step {stmt : Stmt} {middle : List Token} (more : tokens ≠ []) (going : stops (kindOf tokens) = false)
    (first : statement.Accepts tokens stmt middle) (others : sequence statement stops middle.tail = ⟨stmts, rest, [], false⟩) :
    sequence statement stops tokens = ⟨stmt :: stmts, rest, [], false⟩ := by
  rw [sequence.eq_def]
  cases tokens with
  | nil => exact absurd rfl more
  | cons token behind =>
    have going : stops token.kind = false := going
    simp only [Parser.Accepts] at first
    simp [going, first, others]

/-- A sequence is cut short where the limit is reached in a statement, which leaves none. -/
theorem sequence_deep (more : tokens ≠ []) (going : stops (kindOf tokens) = false)
    (deep : (statement.run tokens).outcome = .tooDeep) :
    sequence statement stops tokens = ⟨[], (statement.run tokens).rest, (statement.run tokens).diagnostics, true⟩ := by
  rw [sequence.eq_def]
  cases tokens with
  | nil => exact absurd rfl more
  | cons token behind =>
    have going : stops token.kind = false := going
    simp [going, deep]

/-- A block is read only up to a brace that closes it. -/
theorem accepts_block {statement : Parser Stmt} {tokens rest : List Token} {stmts : List Stmt} :
    (block statement).Accepts tokens stmts rest ↔
      sequence statement (· = .rightBrace) tokens.tail = ⟨stmts, rest, [], false⟩ ∧ rest ≠ [] := by
  simp only [Parser.Accepts, block]
  generalize sequence statement (· = .rightBrace) tokens.tail = inside
  obtain ⟨read, behind, diagnostics, cutShort⟩ := inside
  cases cutShort with
  | true => simp
  | false =>
    cases behind with
    | nil => simpa using fun _ none _ => none
    | cons token behind => simpa using fun _ same _ none => nomatch same.trans none

end Grammar

end Treewalk
