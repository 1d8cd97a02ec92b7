import Treewalk.Proofs.GrammarSoundness
import Treewalk.Proofs.SemicolonPlaces

/-! Reading without a semicolon. The same parser is followed over the tokens with the semicolon and over those without it.
As long as the semicolon is ahead, both see the same current token; where it is the next one, no parser goes on, and neither
does it at the token behind it. Only the end of a statement moves over the semicolon, and from there on the tokens are the
same. -/

namespace Treewalk

/-- A semicolon that may be left out: what stands behind it continues nothing, not even a `return` without a value. -/
structure Omission where
  before : List Token
  semicolon : Token
  behind : List Token
  kind_eq : semicolon.kind = .semicolon
  idle : (kindOf behind).ContinuesNothing
  bare : before.getLast?.map Token.kind = some .kwReturn → (kindOf behind).EndsReturn

namespace Omission

variable (omission : Omission)

/-- What is left of the tokens with the semicolon and of those without it: either the current token stands before the
semicolon, or both are the same. -/
def Beside (tokens others : List Token) : Prop :=
  tokens = others ∨ ∃ front ≠ [], front <:+ omission.before ∧
    tokens = front ++ omission.semicolon :: omission.behind ∧ others = front ++ omission.behind

/-- The semicolon may be the current token as well. -/
def Upcoming (tokens others : List Token) : Prop :=
  (tokens = omission.semicolon :: omission.behind ∧ others = omission.behind) ∨ omission.Beside tokens others

/-- What is left behind the current token. -/
def Over (tokens others : List Token) : Prop := omission.Upcoming tokens.tail others.tail

variable {omission} {tokens others : List Token}

theorem Beside.same (tokens : List Token) : omission.Beside tokens tokens := Or.inl rfl

theorem Beside.head?_eq (beside : omission.Beside tokens others) : tokens.head? = others.head? := by
  rcases beside with same | ⟨front, some_left, -, rfl, rfl⟩
  · rw [same]
  · obtain ⟨token, more, rfl⟩ := List.exists_cons_of_ne_nil some_left
    rfl

theorem Beside.ne_nil (beside : omission.Beside tokens others) (more : tokens ≠ []) : others ≠ [] := by
  rintro rfl
  exact more (List.head?_eq_none_iff.mp beside.head?_eq)

theorem Beside.kindOf_eq (beside : omission.Beside tokens others) : kindOf tokens = kindOf others := by
  have same := beside.head?_eq
  cases tokens <;> cases others <;> simp_all [kindOf]

/-- Where the semicolon is the next token, the current one is the last before it. -/
theorem Beside.tail_cases (beside : omission.Beside tokens others) : omission.Beside tokens.tail others.tail ∨
    ∃ last, omission.before.getLast? = some last ∧ tokens = last :: omission.semicolon :: omission.behind ∧
      others = last :: omission.behind := by
  rcases beside with same | ⟨front, some_left, ending, rfl, rfl⟩
  · exact Or.inl (Or.inl (congrArg List.tail same))
  · obtain ⟨token, more, rfl⟩ := List.exists_cons_of_ne_nil some_left
    rcases more with _ | ⟨next, more⟩
    · obtain ⟨start, whole⟩ := ending
      exact Or.inr ⟨token, by rw [← whole, List.getLast?_concat], rfl, rfl⟩
    · exact Or.inl (Or.inr ⟨next :: more, List.cons_ne_nil _ _, (List.suffix_cons _ _).trans ending, rfl, rfl⟩)

theorem Beside.tail (beside : omission.Beside tokens others) : omission.Over tokens others := by
  rcases beside.tail_cases with beside | ⟨last, -, rfl, rfl⟩
  · exact Or.inr beside
  · exact Or.inl ⟨rfl, rfl⟩

/-- What makes no difference between the semicolon and what stands behind it makes none between the tokens. -/
theorem Upcoming.agree {β : Type} (upcoming : omission.Upcoming tokens others) (test : Token.Kind → β)
    (same : test .semicolon = test (kindOf omission.behind)) : test (kindOf tokens) = test (kindOf others) := by
  rcases upcoming with ⟨rfl, rfl⟩ | beside
  · rw [← same, ← omission.kind_eq]
    rfl
  · rw [beside.kindOf_eq]

theorem Upcoming.beside (upcoming : omission.Upcoming tokens others) (other : kindOf tokens ≠ .semicolon) :
    omission.Beside tokens others :=
  upcoming.resolve_left fun here => other (by rw [here.1]; exact omission.kind_eq)

end Omission

namespace Parser

variable {α β : Type}

/-- What is accepted from the first tokens is accepted from the others as well, and leaves what is related in turn. -/
def Tracks (parser : Parser α) (start finish : List Token → List Token → Prop) : Prop :=
  ∀ tokens others value rest, start tokens others → parser.Accepts tokens value rest →
    ∃ rest', parser.Accepts others value rest' ∧ finish rest rest'

section Rules

variable {start middle finish : List Token → List Token → Prop}

theorem Tracks.bind {first : Parser α} {next : α → Parser β} (head : first.Tracks start middle)
    (tail : ∀ value, (next value).Tracks middle finish) : (first >>= next).Tracks start finish := by
  intro tokens others result rest related accepted
  obtain ⟨value, left, begun, ended⟩ := accepts_bind.mp accepted
  obtain ⟨left', begun, related⟩ := head _ _ _ _ related begun
  obtain ⟨rest', ended, related⟩ := tail value _ _ _ _ related ended
  exact ⟨rest', accepts_bind.mpr ⟨value, left', begun, ended⟩, related⟩

theorem Tracks.pure (value : α) : (Pure.pure value : Parser α).Tracks start start := by
  intro tokens others result rest related accepted
  obtain ⟨rfl, rfl⟩ := accepts_pure.mp accepted
  exact ⟨others, accepts_pure.mpr ⟨rfl, rfl⟩, related⟩

theorem Tracks.fail (diagnostic : Diagnostic) : (Parser.fail diagnostic : Parser α).Tracks start finish :=
  fun _ _ _ _ _ accepted => absurd accepted not_accepts_fail

theorem Tracks.reject : (Parser.reject : Parser α).Tracks start finish :=
  fun _ _ _ _ _ accepted => absurd accepted not_accepts_reject

theorem Tracks.tooDeep : (Parser.tooDeep : Parser α).Tracks start finish :=
  fun _ _ _ _ _ accepted => absurd accepted not_accepts_tooDeep

theorem Tracks.attempt {parser : Parser α} (honest : parser.Honest) (tracks : parser.Tracks start finish) :
    parser.attempt.Tracks start finish := by
  intro tokens others answer rest related accepted
  obtain ⟨value, rfl, read⟩ := (accepts_attempt honest).mp accepted
  obtain ⟨rest', read, related⟩ := tracks _ _ _ _ related read
  exact ⟨rest', read.attempt, related⟩

end Rules

section Omission

variable {omission : Omission}

theorem Tracks.current : current.Tracks omission.Beside omission.Beside := by
  intro tokens others token rest beside accepted
  obtain ⟨rfl, rfl⟩ := accepts_current.mp accepted
  have same := beside.head?_eq
  exact ⟨others, accepts_current.mpr ⟨by simp only [List.headD_eq_head?_getD, same], rfl⟩, beside⟩

theorem Tracks.advance : advance.Tracks omission.Beside omission.Upcoming := by
  intro tokens others done rest beside accepted
  obtain rfl := accepts_advance.mp accepted
  exact ⟨others.tail, accepts_advance.mpr rfl, beside.tail⟩

theorem Tracks.expect {want : Token.Kind} (other : want ≠ .semicolon) :
    (expect want).Tracks omission.Beside omission.Beside := by
  intro tokens others done rest beside accepted
  obtain ⟨found, rfl⟩ := accepts_expect.mp accepted
  have further := beside.tail.beside (found ▸ other)
  exact ⟨others.tail, accepts_expect.mpr ⟨further.kindOf_eq ▸ found, rfl⟩, further⟩

/-- The semicolon is moved over where it is the next token. Where it is missing, nothing is. -/
theorem Tracks.skipNext : (skipNext .semicolon).Tracks omission.Beside omission.Over := by
  intro tokens others done rest beside accepted
  obtain rfl := accepts_skipNext.mp accepted
  refine ⟨_, accepts_skipNext.mpr rfl, ?_⟩
  rcases beside.tail_cases with further | ⟨last, -, rfl, rfl⟩
  · rw [further.kindOf_eq]
    split
    · exact further.tail
    · exact beside.tail
  · have here : kindOf (omission.semicolon :: omission.behind) = .semicolon := omission.kind_eq
    have missing : kindOf omission.behind ≠ .semicolon := fun found => omission.idle.2 (by simp [found])
    rw [List.tail_cons, List.tail_cons, if_pos here, if_neg missing]
    exact Or.inr (.same _)

/-- A choice by the next token is the same at the semicolon as behind it. -/
theorem Tracks.ifNext {finish : List Token → List Token → Prop} {want : Token.Kind} {chosen otherwise : Parser α}
    (other : want ≠ .semicolon) (apart : kindOf omission.behind ≠ want) (first : chosen.Tracks omission.Beside finish)
    (second : otherwise.Tracks omission.Beside finish) :
    (nextKind >>= fun kind => if kind = want then Parser.advance >>= fun _ => chosen else otherwise).Tracks
      omission.Beside finish := by
  intro tokens others value rest beside accepted
  have agree := beside.tail.agree (· = want) (by simp [other.symm, apart])
  rw [accepts_nextKind_bind] at accepted
  simp only [accepts_nextKind_bind]
  by_cases found : kindOf tokens.tail = want
  · have further := beside.tail.beside (found ▸ other)
    rw [if_pos found, accepts_bind] at accepted
    obtain ⟨_, _, moved, accepted⟩ := accepted
    obtain rfl := accepts_advance.mp moved
    obtain ⟨rest', read, related⟩ := first _ _ _ _ further accepted
    refine ⟨rest', ?_, related⟩
    rw [if_pos (further.kindOf_eq ▸ found)]
    exact accepts_bind.mpr ⟨(), _, accepts_advance.mpr rfl, read⟩
  · rw [if_neg found] at accepted
    obtain ⟨rest', read, related⟩ := second _ _ _ _ beside accepted
    refine ⟨rest', ?_, related⟩
    rwa [if_neg (agree ▸ found)]

theorem Tracks.whileNext {continues : Token.Kind → Bool} {step : α → Parser α} (ends : continues .semicolon = false)
    (idle : continues (kindOf omission.behind) = false) (last : continues .endOfInput = false)
    (steps : ∀ value, (step value).Tracks omission.Beside omission.Beside) (start : α) :
    (whileNext continues step start).Tracks omission.Beside omission.Beside := by
  intro tokens others value rest beside accepted
  induction size : tokens.length using Nat.strongRecOn generalizing start tokens others with
  | ind size ih =>
    have agree := beside.tail.agree continues (ends.trans idle.symm)
    by_cases going : continues (kindOf tokens.tail) = true
    · have further := beside.tail.beside fun found => by simp [found, ends] at going
      have more := tail_ne_nil last going
      obtain ⟨following, middle, stepped, accepted⟩ := (accepts_whileNext_step more going).mp accepted
      have shorter := (step start).length_run_tail_lt more
      rw [stepped] at shorter
      obtain ⟨middle', stepped, between⟩ := steps start _ _ _ _ further stepped
      obtain ⟨rest', read, related⟩ := ih _ (size ▸ shorter) following _ _ between accepted rfl
      rw [agree] at going
      have again := (accepts_whileNext_step (tail_ne_nil last going) going).mpr ⟨following, middle', stepped, read⟩
      exact ⟨rest', again, related⟩
    · have stopped : continues (kindOf tokens.tail) = false := by simpa using going
      obtain ⟨rfl, rfl⟩ := (accepts_whileNext_stop stopped).mp accepted
      exact ⟨others, (accepts_whileNext_stop (agree ▸ stopped)).mpr ⟨rfl, rfl⟩, beside⟩

end Omission

end Parser

/-! ### The rules -/

namespace Grammar

open Treewalk.Parser Treewalk.Derivation

variable {omission : Omission}

/-- An expression starts with something, and that is not a semicolon. -/
theorem Sound.starts {nested : Nested} (sound : Sound nested) {precedence : Precedence} {tokens rest : List Token} {expr : Expr}
    (accepted : (nested precedence).Accepts tokens expr rest) : Starts (kindOf tokens) := by
  obtain ⟨consumed, same, derived, -⟩ := sound _ _ _ _ accepted
  rw [same, kindOf_append]
  exact derived.starts

theorem statement_starts {nested : Nested} (sound : Sound nested) {tokens rest : List Token} {stmt : Stmt}
    (accepted : (statement nested).Accepts tokens stmt rest) : kindOf tokens ≠ .semicolon := by
  obtain ⟨consumed, same, derived⟩ := statement_sound sound accepted
  rw [same, kindOf_append]
  rcases derived.starts with found | found | found
  · rw [found]
    decide
  · rw [found]
    decide
  · rintro other
    simp [Starts, other] at found

/-- Statements are read alike, one after the other, up to where both sequences end. -/
theorem sequence_tracks {statement : Parser Stmt} (stops : Token.Kind → Bool) (ends : stops .semicolon = false)
    (honest : statement.Honest)
    (starts : ∀ {tokens stmt rest}, statement.Accepts tokens stmt rest → kindOf tokens ≠ .semicolon)
    (tracks : statement.Tracks omission.Beside omission.Over) {tokens others : List Token}
    (upcoming : omission.Upcoming tokens others) (finished : (sequence statement stops tokens).cutShort = false)
    (silent : (sequence statement stops tokens).diagnostics = []) :
    ∃ rest, sequence statement stops others = ⟨(sequence statement stops tokens).statements, rest, [], false⟩ ∧
      omission.Beside (sequence statement stops tokens).rest rest := by
  fun_induction sequence statement stops tokens generalizing others
  case case1 =>
    have beside := upcoming.beside (by decide : kindOf [] ≠ .semicolon)
    have none_left : others = [] := List.head?_eq_none_iff.mp beside.head?_eq.symm
    exact ⟨others, sequence_stop (Or.inl none_left), beside⟩
  case case2 token behind stopped =>
    have beside := upcoming.beside fun found : token.kind = .semicolon => by simp [found, ends] at stopped
    exact ⟨others, sequence_stop (Or.inr (beside.kindOf_eq ▸ stopped)), beside⟩
  case case3 token behind going first stmt outcome following ih =>
    obtain ⟨quiet, silent⟩ := List.append_eq_nil_iff.mp silent
    have accepted : statement.Accepts (token :: behind) stmt first.rest := Parsed.ext outcome rfl quiet
    have beside := upcoming.beside (starts accepted)
    have going : stops (kindOf others) = false := beside.kindOf_eq ▸ (Bool.not_eq_true _).mp going
    obtain ⟨middle, again, between⟩ := tracks _ _ _ _ beside accepted
    obtain ⟨rest, read, related⟩ := ih between finished silent
    exact ⟨rest, sequence_step (beside.ne_nil (List.cons_ne_nil _ _)) going again read, related⟩
  case case4 token behind going first outcome following ih =>
    obtain ⟨quiet, -⟩ := List.append_eq_nil_iff.mp silent
    exact (honest (token :: behind) first.rest (Parsed.ext outcome rfl quiet)).elim
  case case5 => cases finished

theorem parameters_tracks : parameters.Tracks omission.Beside omission.Beside := by
  refine .ifNext (by decide) (fun found => omission.idle.2 (by simp [found])) (.pure _) ?_
  refine .bind (.expect (by decide)) fun _ => .bind .current fun _ => .bind (.whileNext rfl ?_ rfl (fun _ => ?_) _) fun _ => ?_
  · exact decide_eq_false fun found => omission.idle.2 (by simp [found])
  · exact .bind (.expect (by decide)) fun _ => .bind .current fun _ => .pure _
  · exact .bind (.expect (by decide)) fun _ => .pure _

section Rules

variable {nested : Nested} (sound : Sound nested) (honest : ∀ precedence, (nested precedence).Honest)
variable (tracks : ∀ precedence, (nested precedence).Tracks omission.Beside omission.Beside)

include sound tracks

/-- A nested expression cannot start at the semicolon. -/
theorem nested_tracks (precedence : Precedence) : (nested precedence).Tracks omission.Upcoming omission.Beside := by
  intro tokens others expr rest upcoming accepted
  have starts := sound.starts accepted
  exact tracks precedence _ _ _ _ (upcoming.beside fun found => by simp [Starts, found] at starts) accepted

theorem unary_tracks : (unary nested).Tracks omission.Beside omission.Beside :=
  .bind .current fun _ => .bind .advance fun _ => .bind (nested_tracks sound tracks _) fun _ => .pure _

theorem grouped_tracks : (grouped nested).Tracks omission.Beside omission.Beside :=
  .bind .advance fun _ => .bind (nested_tracks sound tracks _) fun _ => .bind (.expect (by decide)) fun _ => .pure _

theorem index_tracks (collection : Expr) : (index nested collection).Tracks omission.Beside omission.Beside :=
  .bind .advance fun _ => .bind (nested_tracks sound tracks _) fun _ => .bind (.expect (by decide)) fun _ => .pure _

theorem assignment_tracks (target : Expr) : (assignment nested target).Tracks omission.Beside omission.Beside := by
  unfold assignment
  split
  · exact .bind .advance fun _ => .bind (nested_tracks sound tracks _) fun _ => .pure _
  · exact .fail _

theorem binary_tracks (left : Expr) : (binary nested left).Tracks omission.Beside omission.Beside :=
  .bind .current fun _ => .bind .advance fun _ => .bind (nested_tracks sound tracks _) fun _ => .pure _

theorem bindStatement_tracks : (bindStatement nested).Tracks omission.Beside omission.Over := by
  refine .bind (.expect (by decide)) fun _ => .bind .current fun _ => .bind (.expect (by decide)) fun _ => ?_
  exact .bind .advance fun _ => .bind (nested_tracks sound tracks _) fun _ => .bind .skipNext fun _ => .pure _

omit sound in
theorem expressionStatement_tracks : (expressionStatement nested).Tracks omission.Beside omission.Over :=
  .bind (tracks _) fun _ => .bind .skipNext fun _ => .pure _

/-- A `return` that has no value at the semicolon has none at what stands behind it either. -/
theorem returnStatement_tracks {tokens others rest : List Token} {stmt : Stmt} (beside : omission.Beside tokens others)
    (word : kindOf tokens = .kwReturn) (accepted : (returnStatement nested).Accepts tokens stmt rest) :
    ∃ rest', (returnStatement nested).Accepts others stmt rest' ∧ omission.Over rest rest' := by
  rw [returnStatement, accepts_nextKind_bind] at accepted
  simp only [returnStatement, accepts_nextKind_bind]
  rcases beside.tail_cases with further | ⟨last, final, rfl, rfl⟩
  · rw [← further.kindOf_eq]
    split at accepted
    · simp only [accepts_bind, accepts_advance, accepts_pure] at accepted ⊢
      obtain ⟨_, _, rfl, rfl, rfl⟩ := accepted
      exact ⟨others.tail, ⟨(), _, rfl, rfl, rfl⟩, further.tail⟩
    · exact Tracks.pure _ _ _ _ _ beside.tail accepted
    · exact Tracks.pure _ _ _ _ _ beside.tail accepted
    · have value := Tracks.bind .advance fun _ => .bind (nested_tracks sound tracks .lowest) fun expr =>
        .bind .skipNext fun _ => .pure (Stmt.leaveWith expr)
      exact value _ _ _ _ beside accepted
  · have here : kindOf (last :: omission.semicolon :: omission.behind).tail = .semicolon := omission.kind_eq
    rw [here] at accepted
    simp only [accepts_bind, accepts_advance, accepts_pure] at accepted
    obtain ⟨_, _, rfl, rfl, rfl⟩ := accepted
    have bare : last.kind = .kwReturn := word
    have ends := omission.bare (by rw [final, Option.map_some, bare])
    have idle := omission.idle.2
    refine ⟨last :: omission.behind, ?_, Or.inr (.same _)⟩
    simp only [Token.Kind.EndsReturn, List.mem_cons, List.not_mem_nil, or_false] at ends
    rcases ends with found | found | found
    · simp [found] at idle
    · rw [List.tail_cons, found]
      exact accepts_pure.mpr ⟨rfl, rfl⟩
    · rw [List.tail_cons, found]
      exact accepts_pure.mpr ⟨rfl, rfl⟩

theorem statement_tracks : (statement nested).Tracks omission.Beside omission.Over := by
  intro tokens others stmt rest beside accepted
  rw [statement, accepts_current_bind] at accepted
  simp only [statement, accepts_current_bind]
  rw [headD_kind] at accepted ⊢
  rw [← beside.kindOf_eq]
  split at accepted
  next => exact bindStatement_tracks sound tracks _ _ _ _ beside accepted
  next word => exact returnStatement_tracks sound tracks beside word accepted
  next => exact expressionStatement_tracks tracks _ _ _ _ beside accepted

include honest

theorem block_tracks : (block (statement nested)).Tracks omission.Beside omission.Beside := by
  intro tokens others stmts rest beside accepted
  obtain ⟨read, more⟩ := accepts_block.mp accepted
  obtain ⟨rest', again, related⟩ := sequence_tracks (· = .rightBrace) rfl (statement_honest honest) (statement_starts sound)
    (statement_tracks sound tracks) beside.tail (by rw [read]) (by rw [read])
  rw [read] at again related
  exact ⟨rest', accepts_block.mpr ⟨again, related.ne_nil more⟩, related⟩

theorem expressions_tracks {close : Token.Kind} (closes : close = .rightParen ∨ close = .rightBracket) :
    (expressions nested close).Tracks omission.Beside omission.Beside := by
  have other : close ≠ .semicolon := by rcases closes with rfl | rfl <;> decide
  have apart : kindOf omission.behind ≠ close := fun found => omission.idle.2 (by rcases closes with rfl | rfl <;> simp [found])
  have item := Tracks.attempt (honest .lowest) (nested_tracks sound tracks .lowest)
  refine .ifNext other apart (.pure _) ?_
  refine .bind .advance fun _ => .bind item fun _ => .bind (.whileNext rfl ?_ rfl (fun _ => ?_) _) fun _ => ?_
  · exact decide_eq_false fun found => omission.idle.2 (by simp [found])
  · exact .bind .advance fun _ => .bind item fun _ => .pure _
  · refine .bind (.expect other) fun _ => ?_
    split
    · exact .pure _
    · exact .reject

theorem conditional_tracks : (conditional nested).Tracks omission.Beside omission.Beside := by
  have body := block_tracks sound honest tracks
  refine .bind (.expect (by decide)) fun _ => .bind .advance fun _ => .bind (nested_tracks sound tracks _) fun _ => ?_
  refine .bind (.expect (by decide)) fun _ => .bind (.expect (by decide)) fun _ => .bind body fun _ => ?_
  refine .ifNext (by decide) (fun found => omission.idle.2 (by simp [found])) ?_ (.pure _)
  exact .bind (.expect (by decide)) fun _ => .bind body fun _ => .pure _

theorem function_tracks : (function nested).Tracks omission.Beside omission.Beside := by
  refine .bind (.expect (by decide)) fun _ => .bind parameters_tracks fun _ => .bind (.expect (by decide)) fun _ => ?_
  exact .bind (block_tracks sound honest tracks) fun _ => .pure _

theorem operand_tracks : (operand nested).Tracks omission.Beside omission.Beside := by
  refine .bind .current fun token => ?_
  dsimp only
  split
  · exact .bind .current fun _ => .pure _
  · refine .bind .current fun token => ?_
    dsimp only
    split
    · exact .pure _
    · exact .fail _
  · exact .bind .current fun _ => .pure _
  · exact .bind .current fun _ => .pure _
  · exact .bind .current fun _ => .pure _
  · exact unary_tracks sound tracks
  · exact unary_tracks sound tracks
  · exact grouped_tracks sound tracks
  · exact conditional_tracks sound honest tracks
  · exact function_tracks sound honest tracks
  · exact .bind (expressions_tracks sound honest tracks (Or.inr rfl)) fun _ => .pure _
  · refine .bind .current fun token => ?_
    split
    · exact .fail _
    · exact .fail _
  · exact .fail _

theorem continuation_tracks (left : Expr) : (continuation nested left).Tracks omission.Beside omission.Beside := by
  refine .bind .current fun token => ?_
  split
  · exact assignment_tracks sound tracks left
  · exact .bind (expressions_tracks sound honest tracks (Or.inl rfl)) fun _ => .pure _
  · exact index_tracks sound tracks left
  · exact binary_tracks sound tracks left

/-- Neither the semicolon nor what stands behind it binds tighter than anything. -/
theorem climb_tracks (precedence : Precedence) : (climb nested precedence).Tracks omission.Beside omission.Beside := by
  refine .bind (operand_tracks sound honest tracks) fun _ => .whileNext ?_ ?_ ?_ (continuation_tracks sound honest tracks) _
  · exact decide_eq_false (Nat.not_lt_zero _)
  · rw [omission.idle.1]
    exact decide_eq_false (Nat.not_lt_zero _)
  · exact decide_eq_false (Nat.not_lt_zero _)

end Rules

theorem expression_tracks (room : Nat) (precedence : Precedence) :
    (expression room precedence).Tracks omission.Beside omission.Beside := by
  induction room generalizing precedence with
  | zero => exact .tooDeep
  | succ room ih => exact climb_tracks (expression_sound room) (expression_honest room) ih precedence

end Grammar

namespace Program

open Grammar

/-- What is read without a diagnostic is read as the same program without a semicolon that may be left out. -/
theorem ofTokens_omission (omission : Omission) {room : Nat}
    (silent : (ofTokens room (omission.before ++ omission.semicolon :: omission.behind)).2 = []) :
    ofTokens room (omission.before ++ omission.behind) =
      ofTokens room (omission.before ++ omission.semicolon :: omission.behind) := by
  have upcoming : omission.Upcoming (omission.before ++ omission.semicolon :: omission.behind)
      (omission.before ++ omission.behind) := by
    by_cases none_left : omission.before = []
    · exact Or.inl (by rw [none_left]; exact ⟨rfl, rfl⟩)
    · exact Or.inr (Or.inr ⟨omission.before, none_left, List.suffix_rfl, rfl, rfl⟩)
  have sound := expression_sound room
  have honest := expression_honest room
  simp only [ofTokens] at silent ⊢
  split at silent
  next => simp at silent
  next finished =>
    have finished := (Bool.not_eq_true _).mp finished
    obtain ⟨rest, read, -⟩ := sequence_tracks (fun _ => false) rfl (statement_honest honest) (statement_starts sound)
      (statement_tracks sound (expression_tracks room)) upcoming finished silent
    simp only [read, finished, silent]

end Program

end Treewalk
