import Treewalk.Proofs.ParserOrder
import Treewalk.Proofs.LexicalFaults

/-! Parsing without a limit on nesting, and what a limit does to it. Every step into a nested expression leaves a token
behind, so the number of tokens is room enough, and the rules read with that much room are the only solution of their own
equations. Whatever it is that bounds the nesting, a source is read as it is without a bound, up to the statement inside
which the bound is met. -/

namespace Treewalk

theorem Parser.ext {α : Type} {first second : Parser α} (same : ∀ tokens, first.run tokens = second.run tokens) :
    first = second := by
  obtain ⟨run, _⟩ := first
  obtain ⟨other, _⟩ := second
  obtain rfl : run = other := funext same
  rfl

namespace Grammar

open Treewalk.Parser

/-! ### No limit -/

/-- Reads an expression however deeply others are nested in it. No level begins without a token of its own. -/
def unlimited : Nested := fun precedence =>
  ⟨fun tokens => (expression (tokens.length + 1) precedence).run tokens,
    fun tokens => (expression (tokens.length + 1) precedence).rest_length_le tokens⟩

theorem unlimited_finishes (precedence : Precedence) (tokens : List Token) :
    ((unlimited precedence).run tokens).outcome ≠ .tooDeep :=
  (expression_judges (tokens.length + 1) precedence tokens).fits (Nat.lt_succ_self _)

theorem unlimited_judges (size : Nat) (precedence : Precedence) : (unlimited precedence).FromCurrent size := fun tokens =>
  { expression_judges (tokens.length + 1) precedence tokens with fits := fun _ => unlimited_finishes precedence tokens }

theorem unlimited_orderly (reached : List Token → Prop) (precedence : Precedence) :
    (unlimited precedence).Orderly reached := fun tokens =>
  { expression_orderly (tokens.length + 1) precedence tokens with
    deep := fun stopped => absurd stopped (unlimited_finishes precedence tokens) }

theorem expression_run_eq {room : Nat} {tokens : List Token} (enough : tokens.length < room) (precedence : Precedence) :
    (expression room precedence).run tokens = (unlimited precedence).run tokens :=
  ((expression_truncates enough precedence tokens).resolve_right fun stopped =>
    unlimited_finishes precedence tokens stopped.1).symm

theorem expression_truncates_unlimited (room : Nat) (precedence : Precedence) :
    (expression room precedence).Truncates (unlimited precedence) := by
  intro tokens
  rcases Nat.lt_or_ge tokens.length room with enough | less
  · exact Or.inl (expression_run_eq enough precedence)
  · exact expression_truncates (Nat.le_succ_of_le less) precedence tokens

/-- Without a limit, expressions nested in others are read by the very rules that read the others. -/
theorem unlimited_eq (precedence : Precedence) : unlimited precedence = climb unlimited precedence := by
  refine Parser.ext fun tokens => ?_
  have less := climb_truncates (expression_truncates_unlimited tokens.length) precedence tokens
  exact less.resolve_right fun stopped => unlimited_finishes precedence tokens stopped.1

/-- Nothing else is read by these rules: any parser that nests itself in them agrees with the limited ones, which have room
for all tokens. -/
theorem eq_climb_iff {nested : Nested} : (∀ precedence, nested precedence = climb nested precedence) ↔ nested = unlimited := by
  refine ⟨fun solves => ?_, fun same => same ▸ unlimited_eq⟩
  have within (room : Nat) (precedence : Precedence) : (expression room precedence).Truncates (nested precedence) := by
    induction room generalizing precedence with
    | zero => exact tooDeep_truncates _
    | succ room ih => exact solves precedence ▸ climb_truncates ih precedence
  refine funext fun precedence => Parser.ext fun tokens => Eq.symm ?_
  exact (within (tokens.length + 1) precedence tokens).resolve_right fun stopped =>
    unlimited_finishes precedence tokens stopped.1

/-! ### Where a program is cut -/

/-- Whole statements are read one after another from the tokens on, until `behind` is left of them. A statement that cannot
be read counts as well. -/
inductive Completes (statement : Parser Stmt) :
    (tokens : List Token) → (stmts : List Stmt) → (found : List Diagnostic) → (behind : List Token) → Prop where
  | nothing (tokens : List Token) : Completes statement tokens [] [] tokens
  | accepted {tokens behind : List Token} {stmt : Stmt} {stmts : List Stmt} {found : List Diagnostic} (more : tokens ≠ [])
      (outcome : (statement.run tokens).outcome = .accepted stmt)
      (others : Completes statement (statement.run tokens).rest.tail stmts found behind) :
      Completes statement tokens (stmt :: stmts) ((statement.run tokens).diagnostics ++ found) behind
  | rejected {tokens behind : List Token} {stmts : List Stmt} {found : List Diagnostic} (more : tokens ≠ [])
      (outcome : (statement.run tokens).outcome = .rejected)
      (others : Completes statement (statement.run tokens).rest.tail stmts found behind) :
      Completes statement tokens stmts ((statement.run tokens).diagnostics ++ found) behind

section Cuts

variable {short full statement : Parser Stmt} {tokens behind : List Token} {stmts : List Stmt} {found : List Diagnostic}

/-- Behind statements that are read, a program goes on as if it began there. -/
theorem Completes.sequence_eq (completes : Completes statement tokens stmts found behind) :
    sequence statement (fun _ => false) tokens =
      { sequence statement (fun _ => false) behind with
        statements := stmts ++ (sequence statement (fun _ => false) behind).statements
        diagnostics := found ++ (sequence statement (fun _ => false) behind).diagnostics } := by
  induction completes with
  | nothing => rfl
  | @accepted tokens _ _ _ _ more outcome others ih =>
    obtain ⟨token, further, rfl⟩ := List.exists_cons_of_ne_nil more
    rw [sequence.eq_def]
    simp [outcome, ih]
  | @rejected tokens _ _ _ more outcome others ih =>
    obtain ⟨token, further, rfl⟩ := List.exists_cons_of_ne_nil more
    rw [sequence.eq_def]
    simp [outcome, ih]

/-- Statements read within a limit are read alike without it. -/
theorem Completes.of_truncates (completes : Completes short tokens stmts found behind) (truncates : short.Truncates full) :
    Completes full tokens stmts found behind := by
  induction completes with
  | nothing => exact .nothing _
  | @accepted tokens _ _ _ _ more outcome others ih =>
    have same := (truncates tokens).resolve_right fun stopped => by simp [outcome] at stopped
    rw [same] at outcome ih ⊢
    exact .accepted more outcome ih
  | @rejected tokens _ _ _ more outcome others ih =>
    have same := (truncates tokens).resolve_right fun stopped => by simp [outcome] at stopped
    rw [same] at outcome ih ⊢
    exact .rejected more outcome ih

/-- A program that is cut short has been read whole up to the statement inside which the limit was reached. -/
theorem exists_completes_of_cutShort :
    (sequence statement (fun _ => false) tokens).cutShort = true → ∃ stmts found behind,
      Completes statement tokens stmts found behind ∧ behind ≠ [] ∧ (statement.run behind).outcome = .tooDeep := by
  fun_induction sequence statement (fun _ => false) tokens with
  | case1 => exact fun cut => Bool.noConfusion cut
  | case2 token behind stopped => exact absurd stopped Bool.false_ne_true
  | case3 token behind going first stmt outcome others ih =>
    intro cut
    obtain ⟨stmts, found, last, completes, deep⟩ := ih cut
    exact ⟨_, _, last, .accepted (List.cons_ne_nil _ _) outcome completes, deep⟩
  | case4 token behind going first outcome others ih =>
    intro cut
    obtain ⟨stmts, found, last, completes, deep⟩ := ih cut
    exact ⟨_, _, last, .rejected (List.cons_ne_nil _ _) outcome completes, deep⟩
  | case5 token behind going first outcome => exact fun _ => ⟨_, _, _, .nothing _, List.cons_ne_nil _ _, outcome⟩

end Cuts

end Grammar

namespace Program

/-- Reads a source text with the given parser of statements. -/
def readBy (statement : Parser Stmt) (source : String) : Program × List Diagnostic :=
  let all := Grammar.sequence statement (fun _ => false) (Token.scan source)
  (⟨all.statements⟩, if all.cutShort then all.diagnostics ++ [.nestingTooDeep] else all.diagnostics)

/-- Reads a source text without a nesting limit. -/
def parseFreely (source : String) : Program × List Diagnostic := readBy (Grammar.statement Grammar.unlimited) source

/-- Nothing is cut short then. -/
theorem parseFreely_eq (source : String) :
    let all := Grammar.sequence (Grammar.statement Grammar.unlimited) (fun _ => false) (Token.scan source)
    parseFreely source = (⟨all.statements⟩, all.diagnostics) := by
  intro all
  have whole : all.cutShort = false :=
    (Grammar.sequence_accounts (Grammar.statement_judges (Grammar.unlimited_judges _)) _ _).1 (Nat.lt_succ_self _)
  simp only [parseFreely, readBy, all, whole, Bool.false_eq_true, if_false]

theorem nestingTooDeep_not_mem_parseFreely (source : String) : .nestingTooDeep ∉ (parseFreely source).2 := by
  rw [parseFreely_eq]
  exact (Grammar.sequence_orderly (Grammar.statement_orderly (Grammar.unlimited_orderly fun _ => False)) _ _).report

/-- A limit is met inside a statement of the source. Up to there statements have been read as they are without the limit, and
they are the program; of that statement only the first diagnostics are kept, with one that says so behind them. -/
structure CutInside (limited : Parser Stmt) (source : String) (stmts : List Stmt) (found : List Diagnostic)
    (behind : List Token) : Prop where
  completed : Grammar.Completes limited (Token.scan source) stmts found behind
  unlimited : Grammar.Completes (Grammar.statement Grammar.unlimited) (Token.scan source) stmts found behind
  started : behind ≠ []
  met : (limited.run behind).outcome = .tooDeep
  result : readBy limited source = (⟨stmts⟩, found ++ (limited.run behind).diagnostics ++ [.nestingTooDeep])
  diagnostics : found ++ (limited.run behind).diagnostics <+: (parseFreely source).2
  statements : stmts <+: (parseFreely source).1.statements

section

variable {limited : Parser Stmt} (truncates : limited.Truncates (Grammar.statement Grammar.unlimited)) {source : String}

include truncates

theorem readBy_eq_of_cutShort_eq_false
    (whole : (Grammar.sequence limited (fun _ => false) (Token.scan source)).cutShort = false) :
    readBy limited source = parseFreely source := by
  have same := (Grammar.sequence_truncates truncates (fun _ => false) (Token.scan source)).resolve_right fun stopped => by
    simp [whole] at stopped
  simp only [readBy, parseFreely, same]

/-- The limit may be met anywhere in a statement, whatever it is that is limited. -/
theorem readBy_cases :
    readBy limited source = parseFreely source ∨ ∃ stmts found behind, CutInside limited source stmts found behind := by
  have shorter := Grammar.sequence_truncates truncates (fun _ => false)
  cases cut : (Grammar.sequence limited (fun _ => false) (Token.scan source)).cutShort with
  | false => exact Or.inl (readBy_eq_of_cutShort_eq_false truncates cut)
  | true =>
    obtain ⟨stmts, found, behind, completed, started, met⟩ := Grammar.exists_completes_of_cutShort cut
    have unlimited := completed.of_truncates truncates
    have stopped : Grammar.sequence limited (fun _ => false) behind = _ := Grammar.sequence_deep started rfl met
    have recorded : (limited.run behind).diagnostics <+:
        (Grammar.sequence (Grammar.statement Grammar.unlimited) (fun _ => false) behind).diagnostics := by
      have short : (Grammar.sequence limited (fun _ => false) behind).diagnostics = (limited.run behind).diagnostics := by
        rw [stopped]
      rcases shorter behind with same | ⟨-, less, -⟩
      · exact short ▸ same ▸ List.prefix_rfl
      · exact short ▸ less
    refine Or.inr ⟨stmts, found, behind, completed, unlimited, started, met, ?_, ?_, ?_⟩
    · simp [readBy, completed.sequence_eq, stopped]
    · rw [parseFreely_eq, unlimited.sequence_eq]
      exact (List.prefix_append_right_inj _).mpr recorded
    · rw [parseFreely_eq, unlimited.sequence_eq]
      exact List.prefix_append _ _

end

theorem statement_truncates_unlimited (room : Nat) :
    (Grammar.statement (Grammar.expression room)).Truncates (Grammar.statement Grammar.unlimited) :=
  Grammar.statement_truncates (Grammar.expression_truncates_unlimited room)

theorem parseWithin_cases (room : Nat) (source : String) :
    parseWithin room source = parseFreely source ∨ ∃ stmts found behind,
      CutInside (Grammar.statement (Grammar.expression room)) source stmts found behind :=
  readBy_cases (statement_truncates_unlimited room)

theorem parseWithin_eq_parseFreely {room : Nat} {source : String} (enough : source.length < room) :
    parseWithin room source = parseFreely source :=
  readBy_eq_of_cutShort_eq_false (statement_truncates_unlimited room)
    (cutShort_eq_false (.inr (Nat.lt_of_le_of_lt (Token.scan_length_le source) enough)))

theorem CutInside.messages {limited : Parser Stmt} {source : String} {stmts : List Stmt} {found : List Diagnostic}
    {behind : List Token} (cut : CutInside limited source stmts found behind) :
    (readBy limited source).2.map Diagnostic.message = found.map Diagnostic.message ++
      (limited.run behind).diagnostics.map Diagnostic.message ++ ["maximum nesting depth exceeded"] := by
  have recorded : (readBy limited source).2 = found ++ (limited.run behind).diagnostics ++ [.nestingTooDeep] := by
    rw [cut.result]
  have text : Diagnostic.nestingTooDeep.message = "maximum nesting depth exceeded" := rfl
  rw [recorded, List.map_append, List.map_append, List.map_singleton, text]

/-- A limit on nesting changes nothing but where reading ends. A source is read as it is by the rules without a limit, of which
there is one reading only, or it is cut inside one of its statements, and its diagnostics show which. This goes for a limit that
is met at any point of a statement, and for one on nested expressions in particular: one that is not met is as good as any higher
one, and one level for each character is never met. -/
theorem nesting_limit_only_truncates (source : String) :
    (∀ nested : Grammar.Nested, (∀ precedence, nested precedence = Grammar.climb nested precedence) ↔
      nested = Grammar.unlimited) ∧
    .nestingTooDeep ∉ (parseFreely source).2 ∧
    (∀ limited : Parser Stmt, limited.Truncates (Grammar.statement Grammar.unlimited) →
      readBy limited source = parseFreely source ∨ ∃ stmts found behind, CutInside limited source stmts found behind) ∧
    (∀ room, parseWithin room source = parseFreely source ∨ ∃ stmts found behind,
      CutInside (Grammar.statement (Grammar.expression room)) source stmts found behind ∧
        (parseWithin room source).2.map Diagnostic.message = found.map Diagnostic.message ++
          ((Grammar.statement (Grammar.expression room)).run behind).diagnostics.map Diagnostic.message ++
          ["maximum nesting depth exceeded"]) ∧
    (∀ room larger, room ≤ larger → .nestingTooDeep ∉ (parseWithin room source).2 →
      parseWithin larger source = parseWithin room source) ∧
    ∀ room, source.length < room → parseWithin room source = parseFreely source := by
  refine ⟨fun _ => Grammar.eq_climb_iff, nestingTooDeep_not_mem_parseFreely source, fun _ truncates => readBy_cases truncates,
    fun room => ?_, fun _ _ less uncut => (parseWithin_eq_of_le less uncut).symm, fun _ => parseWithin_eq_parseFreely⟩
  rcases parseWithin_cases room source with same | ⟨stmts, found, behind, cut⟩
  · exact Or.inl same
  · exact Or.inr ⟨stmts, found, behind, cut, cut.messages⟩

/-- The limit is met in a block inside an argument, behind a mistake of that block that has been recorded by then. -/
theorem limit_met_in_nested_block :
    let source := "let a = 1; @; f(b, fn(x) \x7b x + ; [((2))] \x7d); c"
    let limited := Grammar.statement (Grammar.expression 5)
    (limited.Truncates (Grammar.statement Grammar.unlimited) ∧ ∃ stmts found behind,
      CutInside limited source stmts found behind ∧ stmts.map Stmt.render = ["let a = 1"]) ∧
    (parseWithin 5 source).2.map Diagnostic.message =
      ["illegal character '@' at position 11", "no prefix parse function for token ;",
        "no prefix parse function for token ;", "maximum nesting depth exceeded"] ∧
    (6 ≤ 500 ∧ .nestingTooDeep ∉ (parseWithin 6 source).2 ∧ parseWithin 500 source = parseWithin 6 source) ∧
    source.length < 60 ∧ parseWithin 60 source = parseFreely source ∧
    (parseFreely source).1.statements.map Stmt.render = ["let a = 1", "f(b, fn(x) \x7b [2] \x7d)", "c"] := by
  intro source limited
  obtain ⟨-, -, anywhere, -, above, enough⟩ := nesting_limit_only_truncates source
  have bounded : limited.Truncates (Grammar.statement Grammar.unlimited) := statement_truncates_unlimited 5
  have shown : (parseWithin 5 source).1.statements.map Stmt.render = ["let a = 1"] := by decide +kernel
  have texts : (parseFreely source).1.statements.map Stmt.render = ["let a = 1", "f(b, fn(x) \x7b [2] \x7d)", "c"] := by
    decide +kernel
  have uncut : .nestingTooDeep ∉ (parseWithin 6 source).2 := by
    intro reported
    have message := List.mem_map_of_mem (f := Diagnostic.message) reported
    revert message
    decide +kernel
  refine ⟨⟨bounded, ?_⟩, by decide +kernel, ⟨by decide, uncut, above 6 500 (by decide) uncut⟩, by decide,
    enough 60 (by decide), texts⟩
  rcases anywhere limited bounded with same | ⟨stmts, found, behind, cut⟩
  · have same : parseWithin 5 source = parseFreely source := same
    rw [same, texts] at shown
    exact absurd shown (by decide)
  · have result : parseWithin 5 source = _ := cut.result
    rw [result] at shown
    exact ⟨stmts, found, behind, cut, shown⟩

end Program

end Treewalk
