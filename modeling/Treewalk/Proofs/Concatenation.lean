import Treewalk.Proofs.BracketNesting
import Treewalk.Proofs.Relocation

/-! Sources put behind each other. What derives up to the end of a source derives in front of a semicolon as well, so that a
source without mistakes is read statement by statement in front of any other one, and the other one is then read as it is
on its own. -/

namespace Treewalk

/-! ### Derivations in front of more -/

/-- The last symbol is something else than a semicolon. -/
def Unended (symbols : List Symbol) : Prop := ∃ front last, symbols = front ++ [last] ∧ last.kind ≠ .semicolon

theorem Unended.single {symbol : Symbol} (other : symbol.kind ≠ .semicolon) : Unended [symbol] := ⟨[], symbol, rfl, other⟩

theorem Unended.append {back : List Symbol} (unended : Unended back) (front : List Symbol) : Unended (front ++ back) := by
  obtain ⟨between, last, rfl, other⟩ := unended
  exact ⟨front ++ between, last, (List.append_assoc ..).symm, other⟩

theorem Unended.cons {symbols : List Symbol} (unended : Unended symbols) (symbol : Symbol) : Unended (symbol :: symbols) :=
  unended.append [symbol]

namespace Derivation

theorem Block.unended {symbols : List Symbol} {stmts : List Stmt} (derived : Block symbols stmts) : Unended symbols := by
  cases derived with
  | braces _ => exact .append (.single (by simp)) _

mutual

theorem Operand.unended {symbols : List Symbol} {next : Token.Kind} {expr : Expr} : Operand symbols next expr → Unended symbols
  | .name | .integer _ | .string | .kwTrue | .kwFalse => .single (by simp)
  | .unary _ inner _ => inner.unended.cons _
  | .grouped _ | .array _ => .append (.single (by simp)) _
  | .ifThen _ body _ => (body.unended.cons _).append _
  | .ifElse _ _ other => (other.unended.cons _).append _
  | .function _ body => (body.unended.cons _).append _

theorem Expression.unended {precedence : Precedence} {symbols : List Symbol} {next : Token.Kind} {expr : Expr} :
    Expression precedence symbols next expr → Unended symbols
  | .operand first => first.unended
  | .assign _ _ value _ => (value.unended.cons _).append _
  | .call _ _ _ | .index _ _ _ => .append (.single (by simp)) _
  | .binary _ _ _ second _ => (second.unended.cons _).append _

end

theorem Clause.unended {symbols : List Symbol} {next : Token.Kind} {stmt : Stmt} (derived : Clause symbols next stmt) :
    Unended symbols := by
  cases derived with
  | bind value _ => exact ((value.unended.cons _).cons _).cons _
  | leave _ => exact .single (by simp)
  | leaveWith value _ => exact value.unended.cons _
  | expr value _ => exact value.unended

mutual

/-- What ends before one symbol ends before any other that binds no tighter and does not go on with the conditional. -/
theorem Operand.before {symbols : List Symbol} {next other : Token.Kind} {expr : Expr}
    (looser : other.precedence ≤ next.precedence) (alone : other ≠ .kwElse) :
    Operand symbols next expr → Operand symbols other expr
  | .name => .name
  | .integer small => .integer small
  | .string => .string
  | .kwTrue => .kwTrue
  | .kwFalse => .kwFalse
  | .unary sign inner ends => .unary sign (inner.before looser alone) (Nat.le_trans looser ends)
  | .grouped inner => .grouped inner
  | .array items => .array items
  | .ifThen test body _ => .ifThen test body alone
  | .ifElse test body final => .ifElse test body final
  | .function names body => .function names body

theorem Expression.before {precedence : Precedence} {symbols : List Symbol} {next other : Token.Kind} {expr : Expr}
    (looser : other.precedence ≤ next.precedence) (alone : other ≠ .kwElse) :
    Expression precedence symbols next expr → Expression precedence symbols other expr
  | .operand first => .operand (first.before looser alone)
  | .assign target binds value ends => .assign target binds (value.before looser alone) (Nat.le_trans looser ends)
  | .call callee binds items => .call callee binds items
  | .index whole binds inner => .index whole binds inner
  | .binary first operator binds second ends =>
    .binary first operator binds (second.before looser alone) (Nat.le_trans looser ends)

end

theorem Clause.beforeSemicolon {symbols : List Symbol} {stmt : Stmt} (derived : Clause symbols .endOfInput stmt) :
    Clause symbols .semicolon stmt := by
  have looser : Token.Kind.semicolon.precedence ≤ Token.Kind.endOfInput.precedence := Nat.le_refl _
  cases derived with
  | bind value ends => exact .bind (value.before looser (by simp)) ends
  | leave _ => exact .leave (by simp [Token.Kind.EndsReturn])
  | leaveWith value ends => exact .leaveWith (value.before looser (by simp)) ends
  | expr value ends => exact .expr (value.before looser (by simp)) ends

/-- The semicolon that ends the last statement, if it has none of its own. -/
def closing (symbols : List Symbol) : List Symbol :=
  if symbols.getLast?.all (·.kind = .semicolon) then [] else [.mark .semicolon]

theorem closing_append {back : List Symbol} (some_left : back ≠ []) (front : List Symbol) :
    closing (front ++ back) = closing back := by
  obtain ⟨last, found⟩ := Option.isSome_iff_exists.mp (List.getLast?_isSome.mpr some_left)
  simp [closing, List.getLast?_append, found]

theorem Statement.before {symbols : List Symbol} {stmt : Stmt} (derived : Statement symbols .endOfInput stmt)
    (next : Token.Kind) : Statement (symbols ++ closing symbols) next stmt := by
  cases derived with
  | plain clause _ =>
    obtain ⟨front, last, same, other⟩ := clause.unended
    rw [closing, same, List.getLast?_concat, Option.all_some, if_neg (by simpa using other), ← same]
    exact .ended clause.beforeSemicolon
  | ended clause =>
    rw [closing, List.getLast?_concat, Option.all_some, if_pos (by simp), List.append_nil]
    exact .ended clause

theorem Statements.eq_nil {symbols : List Symbol} {next : Token.Kind} {stmts : List Stmt}
    (derived : Statements symbols next stmts) (none_left : symbols = []) : stmts = [] := by
  cases derived with
  | none => rfl
  | cons first _ => exact absurd (List.append_eq_nil_iff.mp none_left).1 first.ne_nil

/-- What is read up to the end of a source is read in front of anything, once its last statement is ended. -/
theorem Statements.before {symbols : List Symbol} {stmts : List Stmt} : Statements symbols .endOfInput stmts →
    ∀ next, Statements (symbols ++ closing symbols) next stmts
  | .none, _ => .none
  | @Statements.cons symbols rest _ _ _ first others, next => by
    by_cases none_left : rest = []
    · obtain rfl := others.eq_nil none_left
      subst none_left
      have alone : Statements (symbols ++ closing symbols ++ []) next _ := .cons (first.before _) .none
      simpa using alone
    · rw [List.append_assoc, closing_append none_left]
      refine .cons ?_ (others.before next)
      rw [headKind_append none_left]
      obtain ⟨symbol, behind, rfl⟩ := List.exists_cons_of_ne_nil none_left
      exact first

end Derivation

/-! ### Reading in front of more -/

/-- A sequence with statements before it. -/
def Sequence.after (stmts : List Stmt) (all : Sequence) : Sequence := { all with statements := stmts ++ all.statements }

namespace Grammar

open Treewalk.Parser Treewalk.Derivation

variable {statement : Parser Stmt} {tokens : List Token}

theorem sequence_accepted (stops : Token.Kind → Bool) {stmt : Stmt} {middle : List Token} (more : tokens ≠ [])
    (going : stops (kindOf tokens) = false) (first : statement.Accepts tokens stmt middle) :
    sequence statement stops tokens = (sequence statement stops middle.tail).after [stmt] := by
  obtain ⟨token, behind, rfl⟩ := List.exists_cons_of_ne_nil more
  have going : stops token.kind = false := going
  rw [sequence.eq_def]
  simp only [Parser.Accepts] at first
  simp [going, first, Sequence.after]

theorem sequence_cutShort {stops : Token.Kind → Bool} (more : tokens ≠ []) (going : stops (kindOf tokens) = false)
    (deep : (statement.run tokens).outcome = .tooDeep) : (sequence statement stops tokens).cutShort = true := by
  rw [sequence_deep more going deep]

/-- A statement that derives is read, unless the limit on nesting is reached in it. -/
theorem statement_reads {room : Nat} {behind : List Token} {stmt : Stmt}
    (derived : Statement (tokens.map Token.symbol) (kindOf behind) stmt) :
    Reads (Grammar.statement (expression room)) tokens behind stmt ∨
      ((Grammar.statement (expression room)).run (tokens ++ behind)).outcome = .tooDeep := by
  obtain ⟨last, read⟩ := statement_complete (expression_complete (max room tokens.length)) derived rfl rfl (Nat.le_max_right _ _)
  rcases statement_truncates (expression_truncates (Nat.le_max_left room tokens.length)) (tokens ++ behind) with same | ⟨deep, -⟩
  · exact Or.inl ⟨last, same.trans read⟩
  · exact Or.inr deep

/-- Statements that derive are read one by one, and then what stands behind them. -/
theorem statements_read {room : Nat} {symbols : List Symbol} {next : Token.Kind} {stmts : List Stmt} :
    Statements symbols next stmts → ∀ tokens behind : List Token, tokens.map Token.symbol = symbols → kindOf behind = next →
      (sequence (Grammar.statement (expression room)) (fun _ => false) (tokens ++ behind)).cutShort = false →
      sequence (Grammar.statement (expression room)) (fun _ => false) (tokens ++ behind) =
        (sequence (Grammar.statement (expression room)) (fun _ => false) behind).after stmts
  | .none, tokens, behind, same, _, _ => by
    obtain rfl := List.map_eq_nil_iff.mp same
    rfl
  | .cons first others, tokens, behind, same, ahead, whole => by
    obtain ⟨before, after, rfl, front, back⟩ := List.map_eq_append_iff.mp same
    have following := kindOf_append after behind
    rw [back, ahead] at following
    rw [← front, ← following] at first
    have some_left : before ≠ [] := by
      rintro rfl
      exact first.ne_nil rfl
    rw [List.append_assoc] at whole ⊢
    rcases statement_reads first with ⟨last, read⟩ | deep
    · have stepped := sequence_accepted (fun _ => false) (by simp [some_left]) rfl read
      rw [stepped] at whole ⊢
      rw [List.tail_cons, statements_read others after behind back ahead whole]
      rfl
    · rw [sequence_cutShort (by simp [some_left]) rfl deep] at whole
      cases whole

end Grammar

/-! ### Tokens of joined sources -/

theorem Placed.map_token_shifted (offset : Nat) (placed : List Placed) :
    (placed.map (shifted offset)).map token = (placed.map token).map (Token.moved (· + offset)) := by
  rw [List.map_map, List.map_map]
  rfl

theorem Token.map_placed (offset : Nat) (source : String) :
    (Cursor.mk offset source.toList).placed.map Placed.token = (scan source).map (moved (· + offset)) := by
  have shift := (Cursor.ofString source).placed_shifted offset
  rw [Cursor.shifted, Cursor.ofString, Nat.zero_add] at shift
  rw [shift, Placed.map_token_shifted, scan_eq_placed]
  rfl

/-- Without a string that is never closed, a source with a line break behind it is scanned as it is on its own whatever follows.
What follows is scanned as it is on its own as well, at its new place. -/
theorem Token.stream_append_newline {first : String} (closed : ∀ token ∈ stream first, token.isUnclosedString = false)
    (second : String) :
    stream first = scan first ++ [finish first.length] ∧
      stream (first ++ "\n" ++ second) = scan first ++ (stream second).map (moved (· + (first.length + 1))) := by
  have ended (source : String) : stream source = scan source ++ [finish source.length] := by
    rw [scan_eq_placed, stream, Cursor.tokens_eq_placed]
    simp [Cursor.ofString, String.length_toList]
  have sealed : (Cursor.ofString first).Closed := by
    intro placed member
    have listed : placed.token ∈ scan first := by
      rw [scan_eq_placed]
      exact List.mem_map_of_mem member
    exact closed placed.token (List.dropLast_subset _ listed)
  have last : finish (first ++ "\n" ++ second).length = moved (· + (first.length + 1)) (finish second.length) := by
    simp only [finish, moved, String.length_append, show "\n".length = 1 from rfl, Token.mk.injEq, true_and]
    omega
  refine ⟨ended first, ?_⟩
  rw [ended, last, scan_eq_placed, Cursor.placed_ofString_append sealed, List.map_append, map_placed, ← scan_eq_placed, ended,
    List.map_append, List.append_assoc]
  rfl

/-- Neither the operator nor the comment goes on in the next line. -/
theorem Token.stream_half_operator_comment :
    (∀ token ∈ stream "a = !", token.isUnclosedString = false) ∧ (∀ token ∈ stream "b //", token.isUnclosedString = false) ∧
      (stream "a = !\n= b").map kind = [.identifier, .assign, .bang, .assign, .identifier, .endOfInput] ∧
      (stream "b //\n\"c").map literal = ["b", "\"c", ""] := by
  have bang : ∀ token ∈ stream "a = !", token.isUnclosedString = false := by decide +kernel
  have comment : ∀ token ∈ stream "b //", token.isUnclosedString = false := by decide +kernel
  have first := (stream_append_newline bang "= b").2
  have second := (stream_append_newline comment "\"c").2
  refine ⟨bang, comment, ?_, ?_⟩
  · rw [show "a = !\n= b" = "a = !" ++ "\n" ++ "= b" from rfl, first]
    decide +kernel
  · rw [show "b //\n\"c" = "b //" ++ "\n" ++ "\"c" from rfl, second]
    decide +kernel

theorem Cursor.placed_semicolon (position : Nat) (rest : List Char) :
    (Cursor.mk position (';' :: rest)).placed =
      ⟨position, ⟨.semicolon, ";", 1⟩⟩ :: (Cursor.mk (position + 1) rest).placed := by
  have layout : (Cursor.mk position (';' :: rest)).skipLayout = ⟨position, ';' :: rest⟩ :=
    skipLayout_eq_self (@AtLexeme.mark .semicolon (by decide) rest trivial)
  rw [placed_of_lexeme (by rw [layout]; simp), behindLexeme, layout]
  rfl

/-- What has to stand between a source and another one. -/
def separator (source : String) : String :=
  if (Token.scan source).getLast?.all (·.kind = .semicolon) then "\n" else "\n;"

theorem Token.scan_separator {first : String} (closed : (Cursor.ofString first).Closed) (second : String) :
    ∃ between, scan (first ++ separator first ++ second) =
        scan first ++ between ++ (scan second).map (moved (· + (first ++ separator first).length)) ∧
      between.map symbol = Derivation.closing ((scan first).map symbol) := by
  have last : ((scan first).map symbol).getLast?.all (·.kind = .semicolon) =
      (scan first).getLast?.all (·.kind = .semicolon) := by
    rw [List.getLast?_map, Option.all_map]
    rfl
  have newline : "\n".length = 1 := rfl
  have both : "\n;".length = 2 := rfl
  rw [Derivation.closing, last, separator]
  split
  · refine ⟨[], ?_, rfl⟩
    rw [scan_eq_placed, Cursor.placed_ofString_append closed, List.map_append, map_placed, ← scan_eq_placed, List.append_nil,
      String.length_append, newline]
  · have joined : first ++ "\n;" ++ second = first ++ "\n" ++ (";" ++ second) := by
      simp only [String.append_assoc]
      rfl
    refine ⟨[⟨.semicolon, ";", first.length + 1⟩], ?_, rfl⟩
    rw [joined, scan_eq_placed, Cursor.placed_ofString_append closed]
    have front : (";" ++ second).toList = ';' :: second.toList := String.toList_append
    rw [front, Cursor.placed_semicolon, List.map_append, List.map_cons, map_placed, ← scan_eq_placed, String.length_append,
      both, List.append_assoc]
    rfl

namespace Program

/-- A source without mistakes, with a line break behind it, and a semicolon if its last statement has none, is read as it
is on its own whatever follows. What follows is read as it is on its own as well, at its new place. -/
theorem parseWithin_append {room : Nat} {first : String} (silent : (parseWithin room first).2 = []) (second : String)
    (uncut : .nestingTooDeep ∉ (parseWithin room (first ++ separator first ++ second)).2 ∨
      (first ++ separator first ++ second).length < room) :
    parseWithin room (first ++ separator first ++ second) =
      (⟨(parseWithin room first).1.statements ++ (parseWithin room second).1.statements⟩,
        (parseWithin room second).2.map (Diagnostic.moved (· + (first ++ separator first).length))) := by
  obtain ⟨between, joined, ended⟩ := Token.scan_separator (closed_of_silent silent) second
  have whole := cutShort_eq_false (uncut.imp_right (Nat.lt_of_le_of_lt (Token.scan_length_le _)))
  have derived := (ofTokens_sound silent).before
    (kindOf ((Token.scan second).map (Token.moved (· + (first ++ separator first).length))))
  rw [← ended, ← List.map_append] at derived
  rw [joined] at whole
  have read := Grammar.statements_read derived _ _ rfl rfl whole
  have again := ofTokens_moved (· + (first ++ separator first).length) room (Token.scan second)
  change ofTokens room (Token.scan _) = _
  rw [joined, ofTokens, read]
  rw [ofTokens] at again
  obtain ⟨statements, diagnostics⟩ := Prod.mk.inj again
  refine Prod.ext ?_ diagnostics
  exact congrArg (fun program : Program => Program.mk (_ ++ program.statements)) statements

/-- Neither the conditional nor the comment goes on in what follows. -/
theorem conditional_before_else :
    let first := "if (a) \x7b return \x7d // ="
    let joined := parseWithin 60 (first ++ separator first ++ "else \"open")
    (parseWithin 60 first).2 = [] ∧ separator first = "\n;" ∧ joined.1.statements.length = 1 ∧
      joined.2.map Diagnostic.message =
        ["no prefix parse function for token ELSE", "unterminated string literal at position 29"] := by
  have silent : (parseWithin 60 "if (a) \x7b return \x7d // =").2 = [] := List.isEmpty_iff.mp (by decide +kernel)
  have joined := parseWithin_append silent "else \"open" (Or.inr (by decide +kernel))
  dsimp only
  rw [joined]
  refine ⟨silent, by decide +kernel, by decide +kernel, by decide +kernel⟩

end Program

end Treewalk
