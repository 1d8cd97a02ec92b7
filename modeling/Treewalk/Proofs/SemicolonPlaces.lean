import Treewalk.Proofs.GrammarCompleteness

/-! Where semicolons stand. A semicolon only ends a statement, so that behind it another statement starts, or else the block
or the source ends. Apart from three kinds, which could also go on with an expression, none of what can stand there
continues anything. -/

namespace Treewalk

open Treewalk.Derivation

/-- Kinds that can stand behind a semicolon. -/
def Token.Kind.StartsAnew (kind : Token.Kind) : Prop :=
  (kind = .kwLet ∨ kind = .kwReturn ∨ Starts kind) ∨ kind = .rightBrace ∨ kind = .endOfInput

/-- Kinds that neither go on with what was read before them nor close a bracket around an expression. -/
def Token.Kind.ContinuesNothing (kind : Token.Kind) : Prop :=
  kind.precedence = .lowest ∧ kind ∉ [.kwElse, .comma, .rightParen, .rightBracket, .semicolon]

theorem Token.Kind.StartsAnew.continuesNothing {kind : Token.Kind} (anew : kind.StartsAnew)
    (plain : kind ∉ [.minus, .leftParen, .leftBracket]) : kind.ContinuesNothing := by
  simp only [StartsAnew, Starts, List.mem_cons, List.not_mem_nil, or_false, not_or] at anew plain
  obtain ⟨minus, paren, bracket⟩ := plain
  cases kind <;> simp_all [ContinuesNothing, precedence]

theorem headKind_append_eq (front back : List Symbol) (next : Token.Kind) :
    headKind (front ++ back) next = headKind front (headKind back next) := by
  cases front <;> rfl

theorem headKind_map_symbol (tokens : List Token) : headKind (tokens.map Token.symbol) .endOfInput = kindOf tokens := by
  cases tokens <;> rfl

/-- Behind every semicolon something starts anew, or else ends. -/
inductive WellSeparated : List Symbol → (next : Token.Kind) → Prop where
  | nil {next : Token.Kind} : WellSeparated [] next
  | plain {symbol : Symbol} {symbols : List Symbol} {next : Token.Kind} (other : symbol.kind ≠ .semicolon)
    (behind : WellSeparated symbols next) : WellSeparated (symbol :: symbols) next
  | semicolon {literal : String} {symbols : List Symbol} {next : Token.Kind} (anew : (headKind symbols next).StartsAnew)
    (behind : WellSeparated symbols next) : WellSeparated (⟨.semicolon, literal⟩ :: symbols) next

namespace WellSeparated

theorem append {front back : List Symbol} {between next : Token.Kind} (first : WellSeparated front between)
    (meets : headKind back next = between) (second : WellSeparated back next) : WellSeparated (front ++ back) next := by
  induction first with
  | nil => exact second
  | plain other _ ih => exact .plain other (ih meets)
  | semicolon anew _ ih =>
    rw [← meets, ← headKind_append_eq] at anew
    exact .semicolon anew (ih meets)

theorem enclosed {opening closing : Symbol} {inner symbols : List Symbol} {next : Token.Kind}
    (first : opening.kind ≠ .semicolon) (last : closing.kind ≠ .semicolon) (inside : ∀ other, WellSeparated inner other)
    (behind : WellSeparated symbols next) : WellSeparated (opening :: inner ++ closing :: symbols) next :=
  .plain first ((inside _).append rfl (.plain last behind))

theorem startsAnew {front back : List Symbol} {symbol : Symbol} {next : Token.Kind} (ends : symbol.kind = .semicolon)
    (separated : WellSeparated (front ++ symbol :: back) next) : (headKind back next).StartsAnew := by
  induction front with
  | nil =>
    cases separated with
    | plain other _ => exact absurd ends other
    | semicolon anew _ => exact anew
  | cons first front ih =>
    cases separated with
    | plain _ behind => exact ih behind
    | semicolon _ behind => exact ih behind

end WellSeparated

namespace Derivation

theorem operator_ne_semicolon {kind : Token.Kind} (operator : kind.IsOperator) : kind ≠ .semicolon := by
  rintro rfl
  simp [Token.Kind.IsOperator] at operator

theorem Names.wellSeparated {symbols : List Symbol} {names : List String} (derived : Names symbols names) :
    ∀ next, WellSeparated symbols next := by
  induction derived with
  | single => exact fun _ => .plain (by simp) .nil
  | snoc _ ih => exact fun _ => (ih _).append rfl (.plain (by simp) (.plain (by simp) .nil))

theorem Parameters.wellSeparated {symbols : List Symbol} {names : List String} (derived : Parameters symbols names)
    (next : Token.Kind) : WellSeparated symbols next := by
  cases derived with
  | none => exact .nil
  | some names => exact names.wellSeparated next

mutual

/-- An expression does not end in a semicolon, so those inside it are the same whatever stands behind. -/
theorem Operand.wellSeparated {symbols : List Symbol} {next : Token.Kind} {expr : Expr} :
    Operand symbols next expr → ∀ other, WellSeparated symbols other
  | .name, _ | .integer _, _ | .string, _ | .kwTrue, _ | .kwFalse, _ => .plain (by simp) .nil
  | .unary sign inner _, other => .plain (by rcases sign with rfl | rfl <;> simp) (inner.wellSeparated other)
  | .grouped inner, _ => .enclosed (by simp) (by simp) inner.wellSeparated .nil
  | .array items, _ => .enclosed (by simp) (by simp) items.wellSeparated .nil
  | .ifThen test body _, other =>
    .plain (by simp) (.enclosed (by simp) (by simp) test.wellSeparated (body.wellSeparated other))
  | .ifElse test body final, other =>
    .append (.plain (by simp) (.enclosed (by simp) (by simp) test.wellSeparated (body.wellSeparated _))) rfl
      (.plain (by simp) (final.wellSeparated other))
  | .function names body, other =>
    .plain (by simp) (.enclosed (by simp) (by simp) names.wellSeparated (body.wellSeparated other))

theorem Expression.wellSeparated {precedence : Precedence} {symbols : List Symbol} {next : Token.Kind} {expr : Expr} :
    Expression precedence symbols next expr → ∀ other, WellSeparated symbols other
  | .operand first, other => first.wellSeparated other
  | .assign target _ value _, other => (target.wellSeparated _).append rfl (.plain (by simp) (value.wellSeparated other))
  | .call callee _ items, _ => by
    rw [List.append_assoc]
    exact (callee.wellSeparated _).append rfl (.enclosed (by simp) (by simp) items.wellSeparated .nil)
  | .index whole _ inner, _ => by
    rw [List.append_assoc]
    exact (whole.wellSeparated _).append rfl (.enclosed (by simp) (by simp) inner.wellSeparated .nil)
  | .binary first operator _ second _, other =>
    (first.wellSeparated _).append rfl (.plain (operator_ne_semicolon operator) (second.wellSeparated other))

theorem Items.wellSeparated {symbols : List Symbol} {next : Token.Kind} {exprs : List Expr} :
    Items symbols next exprs → ∀ other, WellSeparated symbols other
  | .single item _, other => item.wellSeparated other
  | .snoc items item _, other => (items.wellSeparated _).append rfl (.plain (by simp) (item.wellSeparated other))

theorem Arguments.wellSeparated {close : Token.Kind} {symbols : List Symbol} {exprs : List Expr} :
    Arguments close symbols exprs → ∀ other, WellSeparated symbols other
  | .none, _ => .nil
  | .some items, other => items.wellSeparated other

theorem Block.wellSeparated {symbols : List Symbol} {stmts : List Stmt} :
    Block symbols stmts → ∀ other, WellSeparated symbols other
  | .braces body, _ =>
    .plain (by simp) ((body.wellSeparated (Or.inr (Or.inl rfl))).append rfl (.plain (by simp) .nil))

theorem Clause.wellSeparated {symbols : List Symbol} {next : Token.Kind} {stmt : Stmt} :
    Clause symbols next stmt → ∀ other, WellSeparated symbols other
  | .bind value _, other => .plain (by simp) (.plain (by simp) (.plain (by simp) (value.wellSeparated other)))
  | .leave _, _ => .plain (by simp) .nil
  | .leaveWith value _, other => .plain (by simp) (value.wellSeparated other)
  | .expr value _, other => value.wellSeparated other

theorem Statement.wellSeparated {symbols : List Symbol} {next : Token.Kind} {stmt : Stmt} :
    Statement symbols next stmt → next.StartsAnew → WellSeparated symbols next
  | .plain clause _, _ => clause.wellSeparated next
  | .ended clause, anew => (clause.wellSeparated _).append rfl (.semicolon anew .nil)

theorem Statements.wellSeparated {symbols : List Symbol} {next : Token.Kind} {stmts : List Stmt} :
    Statements symbols next stmts → next.StartsAnew → WellSeparated symbols next
  | .none, _ => .nil
  | .cons first others, anew => (first.wellSeparated (others.startsAnew anew)).append rfl (others.wellSeparated anew)

theorem Statements.startsAnew {symbols : List Symbol} {next : Token.Kind} {stmts : List Stmt} :
    Statements symbols next stmts → next.StartsAnew → (headKind symbols next).StartsAnew
  | .none, anew => anew
  | .cons first _, _ => by
    rw [headKind_append first.ne_nil]
    exact Or.inl first.starts

end

end Derivation

end Treewalk
