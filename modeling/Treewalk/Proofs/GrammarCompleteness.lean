import Treewalk.Proofs.ParserAcceptance
import Treewalk.Proofs.Derivation

/-! Whatever derives is read, given room for its nesting. A derivation is followed with its tokens at hand and anything
behind them that starts with a symbol of the expected kind. -/

namespace Treewalk.Derivation

/-- Kinds that the first symbol of an expression can have. -/
def Starts (kind : Token.Kind) : Prop :=
  kind ∈ [.identifier, .integer, .string, .kwTrue, .kwFalse, .bang, .minus, .leftParen, .leftBracket, .kwIf, .kwFunction]

theorem Operand.starts {symbols : List Symbol} {next other : Token.Kind} {expr : Expr} (derived : Operand symbols next expr) :
    Starts (headKind symbols other) := by
  cases derived with
  | unary sign => rcases sign with rfl | rfl <;> simp [headKind, Starts]
  | _ => simp [headKind, Starts]

theorem headKind_append {front : List Symbol} (some_left : front ≠ []) (back : List Symbol) (next : Token.Kind) :
    headKind (front ++ back) next = headKind front next := by
  cases front with
  | nil => exact absurd rfl some_left
  | cons => rfl

theorem Operand.ne_nil {symbols : List Symbol} {next : Token.Kind} {expr : Expr} (derived : Operand symbols next expr) :
    symbols ≠ [] := by
  cases derived <;> simp

theorem Expression.ne_nil {precedence : Precedence} {symbols : List Symbol} {next : Token.Kind} {expr : Expr}
    (derived : Expression precedence symbols next expr) : symbols ≠ [] := by
  cases derived with
  | operand first => exact first.ne_nil
  | _ => simp

theorem Expression.starts {precedence : Precedence} {symbols : List Symbol} {next other : Token.Kind} {expr : Expr} :
    Expression precedence symbols next expr → Starts (headKind symbols other)
  | .operand first => first.starts
  | .assign target _ _ _ => by rw [headKind_append target.ne_nil]; exact target.starts
  | .call callee _ _ => by rw [List.append_assoc, headKind_append callee.ne_nil]; exact callee.starts
  | .index whole _ _ => by rw [List.append_assoc, headKind_append whole.ne_nil]; exact whole.starts
  | .binary first _ _ _ _ => by rw [headKind_append first.ne_nil]; exact first.starts

theorem Items.ne_nil {symbols : List Symbol} {next : Token.Kind} {exprs : List Expr} (derived : Items symbols next exprs) :
    symbols ≠ [] := by
  cases derived with
  | single item => exact item.ne_nil
  | snoc => simp

theorem Items.starts {symbols : List Symbol} {next other : Token.Kind} {exprs : List Expr} :
    Items symbols next exprs → Starts (headKind symbols other)
  | .single item _ => item.starts
  | .snoc items _ _ => by rw [headKind_append items.ne_nil]; exact items.starts

theorem Clause.starts {symbols : List Symbol} {next other : Token.Kind} {stmt : Stmt} (derived : Clause symbols next stmt) :
    headKind symbols other = .kwLet ∨ headKind symbols other = .kwReturn ∨ Starts (headKind symbols other) := by
  cases derived with
  | bind => exact Or.inl rfl
  | leave => exact Or.inr (Or.inl rfl)
  | leaveWith => exact Or.inr (Or.inl rfl)
  | expr value => exact Or.inr (Or.inr value.starts)

theorem Clause.ne_nil {symbols : List Symbol} {next : Token.Kind} {stmt : Stmt} (derived : Clause symbols next stmt) :
    symbols ≠ [] := by
  cases derived with
  | expr value => exact value.ne_nil
  | _ => simp

theorem Statement.ne_nil {symbols : List Symbol} {next : Token.Kind} {stmt : Stmt} (derived : Statement symbols next stmt) :
    symbols ≠ [] := by
  cases derived with
  | plain clause => exact clause.ne_nil
  | ended => simp

theorem Statement.starts {symbols : List Symbol} {next other : Token.Kind} {stmt : Stmt}
    (derived : Statement symbols next stmt) :
    headKind symbols other = .kwLet ∨ headKind symbols other = .kwReturn ∨ Starts (headKind symbols other) := by
  cases derived with
  | plain clause => exact clause.starts
  | ended clause => rw [headKind_append clause.ne_nil]; exact clause.starts

theorem Block.headKind_eq {symbols : List Symbol} {next : Token.Kind} {stmts : List Stmt} (derived : Block symbols stmts) :
    headKind symbols next = .leftBrace := by
  cases derived
  rfl

end Treewalk.Derivation

namespace Treewalk.Grammar

open Treewalk.Parser Treewalk.Derivation

variable {α : Type}

/-- The parser takes a value from these tokens and stops before what stands behind them. -/
def Reads (parser : Parser α) (tokens behind : List Token) (value : α) : Prop :=
  ∃ last, parser.Accepts (tokens ++ behind) value (last :: behind)

/-- All expressions of at most `size` tokens are read. -/
def Complete (size : Nat) (nested : Nested) : Prop :=
  ∀ precedence tokens behind expr, Expression precedence (tokens.map Token.symbol) (kindOf behind) expr →
    (kindOf behind).precedence ≤ precedence → tokens.length ≤ size → Reads (nested precedence) tokens behind expr

theorem exists_cons_of_symbols {tokens : List Token} {kind : Token.Kind} {literal : String} {symbols : List Symbol}
    (same : tokens.map Token.symbol = ⟨kind, literal⟩ :: symbols) :
    ∃ position behind, tokens = ⟨kind, literal, position⟩ :: behind ∧ behind.map Token.symbol = symbols := by
  obtain ⟨⟨_, _, position⟩, behind, rfl, head, tail⟩ := List.map_eq_cons_iff.mp same
  cases head
  exact ⟨position, behind, rfl, tail⟩

theorem exists_append_of_symbols {tokens : List Token} {kind : Token.Kind} {literal : String} {front back : List Symbol}
    (same : tokens.map Token.symbol = front ++ ⟨kind, literal⟩ :: back) :
    ∃ before position behind, tokens = before ++ ⟨kind, literal, position⟩ :: behind ∧ before.map Token.symbol = front ∧
      behind.map Token.symbol = back := by
  obtain ⟨before, others, rfl, ahead, same⟩ := List.map_eq_append_iff.mp same
  obtain ⟨position, behind, rfl, rest⟩ := exists_cons_of_symbols same
  exact ⟨before, position, behind, rfl, ahead, rest⟩

theorem exists_single_of_symbols {tokens : List Token} {kind : Token.Kind} {literal : String}
    (same : tokens.map Token.symbol = [⟨kind, literal⟩]) : ∃ position, tokens = [⟨kind, literal, position⟩] := by
  obtain ⟨position, behind, rfl, none⟩ := exists_cons_of_symbols same
  obtain rfl := List.map_eq_nil_iff.mp none
  exact ⟨position, rfl⟩

theorem exists_concat_of_symbols {tokens : List Token} {kind : Token.Kind} {literal : String} {front : List Symbol}
    (same : tokens.map Token.symbol = front ++ [⟨kind, literal⟩]) :
    ∃ before position, tokens = before ++ [⟨kind, literal, position⟩] ∧ before.map Token.symbol = front := by
  obtain ⟨before, position, behind, rfl, ahead, none⟩ := exists_append_of_symbols same
  obtain rfl := List.map_eq_nil_iff.mp none
  exact ⟨before, position, rfl, ahead⟩

/-- The current token chooses how to go on. -/
theorem Reads.ofCurrent {chosen : Token → Parser α} {token : Token} {tokens behind : List Token} {value : α}
    (read : Reads (chosen token) (token :: tokens) behind value) :
    Reads (current >>= chosen) (token :: tokens) behind value := by
  obtain ⟨last, read⟩ := read
  exact ⟨last, accepts_current_bind.mpr read⟩

/-- The items behind the ones already read. The list is kept in reverse order. -/
def moreItems (nested : Nested) (items : List (Option Expr)) : Parser (List (Option Expr)) :=
  whileNext (· = .comma) (fun items => do
    advance
    let item ← attempt (nested .lowest)
    return item :: items) items

/-- The names behind the ones already read, in reverse order. -/
def moreNames (names : List String) : Parser (List String) :=
  whileNext (· = .comma) (fun names => do
    expect .identifier
    return (← current).literal :: names) names

theorem names_complete {symbols : List Symbol} {names : List String} (derived : Names symbols names) {tokens : List Token}
    (behind : List Token) (same : tokens.map Token.symbol = symbols) : ∃ name position others last,
      tokens = ⟨.identifier, name, position⟩ :: others ∧
      ∀ value rest, (moreNames names.reverse).Accepts (last :: behind) value rest →
        (moreNames [name]).Accepts (tokens ++ behind) value rest := by
  induction derived generalizing tokens behind with
  | @single name =>
    obtain ⟨position, rfl⟩ := exists_single_of_symbols same
    exact ⟨name, position, [], ⟨.identifier, name, position⟩, rfl, fun _ _ accepted => accepted⟩
  | @snoc symbols parameters another comma names ih =>
    obtain ⟨before, place, others, rfl, front, back⟩ := exists_append_of_symbols same
    obtain ⟨spot, rfl⟩ := exists_single_of_symbols back
    obtain ⟨name, position, others, last, rfl, more⟩ :=
      ih (⟨.comma, comma, place⟩ :: ⟨.identifier, another, spot⟩ :: behind) front
    refine ⟨name, position, _, ⟨.identifier, another, spot⟩, rfl, fun value rest accepted => ?_⟩
    rw [List.append_assoc]
    refine more _ _ ((accepts_whileNext_cons rfl).mpr ⟨_, _, ?_, accepted⟩)
    simp [kindOf]

theorem parameters_complete {symbols : List Symbol} {names : List String} (derived : Parameters symbols names)
    {tokens behind : List Token} (same : tokens.map Token.symbol = symbols) (opening : Token) {right : String} {place : Nat} :
    parameters.Accepts (opening :: tokens ++ ⟨.rightParen, right, place⟩ :: behind) names
      (⟨.rightParen, right, place⟩ :: behind) := by
  cases derived with
  | none =>
    obtain rfl := List.map_eq_nil_iff.mp same
    rw [parameters, accepts_nextKind_bind, if_pos (by rfl)]
    simp
  | some derived =>
    obtain ⟨name, position, others, last, rfl, more⟩ := names_complete derived (⟨.rightParen, right, place⟩ :: behind) same
    have read := more names.reverse _ ((accepts_whileNext_stop rfl).mpr ⟨rfl, rfl⟩)
    rw [parameters, accepts_nextKind_bind, if_neg (by simp [kindOf])]
    simp only [accepts_bind, accepts_expect, accepts_current, accepts_pure]
    exact ⟨(), _, ⟨rfl, rfl⟩, _, _, ⟨rfl, rfl⟩, _, _, read, (), _, ⟨rfl, rfl⟩, List.reverse_reverse _, rfl⟩

section Rules

variable {size : Nat} {nested : Nested} (complete : Complete size nested)

include complete

omit complete in
/-- One more item, after what was read so far. -/
theorem items_further {start : Parser (List (Option Expr))} {exprs : List Expr} {expr : Expr} {front others behind : List Token}
    {previous : Token} {comma : String} {place : Nat}
    (more : ∀ value rest, (moreItems nested (exprs.map some).reverse).Accepts
      (previous :: (⟨.comma, comma, place⟩ :: others ++ behind)) value rest →
      start.Accepts (front ++ (⟨.comma, comma, place⟩ :: others ++ behind)) value rest)
    (read : Reads (nested .lowest) others behind expr) :
    ∃ last, ∀ value rest, (moreItems nested ((exprs ++ [expr]).map some).reverse).Accepts (last :: behind) value rest →
      start.Accepts (front ++ ⟨.comma, comma, place⟩ :: others ++ behind) value rest := by
  obtain ⟨last, read⟩ := read
  refine ⟨last, fun value rest accepted => ?_⟩
  rw [List.map_append, List.reverse_append] at accepted
  rw [List.append_assoc]
  refine more _ _ ((accepts_whileNext_cons rfl).mpr ⟨_, _, ?_, accepted⟩)
  simp only [accepts_bind, accepts_advance, accepts_pure]
  exact ⟨(), _, rfl, _, _, read.attempt, rfl, rfl⟩

theorem items_complete {symbols : List Symbol} {next : Token.Kind} {exprs : List Expr} : Items symbols next exprs →
    ∀ tokens behind : List Token, tokens.map Token.symbol = symbols → kindOf behind = next → tokens.length ≤ size →
      ∃ last, ∀ value rest, (moreItems nested (exprs.map some).reverse).Accepts (last :: behind) value rest →
        (attempt (nested .lowest) >>= fun first => moreItems nested [first]).Accepts (tokens ++ behind) value rest
  | .single item ends, tokens, behind, same, ahead, small => by
    obtain ⟨last, read⟩ := complete .lowest tokens behind _ (same ▸ ahead ▸ item) (ahead ▸ ends) small
    exact ⟨last, fun value rest more => accepts_bind.mpr ⟨_, _, read.attempt, more⟩⟩
  | @Items.snoc _ _ _ _ _ comma items item ends, tokens, behind, same, ahead, small => by
    subst ahead
    obtain ⟨front, place, others, rfl, before, rfl⟩ := exists_append_of_symbols same
    simp only [List.length_append, List.length_cons] at small
    obtain ⟨_, more⟩ := items_complete items front (⟨.comma, comma, place⟩ :: others ++ behind) before rfl (by omega)
    exact items_further more (complete .lowest others behind _ item ends (by omega))

theorem expressions_complete {close : Token.Kind} {tokens behind : List Token} {exprs : List Expr} {opening : Token}
    {right : String} {place : Nat} (derived : Arguments close (tokens.map Token.symbol) exprs) (closing : ¬ Starts close)
    (plain : close ≠ .comma) (small : tokens.length ≤ size) :
    (expressions nested close).Accepts (opening :: tokens ++ ⟨close, right, place⟩ :: behind) exprs
      (⟨close, right, place⟩ :: behind) := by
  generalize same : tokens.map Token.symbol = symbols at derived
  cases derived with
  | none =>
    obtain rfl := List.map_eq_nil_iff.mp same
    rw [expressions, accepts_nextKind_bind, if_pos (by rfl)]
    simp
  | some items =>
    obtain ⟨last, more⟩ := items_complete complete items tokens (⟨close, right, place⟩ :: behind) same rfl small
    have read := more _ _ ((accepts_whileNext_stop (decide_eq_false plain)).mpr ⟨rfl, rfl⟩)
    have open_ : kindOf (opening :: tokens ++ ⟨close, right, place⟩ :: behind).tail ≠ close := by
      intro found
      rw [List.cons_append, List.tail_cons, kindOf_append, same] at found
      exact closing (found ▸ items.starts)
    obtain ⟨first, middle, started, looped⟩ := accepts_bind.mp read
    rw [expressions, accepts_nextKind_bind, if_neg open_]
    simp only [accepts_bind, accepts_advance, accepts_expect]
    refine ⟨(), _, rfl, first, middle, started, _, _, looped, (), _, ⟨rfl, rfl⟩, ?_⟩
    rw [List.reverse_reverse, mapM_id_map_some]
    exact accepts_pure.mpr ⟨rfl, rfl⟩

theorem clause_complete {symbols : List Symbol} {next : Token.Kind} {stmt : Stmt} (derived : Clause symbols next stmt)
    {tokens behind : List Token} (same : tokens.map Token.symbol = symbols) (ahead : kindOf behind = next)
    (small : tokens.length ≤ size) :
    ∃ last, (statement nested).Accepts (tokens ++ behind) stmt (if next = .semicolon then behind else last :: behind) := by
  subst ahead
  cases derived with
  | bind value ends =>
    obtain ⟨_, _, rfl, named⟩ := exists_cons_of_symbols same
    obtain ⟨_, _, rfl, signed⟩ := exists_cons_of_symbols named
    obtain ⟨_, others, rfl, back⟩ := exists_cons_of_symbols signed
    simp only [List.length_cons] at small
    obtain ⟨last, read⟩ := complete .lowest others behind _ (back ▸ value) ends (by omega)
    refine ⟨last, ?_⟩
    rw [statement, accepts_current_bind]
    change (bindStatement nested).Accepts _ _ _
    simp only [bindStatement, accepts_bind, accepts_expect, accepts_current, accepts_advance, accepts_skipNext, accepts_pure]
    exact ⟨(), _, ⟨rfl, rfl⟩, _, _, ⟨rfl, rfl⟩, (), _, ⟨rfl, rfl⟩, (), _, rfl, _, _, read, (), _, rfl, rfl, rfl⟩
  | @leave word _ ends =>
    obtain ⟨position, rfl⟩ := exists_single_of_symbols same
    refine ⟨⟨.kwReturn, word, position⟩, ?_⟩
    rw [statement, accepts_current_bind]
    change (returnStatement nested).Accepts _ _ _
    rw [returnStatement, accepts_nextKind_bind, List.singleton_append, List.tail_cons]
    simp only [Token.Kind.EndsReturn, List.mem_cons, List.not_mem_nil, or_false] at ends
    rcases ends with ends | ends | ends <;> simp [ends]
  | leaveWith value ends =>
    obtain ⟨_, others, rfl, back⟩ := exists_cons_of_symbols same
    simp only [List.length_cons] at small
    obtain ⟨last, read⟩ := complete .lowest others behind _ (back ▸ value) ends (by omega)
    have starts : Starts (kindOf (others ++ behind)) := by rw [kindOf_append, back]; exact value.starts
    refine ⟨last, ?_⟩
    rw [statement, accepts_current_bind]
    change (returnStatement nested).Accepts _ _ _
    rw [returnStatement, accepts_nextKind_bind, List.cons_append, List.tail_cons]
    split
    next found => simp [found, Starts] at starts
    next found => simp [found, Starts] at starts
    next found => simp [found, Starts] at starts
    next =>
      simp only [accepts_bind, accepts_advance, accepts_skipNext, accepts_pure]
      exact ⟨(), _, rfl, _, _, read, (), _, rfl, rfl, rfl⟩
  | expr value ends =>
    obtain ⟨last, read⟩ := complete .lowest tokens behind _ (same ▸ value) ends small
    have starts : Starts (kindOf (tokens ++ behind)) := by rw [kindOf_append, same]; exact value.starts
    refine ⟨last, ?_⟩
    rw [statement, accepts_current_bind, headD_kind]
    split
    next found => simp [found, Starts] at starts
    next found => simp [found, Starts] at starts
    next =>
      simp only [expressionStatement, accepts_bind, accepts_skipNext, accepts_pure]
      exact ⟨_, _, read, (), _, rfl, rfl, rfl⟩

theorem statement_complete {symbols : List Symbol} {next : Token.Kind} {stmt : Stmt} (derived : Statement symbols next stmt)
    {tokens behind : List Token} (same : tokens.map Token.symbol = symbols) (ahead : kindOf behind = next)
    (small : tokens.length ≤ size) : Reads (statement nested) tokens behind stmt := by
  cases derived with
  | plain clause bare =>
    obtain ⟨last, read⟩ := clause_complete complete clause same ahead small
    rw [if_neg bare] at read
    exact ⟨last, read⟩
  | ended clause =>
    obtain ⟨others, place, rfl, front⟩ := exists_concat_of_symbols same
    rw [List.length_append] at small
    have shorter : others.length ≤ size := by omega
    obtain ⟨_, read⟩ := clause_complete complete clause front (show kindOf (⟨.semicolon, _, place⟩ :: behind) = _ from rfl)
      shorter
    rw [if_pos rfl] at read
    exact ⟨_, by simpa using read⟩

theorem statements_complete {stops : Token.Kind → Bool}
    (going : ∀ kind, kind = .kwLet ∨ kind = .kwReturn ∨ Starts kind → stops kind = false) {symbols : List Symbol}
    {next : Token.Kind} {stmts : List Stmt} : Statements symbols next stmts → ∀ tokens behind : List Token,
      tokens.map Token.symbol = symbols → kindOf behind = next → (behind = [] ∨ stops (kindOf behind) = true) →
      tokens.length ≤ size → sequence (statement nested) stops (tokens ++ behind) = ⟨stmts, behind, [], false⟩
  | .none, tokens, behind, same, _, stopped, _ => by
    obtain rfl := List.map_eq_nil_iff.mp same
    exact sequence_stop stopped
  | .cons first others, tokens, behind, same, ahead, stopped, small => by
    obtain ⟨before, after, rfl, front, back⟩ := List.map_eq_append_iff.mp same
    rw [List.length_append] at small
    have following := kindOf_append after behind
    rw [back, ahead] at following
    obtain ⟨last, read⟩ := statement_complete complete first front following (by omega)
    have more := statements_complete going others after behind back ahead stopped (by omega)
    have some_left : before ≠ [] := by
      rintro rfl
      exact first.ne_nil front.symm
    rw [List.append_assoc]
    refine sequence_step (by simp [some_left]) (going _ ?_) read more
    rw [kindOf_append, front]
    exact first.starts

theorem block_complete {symbols : List Symbol} {stmts : List Stmt} (derived : Block symbols stmts) {tokens behind : List Token}
    (same : tokens.map Token.symbol = symbols) (small : tokens.length ≤ size) :
    Reads (block (statement nested)) tokens behind stmts := by
  cases derived with
  | @braces _ _ _ right body =>
    obtain ⟨others, place, rfl, front⟩ := exists_concat_of_symbols same
    obtain ⟨_, inside, rfl, middle⟩ := exists_cons_of_symbols front
    simp only [List.length_append, List.length_cons] at small
    have going (kind : Token.Kind) (first : kind = .kwLet ∨ kind = .kwReturn ∨ Starts kind) :
        decide (kind = .rightBrace) = false := by
      rcases first with rfl | rfl | starts
      · rfl
      · rfl
      · exact decide_eq_false fun same => by simp [same, Starts] at starts
    have read := statements_complete complete going body inside (⟨.rightBrace, right, place⟩ :: behind) middle rfl
      (Or.inr rfl) (by omega)
    exact ⟨_, accepts_block.mpr ⟨by simpa using read, by simp⟩⟩

/-! ### Operands -/

variable {tokens behind : List Token} {left right : String} {position place : Nat} {expr : Expr}

theorem unary_complete {kind : Token.Kind} {literal : String}
    (inner : Expression .unary (tokens.map Token.symbol) (kindOf behind) expr) (ends : (kindOf behind).precedence ≤ .unary)
    (small : tokens.length ≤ size) :
    Reads (unary nested) (⟨kind, literal, position⟩ :: tokens) behind (.unary (.ofSymbol literal) expr) := by
  obtain ⟨last, read⟩ := complete .unary tokens behind _ inner ends small
  refine ⟨last, ?_⟩
  simp only [unary, accepts_bind, accepts_current, accepts_advance, accepts_pure]
  exact ⟨_, _, ⟨rfl, rfl⟩, (), _, rfl, _, _, read, rfl, rfl⟩

theorem grouped_complete (inner : Expression .lowest (tokens.map Token.symbol) .rightParen expr) (small : tokens.length ≤ size) :
    Reads (grouped nested) (⟨.leftParen, left, position⟩ :: tokens ++ [⟨.rightParen, right, place⟩]) behind expr := by
  obtain ⟨last, read⟩ := complete .lowest tokens (⟨.rightParen, right, place⟩ :: behind) _ inner (Nat.le_refl 0) small
  refine ⟨⟨.rightParen, right, place⟩, ?_⟩
  simp only [grouped, accepts_bind, accepts_advance, accepts_expect, accepts_pure]
  exact ⟨(), _, rfl, _, _, by simpa using read, (), _, ⟨rfl, rfl⟩, rfl, rfl⟩

theorem array_complete {elements : List Expr} (items : Arguments .rightBracket (tokens.map Token.symbol) elements)
    (small : tokens.length ≤ size) :
    Reads (array nested) (⟨.leftBracket, left, position⟩ :: tokens ++ [⟨.rightBracket, right, place⟩]) behind
      (.array elements) := by
  refine ⟨⟨.rightBracket, right, place⟩, ?_⟩
  simp only [array, accepts_bind, accepts_pure, List.append_assoc, List.singleton_append]
  exact ⟨_, _, expressions_complete complete items (by simp [Starts]) (by decide) small, rfl, rfl⟩

theorem function_complete {block : List Token} {word : String} {origin : Nat} {names : List String} {body : List Stmt}
    (named : Parameters (tokens.map Token.symbol) names) (derived : Block (block.map Token.symbol) body)
    (small : block.length ≤ size) :
    Reads (function nested)
      (⟨.kwFunction, word, origin⟩ :: ⟨.leftParen, left, position⟩ :: tokens ++ ⟨.rightParen, right, place⟩ :: block) behind
      (.function names body) := by
  obtain ⟨last, read⟩ := block_complete complete derived rfl small
  have braces : kindOf (block ++ behind) = .leftBrace := by rw [kindOf_append]; exact derived.headKind_eq
  refine ⟨last, ?_⟩
  simp only [function, accepts_bind, accepts_expect, accepts_pure, List.append_assoc, List.cons_append]
  exact ⟨(), _, ⟨rfl, rfl⟩, _, _, parameters_complete named rfl _, (), _, ⟨braces, rfl⟩, _, _, read, rfl, rfl⟩

/-- A conditional up to its first block, and then whatever reads the rest of it. -/
theorem conditional_complete (behind : List Token) {block : List Token} {word : String} {origin : Nat} {consequence : List Stmt}
    (test : Expression .lowest (tokens.map Token.symbol) .rightParen expr) (derived : Block (block.map Token.symbol) consequence)
    (small : tokens.length ≤ size) (small' : block.length ≤ size) :
    ∃ last, ∀ result rest,
      (if kindOf behind = .kwElse then (do
          advance
          expect .leftBrace
          return .ifElse expr consequence (← Grammar.block (statement nested)))
        else return .ifThen expr consequence : Parser Expr).Accepts (last :: behind) result rest →
      (conditional nested).Accepts
        (⟨.kwIf, word, origin⟩ :: ⟨.leftParen, left, position⟩ :: tokens ++ ⟨.rightParen, right, place⟩ :: block ++ behind)
        result rest := by
  obtain ⟨_, read⟩ :=
    complete .lowest tokens (⟨.rightParen, right, place⟩ :: block ++ behind) _ test (Nat.le_refl 0) small
  obtain ⟨last, taken⟩ := block_complete complete derived rfl small'
  have braces : kindOf (block ++ behind) = .leftBrace := by rw [kindOf_append]; exact derived.headKind_eq
  refine ⟨last, fun result rest accepted => ?_⟩
  rw [conditional]
  simp only [accepts_bind, accepts_expect, accepts_advance, List.append_assoc, List.cons_append]
  refine ⟨(), _, ⟨rfl, rfl⟩, (), _, rfl, _, _, read, (), _, ⟨rfl, rfl⟩, (), _, ⟨braces, rfl⟩, _, _, taken, ?_⟩
  exact ⟨_, _, accepts_nextKind.mpr ⟨rfl, rfl⟩, accepted⟩

theorem ifThen_complete {block : List Token} {word : String} {origin : Nat} {consequence : List Stmt}
    (test : Expression .lowest (tokens.map Token.symbol) .rightParen expr) (derived : Block (block.map Token.symbol) consequence)
    (alone : kindOf behind ≠ .kwElse) (small : tokens.length ≤ size) (small' : block.length ≤ size) :
    Reads (conditional nested)
      (⟨.kwIf, word, origin⟩ :: ⟨.leftParen, left, position⟩ :: tokens ++ ⟨.rightParen, right, place⟩ :: block) behind
      (.ifThen expr consequence) := by
  obtain ⟨last, read⟩ := conditional_complete complete behind test derived small small'
  refine ⟨last, read _ _ ?_⟩
  rw [if_neg alone]
  exact accepts_pure.mpr ⟨rfl, rfl⟩

theorem ifElse_complete {block final : List Token} {word otherwise : String} {origin start : Nat}
    {consequence alternative : List Stmt} (test : Expression .lowest (tokens.map Token.symbol) .rightParen expr)
    (derived : Block (block.map Token.symbol) consequence) (other : Block (final.map Token.symbol) alternative)
    (small : tokens.length ≤ size) (small' : block.length ≤ size) (small'' : final.length ≤ size) :
    Reads (conditional nested)
      (⟨.kwIf, word, origin⟩ :: ⟨.leftParen, left, position⟩ :: tokens ++ ⟨.rightParen, right, place⟩ :: block
        ++ ⟨.kwElse, otherwise, start⟩ :: final) behind (.ifElse expr consequence alternative) := by
  obtain ⟨_, read⟩ :=
    conditional_complete complete (⟨.kwElse, otherwise, start⟩ :: final ++ behind) test derived small small'
  obtain ⟨last, taken⟩ := block_complete complete other rfl small''
  have braces : kindOf (final ++ behind) = .leftBrace := by rw [kindOf_append]; exact other.headKind_eq
  refine ⟨last, ?_⟩
  rw [List.append_assoc]
  refine read _ _ ?_
  rw [if_pos (by rfl)]
  simp only [accepts_bind, accepts_expect, accepts_advance, accepts_pure]
  exact ⟨(), _, rfl, (), _, ⟨braces, rfl⟩, _, _, taken, rfl, rfl⟩

theorem operand_complete {symbols : List Symbol} {next : Token.Kind} (derived : Operand symbols next expr)
    (same : tokens.map Token.symbol = symbols) (ahead : kindOf behind = next) (small : tokens.length ≤ size + 1) :
    Reads (operand nested) tokens behind expr := by
  subst ahead
  cases derived with
  | name | string | kwTrue | kwFalse =>
    obtain ⟨position, rfl⟩ := exists_single_of_symbols same
    exact ⟨_, rfl⟩
  | @integer literal _ fits =>
    obtain ⟨position, rfl⟩ := exists_single_of_symbols same
    refine .ofCurrent (.ofCurrent ⟨⟨.integer, literal, position⟩, ?_⟩)
    change (if Nat.ofDigitChars 10 literal.toList 0 ≤ maxInteger then _ else _ : Parser Expr).Accepts _ _ _
    rw [if_pos fits]
    exact accepts_pure.mpr ⟨rfl, rfl⟩
  | unary sign inner ends =>
    obtain ⟨position, others, rfl, rfl⟩ := exists_cons_of_symbols same
    rw [List.length_cons] at small
    rcases sign with rfl | rfl
    · exact .ofCurrent (unary_complete complete inner ends (by omega))
    · exact .ofCurrent (unary_complete complete inner ends (by omega))
  | grouped inner =>
    obtain ⟨front, place, rfl, opened⟩ := exists_concat_of_symbols same
    obtain ⟨position, others, rfl, rfl⟩ := exists_cons_of_symbols opened
    simp only [List.length_append, List.length_cons] at small
    exact .ofCurrent (grouped_complete complete inner (by omega))
  | array items =>
    obtain ⟨front, place, rfl, opened⟩ := exists_concat_of_symbols same
    obtain ⟨position, others, rfl, rfl⟩ := exists_cons_of_symbols opened
    simp only [List.length_append, List.length_cons] at small
    exact .ofCurrent (array_complete complete items (by omega))
  | ifThen test body alone =>
    obtain ⟨front, place, others, rfl, opened, rfl⟩ := exists_append_of_symbols same
    obtain ⟨origin, _, rfl, parens⟩ := exists_cons_of_symbols opened
    obtain ⟨position, inner, rfl, rfl⟩ := exists_cons_of_symbols parens
    simp only [List.length_append, List.length_cons] at small
    exact .ofCurrent (ifThen_complete complete test body alone (by omega) (by omega))
  | ifElse test body other =>
    obtain ⟨front, start, final, rfl, front, rfl⟩ := exists_append_of_symbols same
    obtain ⟨_, place, block, rfl, opened, rfl⟩ := exists_append_of_symbols front
    obtain ⟨origin, _, rfl, parens⟩ := exists_cons_of_symbols opened
    obtain ⟨position, inner, rfl, rfl⟩ := exists_cons_of_symbols parens
    simp only [List.length_append, List.length_cons] at small
    exact .ofCurrent (ifElse_complete complete test body other (by omega) (by omega) (by omega))
  | function names body =>
    obtain ⟨front, place, others, rfl, opened, rfl⟩ := exists_append_of_symbols same
    obtain ⟨origin, _, rfl, parens⟩ := exists_cons_of_symbols opened
    obtain ⟨position, inner, rfl, rfl⟩ := exists_cons_of_symbols parens
    simp only [List.length_append, List.length_cons] at small
    exact .ofCurrent (function_complete complete names body (by omega))

/-! ### Expressions -/

theorem assignment_complete {name : String} (value : Expression .lowest (tokens.map Token.symbol) (kindOf behind) expr)
    (ends : (kindOf behind).precedence ≤ .lowest) (small : tokens.length ≤ size) :
    Reads (continuation nested (.name name)) (⟨.assign, left, position⟩ :: tokens) behind (.assign name expr) := by
  obtain ⟨last, read⟩ := complete .lowest tokens behind _ value ends small
  refine ⟨last, ?_⟩
  rw [continuation, accepts_current_bind]
  change (assignment nested (.name name)).Accepts _ _ _
  simp only [assignment, accepts_bind, accepts_advance, accepts_pure]
  exact ⟨(), _, rfl, _, _, read, rfl, rfl⟩

theorem call_complete {arguments : List Expr} (items : Arguments .rightParen (tokens.map Token.symbol) arguments)
    (small : tokens.length ≤ size) :
    Reads (continuation nested expr) (⟨.leftParen, left, position⟩ :: tokens ++ [⟨.rightParen, right, place⟩]) behind
      (.call expr arguments) := by
  refine ⟨⟨.rightParen, right, place⟩, ?_⟩
  rw [continuation, accepts_current_bind]
  change (call nested expr).Accepts _ _ _
  simp only [call, accepts_bind, accepts_pure, List.append_assoc, List.singleton_append]
  exact ⟨_, _, expressions_complete complete items (by simp [Starts]) (by decide) small, rfl, rfl⟩

theorem index_complete {collection : Expr} (inner : Expression .lowest (tokens.map Token.symbol) .rightBracket expr)
    (small : tokens.length ≤ size) :
    Reads (continuation nested collection) (⟨.leftBracket, left, position⟩ :: tokens ++ [⟨.rightBracket, right, place⟩]) behind
      (.index collection expr) := by
  obtain ⟨last, read⟩ := complete .lowest tokens (⟨.rightBracket, right, place⟩ :: behind) _ inner (Nat.le_refl 0) small
  refine ⟨⟨.rightBracket, right, place⟩, ?_⟩
  rw [continuation, accepts_current_bind]
  change (index nested collection).Accepts _ _ _
  simp only [index, accepts_bind, accepts_advance, accepts_expect, accepts_pure]
  exact ⟨(), _, rfl, _, _, by simpa using read, (), _, ⟨rfl, rfl⟩, rfl, rfl⟩

theorem binary_complete {kind : Token.Kind} {literal : String} {first : Expr} (operator : kind.IsOperator)
    (second : Expression kind.rightPrecedence (tokens.map Token.symbol) (kindOf behind) expr)
    (ends : (kindOf behind).precedence ≤ kind.rightPrecedence) (small : tokens.length ≤ size) :
    Reads (continuation nested first) (⟨kind, literal, position⟩ :: tokens) behind
      (.binary first (.ofSymbol literal) expr) := by
  obtain ⟨last, read⟩ := complete kind.rightPrecedence tokens behind _ second ends small
  refine ⟨last, ?_⟩
  have chosen : (binary nested first).Accepts (⟨kind, literal, position⟩ :: tokens ++ behind)
      (.binary first (.ofSymbol literal) expr) (last :: behind) := by
    simp only [binary, accepts_bind, accepts_current, accepts_advance, accepts_pure]
    exact ⟨_, _, ⟨rfl, rfl⟩, (), _, rfl, _, _, read, rfl, rfl⟩
  rw [continuation, accepts_current_bind]
  simp only [Token.Kind.IsOperator, List.mem_cons, List.not_mem_nil, or_false] at operator
  rcases operator with rfl | rfl | rfl | rfl | rfl | rfl | rfl | rfl | rfl <;> exact chosen

omit complete in
/-- One more round of the loop, after what was read so far. -/
theorem climb_further {precedence : Precedence} {first following : Expr} {front others : List Token} {token previous : Token}
    (more : ∀ result rest, (whileNext (fun kind => precedence < kind.precedence) (continuation nested) first).Accepts
      (previous :: (token :: others ++ behind)) result rest →
      (climb nested precedence).Accepts (front ++ (token :: others ++ behind)) result rest)
    (binds : precedence < token.kind.precedence) (read : Reads (continuation nested first) (token :: others) behind following) :
    ∃ last, ∀ result rest, (whileNext (fun kind => precedence < kind.precedence) (continuation nested) following).Accepts
      (last :: behind) result rest → (climb nested precedence).Accepts (front ++ token :: others ++ behind) result rest := by
  obtain ⟨last, read⟩ := read
  refine ⟨last, fun result rest accepted => ?_⟩
  rw [List.append_assoc]
  exact more _ _ ((accepts_whileNext_cons (decide_eq_true binds)).mpr ⟨following, _, read, accepted⟩)

/-- An expression is its first operand with a number of continuations. After each of them the loop stands where it would
if it had started with what was read so far. -/
theorem climb_continues {precedence : Precedence} {symbols : List Symbol} {next : Token.Kind} {expr : Expr} :
    Expression precedence symbols next expr → ∀ tokens behind : List Token, tokens.map Token.symbol = symbols →
      kindOf behind = next → tokens.length ≤ size + 1 → ∃ last, ∀ result rest,
        (whileNext (fun kind => precedence < kind.precedence) (continuation nested) expr).Accepts (last :: behind) result rest →
        (climb nested precedence).Accepts (tokens ++ behind) result rest
  | .operand first, tokens, behind, same, ahead, small => by
    obtain ⟨last, read⟩ := operand_complete complete first same ahead small
    exact ⟨last, fun result rest accepted => accepts_bind.mpr ⟨_, _, read, accepted⟩⟩
  | @Expression.assign _ _ _ _ _ _ sign target binds value ends, tokens, behind, same, ahead, small => by
    subst ahead
    obtain ⟨front, place, others, rfl, before, rfl⟩ := exists_append_of_symbols same
    simp only [List.length_append, List.length_cons] at small
    obtain ⟨_, more⟩ := climb_continues target front (⟨.assign, sign, place⟩ :: others ++ behind) before rfl (by omega)
    exact climb_further more binds (assignment_complete complete value ends (by omega))
  | @Expression.call _ _ _ _ _ left _ right callee binds items, tokens, behind, same, ahead, small => by
    rw [List.append_assoc] at same
    obtain ⟨front, place, others, rfl, before, back⟩ := exists_append_of_symbols same
    obtain ⟨inner, spot, rfl, rfl⟩ := exists_concat_of_symbols back
    simp only [List.length_append, List.length_cons] at small
    obtain ⟨_, more⟩ := climb_continues callee front
      (⟨.leftParen, left, place⟩ :: (inner ++ [⟨.rightParen, right, spot⟩]) ++ behind) before rfl (by omega)
    exact climb_further more binds (call_complete complete items (by omega))
  | @Expression.index _ _ _ _ _ left _ right whole binds inner, tokens, behind, same, ahead, small => by
    rw [List.append_assoc] at same
    obtain ⟨front, place, others, rfl, before, back⟩ := exists_append_of_symbols same
    obtain ⟨within, spot, rfl, rfl⟩ := exists_concat_of_symbols back
    simp only [List.length_append, List.length_cons] at small
    obtain ⟨_, more⟩ := climb_continues whole front
      (⟨.leftBracket, left, place⟩ :: (within ++ [⟨.rightBracket, right, spot⟩]) ++ behind) before rfl (by omega)
    exact climb_further more binds (index_complete complete inner (by omega))
  | @Expression.binary _ _ kind _ _ _ _ literal first operator binds second ends, tokens, behind, same, ahead, small => by
    subst ahead
    obtain ⟨front, place, others, rfl, before, rfl⟩ := exists_append_of_symbols same
    simp only [List.length_append, List.length_cons] at small
    obtain ⟨_, more⟩ := climb_continues first front (⟨kind, literal, place⟩ :: others ++ behind) before rfl (by omega)
    exact climb_further more binds (binary_complete complete operator second ends (by omega))

end Rules

/-- Every step into a nested expression leaves at least one token behind. -/
theorem expression_complete (room : Nat) : Complete room (expression room) := by
  induction room with
  | zero =>
    intro precedence tokens behind expr derived _ small
    obtain rfl := List.eq_nil_of_length_eq_zero (Nat.le_zero.mp small)
    exact absurd rfl derived.ne_nil
  | succ room ih =>
    intro precedence tokens behind expr derived ends small
    obtain ⟨last, more⟩ := climb_continues ih derived tokens behind rfl rfl small
    exact ⟨last, more _ _ ((accepts_whileNext_stop (decide_eq_false (Nat.not_lt.mpr ends))).mpr ⟨rfl, rfl⟩)⟩

end Treewalk.Grammar

namespace Treewalk.Program

open Grammar Treewalk.Derivation

/-- Room for one nested expression to a token is always enough. -/
theorem ofTokens_complete {tokens : List Token} {stmts : List Stmt}
    (derived : Statements (tokens.map Token.symbol) .endOfInput stmts) {room : Nat} (small : tokens.length ≤ room) :
    ofTokens room tokens = (⟨stmts⟩, []) := by
  have read := statements_complete (expression_complete room) (fun _ _ => rfl) derived tokens [] rfl rfl (Or.inl rfl) small
  rw [List.append_nil] at read
  simp [ofTokens, read]

end Treewalk.Program
