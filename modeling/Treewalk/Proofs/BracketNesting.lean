import Treewalk.Proofs.Seams
import Treewalk.Proofs.LexicalFaults

/-! Brackets and line breaks. What is read without a diagnostic has its brackets in pairs, so that no beginning of it closes
more of them than it opens, and one that stops between a bracket and its partner has opened more than it has closed. A
beginning that stops inside a string shows that string as open. -/

namespace Treewalk

@[simp] def Token.Kind.isBracket : Kind → Bool
  | .leftParen | .leftBracket | .leftBrace | .rightParen | .rightBracket | .rightBrace => true
  | _ => false

/-- An opening bracket and the closing one of the same shape. -/
inductive Token.Kind.ClosedBy : Token.Kind → Token.Kind → Prop where
  | parens : ClosedBy .leftParen .rightParen
  | brackets : ClosedBy .leftBracket .rightBracket
  | braces : ClosedBy .leftBrace .rightBrace

inductive WellNested : List Symbol → Prop where
  | nil : WellNested []
  | plain {symbol : Symbol} {symbols : List Symbol} (other : symbol.kind.isBracket = false) (behind : WellNested symbols) :
    WellNested (symbol :: symbols)
  | pair {opening closing : Symbol} {inner symbols : List Symbol} (partner : opening.kind.ClosedBy closing.kind)
    (inside : WellNested inner) (behind : WellNested symbols) : WellNested (opening :: inner ++ closing :: symbols)

theorem WellNested.append {front back : List Symbol} (first : WellNested front) (second : WellNested back) :
    WellNested (front ++ back) := by
  induction first with
  | nil => exact second
  | plain other _ ih => exact .plain other ih
  | pair partner inside _ _ ih =>
    rw [List.append_assoc]
    exact .pair partner inside ih

namespace Derivation

theorem operator_not_bracket {kind : Token.Kind} (operator : kind.IsOperator) : kind.isBracket = false := by
  simp only [Token.Kind.IsOperator, List.mem_cons, List.not_mem_nil, or_false] at operator
  rcases operator with rfl | rfl | rfl | rfl | rfl | rfl | rfl | rfl | rfl <;> rfl

theorem Names.wellNested {symbols : List Symbol} {names : List String} (derived : Names symbols names) : WellNested symbols := by
  induction derived with
  | single => exact .plain rfl .nil
  | snoc _ ih => exact ih.append (.plain rfl (.plain rfl .nil))

theorem Parameters.wellNested {symbols : List Symbol} {names : List String} (derived : Parameters symbols names) :
    WellNested symbols := by
  cases derived with
  | none => exact .nil
  | some names => exact names.wellNested

mutual

theorem Operand.wellNested {symbols : List Symbol} {next : Token.Kind} {expr : Expr} :
    Operand symbols next expr → WellNested symbols
  | .name | .integer _ | .string | .kwTrue | .kwFalse => .plain rfl .nil
  | .unary sign inner _ => .plain (by rcases sign with rfl | rfl <;> rfl) inner.wellNested
  | .grouped inner => .pair .parens inner.wellNested .nil
  | .array items => .pair .brackets items.wellNested .nil
  | .ifThen test body _ => .plain rfl (.pair .parens test.wellNested body.wellNested)
  | .ifElse test body other =>
    .append (.plain rfl (.pair .parens test.wellNested body.wellNested)) (.plain rfl other.wellNested)
  | .function names body => .plain rfl (.pair .parens names.wellNested body.wellNested)

theorem Expression.wellNested {precedence : Precedence} {symbols : List Symbol} {next : Token.Kind} {expr : Expr} :
    Expression precedence symbols next expr → WellNested symbols
  | .operand first => first.wellNested
  | .assign target _ value _ => target.wellNested.append (.plain rfl value.wellNested)
  | .call callee _ items => by
    rw [List.append_assoc]
    exact callee.wellNested.append (.pair .parens items.wellNested .nil)
  | .index whole _ inner => by
    rw [List.append_assoc]
    exact whole.wellNested.append (.pair .brackets inner.wellNested .nil)
  | .binary first operator _ second _ =>
    first.wellNested.append (.plain (operator_not_bracket operator) second.wellNested)

theorem Items.wellNested {symbols : List Symbol} {next : Token.Kind} {exprs : List Expr} :
    Items symbols next exprs → WellNested symbols
  | .single item _ => item.wellNested
  | .snoc items item _ => items.wellNested.append (.plain rfl item.wellNested)

theorem Arguments.wellNested {close : Token.Kind} {symbols : List Symbol} {exprs : List Expr} :
    Arguments close symbols exprs → WellNested symbols
  | .none => .nil
  | .some items => items.wellNested

theorem Block.wellNested {symbols : List Symbol} {stmts : List Stmt} : Block symbols stmts → WellNested symbols
  | .braces body => .pair .braces body.wellNested .nil

theorem Clause.wellNested {symbols : List Symbol} {next : Token.Kind} {stmt : Stmt} :
    Clause symbols next stmt → WellNested symbols
  | .bind value _ => .plain rfl (.plain rfl (.plain rfl value.wellNested))
  | .leave _ => .plain rfl .nil
  | .leaveWith value _ => .plain rfl value.wellNested
  | .expr value _ => value.wellNested

theorem Statement.wellNested {symbols : List Symbol} {next : Token.Kind} {stmt : Stmt} :
    Statement symbols next stmt → WellNested symbols
  | .plain clause _ => clause.wellNested
  | .ended clause => clause.wellNested.append (.plain rfl .nil)

theorem Statements.wellNested {symbols : List Symbol} {next : Token.Kind} {stmts : List Stmt} :
    Statements symbols next stmts → WellNested symbols
  | .none => .nil
  | .cons first others => first.wellNested.append others.wellNested

end

end Derivation

/-! ### Balance -/

theorem bracketBalance_append (front back : List Token) :
    bracketBalance (front ++ back) = bracketBalance front + bracketBalance back := by
  induction front with
  | nil => simp [bracketBalance]
  | cons token front ih => simp only [List.cons_append, bracketBalance, ih, Int.add_assoc]

theorem Token.bracketStep_eq_zero {token : Token} (other : token.kind.isBracket = false) : token.bracketStep = 0 := by
  obtain ⟨kind, _, _⟩ := token
  cases kind <;> first | rfl | cases other

theorem Token.bracketStep_of_closedBy {opening closing : Token} (partner : opening.kind.ClosedBy closing.kind) :
    opening.bracketStep = 1 ∧ closing.bracketStep = -1 := by
  obtain ⟨left, _, _⟩ := opening
  obtain ⟨right, _, _⟩ := closing
  cases partner <;> exact ⟨rfl, rfl⟩

/-- As many brackets are closed as are opened, and at no point more. -/
structure Balanced (tokens : List Token) : Prop where
  level : bracketBalance tokens = 0
  before : ∀ front back, tokens = front ++ back → 0 ≤ bracketBalance front

theorem Balanced.nil : Balanced [] := by
  refine ⟨rfl, fun front back same => ?_⟩
  rw [(List.append_eq_nil_iff.mp same.symm).1]
  exact Int.le_refl 0

theorem Balanced.cons {token : Token} {tokens : List Token} (flat : token.bracketStep = 0) (balanced : Balanced tokens) :
    Balanced (token :: tokens) := by
  refine ⟨by simpa [bracketBalance, flat] using balanced.level, fun front back same => ?_⟩
  rcases List.append_eq_cons_iff.mp same.symm with ⟨rfl, -⟩ | ⟨others, rfl, rest⟩
  · exact Int.le_refl 0
  · simpa [bracketBalance, flat] using balanced.before others back rest

theorem Balanced.pair {opening closing : Token} {inner behind : List Token} (partner : opening.kind.ClosedBy closing.kind)
    (inside : Balanced inner) (balanced : Balanced behind) : Balanced (opening :: inner ++ closing :: behind) := by
  obtain ⟨opens, closes⟩ := Token.bracketStep_of_closedBy partner
  have level := inside.level
  refine ⟨?_, fun front back same => ?_⟩
  · have level' := balanced.level
    simp only [bracketBalance_append, bracketBalance, opens, closes]
    omega
  · rcases List.append_eq_cons_iff.mp same.symm with ⟨rfl, -⟩ | ⟨others, rfl, rest⟩
    · exact Int.le_refl 0
    simp only [bracketBalance, opens]
    rcases List.append_eq_append_iff.mp rest with ⟨further, rfl, close⟩ | ⟨more, rfl, -⟩
    · rcases List.append_eq_cons_iff.mp close.symm with ⟨rfl, -⟩ | ⟨beyond, rfl, last⟩
      · simp [level]
      · have above := balanced.before beyond back last
        simp only [bracketBalance_append, bracketBalance, closes]
        omega
    · have above := inside.before others more rfl
      omega

theorem WellNested.balanced {symbols : List Symbol} (nested : WellNested symbols) :
    ∀ {tokens : List Token}, tokens.map Token.symbol = symbols → Balanced tokens := by
  induction nested with
  | nil =>
    intro tokens same
    obtain rfl := List.map_eq_nil_iff.mp same
    exact .nil
  | plain other _ ih =>
    intro tokens same
    obtain ⟨token, behind, rfl, rfl, rest⟩ := List.map_eq_cons_iff.mp same
    exact .cons (Token.bracketStep_eq_zero other) (ih rest)
  | pair partner _ _ ih ih' =>
    intro tokens same
    obtain ⟨front, back, rfl, before, after⟩ := List.map_eq_append_iff.mp same
    obtain ⟨opening, inner, rfl, rfl, inside⟩ := List.map_eq_cons_iff.mp before
    obtain ⟨closing, behind, rfl, rfl, rest⟩ := List.map_eq_cons_iff.mp after
    exact .pair partner (ih inside) (ih' rest)

/-- Between a bracket and its partner more is open than before the bracket. -/
theorem Balanced.between {before inner after : List Token} {opening closing : Token} {front back : List Token}
    (balanced : Balanced (before ++ opening :: inner ++ closing :: after)) (partner : opening.kind.ClosedBy closing.kind)
    (inside : Balanced inner) (whole : inner = front ++ back) : 0 < bracketBalance (before ++ opening :: front) := by
  have above := balanced.before before (opening :: inner ++ closing :: after) (by simp)
  have above' := inside.before front back whole
  have opens := (Token.bracketStep_of_closedBy partner).1
  simp only [bracketBalance_append, bracketBalance, opens]
  omega

/-! ### Line breaks -/

/-- A string literal begins before the character at this position and ends behind it. -/
def InsideString (source : String) (position : Nat) : Prop :=
  ∃ placed ∈ (Cursor.ofString source).placed,
    placed.lexeme.kind = .string ∧ placed.position < position ∧ position < placed.stop

/-- The position is between a bracket and the closing bracket that is its partner. -/
def InsideBrackets (source : String) (position : Nat) : Prop :=
  ∃ before opening inner closing after, Token.scan source = before ++ opening :: inner ++ closing :: after ∧
    opening.kind.ClosedBy closing.kind ∧ WellNested (inner.map Token.symbol) ∧
    opening.position < position ∧ position < closing.position

theorem needsContinuation_eq (source : String) :
    needsContinuation source = ((Cursor.ofString source).placed.any (·.lexeme.isOpen) ||
      decide (0 < bracketBalance (Token.scan source))) := by
  have ended : bracketBalance (Token.stream source) = bracketBalance (Token.scan source) := by
    rw [Token.scan_eq_placed, Token.stream, Cursor.tokens_eq_placed, bracketBalance_append]
    simp [bracketBalance, Token.finish, Token.bracketStep, Token.opensBracket, Token.closesBracket]
  rw [needsContinuation, ended, Token.stream, Cursor.tokens_eq_placed, List.any_append, List.any_map]
  simp [Token.finish, Token.isUnclosedString]
  rfl

theorem needsContinuation_of_not_closed {source : String} (unclosed : ¬ (Cursor.ofString source).Closed) :
    needsContinuation source = true := by
  have found : (Cursor.ofString source).placed.any (·.lexeme.isOpen) = true := by
    rw [Cursor.Closed] at unclosed
    simpa using unclosed
  rw [needsContinuation_eq, found, Bool.true_or]

/-- A text is cut between two of its elements, each of them on its own side. -/
theorem exists_cut {α : Type} {front back before inner after : List α} {first last : α}
    (same : front ++ back = before ++ first :: inner ++ last :: after) (left : first ∉ back) (right : last ∉ front) :
    ∃ near far, inner = near ++ far ∧ front = before ++ first :: near := by
  obtain ⟨far, ahead, rfl⟩ : ∃ far, before ++ first :: inner = front ++ far ∧ back = far ++ last :: after := by
    rcases List.append_eq_append_iff.mp same with found | ⟨further, rfl, behind⟩
    · exact found
    · cases further with
      | nil => exact ⟨[], by simp, behind.symm⟩
      | cons other further =>
        obtain rfl := (List.cons.inj behind).1
        exact absurd (by simp) right
  rcases List.append_eq_append_iff.mp ahead with ⟨near, rfl, behind⟩ | ⟨further, rfl, rfl⟩
  · cases near with
    | nil =>
      obtain rfl : first :: inner = far := behind
      exact absurd (by simp) left
    | cons other near =>
      obtain ⟨rfl, rfl⟩ := List.cons.inj behind
      exact ⟨near, far, rfl, rfl⟩
  · exact absurd (by simp) left

namespace Program

variable {room : Nat} {source : String}

theorem scan_not_illegal (silent : (parseWithin room source).2 = []) :
    ∀ token ∈ Token.scan source, token.kind ≠ .illegal := by
  intro token member illegal
  have uncut : .nestingTooDeep ∉ (ofTokens room (Token.scan source)).2 := by
    change .nestingTooDeep ∉ (parseWithin room source).2
    simp [silent]
  have blamed := lexical_ofTokens (Or.inl uncut)
  change lexical (parseWithin room source).2 = _ at blamed
  rw [silent, lexical_nil, faults, eq_comm, List.filterMap_eq_nil_iff] at blamed
  have faultless := blamed token member
  simp [Token.fault?, illegal] at faultless

theorem closed_of_silent (silent : (parseWithin room source).2 = []) : (Cursor.ofString source).Closed := by
  intro placed member
  rw [Bool.eq_false_iff]
  intro unclosed
  have scanned : placed.token ∈ Token.scan source := by
    rw [Token.scan_eq_placed]
    exact List.mem_map_of_mem member
  exact scan_not_illegal silent _ scanned (of_decide_eq_true (Bool.and_eq_true_iff.mp unclosed).1)

theorem scan_balanced (silent : (parseWithin room source).2 = []) : Balanced (Token.scan source) :=
  (ofTokens_sound silent).wellNested.balanced rfl

/-- The lexemes of a text that is cut at a line break, where no string is open, lie on both sides of it. -/
theorem placed_of_line_break {before : String} (closed : (Cursor.ofString before).Closed) (after : String) :
    ∃ behind, (Cursor.ofString (before ++ "\n" ++ after)).placed = (Cursor.ofString before).placed ++ behind ∧
      (∀ placed ∈ (Cursor.ofString before).placed, placed.stop ≤ before.length) ∧
      ∀ placed ∈ behind, before.length < placed.position := by
  refine ⟨_, Cursor.placed_ofString_append closed after, fun placed member => ?_, fun placed member => ?_⟩
  · simpa [Cursor.ofString, String.length_toList] using (Cursor.placed_bounds _ placed member).2
  · exact (Cursor.placed_bounds _ placed member).1

theorem continues_inside_brackets {before after : String} (silent : (parseWithin room (before ++ "\n" ++ after)).2 = [])
    (closed : (Cursor.ofString before).Closed) (inside : InsideBrackets (before ++ "\n" ++ after) before.length) :
    0 < bracketBalance (Token.scan before) := by
  obtain ⟨behind, seam, front, back⟩ := placed_of_line_break closed after
  obtain ⟨previous, opening, inner, closing, following, same, partner, nested, left, right⟩ := inside
  have balanced := scan_balanced silent
  rw [same] at balanced
  rw [Token.scan_eq_placed, seam, List.map_append, ← Token.scan_eq_placed] at same
  have opened : opening ∉ behind.map Placed.token := by
    intro member
    obtain ⟨placed, inside, rfl⟩ := List.mem_map.mp member
    exact Nat.lt_asymm left (back placed inside)
  have unfinished : closing ∉ Token.scan before := by
    rw [Token.scan_eq_placed]
    intro member
    obtain ⟨placed, inside, rfl⟩ := List.mem_map.mp member
    have ends := front placed inside
    have late : before.length < placed.position := right
    simp only [Placed.stop] at ends
    omega
  obtain ⟨near, far, whole, cut⟩ := exists_cut same opened unfinished
  rw [cut]
  exact balanced.between partner (nested.balanced rfl) whole

theorem complete_of_silent (silent : (parseWithin room source).2 = []) : needsContinuation source = false := by
  have closed : (Cursor.ofString source).placed.any (·.lexeme.isOpen) = false := by
    simpa [Cursor.Closed] using closed_of_silent silent
  rw [needsContinuation_eq, closed, (scan_balanced silent).level]
  rfl

theorem continues_at_line_break {before after : String} (silent : (parseWithin room (before ++ "\n" ++ after)).2 = [])
    (inside : InsideString (before ++ "\n" ++ after) before.length ∨ InsideBrackets (before ++ "\n" ++ after) before.length) :
    needsContinuation before = true := by
  by_cases closed : (Cursor.ofString before).Closed
  · rcases inside with ⟨placed, member, -, starts, ends⟩ | inside
    · obtain ⟨behind, seam, front, back⟩ := placed_of_line_break closed after
      rw [seam] at member
      rcases List.mem_append.mp member with member | member
      · exact absurd ends (Nat.not_lt.mpr (front placed member))
      · exact absurd starts (Nat.lt_asymm (back placed member))
    · rw [needsContinuation_eq, decide_eq_true (continues_inside_brackets silent closed inside), Bool.or_true]
  · exact needsContinuation_of_not_closed closed

/-- A source that is read without a diagnostic is a complete entry. Up to a line break inside a string or inside a pair of
brackets it is none. -/
theorem continuation_agrees (silent : (parseWithin room source).2 = []) :
    needsContinuation source = false ∧
      ∀ before after : String, source = before ++ "\n" ++ after →
        InsideString source before.length ∨ InsideBrackets source before.length → needsContinuation before = true := by
  refine ⟨complete_of_silent silent, ?_⟩
  rintro before after rfl inside
  exact continues_at_line_break silent inside

/-- A line break in a list of arguments, and one in a string in it. -/
theorem broken_call_continues :
    (parseWithin 20 "f([1,\n\"a\nb\"])").2 = [] ∧ needsContinuation "f([1,\n\"a\nb\"])" = false ∧
      needsContinuation "f([1," = true ∧ needsContinuation "f([1,\n\"a" = true := by
  have silent : (parseWithin 20 "f([1,\n\"a\nb\"])").2 = [] := List.isEmpty_iff.mp (by decide +kernel)
  obtain ⟨complete, unfinished⟩ := continuation_agrees silent
  refine ⟨silent, complete, unfinished "f([1," "\"a\nb\"])" rfl (Or.inr ?_), unfinished "f([1,\n\"a" "b\"])" rfl (Or.inl ?_)⟩
  · refine ⟨[⟨.identifier, "f", 0⟩], ⟨.leftParen, "(", 1⟩, [⟨.leftBracket, "[", 2⟩, ⟨.integer, "1", 3⟩, ⟨.comma, ",", 4⟩,
      ⟨.string, "a\nb", 6⟩, ⟨.rightBracket, "]", 11⟩], ⟨.rightParen, ")", 12⟩, [], by decide +kernel, .parens, ?_,
      by decide, by decide⟩
    exact .pair .brackets (.plain rfl (.plain rfl (.plain rfl .nil))) .nil
  · exact ⟨⟨6, .string, "a\nb", 5⟩, by decide +kernel, rfl, by decide, by decide⟩

end Program

end Treewalk
