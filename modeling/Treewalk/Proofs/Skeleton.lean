import Treewalk.Proofs.WellFormed

/-! What a source says apart from its punctuation. The skeleton leaves out parentheses and semicolons, which rendering
places anew, and writes numbers in their shortest form. A derivation keeps it: every other symbol is found again, in the
same order, among the symbols of the tree, and the tree is well-formed. -/

namespace Treewalk

def withoutLeadingZeros : List Char → List Char
  | '0' :: c :: rest => withoutLeadingZeros (c :: rest)
  | digits => digits

/-- What is left of a symbol in the skeleton. -/
def Symbol.reduced? (symbol : Symbol) : Option Symbol :=
  match symbol.kind with
  | .leftParen | .rightParen | .semicolon => none
  | .integer => some ⟨.integer, String.ofList (withoutLeadingZeros symbol.literal.toList)⟩
  | _ => some symbol

/-- Kinds whose symbols stand in the skeleton as they are. -/
@[simp, reducible] def Token.Kind.kept : Token.Kind → Bool
  | .leftParen | .rightParen | .semicolon | .integer => false
  | _ => true

def skeleton (symbols : List Symbol) : List Symbol := symbols.filterMap Symbol.reduced?

@[simp] theorem skeleton_nil : skeleton [] = [] := rfl

@[simp] theorem skeleton_append (front back : List Symbol) : skeleton (front ++ back) = skeleton front ++ skeleton back :=
  List.filterMap_append

@[simp] theorem skeleton_leftParen (text : String) (symbols : List Symbol) :
    skeleton (⟨.leftParen, text⟩ :: symbols) = skeleton symbols := rfl

@[simp] theorem skeleton_rightParen (text : String) (symbols : List Symbol) :
    skeleton (⟨.rightParen, text⟩ :: symbols) = skeleton symbols := rfl

@[simp] theorem skeleton_semicolon (text : String) (symbols : List Symbol) :
    skeleton (⟨.semicolon, text⟩ :: symbols) = skeleton symbols := rfl

theorem skeleton_number (literal : String) (symbols : List Symbol) :
    skeleton (⟨.integer, literal⟩ :: symbols) =
      ⟨.integer, String.ofList (withoutLeadingZeros literal.toList)⟩ :: skeleton symbols := rfl

@[simp] theorem skeleton_kept {kind : Token.Kind} (kept : kind.kept = true) (text : String) (symbols : List Symbol) :
    skeleton (⟨kind, text⟩ :: symbols) = ⟨kind, text⟩ :: skeleton symbols := by
  refine List.filterMap_cons_some ?_
  cases kind with
  | leftParen | rightParen | semicolon | integer => cases kept
  | _ => rfl

theorem digitChar_of_isDigit {c : Char} (digit : c.isDigit = true) :
    (c.toNat - '0'.toNat).digitChar = c ∧ c.toNat - '0'.toNat < 10 := by
  obtain ⟨low, high⟩ := Char.isDigit_iff_toNat.mp digit
  simp only [Char.reduceToNat] at low high ⊢
  refine ⟨Char.toNat_inj.mp ?_, by omega⟩
  rw [Nat.toNat_digitChar_of_lt_ten (by omega)]
  omega

theorem toDigits_ofDigitChars {chars : List Char} (digits : ∀ c ∈ chars, c.isDigit = true) :
    ∀ {start : Nat}, 0 < start → Nat.toDigits 10 (Nat.ofDigitChars 10 chars start) = Nat.toDigits 10 start ++ chars := by
  induction chars with
  | nil => simp
  | cons c rest ih =>
    intro start positive
    obtain ⟨same, small⟩ := digitChar_of_isDigit (digits c List.mem_cons_self)
    rw [Nat.ofDigitChars_cons, ih (fun c member => digits c (List.mem_cons_of_mem _ member)) (by omega),
      ← Nat.toDigits_append_toDigits (by decide) positive small, Nat.toDigits_of_lt_base small, same]
    simp

theorem toDigits_withoutLeadingZeros {chars : List Char} (digits : ∀ c ∈ chars, c.isDigit = true) (some_left : chars ≠ []) :
    Nat.toDigits 10 (Nat.ofDigitChars 10 chars 0) = withoutLeadingZeros chars := by
  fun_induction withoutLeadingZeros chars with
  | case1 c rest ih =>
    have zero : Nat.ofDigitChars 10 ('0' :: c :: rest) 0 = Nat.ofDigitChars 10 (c :: rest) 0 := by
      simp [Nat.ofDigitChars_cons]
    rw [zero]
    exact ih (fun c member => digits c (List.mem_cons_of_mem _ member)) (List.cons_ne_nil _ _)
  | case2 chars plain =>
    cases chars with
    | nil => exact absurd rfl some_left
    | cons c rest =>
      obtain ⟨same, small⟩ := digitChar_of_isDigit (digits c List.mem_cons_self)
      rw [Nat.ofDigitChars_cons]
      by_cases zero : c = '0'
      · subst zero
        cases rest with
        | nil => rfl
        | cons d rest => exact absurd rfl (plain d rest)
      · have positive : 0 < c.toNat - '0'.toNat := by
          refine Nat.pos_of_ne_zero fun none => zero ?_
          rw [← same, none]
          rfl
        rw [Nat.mul_zero, Nat.zero_add,
          toDigits_ofDigitChars (fun c member => digits c (List.mem_cons_of_mem _ member)) positive,
          Nat.toDigits_of_lt_base small, same]
        rfl

theorem withoutLeadingZeros_toDigits (number : Nat) :
    withoutLeadingZeros (Nat.toDigits 10 number) = Nat.toDigits 10 number := by
  have kept := toDigits_withoutLeadingZeros
    (fun c (member : c ∈ Nat.toDigits 10 number) => Nat.isDigit_of_mem_toDigits (by decide) (by decide) member)
    Nat.toDigits_ne_nil
  rwa [Nat.ofDigitChars_ten_toDigits, eq_comm] at kept

theorem skeleton_separated_semicolon :
    ∀ pieces : List (List Symbol), skeleton (separated .semicolon pieces) = skeleton pieces.flatten
  | [] => rfl
  | [piece] => by simp
  | first :: second :: others => by
    have more := skeleton_separated_semicolon (second :: others)
    simpa [Symbol.mark] using more

/-- What derives from these symbols is well-formed if they are lexical, and its own symbols have the same skeleton. -/
def Faithful (symbols : List Symbol) (wellFormed : Prop) (rendered : List Symbol) : Prop :=
  (∀ symbol ∈ symbols, symbol.Lexical) → wellFormed ∧ skeleton symbols = skeleton rendered

theorem Expr.allWellFormed_append {front : List Expr} {expr : Expr} :
    Expr.AllWellFormed (front ++ [expr]) ↔ Expr.AllWellFormed front ∧ expr.WellFormed := by
  induction front with
  | nil => simp [Expr.AllWellFormed]
  | cons first front ih => simp [Expr.AllWellFormed, ih, and_assoc]

theorem Expr.symbolsAll_append (front back : List Expr) :
    Expr.symbolsAll (front ++ back) = Expr.symbolsAll front ++ Expr.symbolsAll back := by
  induction front with
  | nil => rfl
  | cons first front ih => simp [Expr.symbolsAll, ih]

theorem separated_append_single {kind : Token.Kind} {pieces : List (List Symbol)} (some_left : pieces ≠ [])
    (piece : List Symbol) :
    separated kind (pieces ++ [piece]) = separated kind pieces ++ .mark kind :: piece := by
  induction pieces with
  | nil => exact absurd rfl some_left
  | cons first others ih =>
    cases others with
    | nil => simp
    | cons second others => simpa using ih (List.cons_ne_nil _ _)

namespace Derivation

theorem operator_kept {kind : Token.Kind} (operator : kind.IsOperator) : kind.kept = true := by
  simp only [Token.Kind.IsOperator, List.mem_cons, List.not_mem_nil, or_false] at operator
  rcases operator with rfl | rfl | rfl | rfl | rfl | rfl | rfl | rfl | rfl <;> rfl

/-- The operator read from a lexical symbol is a known one, with the symbol it was read from. -/
theorem operator_of_lexical {kind : Token.Kind} {literal : String} (operator : kind.IsOperator)
    (lexical : Symbol.Lexical ⟨kind, literal⟩) :
    literal = kind.text ∧ (BinaryOp.ofSymbol literal).Known ∧ (BinaryOp.ofSymbol literal).kind = kind := by
  simp only [Token.Kind.IsOperator, List.mem_cons, List.not_mem_nil, or_false] at operator
  have text : literal = kind.text := by
    rcases operator with rfl | rfl | rfl | rfl | rfl | rfl | rfl | rfl | rfl <;> exact lexical
  subst text
  rcases operator with rfl | rfl | rfl | rfl | rfl | rfl | rfl | rfl | rfl <;> exact ⟨rfl, by decide, rfl⟩

theorem Names.faithful {symbols : List Symbol} {names : List String} (derived : Names symbols names) :
    names ≠ [] ∧ Faithful symbols (∀ name ∈ names, IsName name) (separated .comma (nameSymbols names)) := by
  induction derived with
  | single => exact ⟨by simp, fun lexical => ⟨by simpa using! lexical, by simp [nameSymbols]⟩⟩
  | @snoc symbols parameters name comma names ih =>
    obtain ⟨some_left, faithful⟩ := ih
    refine ⟨by simp, fun lexical => ?_⟩
    obtain ⟨front, back⟩ := List.forall_mem_append.mp lexical
    obtain ⟨all, same⟩ := faithful front
    obtain ⟨punctuation, last⟩ := List.forall_mem_cons.mp back
    obtain rfl : comma = "," := punctuation
    refine ⟨?_, ?_⟩
    · intro other member
      rcases List.mem_append.mp member with member | member
      · exact all other member
      · obtain rfl := List.mem_singleton.mp member
        exact last _ List.mem_cons_self
    · rw [nameSymbols, List.map_append, List.map_singleton, separated_append_single (by simpa using some_left)]
      simp [same, nameSymbols]
      rfl

theorem Parameters.faithful {symbols : List Symbol} {names : List String} (derived : Parameters symbols names) :
    Faithful symbols (∀ name ∈ names, IsName name) (separated .comma (nameSymbols names)) := by
  cases derived with
  | none => exact fun _ => ⟨by simp, rfl⟩
  | some names => exact names.faithful.2

theorem Items.symbolsAll_ne_nil {symbols : List Symbol} {next : Token.Kind} {exprs : List Expr}
    (derived : Items symbols next exprs) : Expr.symbolsAll exprs ≠ [] := by
  cases derived with
  | single => simp [Expr.symbolsAll]
  | snoc => simp [Expr.symbolsAll_append, Expr.symbolsAll]

mutual

theorem Operand.faithful {symbols : List Symbol} {next : Token.Kind} {expr : Expr} :
    Operand symbols next expr → Faithful symbols expr.WellFormed expr.symbols
  | .name, lexical => ⟨lexical _ List.mem_cons_self, rfl⟩
  | .integer small, lexical => by
    have numeral : IsNumeral _ := lexical _ List.mem_cons_self
    refine ⟨⟨Int.natCast_nonneg _, Int.ofNat_le.mpr small⟩, ?_⟩
    rw [Expr.symbols, skeleton_number, skeleton_number, toList_toString, withoutLeadingZeros_toDigits,
      toDigits_withoutLeadingZeros numeral.2 numeral.1]
  | .string, lexical => ⟨lexical _ List.mem_cons_self, rfl⟩
  | .kwTrue, lexical => by
    obtain rfl : _ = "true" := lexical _ List.mem_cons_self
    exact ⟨trivial, rfl⟩
  | .kwFalse, lexical => by
    obtain rfl : _ = "false" := lexical _ List.mem_cons_self
    exact ⟨trivial, rfl⟩
  | .unary sign inner _, lexical => by
    obtain ⟨first, others⟩ := List.forall_mem_cons.mp lexical
    obtain ⟨well, same⟩ := inner.faithful others
    rcases sign with rfl | rfl
    · obtain rfl : _ = "!" := first
      refine ⟨⟨by decide, well⟩, ?_⟩
      simp [Expr.symbols, Symbol.mark, UnaryOp.ofSymbol, UnaryOp.kind, Token.Kind.text, Token.Kind.name, same]
    · obtain rfl : _ = "-" := first
      refine ⟨⟨by decide, well⟩, ?_⟩
      simp [Expr.symbols, Symbol.mark, UnaryOp.ofSymbol, UnaryOp.kind, Token.Kind.text, Token.Kind.name, same]
  | .grouped inner, lexical => by
    obtain ⟨well, same⟩ := inner.faithful fun symbol member => lexical symbol (by simp [member])
    exact ⟨well, by simpa using same⟩
  | .array items, lexical => by
    obtain ⟨front, back⟩ := List.forall_mem_append.mp lexical
    obtain ⟨left, inner⟩ := List.forall_mem_cons.mp front
    obtain rfl : _ = "[" := left
    obtain rfl : _ = "]" := back _ List.mem_cons_self
    obtain ⟨well, same⟩ := items.faithful inner
    exact ⟨well, by simp [Expr.symbols, Symbol.mark, Token.Kind.text, Token.Kind.name, same]⟩
  | .ifThen test body _, lexical => by
    obtain ⟨front, back⟩ := List.forall_mem_append.mp lexical
    obtain ⟨word, opened⟩ := List.forall_mem_cons.mp front
    obtain ⟨wellTest, sameTest⟩ := test.faithful (List.forall_mem_cons.mp opened).2
    obtain ⟨wellBody, sameBody⟩ := body.faithful (List.forall_mem_cons.mp back).2
    obtain rfl : _ = "if" := word
    exact ⟨⟨wellTest, wellBody⟩, by simp [Expr.symbols, Symbol.mark, Token.Kind.text, sameTest, sameBody]⟩
  | .ifElse test body other, lexical => by
    obtain ⟨before, after⟩ := List.forall_mem_append.mp lexical
    obtain ⟨front, back⟩ := List.forall_mem_append.mp before
    obtain ⟨word, opened⟩ := List.forall_mem_cons.mp front
    obtain ⟨otherwise, last⟩ := List.forall_mem_cons.mp after
    obtain ⟨wellTest, sameTest⟩ := test.faithful (List.forall_mem_cons.mp opened).2
    obtain ⟨wellBody, sameBody⟩ := body.faithful (List.forall_mem_cons.mp back).2
    obtain ⟨wellOther, sameOther⟩ := other.faithful last
    obtain rfl : _ = "if" := word
    obtain rfl : _ = "else" := otherwise
    exact ⟨⟨wellTest, wellBody, wellOther⟩, by
      simp [Expr.symbols, Symbol.mark, Token.Kind.text, sameTest, sameBody, sameOther]⟩
  | .function names body, lexical => by
    obtain ⟨front, back⟩ := List.forall_mem_append.mp lexical
    obtain ⟨word, opened⟩ := List.forall_mem_cons.mp front
    obtain ⟨valid, sameNames⟩ := names.faithful (List.forall_mem_cons.mp opened).2
    obtain ⟨well, same⟩ := body.faithful (List.forall_mem_cons.mp back).2
    obtain rfl : _ = "fn" := word
    exact ⟨⟨valid, well⟩, by simp [Expr.symbols, Symbol.mark, Token.Kind.text, sameNames, same]⟩

theorem Expression.faithful {precedence : Precedence} {symbols : List Symbol} {next : Token.Kind} {expr : Expr} :
    Expression precedence symbols next expr → Faithful symbols expr.WellFormed expr.symbols
  | .operand first, lexical => first.faithful lexical
  | .assign target _ value _, lexical => by
    obtain ⟨front, back⟩ := List.forall_mem_append.mp lexical
    obtain ⟨sign, last⟩ := List.forall_mem_cons.mp back
    obtain ⟨valid, sameTarget⟩ := target.faithful front
    obtain ⟨well, same⟩ := value.faithful last
    obtain rfl : _ = "=" := sign
    rw [Expr.symbols, skeleton_kept rfl, skeleton_nil] at sameTarget
    exact ⟨⟨valid, well⟩, by simp [Expr.symbols, Symbol.mark, Token.Kind.text, Token.Kind.name, sameTarget, same]⟩
  | .call callee _ items, lexical => by
    obtain ⟨before, _⟩ := List.forall_mem_append.mp lexical
    obtain ⟨front, back⟩ := List.forall_mem_append.mp before
    obtain ⟨wellCallee, sameCallee⟩ := callee.faithful front
    obtain ⟨well, same⟩ := items.faithful (List.forall_mem_cons.mp back).2
    exact ⟨⟨wellCallee, well⟩, by simp [Expr.symbols, Symbol.mark, sameCallee, same]⟩
  | .index whole _ inner, lexical => by
    obtain ⟨before, last⟩ := List.forall_mem_append.mp lexical
    obtain ⟨front, back⟩ := List.forall_mem_append.mp before
    obtain ⟨left, within⟩ := List.forall_mem_cons.mp back
    obtain ⟨wellWhole, sameWhole⟩ := whole.faithful front
    obtain ⟨well, same⟩ := inner.faithful within
    obtain rfl : _ = "[" := left
    obtain rfl : _ = "]" := last _ List.mem_cons_self
    exact ⟨⟨wellWhole, well⟩, by simp [Expr.symbols, Symbol.mark, Token.Kind.text, Token.Kind.name, sameWhole, same]⟩
  | .binary first operator _ second _, lexical => by
    obtain ⟨front, back⟩ := List.forall_mem_append.mp lexical
    obtain ⟨sign, last⟩ := List.forall_mem_cons.mp back
    obtain ⟨wellFirst, sameFirst⟩ := first.faithful front
    obtain ⟨wellSecond, sameSecond⟩ := second.faithful last
    obtain ⟨rfl, known, kind⟩ := operator_of_lexical operator sign
    refine ⟨⟨wellFirst, known, wellSecond⟩, ?_⟩
    simp [Expr.symbols, Symbol.mark, kind, operator_kept operator, sameFirst, sameSecond]

theorem Items.faithful {symbols : List Symbol} {next : Token.Kind} {exprs : List Expr} :
    Items symbols next exprs → Faithful symbols (Expr.AllWellFormed exprs) (separated .comma (Expr.symbolsAll exprs))
  | .single item _, lexical => by
    obtain ⟨well, same⟩ := item.faithful lexical
    exact ⟨⟨well, trivial⟩, by simpa [Expr.symbolsAll] using same⟩
  | .snoc items item _, lexical => by
    obtain ⟨front, back⟩ := List.forall_mem_append.mp lexical
    obtain ⟨comma, last⟩ := List.forall_mem_cons.mp back
    obtain ⟨all, sameItems⟩ := items.faithful front
    obtain ⟨well, same⟩ := item.faithful last
    obtain rfl : _ = "," := comma
    refine ⟨Expr.allWellFormed_append.mpr ⟨all, well⟩, ?_⟩
    rw [Expr.symbolsAll_append, Expr.symbolsAll, Expr.symbolsAll, separated_append_single items.symbolsAll_ne_nil]
    simp [Symbol.mark, Token.Kind.text, Token.Kind.name, sameItems, same]

theorem Arguments.faithful {close : Token.Kind} {symbols : List Symbol} {exprs : List Expr} :
    Arguments close symbols exprs → Faithful symbols (Expr.AllWellFormed exprs) (separated .comma (Expr.symbolsAll exprs))
  | .none, _ => ⟨trivial, rfl⟩
  | .some items, lexical => items.faithful lexical

theorem Block.faithful {symbols : List Symbol} {stmts : List Stmt} :
    Block symbols stmts →
      Faithful symbols (Stmt.AllWellFormed stmts) (bracesAround (separated .semicolon (Stmt.symbolsAll stmts)))
  | .braces body, lexical => by
    obtain ⟨front, back⟩ := List.forall_mem_append.mp lexical
    obtain ⟨left, inner⟩ := List.forall_mem_cons.mp front
    obtain rfl : _ = "\x7b" := left
    obtain rfl : _ = "\x7d" := back _ List.mem_cons_self
    obtain ⟨well, same⟩ := body.faithful inner
    exact ⟨well, by simp [bracesAround, Symbol.mark, Token.Kind.text, Token.Kind.name, same]⟩

theorem Clause.faithful {symbols : List Symbol} {next : Token.Kind} {stmt : Stmt} :
    Clause symbols next stmt → Faithful symbols stmt.WellFormed stmt.symbols
  | .bind value _, lexical => by
    obtain ⟨word, named⟩ := List.forall_mem_cons.mp lexical
    obtain ⟨valid, signed⟩ := List.forall_mem_cons.mp named
    obtain ⟨sign, others⟩ := List.forall_mem_cons.mp signed
    obtain ⟨well, same⟩ := value.faithful others
    obtain rfl : _ = "let" := word
    obtain rfl : _ = "=" := sign
    exact ⟨⟨valid, well⟩, by simp [Stmt.symbols, Symbol.mark, Token.Kind.text, Token.Kind.name, same]⟩
  | .leave _, lexical => by
    obtain rfl : _ = "return" := lexical _ List.mem_cons_self
    exact ⟨trivial, rfl⟩
  | .leaveWith value _, lexical => by
    obtain ⟨word, others⟩ := List.forall_mem_cons.mp lexical
    obtain rfl : _ = "return" := word
    obtain ⟨well, same⟩ := value.faithful others
    exact ⟨well, by simp [Stmt.symbols, Symbol.mark, Token.Kind.text, same]⟩
  | .expr value _, lexical => value.faithful lexical

theorem Statement.faithful {symbols : List Symbol} {next : Token.Kind} {stmt : Stmt} :
    Statement symbols next stmt → Faithful symbols stmt.WellFormed stmt.symbols
  | .plain clause _, lexical => clause.faithful lexical
  | .ended clause, lexical => by
    obtain ⟨well, same⟩ := clause.faithful (List.forall_mem_append.mp lexical).1
    exact ⟨well, by simpa using same⟩

theorem Statements.faithful {symbols : List Symbol} {next : Token.Kind} {stmts : List Stmt} :
    Statements symbols next stmts →
      Faithful symbols (Stmt.AllWellFormed stmts) (separated .semicolon (Stmt.symbolsAll stmts))
  | .none, _ => ⟨trivial, rfl⟩
  | .cons first others, lexical => by
    obtain ⟨front, back⟩ := List.forall_mem_append.mp lexical
    obtain ⟨wellFirst, sameFirst⟩ := first.faithful front
    obtain ⟨well, same⟩ := others.faithful back
    refine ⟨⟨wellFirst, well⟩, ?_⟩
    rw [skeleton_separated_semicolon] at same ⊢
    simp [Stmt.symbolsAll, sameFirst, same]

end

end Derivation

end Treewalk
