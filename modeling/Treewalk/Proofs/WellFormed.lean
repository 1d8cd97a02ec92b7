import Treewalk.Proofs.Derivation

/-! Well-formed trees, and the symbols they are written with. A tree is well-formed when its names, texts, numbers and
operators can be written as lexical symbols and its blocks stand only where a source can have them. The symbols of a
well-formed tree derive that tree again: operations come in parentheses, so no precedence can regroup them. -/

namespace Treewalk

/-- The kind that an operator is read from. There is none for an unknown one. -/
def UnaryOp.kind : UnaryOp → Token.Kind
  | .negate => .minus
  | .invert => .bang
  | .unknown _ => .illegal

def BinaryOp.kind : BinaryOp → Token.Kind
  | .add => .plus
  | .subtract => .minus
  | .multiply => .asterisk
  | .divide => .slash
  | .power => .caret
  | .less => .less
  | .greater => .greater
  | .equal => .equal
  | .notEqual => .notEqual
  | .unknown _ => .illegal

def UnaryOp.Known (op : UnaryOp) : Prop := op.kind ≠ .illegal

def BinaryOp.Known (op : BinaryOp) : Prop := op.kind ≠ .illegal

instance (op : UnaryOp) : Decidable op.Known := inferInstanceAs (Decidable (op.kind ≠ .illegal))

instance (op : BinaryOp) : Decidable op.Known := inferInstanceAs (Decidable (op.kind ≠ .illegal))

mutual

def Expr.WellFormed : Expr → Prop
  | .name name => IsName name
  | .integer value => 0 ≤ value ∧ value ≤ maxInteger
  | .string text => IsContent text
  | .boolean _ => True
  | .unary op operand => op.Known ∧ operand.WellFormed
  | .binary left op right => left.WellFormed ∧ op.Known ∧ right.WellFormed
  | .assign name value => IsName name ∧ value.WellFormed
  | .ifThen condition consequence => condition.WellFormed ∧ Stmt.AllWellFormed consequence
  | .ifElse condition consequence alternative =>
    condition.WellFormed ∧ Stmt.AllWellFormed consequence ∧ Stmt.AllWellFormed alternative
  | .function parameters body => (∀ name ∈ parameters, IsName name) ∧ Stmt.AllWellFormed body
  | .call function arguments => function.WellFormed ∧ Expr.AllWellFormed arguments
  | .array elements => Expr.AllWellFormed elements
  | .index collection position => collection.WellFormed ∧ position.WellFormed

def Expr.AllWellFormed : List Expr → Prop
  | [] => True
  | expr :: exprs => expr.WellFormed ∧ Expr.AllWellFormed exprs

/-- Blocks are no statements of their own in a source. -/
def Stmt.WellFormed : Stmt → Prop
  | .bind name value => IsName name ∧ value.WellFormed
  | .leave => True
  | .leaveWith value => value.WellFormed
  | .expr value => value.WellFormed
  | .block _ => False

def Stmt.AllWellFormed : List Stmt → Prop
  | [] => True
  | stmt :: stmts => stmt.WellFormed ∧ Stmt.AllWellFormed stmts

end

mutual

def Expr.decideWellFormed : (expr : Expr) → Decidable expr.WellFormed
  | .name name => inferInstanceAs (Decidable (IsName name))
  | .integer value => inferInstanceAs (Decidable (0 ≤ value ∧ value ≤ maxInteger))
  | .string text => inferInstanceAs (Decidable (IsContent text))
  | .boolean _ => isTrue trivial
  | .unary op operand => @instDecidableAnd op.Known _ inferInstance operand.decideWellFormed
  | .binary left op right =>
    @instDecidableAnd _ _ left.decideWellFormed (@instDecidableAnd op.Known _ inferInstance right.decideWellFormed)
  | .assign name value => @instDecidableAnd (IsName name) _ inferInstance value.decideWellFormed
  | .ifThen condition consequence => @instDecidableAnd _ _ condition.decideWellFormed (Stmt.decideAllWellFormed consequence)
  | .ifElse condition consequence alternative =>
    @instDecidableAnd _ _ condition.decideWellFormed
      (@instDecidableAnd _ _ (Stmt.decideAllWellFormed consequence) (Stmt.decideAllWellFormed alternative))
  | .function parameters body =>
    @instDecidableAnd (∀ name ∈ parameters, IsName name) _ inferInstance (Stmt.decideAllWellFormed body)
  | .call function arguments => @instDecidableAnd _ _ function.decideWellFormed (Expr.decideAllWellFormed arguments)
  | .array elements => Expr.decideAllWellFormed elements
  | .index collection position => @instDecidableAnd _ _ collection.decideWellFormed position.decideWellFormed

def Expr.decideAllWellFormed : (exprs : List Expr) → Decidable (Expr.AllWellFormed exprs)
  | [] => isTrue trivial
  | expr :: exprs => @instDecidableAnd _ _ expr.decideWellFormed (Expr.decideAllWellFormed exprs)

def Stmt.decideWellFormed : (stmt : Stmt) → Decidable stmt.WellFormed
  | .bind name value => @instDecidableAnd (IsName name) _ inferInstance value.decideWellFormed
  | .leave => isTrue trivial
  | .leaveWith value => value.decideWellFormed
  | .expr value => value.decideWellFormed
  | .block _ => isFalse id

def Stmt.decideAllWellFormed : (stmts : List Stmt) → Decidable (Stmt.AllWellFormed stmts)
  | [] => isTrue trivial
  | stmt :: stmts => @instDecidableAnd _ _ stmt.decideWellFormed (Stmt.decideAllWellFormed stmts)

end

instance (expr : Expr) : Decidable expr.WellFormed := expr.decideWellFormed

def Program.WellFormed (program : Program) : Prop := Stmt.AllWellFormed program.statements

instance (program : Program) : Decidable program.WellFormed := Stmt.decideAllWellFormed program.statements

/-! ### The symbols of a tree -/

/-- Pieces with a mark between them. -/
def separated (kind : Token.Kind) (pieces : List (List Symbol)) : List Symbol := List.intercalate [.mark kind] pieces

def bracesAround (symbols : List Symbol) : List Symbol := .mark .leftBrace :: symbols ++ [.mark .rightBrace]

def nameSymbols (names : List String) : List (List Symbol) := names.map fun name => [⟨.identifier, name⟩]

mutual

def Expr.symbols : Expr → List Symbol
  | .name name => [⟨.identifier, name⟩]
  | .integer value => [⟨.integer, toString value⟩]
  | .string text => [⟨.string, text⟩]
  | .boolean value => [.mark (if value then .kwTrue else .kwFalse)]
  | .unary op operand => .mark .leftParen :: (.mark op.kind :: operand.symbols) ++ [.mark .rightParen]
  | .binary left op right => .mark .leftParen :: (left.symbols ++ .mark op.kind :: right.symbols) ++ [.mark .rightParen]
  | .assign name value =>
    .mark .leftParen :: ([⟨.identifier, name⟩] ++ .mark .assign :: value.symbols) ++ [.mark .rightParen]
  | .ifThen condition consequence =>
    .mark .kwIf :: .mark .leftParen :: condition.symbols
      ++ .mark .rightParen :: bracesAround (separated .semicolon (Stmt.symbolsAll consequence))
  | .ifElse condition consequence alternative =>
    .mark .kwIf :: .mark .leftParen :: condition.symbols
      ++ .mark .rightParen :: bracesAround (separated .semicolon (Stmt.symbolsAll consequence))
      ++ .mark .kwElse :: bracesAround (separated .semicolon (Stmt.symbolsAll alternative))
  | .function parameters body =>
    .mark .kwFunction :: .mark .leftParen :: separated .comma (nameSymbols parameters)
      ++ .mark .rightParen :: bracesAround (separated .semicolon (Stmt.symbolsAll body))
  | .call function arguments =>
    function.symbols ++ .mark .leftParen :: separated .comma (Expr.symbolsAll arguments) ++ [.mark .rightParen]
  | .array elements => .mark .leftBracket :: separated .comma (Expr.symbolsAll elements) ++ [.mark .rightBracket]
  | .index collection position =>
    .mark .leftParen :: (collection.symbols ++ .mark .leftBracket :: position.symbols ++ [.mark .rightBracket])
      ++ [.mark .rightParen]

def Expr.symbolsAll : List Expr → List (List Symbol)
  | [] => []
  | expr :: exprs => expr.symbols :: Expr.symbolsAll exprs

def Stmt.symbols : Stmt → List Symbol
  | .bind name value => .mark .kwLet :: ⟨.identifier, name⟩ :: .mark .assign :: value.symbols
  | .leave => [.mark .kwReturn]
  | .leaveWith value => .mark .kwReturn :: value.symbols
  | .expr value => value.symbols
  | .block statements => bracesAround (separated .semicolon (Stmt.symbolsAll statements))

def Stmt.symbolsAll : List Stmt → List (List Symbol)
  | [] => []
  | stmt :: stmts => stmt.symbols :: Stmt.symbolsAll stmts

end

theorem Expr.symbolsAll_eq_map (exprs : List Expr) : Expr.symbolsAll exprs = exprs.map Expr.symbols := by
  induction exprs with
  | nil => rfl
  | cons expr exprs ih => simp [Expr.symbolsAll, ih]

theorem Stmt.symbolsAll_eq_map (stmts : List Stmt) : Stmt.symbolsAll stmts = stmts.map Stmt.symbols := by
  induction stmts with
  | nil => rfl
  | cons stmt stmts ih => simp [Stmt.symbolsAll, ih]

def Program.symbols (program : Program) : List Symbol := separated .semicolon (Stmt.symbolsAll program.statements)

@[simp] theorem separated_nil (kind : Token.Kind) : separated kind [] = [] := rfl

@[simp] theorem separated_single (kind : Token.Kind) (piece : List Symbol) : separated kind [piece] = piece := by
  simp [separated]

@[simp] theorem separated_cons_cons (kind : Token.Kind) (first second : List Symbol) (others : List (List Symbol)) :
    separated kind (first :: second :: others) = first ++ .mark kind :: separated kind (second :: others) := by
  simp [separated]

theorem toList_toString (number : Nat) : (toString (number : Int)).toList = Nat.toDigits 10 number := Nat.toList_repr

namespace Derivation

theorem Names.cons {name comma : String} {symbols : List Symbol} {parameters : List String} :
    Names symbols parameters → Names ([⟨.identifier, name⟩] ++ ⟨.comma, comma⟩ :: symbols) (name :: parameters)
  | .single => .snoc .single
  | .snoc names => by simpa using! Names.snoc names.cons

theorem Items.cons {symbols rest : List Symbol} {next : Token.Kind} {expr : Expr} {comma : String} {exprs : List Expr}
    (item : Expression .lowest symbols .comma expr) :
    Items rest next exprs → Items (symbols ++ ⟨.comma, comma⟩ :: rest) next (expr :: exprs)
  | .single last ends => .snoc (.single item (Nat.le_refl 0)) last ends
  | .snoc items last ends => by simpa using! Items.snoc (Items.cons item items) last ends

theorem names_derive : ∀ {names : List String}, names ≠ [] → Names (separated .comma (nameSymbols names)) names
  | [], some_left => absurd rfl some_left
  | [_], _ => .single
  | _ :: _ :: _, _ => (names_derive (List.cons_ne_nil _ _)).cons

theorem parameters_derive (names : List String) : Parameters (separated .comma (nameSymbols names)) names := by
  cases names with
  | nil => exact .none
  | cons => exact .some (names_derive (List.cons_ne_nil _ _))

theorem ofSymbol_text_unary {op : UnaryOp} (known : op.Known) : UnaryOp.ofSymbol op.kind.text = op := by
  cases op with
  | unknown => exact absurd rfl known
  | _ => rfl

theorem ofSymbol_text_binary {op : BinaryOp} (known : op.Known) : BinaryOp.ofSymbol op.kind.text = op := by
  cases op with
  | unknown => exact absurd rfl known
  | _ => rfl

theorem isOperator_kind {op : BinaryOp} (known : op.Known) : op.kind.IsOperator := by
  cases op with
  | unknown => exact absurd rfl known
  | _ => simp [BinaryOp.kind, Token.Kind.IsOperator]

theorem precedence_pos {kind : Token.Kind} (operator : kind.IsOperator) : 0 < kind.precedence := by
  simp only [Token.Kind.IsOperator, List.mem_cons, List.not_mem_nil, or_false] at operator
  rcases operator with rfl | rfl | rfl | rfl | rfl | rfl | rfl | rfl | rfl <;> decide

theorem rightPrecedence_lt_call {kind : Token.Kind} (operator : kind.IsOperator) : kind.rightPrecedence < .call := by
  simp only [Token.Kind.IsOperator, List.mem_cons, List.not_mem_nil, or_false] at operator
  rcases operator with rfl | rfl | rfl | rfl | rfl | rfl | rfl | rfl | rfl <;> decide

theorem endsReturn_ends {next : Token.Kind} (ends : next.EndsReturn) : next ≠ .kwElse ∧ next.precedence ≤ .lowest := by
  simp only [Token.Kind.EndsReturn, List.mem_cons, List.not_mem_nil, or_false] at ends
  rcases ends with rfl | rfl | rfl <;> decide

theorem ofDigitChars_toString (number : Nat) : Nat.ofDigitChars 10 (toString (number : Int)).toList 0 = number := by
  rw [toList_toString, Nat.ofDigitChars_ten_toDigits]

theorem integer_derives {value : Int} (positive : 0 ≤ value) (small : value ≤ maxInteger) (next : Token.Kind) :
    Operand [⟨.integer, toString value⟩] next (.integer value) := by
  obtain ⟨number, rfl⟩ := Int.eq_ofNat_of_zero_le positive
  have fits : Nat.ofDigitChars 10 (toString (number : Int)).toList 0 ≤ maxInteger := by
    rw [ofDigitChars_toString]
    exact Int.ofNat_le.mp small
  have derived : Operand [⟨.integer, toString (number : Int)⟩] next _ := .integer fits
  rwa [ofDigitChars_toString] at derived

/-- What is written for an expression is read as that expression where nothing behind it binds to it. -/
def Closed (write : Expr → List Symbol) (expr : Expr) : Prop :=
  ∀ {next : Token.Kind}, next ≠ .kwElse → next.precedence ≤ .lowest → Expression .lowest (write expr) next expr

/-- What is written for a statement is read as that statement where a sequence goes on or ends behind it. -/
def Whole (write : Stmt → List Symbol) (stmt : Stmt) : Prop :=
  ∀ {next : Token.Kind}, next.EndsReturn → Clause (write stmt) next stmt

theorem items_derive {write : Expr → List Symbol} : ∀ {exprs : List Expr}, exprs ≠ [] →
    (∀ expr ∈ exprs, Closed write expr) → ∀ {next : Token.Kind}, next ≠ .kwElse → next.precedence ≤ .lowest →
      Items (separated .comma (exprs.map write)) next exprs
  | [], some_left, _, _, _, _ => absurd rfl some_left
  | [expr], _, closed, _, alone, ends => by
    simpa using Items.single (closed expr List.mem_cons_self alone ends) ends
  | expr :: _ :: _, _, closed, _, alone, ends =>
    .cons (closed expr List.mem_cons_self (by decide) (by decide))
      (items_derive (List.cons_ne_nil _ _) (fun other member => closed other (List.mem_cons_of_mem _ member)) alone ends)

theorem arguments_derive {write : Expr → List Symbol} {exprs : List Expr} {pieces : List (List Symbol)}
    (written : pieces = exprs.map write) (closed : ∀ expr ∈ exprs, Closed write expr) {close : Token.Kind}
    (ends : close ≠ .kwElse ∧ close.precedence ≤ .lowest) : Arguments close (separated .comma pieces) exprs := by
  subst written
  cases exprs with
  | nil => exact .none
  | cons expr exprs => exact .some (items_derive (List.cons_ne_nil _ _) closed ends.1 ends.2)

theorem statements_derive {write : Stmt → List Symbol} : ∀ {stmts : List Stmt}, (∀ stmt ∈ stmts, Whole write stmt) →
    ∀ {next : Token.Kind}, next = .rightBrace ∨ next = .endOfInput →
      Statements (separated .semicolon (stmts.map write)) next stmts
  | [], _, _, _ => .none
  | [stmt], whole, next, last => by
    have ends : next.EndsReturn := by rcases last with rfl | rfl <;> simp [Token.Kind.EndsReturn]
    have clause : Clause (write stmt) next stmt := whole stmt List.mem_cons_self ends
    have bare : next ≠ .semicolon := by rcases last with rfl | rfl <;> decide
    have only : Statements (write stmt ++ []) next [stmt] := .cons (.plain clause bare) .none
    simpa using only
  | stmt :: second :: others, whole, _, last => by
    have clause : Clause (write stmt) .semicolon stmt :=
      whole stmt List.mem_cons_self (by simp [Token.Kind.EndsReturn])
    have more := statements_derive (fun other member => whole other (List.mem_cons_of_mem _ member)) last
    simpa using! Statements.cons (.ended clause) more

theorem block_derives {write : Stmt → List Symbol} {stmts : List Stmt} {pieces : List (List Symbol)}
    (written : pieces = stmts.map write) (whole : ∀ stmt ∈ stmts, Whole write stmt) :
    Block (bracesAround (separated .semicolon pieces)) stmts :=
  .braces (written ▸ statements_derive whole (Or.inl rfl))

mutual

/-- Nothing of a rendered expression can be taken away from it by what stands around it, except that an `else` behind a
conditional would belong to it. -/
theorem expr_derives : ∀ (expr : Expr), expr.WellFormed → ∀ {precedence : Precedence} {next : Token.Kind}, precedence < .call →
    next ≠ .kwElse → Expression precedence expr.symbols next expr
  | .name _, _, _, _, _, _ => .operand .name
  | .integer _, ⟨positive, small⟩, _, next, _, _ => .operand (integer_derives positive small next)
  | .string _, _, _, _, _, _ => .operand .string
  | .boolean true, _, _, _, _, _ => .operand .kwTrue
  | .boolean false, _, _, _, _, _ => .operand .kwFalse
  | .unary op operand, ⟨known, well⟩, _, next, _, _ => by
    have inner : Expression .unary operand.symbols .rightParen operand := expr_derives operand well (by decide) (by decide)
    have sign : op.kind = .bang ∨ op.kind = .minus := by
      cases op with
      | negate => exact Or.inr rfl
      | invert => exact Or.inl rfl
      | unknown => exact absurd rfl known
    have signed : Operand (.mark op.kind :: operand.symbols) .rightParen _ := .unary sign inner (Nat.zero_le _)
    rw [ofSymbol_text_unary known] at signed
    exact .operand (.grouped (.operand signed))
  | .binary left op right, ⟨wellLeft, known, wellRight⟩, _, next, _, _ => by
    have operator := isOperator_kind known
    have first : Expression .lowest left.symbols op.kind left := expr_derives left wellLeft (by decide) (by
      intro same
      simp [same, Token.Kind.IsOperator] at operator)
    have second : Expression op.kind.rightPrecedence right.symbols .rightParen right :=
      expr_derives right wellRight (rightPrecedence_lt_call operator) (by decide)
    have whole : Expression .lowest (left.symbols ++ .mark op.kind :: right.symbols) .rightParen _ :=
      .binary first operator (precedence_pos operator) second (Nat.zero_le _)
    rw [ofSymbol_text_binary known] at whole
    exact .operand (.grouped whole)
  | .assign name value, ⟨_, well⟩, _, _, _, _ =>
    .operand (.grouped (.assign (.operand .name) (by decide) (expr_derives value well (by decide) (by decide)) (Nat.le_refl 0)))
  | .ifThen condition consequence, ⟨test, body⟩, _, _, _, alone =>
    .operand (.ifThen (expr_derives condition test (by decide) (by decide))
      (block_derives (Stmt.symbolsAll_eq_map consequence) (stmts_whole consequence body)) alone)
  | .ifElse condition consequence alternative, ⟨test, body, other⟩, _, _, _, _ =>
    .operand (.ifElse (expr_derives condition test (by decide) (by decide))
      (block_derives (Stmt.symbolsAll_eq_map consequence) (stmts_whole consequence body))
      (block_derives (Stmt.symbolsAll_eq_map alternative) (stmts_whole alternative other)))
  | .function parameters body, ⟨_, well⟩, _, _, _, _ =>
    .operand (.function (parameters_derive parameters) (block_derives (Stmt.symbolsAll_eq_map body) (stmts_whole body well)))
  | .call function arguments, ⟨callee, items⟩, _, _, binds, _ =>
    .call (expr_derives function callee binds (by decide)) binds
      (arguments_derive (Expr.symbolsAll_eq_map arguments) (exprs_closed arguments items) (by decide))
  | .array elements, items, _, _, _, _ =>
    .operand (.array (arguments_derive (Expr.symbolsAll_eq_map elements) (exprs_closed elements items) (by decide)))
  | .index collection position, ⟨whole, inner⟩, _, _, _, _ =>
    .operand (.grouped (.index (expr_derives collection whole (by decide) (by decide)) (by decide)
      (expr_derives position inner (by decide) (by decide))))

theorem exprs_closed : ∀ (exprs : List Expr), Expr.AllWellFormed exprs → ∀ expr ∈ exprs, Closed Expr.symbols expr
  | expr :: _, ⟨well, _⟩, _, .head _ => fun alone _ => expr_derives expr well (by decide) alone
  | _ :: exprs, ⟨_, all⟩, _, .tail _ member => exprs_closed exprs all _ member

theorem stmt_whole : ∀ (stmt : Stmt), stmt.WellFormed → Whole Stmt.symbols stmt
  | .bind _ value, ⟨_, well⟩, _, ends =>
    .bind (expr_derives value well (by decide) (endsReturn_ends ends).1) (endsReturn_ends ends).2
  | .leave, _, _, ends => .leave ends
  | .leaveWith value, well, _, ends =>
    .leaveWith (expr_derives value well (by decide) (endsReturn_ends ends).1) (endsReturn_ends ends).2
  | .expr value, well, _, ends => .expr (expr_derives value well (by decide) (endsReturn_ends ends).1) (endsReturn_ends ends).2

theorem stmts_whole : ∀ (stmts : List Stmt), Stmt.AllWellFormed stmts → ∀ stmt ∈ stmts, Whole Stmt.symbols stmt
  | stmt :: _, ⟨well, _⟩, _, .head _ => stmt_whole stmt well
  | _ :: stmts, ⟨_, all⟩, _, .tail _ member => stmts_whole stmts all _ member

end

end Derivation

/-- A program derives from its own symbols. -/
theorem Program.symbols_derive {program : Program} (well : program.WellFormed) :
    Derivation.Statements program.symbols .endOfInput program.statements := by
  rw [symbols, Stmt.symbolsAll_eq_map]
  exact Derivation.statements_derive (Derivation.stmts_whole program.statements well) (Or.inr rfl)

end Treewalk
