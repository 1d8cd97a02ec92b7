import Treewalk.Syntax.Outline
import Treewalk.Proofs.ClearText
import Treewalk.Proofs.NestingLimit
import Treewalk.Proofs.TokenSpans

/-! Clear sources are read as clear programs. Whatever is read is made of the literals of tokens, and these of characters of the
source; so are the messages about what cannot be read. -/

namespace Treewalk

/-! ### Rendered text -/

theorem clearText_renderString {text : String} : ClearText (renderString text) ↔ ClearText text := by
  have escaped (chars : List Char) : '\x1b' ∈ escapeQuotes chars ↔ '\x1b' ∈ chars := by
    simp only [escapeQuotes, List.mem_flatMap]
    constructor
    · rintro ⟨c, member, inside⟩
      split at inside
      · simp at inside
      · exact List.mem_singleton.mp inside ▸ member
    · exact fun member => ⟨_, member, by simp⟩
  simp +decide [renderString, ClearText, escaped]

theorem clearText_renderList {texts : List String} : ClearText (renderList texts) ↔ ∀ text ∈ texts, ClearText text :=
  clearText_intercalate (by decide)

theorem clearText_renderStatements {texts : List String} : ClearText (renderStatements texts) ↔ ∀ text ∈ texts, ClearText text :=
  clearText_intercalate (by decide)

theorem clearText_renderBlock {texts : List String} : ClearText (renderBlock texts) ↔ ∀ text ∈ texts, ClearText text := by
  cases texts with
  | nil => exact ⟨fun _ => List.forall_mem_nil _, fun _ => by decide⟩
  | cons text texts => simp +decide [renderBlock, clearText_renderStatements]

/-- No control sequence begins in the source text of a piece of syntax. -/
def Expr.IsClear (expr : Expr) : Prop := ClearText expr.render

def Stmt.IsClear (stmt : Stmt) : Prop := ClearText stmt.render

theorem isClear_renderAll {exprs : List Expr} : (∀ text ∈ Expr.renderAll exprs, ClearText text) ↔ ∀ expr ∈ exprs, expr.IsClear := by
  rw [Expr.renderAll_eq_map, List.forall_mem_map]
  rfl

theorem isClear_renderAllStatements {stmts : List Stmt} :
    (∀ text ∈ Stmt.renderAll stmts, ClearText text) ↔ ∀ stmt ∈ stmts, stmt.IsClear := by
  rw [Stmt.renderAll_eq_map, List.forall_mem_map]
  rfl

section Parts

variable {name text : String} {op : UnaryOp} {sign : BinaryOp} {expr left right : Expr} {exprs : List Expr}
  {stmts others : List Stmt} {parameters : List String}

@[simp] theorem Expr.isClear_name : (Expr.name name).IsClear ↔ ClearText name := Iff.rfl

@[simp] theorem Expr.isClear_string : (Expr.string text).IsClear ↔ ClearText text := clearText_renderString

theorem Expr.isClear_boolean (value : Bool) : (Expr.boolean value).IsClear := by
  change ClearText (if value then "true" else "false")
  cases value <;> decide

@[simp] theorem Expr.isClear_unary : (Expr.unary op expr).IsClear ↔ ClearText op.symbol ∧ expr.IsClear := by
  simp +decide [Expr.IsClear, Expr.render]

@[simp] theorem Expr.isClear_binary :
    (Expr.binary left sign right).IsClear ↔ left.IsClear ∧ ClearText sign.symbol ∧ right.IsClear := by
  simp +decide [Expr.IsClear, Expr.render, and_assoc]

@[simp] theorem Expr.isClear_assign : (Expr.assign name expr).IsClear ↔ ClearText name ∧ expr.IsClear := by
  simp +decide [Expr.IsClear, Expr.render]

@[simp] theorem Expr.isClear_ifThen : (Expr.ifThen expr stmts).IsClear ↔ expr.IsClear ∧ ∀ stmt ∈ stmts, stmt.IsClear := by
  simp +decide [Expr.IsClear, Expr.render, clearText_renderBlock, isClear_renderAllStatements]

@[simp] theorem Expr.isClear_ifElse : (Expr.ifElse expr stmts others).IsClear ↔
    expr.IsClear ∧ (∀ stmt ∈ stmts, stmt.IsClear) ∧ ∀ stmt ∈ others, stmt.IsClear := by
  simp +decide [Expr.IsClear, Expr.render, clearText_renderBlock, isClear_renderAllStatements, and_assoc]

@[simp] theorem Expr.isClear_function : (Expr.function parameters stmts).IsClear ↔
    (∀ name ∈ parameters, ClearText name) ∧ ∀ stmt ∈ stmts, stmt.IsClear := by
  simp +decide [Expr.IsClear, Expr.render, clearText_renderList, clearText_renderBlock, isClear_renderAllStatements]

@[simp] theorem Expr.isClear_call : (Expr.call expr exprs).IsClear ↔ expr.IsClear ∧ ∀ expr ∈ exprs, expr.IsClear := by
  simp +decide [Expr.IsClear, Expr.render, clearText_renderList, isClear_renderAll]

@[simp] theorem Expr.isClear_array : (Expr.array exprs).IsClear ↔ ∀ expr ∈ exprs, expr.IsClear := by
  simp +decide [Expr.IsClear, Expr.render, clearText_renderList, isClear_renderAll]

@[simp] theorem Expr.isClear_index : (Expr.index left right).IsClear ↔ left.IsClear ∧ right.IsClear := by
  simp +decide [Expr.IsClear, Expr.render]

@[simp] theorem Stmt.isClear_bind : (Stmt.bind name expr).IsClear ↔ ClearText name ∧ expr.IsClear := by
  simp +decide [Stmt.IsClear, Expr.IsClear, Stmt.render]

theorem Stmt.isClear_leave : Stmt.leave.IsClear := by
  change ClearText "return"
  decide

@[simp] theorem Stmt.isClear_leaveWith : (Stmt.leaveWith expr).IsClear ↔ expr.IsClear := by
  simp +decide [Stmt.IsClear, Expr.IsClear, Stmt.render]

@[simp] theorem Stmt.isClear_expr : (Stmt.expr expr).IsClear ↔ expr.IsClear := Iff.rfl

@[simp] theorem Stmt.isClear_block : (Stmt.block stmts).IsClear ↔ ∀ stmt ∈ stmts, stmt.IsClear := by
  simp +decide [Stmt.IsClear, Stmt.render, clearText_renderBlock, isClear_renderAllStatements]

end Parts

/-! ### Tokens -/

/-- The literals of the tokens are clear. -/
def AllClear (tokens : List Token) : Prop := ∀ token ∈ tokens, ClearText token.literal

theorem Covers.literal_subset {token : Token} {span behind : List Char} (covers : Covers token span behind) :
    token.literal.toList ⊆ span := by
  by_cases quoted : token.kind = .string
  · obtain ⟨body, rfl, -, -, content⟩ := covers.content_eq quoted
    rw [content]
    exact fun c member => List.mem_cons_of_mem _ (List.mem_append_left _ (unescapeQuotes_subset body member))
  · exact covers.literal_eq quoted ▸ List.Subset.refl _

theorem Token.scan_clear {source : String} (clear : ClearText source) : AllClear (scan source) := by
  intro token scanned
  have member : token ∈ stream source := List.dropLast_subset _ scanned
  by_cases final : token.kind = .endOfInput
  · have lexical : token.symbol.Lexical := Cursor.tokens_lexical _ token member
    obtain ⟨kind, literal, position⟩ := token
    cases final
    have empty : literal = "" := lexical
    exact empty ▸ (by decide : ClearText "")
  · obtain ⟨span, behind, here, covers⟩ := exists_span_of_mem_stream member final
    intro inside
    refine clear (List.mem_of_mem_drop (i := token.position) ?_)
    rw [here]
    exact List.mem_append_left _ (covers.literal_subset inside)

theorem clearText_kindName (kind : Token.Kind) : ClearText kind.name := by
  cases kind <;> decide

/-- What a diagnostic repeats of the source is clear. -/
def Diagnostic.Quotes : Diagnostic → Prop
  | .integerTooLarge literal | .illegalCharacter literal _ => ClearText literal
  | .invalidTarget target => target.IsClear
  | _ => True

theorem Diagnostic.Quotes.message {diagnostic : Diagnostic} (quotes : diagnostic.Quotes) : ClearText diagnostic.message := by
  cases diagnostic with
  | expectedNext want got =>
    unfold Diagnostic.message
    simp only [clearText_append, clearText_kindName, and_true]
    decide
  | noOperand kind => exact clearText_append.mpr ⟨by decide, clearText_kindName kind⟩
  | integerTooLarge literal => exact clearText_append.mpr ⟨clearText_append.mpr ⟨by decide, quotes⟩, by decide⟩
  | invalidTarget target => exact clearText_append.mpr ⟨by decide, quotes⟩
  | unterminatedString position => exact clearText_append.mpr ⟨by decide, clearText_nat position⟩
  | illegalCharacter literal position =>
    unfold Diagnostic.message
    simp only [clearText_append, clearText_nat, and_true]
    exact ⟨⟨by decide, quotes⟩, by decide⟩
  | unclosedBlock | nestingTooDeep => decide

/-! ### Parsers -/

namespace Parsed

variable {α β : Type}

/-- What was read shows nothing but clear text, and neither do the tokens that are left and the messages so far. -/
structure Clear (holds : α → Prop) (parsed : Parsed α) : Prop where
  value : ∀ value, parsed.outcome = .accepted value → holds value
  rest : AllClear parsed.rest
  messages : ∀ diagnostic ∈ parsed.diagnostics, ClearText diagnostic.message

theorem Clear.followedBy {first : Parsed α} {next : α → List Token → Parsed β} {between : α → Prop} {holds : β → Prop}
    (head : first.Clear between) (tail : ∀ value, between value → (next value first.rest).Clear holds) :
    (first.followedBy next).Clear holds := by
  unfold Parsed.followedBy
  split
  next value accepted =>
    obtain ⟨result, rest, messages⟩ := tail value (head.value value accepted)
    exact ⟨result, rest, fun diagnostic member => (List.mem_append.mp member).elim (head.messages diagnostic) (messages diagnostic)⟩
  next => exact ⟨by simp, head.rest, head.messages⟩
  next => exact ⟨by simp, head.rest, head.messages⟩

end Parsed

namespace Parser

variable {α β : Type} {holds : α → Prop}

def Clear (holds : α → Prop) (parser : Parser α) : Prop := ∀ tokens, AllClear tokens → (parser.run tokens).Clear holds

namespace Clear

theorem here {value : α} (held : holds value) {tokens : List Token} (clear : AllClear tokens) :
    Parsed.Clear holds ⟨.accepted value, tokens, []⟩ :=
  ⟨fun _ same => Outcome.accepted.inj same ▸ held, clear, List.forall_mem_nil _⟩

theorem tail {tokens : List Token} (clear : AllClear tokens) : AllClear tokens.tail :=
  fun token member => clear token (List.mem_of_mem_tail member)

theorem pure {value : α} (held : holds value) : (pure value : Parser α).Clear holds := fun _ clear => here held clear

theorem current : current.Clear fun token => ClearText token.literal := by
  intro tokens clear
  refine here ?_ clear
  cases tokens with
  | nil => decide
  | cons token behind => exact clear token List.mem_cons_self

theorem nextKind : nextKind.Clear fun _ => True := fun _ clear => here trivial clear

theorem advance : advance.Clear fun _ => True := fun _ clear => here trivial (tail clear)

theorem fail {diagnostic : Diagnostic} (quotes : diagnostic.Quotes) : (fail diagnostic : Parser α).Clear holds :=
  fun _ clear => ⟨by simp [Parser.fail], clear, fun _ member => List.mem_singleton.mp member ▸ quotes.message⟩

theorem reject : (reject : Parser α).Clear holds :=
  fun _ clear => ⟨by simp [Parser.reject], clear, List.forall_mem_nil _⟩

theorem tooDeep : (tooDeep : Parser α).Clear holds :=
  fun _ clear => ⟨by simp [Parser.tooDeep], clear, List.forall_mem_nil _⟩

theorem bind {between : α → Prop} {holds : β → Prop} {first : Parser α} {next : α → Parser β} (head : first.Clear between)
    (more : ∀ value, between value → (next value).Clear holds) : (first >>= next).Clear holds :=
  fun tokens clear => (head tokens clear).followedBy fun value held => more value held _ (head tokens clear).rest

theorem expect (want : Token.Kind) : (expect want).Clear fun _ => True := by
  refine .bind nextKind fun got _ => ?_
  split
  · exact advance
  · exact fail trivial

theorem skipNext (kind : Token.Kind) : (skipNext kind).Clear fun _ => True := by
  refine .bind nextKind fun got _ => ?_
  split
  · exact advance
  · exact pure trivial

theorem attempt {parser : Parser α} (clear : parser.Clear holds) :
    parser.attempt.Clear fun answer => ∀ value, answer = some value → holds value := by
  intro tokens given
  obtain ⟨value, rest, messages⟩ := clear tokens given
  simp only [Parser.attempt]
  split
  next found accepted =>
    refine ⟨fun answer same => ?_, rest, messages⟩
    cases same
    exact fun _ same => Option.some.inj same ▸ value found accepted
  next =>
    refine ⟨fun answer same => ?_, rest, messages⟩
    cases same
    intro found absent
    cases absent
  next => exact ⟨by simp, rest, messages⟩

theorem whileNext {continues : Token.Kind → Bool} {step : α → Parser α} {start : α} (held : holds start)
    (steps : ∀ value, holds value → (step value).Clear holds) : (whileNext continues step start).Clear holds := by
  intro tokens clear
  change (runWhile continues step start tokens).Clear holds
  induction size : tokens.length using Nat.strongRecOn generalizing start tokens with
  | ind size ih =>
    rw [runWhile_eq]
    split
    next going =>
      have stepped := steps start held tokens.tail (tail clear)
      refine stepped.followedBy fun value held => ih _ ?_ held _ stepped.rest rfl
      have shorter := (step start).length_run_tail_lt going.1
      omega
    next => exact here held clear

end Clear

end Parser

/-- The same of the statements of a sequence. -/
structure Sequence.Clear (all : Sequence) : Prop where
  statements : ∀ stmt ∈ all.statements, stmt.IsClear
  rest : AllClear all.rest
  messages : ∀ diagnostic ∈ all.diagnostics, ClearText diagnostic.message

namespace Grammar

open Treewalk.Parser

theorem sequence_clear {statement : Parser Stmt} (clear : statement.Clear Stmt.IsClear) (stops : Token.Kind → Bool)
    (tokens : List Token) (given : AllClear tokens) : (sequence statement stops tokens).Clear := by
  fun_induction sequence statement stops tokens with
  | case1 | case2 => exact ⟨List.forall_mem_nil _, given, List.forall_mem_nil _⟩
  | case3 token behind going first stmt outcome others ih =>
    have head := clear (token :: behind) given
    obtain ⟨statements, rest, messages⟩ := ih (Parser.Clear.tail head.rest)
    refine ⟨List.forall_mem_cons.mpr ⟨head.value stmt outcome, statements⟩, rest, fun diagnostic member => ?_⟩
    exact (List.mem_append.mp member).elim (head.messages diagnostic) (messages diagnostic)
  | case4 token behind going first outcome others ih =>
    have head := clear (token :: behind) given
    obtain ⟨statements, rest, messages⟩ := ih (Parser.Clear.tail head.rest)
    refine ⟨statements, rest, fun diagnostic member => ?_⟩
    exact (List.mem_append.mp member).elim (head.messages diagnostic) (messages diagnostic)
  | case5 token behind going first outcome =>
    have head := clear (token :: behind) given
    exact ⟨List.forall_mem_nil _, head.rest, head.messages⟩

theorem block_clear {statement : Parser Stmt} (clear : statement.Clear Stmt.IsClear) :
    (block statement).Clear fun stmts => ∀ stmt ∈ stmts, stmt.IsClear := by
  intro tokens given
  obtain ⟨statements, rest, messages⟩ := sequence_clear clear (· = .rightBrace) tokens.tail (Parser.Clear.tail given)
  simp only [block]
  split
  · exact ⟨by simp, rest, messages⟩
  · have read : ∀ stmts, Outcome.accepted (sequence statement (· = .rightBrace) tokens.tail).statements = .accepted stmts →
        ∀ stmt ∈ stmts, stmt.IsClear := fun stmts same => Outcome.accepted.inj same ▸ statements
    split
    · refine ⟨read, rest, fun diagnostic member => (List.mem_append.mp member).elim (messages diagnostic) fun last => ?_⟩
      exact List.mem_singleton.mp last ▸ Diagnostic.Quotes.message trivial
    · exact ⟨read, rest, messages⟩

theorem eq_map_some_of_mapM {items : List (Option Expr)} {exprs : List Expr} (found : items.mapM id = some exprs) :
    items = exprs.map some := by
  induction items generalizing exprs with
  | nil =>
    cases found
    rfl
  | cons item items ih =>
    cases item with
    | none => simp at found
    | some expr =>
      simp only [List.mapM_cons, id_eq, Option.bind_eq_bind, Option.bind_some] at found
      obtain ⟨others, further, same⟩ := Option.bind_eq_some_iff.mp found
      cases same
      rw [List.map_cons, ih further]

theorem parameters_clear : parameters.Clear fun names => ∀ name ∈ names, ClearText name := by
  refine .bind .nextKind fun kind _ => ?_
  split
  · exact .bind .advance fun _ _ => .pure (List.forall_mem_nil _)
  · refine .bind (.expect _) fun _ _ => .bind .current fun first clear => ?_
    let holds (names : List String) : Prop := ∀ name ∈ names, ClearText name
    refine .bind (show (whileNext _ _ _).Clear holds from .whileNext (List.forall_mem_singleton.mpr clear) fun names held => ?_)
      fun names held => ?_
    · exact .bind (.expect _) fun _ _ => .bind .current fun _ clear => .pure (List.forall_mem_cons.mpr ⟨clear, held⟩)
    · exact .bind (.expect _) fun _ _ => .pure fun name member => held name (List.mem_reverse.mp member)

section Rules

variable {nested : Nested} (clear : ∀ precedence, (nested precedence).Clear Expr.IsClear)

include clear

theorem expressions_clear (close : Token.Kind) : (expressions nested close).Clear fun exprs => ∀ expr ∈ exprs, expr.IsClear := by
  refine .bind .nextKind fun kind _ => ?_
  split
  · exact .bind .advance fun _ _ => .pure (List.forall_mem_nil _)
  · refine .bind .advance fun _ _ => .bind (.attempt (clear _)) fun first held => ?_
    let holds (items : List (Option Expr)) : Prop := ∀ item ∈ items, ∀ expr, item = some expr → expr.IsClear
    refine .bind (show (whileNext _ _ _).Clear holds from .whileNext (List.forall_mem_singleton.mpr held) fun items held => ?_)
      fun items held => ?_
    · refine .bind .advance fun _ _ => .bind (.attempt (clear _)) fun item another => .pure ?_
      exact List.forall_mem_cons.mpr ⟨another, held⟩
    · refine .bind (.expect _) fun _ _ => ?_
      split
      next exprs found =>
        refine .pure fun expr member => held (some expr) ?_ expr rfl
        rw [← List.mem_reverse, eq_map_some_of_mapM found]
        exact List.mem_map_of_mem member
      next => exact .reject

theorem statement_clear : (statement nested).Clear Stmt.IsClear := by
  have ending (build : Expr → Stmt) (builds : ∀ expr, expr.IsClear → (build expr).IsClear) : Parser.Clear Stmt.IsClear (do
      let value ← nested .lowest
      Parser.skipNext .semicolon
      return build value) :=
    .bind (clear _) fun value held => .bind (.skipNext _) fun _ _ => .pure (builds value held)
  refine .bind .current fun token _ => ?_
  split
  · refine .bind (.expect _) fun _ _ => .bind .current fun name named => .bind (.expect _) fun _ _ => ?_
    exact .bind .advance fun _ _ => ending _ fun expr held => Stmt.isClear_bind.mpr ⟨named, held⟩
  · refine .bind .nextKind fun kind _ => ?_
    split
    · exact .bind .advance fun _ _ => .pure Stmt.isClear_leave
    · exact .pure Stmt.isClear_leave
    · exact .pure Stmt.isClear_leave
    · exact .bind .advance fun _ _ => ending _ fun expr held => Stmt.isClear_leaveWith.mpr held
  · exact ending _ fun expr held => held

theorem conditional_clear : (conditional nested).Clear Expr.IsClear := by
  have body := block_clear (statement_clear clear)
  refine .bind (.expect _) fun _ _ => .bind .advance fun _ _ => .bind (clear _) fun test held => .bind (.expect _) fun _ _ => ?_
  refine .bind (.expect _) fun _ _ => .bind body fun consequence first => .bind .nextKind fun kind _ => ?_
  split
  · refine .bind .advance fun _ _ => .bind (.expect _) fun _ _ => .bind body fun alternative second => .pure ?_
    exact Expr.isClear_ifElse.mpr ⟨held, first, second⟩
  · exact .pure (Expr.isClear_ifThen.mpr ⟨held, first⟩)

theorem function_clear : (function nested).Clear Expr.IsClear := by
  refine .bind (.expect _) fun _ _ => .bind parameters_clear fun names named => .bind (.expect _) fun _ _ => ?_
  exact .bind (block_clear (statement_clear clear)) fun body held => .pure (Expr.isClear_function.mpr ⟨named, held⟩)

theorem operand_clear : (operand nested).Clear Expr.IsClear := by
  have prefixed : (unary nested).Clear Expr.IsClear := by
    refine .bind .current fun token sign => .bind .advance fun _ _ => .bind (clear _) fun expr held => .pure ?_
    exact Expr.isClear_unary.mpr ⟨(UnaryOp.symbol_ofSymbol token.literal).symm ▸ sign, held⟩
  refine .bind .current fun token _ => ?_
  dsimp only
  split
  case h_1 => exact .bind .current fun _ held => .pure held
  case h_2 =>
    refine .bind .current fun token held => ?_
    dsimp only
    split
    · exact .pure (clearText_int _)
    · exact .fail held
  case h_3 => exact .bind .current fun _ held => .pure (clearText_renderString.mpr held)
  case h_4 | h_5 => exact .bind .current fun _ _ => .pure (Expr.isClear_boolean _)
  case h_6 | h_7 => exact prefixed
  case h_8 => exact .bind .advance fun _ _ => .bind (clear _) fun _ held => .bind (.expect _) fun _ _ => .pure held
  case h_9 => exact conditional_clear clear
  case h_10 => exact function_clear clear
  case h_11 => exact .bind (expressions_clear clear _) fun _ held => .pure (Expr.isClear_array.mpr held)
  case h_12 =>
    refine .bind .current fun token held => ?_
    split
    · exact .fail trivial
    · exact .fail held
  case h_13 => exact .fail trivial

theorem continuation_clear {left : Expr} (first : left.IsClear) : (continuation nested left).Clear Expr.IsClear := by
  refine .bind .current fun token _ => ?_
  split
  · unfold assignment
    split
    · exact .bind .advance fun _ _ => .bind (clear _) fun _ held => .pure (Expr.isClear_assign.mpr ⟨first, held⟩)
    · exact .fail first
  · exact .bind (expressions_clear clear _) fun _ held => .pure (Expr.isClear_call.mpr ⟨first, held⟩)
  · refine .bind .advance fun _ _ => .bind (clear _) fun _ held => .bind (.expect _) fun _ _ => .pure ?_
    exact Expr.isClear_index.mpr ⟨first, held⟩
  · refine .bind .current fun token sign => .bind .advance fun _ _ => .bind (clear _) fun _ held => .pure ?_
    exact Expr.isClear_binary.mpr ⟨first, (BinaryOp.symbol_ofSymbol token.literal).symm ▸ sign, held⟩

theorem climb_clear (precedence : Precedence) : (climb nested precedence).Clear Expr.IsClear :=
  .bind (operand_clear clear) fun _ held => .whileNext held fun _ => continuation_clear clear

end Rules

theorem expression_clear (room : Nat) (precedence : Precedence) : (expression room precedence).Clear Expr.IsClear := by
  induction room generalizing precedence with
  | zero => exact .tooDeep
  | succ room ih => exact climb_clear ih precedence

end Grammar

/-- A clear source is read as clear statements, with clear messages about what could not be read. -/
theorem Program.parse_clear {source : String} (clear : ClearText source) :
    (∀ stmt ∈ (parse source).1.statements, stmt.IsClear) ∧ ∀ diagnostic ∈ (parse source).2, ClearText diagnostic.message := by
  obtain ⟨statements, -, messages⟩ := Grammar.sequence_clear (Grammar.statement_clear (Grammar.expression_clear nestingLimit))
    (fun _ => false) (Token.scan source) (Token.scan_clear clear)
  refine ⟨statements, fun diagnostic member => ?_⟩
  simp only [parse, parseWithin, ofTokens] at member
  split at member
  · rcases List.mem_append.mp member with earlier | last
    · exact messages diagnostic earlier
    · exact List.mem_singleton.mp last ▸ Diagnostic.Quotes.message trivial
  · exact messages diagnostic member

/-! ### Outlines -/

@[simp] theorem clearText_indentation (depth : Int) : ClearText (Outline.indentation depth) := by
  simp [Outline.indentation]

/-- At every depth the lines are clear. -/
def Outline.IsClear (outline : Outline) : Prop := ∀ depth, ClearText (outline.display depth)

theorem Outline.displayAll_clear {depth : Int} {outlines : List Outline} (clear : ∀ outline ∈ outlines, outline.IsClear) :
    ∀ text ∈ displayAll depth outlines, ClearText text := by
  induction outlines with
  | nil => exact List.forall_mem_nil _
  | cons outline outlines ih =>
    obtain ⟨first, others⟩ := List.forall_mem_cons.mp clear
    exact List.forall_mem_cons.mpr ⟨clearText_append.mpr ⟨by decide, first depth⟩, ih others⟩

theorem Outline.node_clear {kind source : String} {children : List Outline} (named : ClearText kind)
    (written : ClearText source) (nodes : ∀ child ∈ children, child.IsClear) : (node kind source children).IsClear := by
  intro depth
  unfold display
  simp only [clearText_append, clearText_indentation, named, written, true_and, and_true]
  refine ⟨⟨⟨by decide, by decide⟩, ?_⟩, by decide⟩
  split
  · decide
  · simp only [clearText_append, clearText_indentation, and_true, clearText_intercalate (by decide : ClearText ",")]
    exact ⟨⟨⟨by decide, displayAll_clear nodes⟩, by decide⟩, by decide⟩

theorem Outline.ofName_clear {name : String} (clear : ClearText name) : (ofName name).IsClear :=
  node_clear (by decide) clear (List.forall_mem_nil _)

open Outline in
mutual

theorem Expr.outline_clear : (expr : Expr) → expr.IsClear → expr.outline.IsClear
  | .name _, clear => by
    rw [Expr.outline]
    exact node_clear (by decide) clear (List.forall_mem_nil _)
  | .integer _, clear => by
    rw [Expr.outline]
    exact node_clear (by decide) clear (List.forall_mem_nil _)
  | .string _, clear => by
    rw [Expr.outline]
    exact node_clear (by decide) clear (List.forall_mem_nil _)
  | .boolean _, clear => by
    rw [Expr.outline]
    exact node_clear (by decide) clear (List.forall_mem_nil _)
  | .unary _ operand, clear => by
    rw [Expr.outline]
    have child := operand.outline_clear (Expr.isClear_unary.mp clear).2
    exact node_clear (by decide) clear (List.forall_mem_singleton.mpr child)
  | .binary left _ right, clear => by
    rw [Expr.outline]
    obtain ⟨first, -, second⟩ := Expr.isClear_binary.mp clear
    refine node_clear (by decide) clear (List.forall_mem_cons.mpr ⟨left.outline_clear first, ?_⟩)
    exact List.forall_mem_singleton.mpr (right.outline_clear second)
  | .assign name value, clear => by
    rw [Expr.outline]
    obtain ⟨first, second⟩ := Expr.isClear_assign.mp clear
    refine node_clear (by decide) clear (List.forall_mem_cons.mpr ⟨ofName_clear first, ?_⟩)
    exact List.forall_mem_singleton.mpr (value.outline_clear second)
  | .ifThen condition consequence, clear => by
    rw [Expr.outline]
    obtain ⟨test, first⟩ := Expr.isClear_ifThen.mp clear
    refine node_clear (by decide) clear (List.forall_mem_cons.mpr ⟨condition.outline_clear test, ?_⟩)
    exact List.forall_mem_singleton.mpr (Stmt.outlineBlock_clear consequence first)
  | .ifElse condition consequence alternative, clear => by
    rw [Expr.outline]
    obtain ⟨test, first, second⟩ := Expr.isClear_ifElse.mp clear
    refine node_clear (by decide) clear (List.forall_mem_cons.mpr ⟨condition.outline_clear test, ?_⟩)
    refine List.forall_mem_cons.mpr ⟨Stmt.outlineBlock_clear consequence first, ?_⟩
    exact List.forall_mem_singleton.mpr (Stmt.outlineBlock_clear alternative second)
  | .function parameters body, clear => by
    rw [Expr.outline]
    obtain ⟨named, inner⟩ := Expr.isClear_function.mp clear
    refine node_clear (by decide) clear (List.forall_mem_append.mpr ⟨?_, ?_⟩)
    · exact List.forall_mem_map.mpr fun name member => ofName_clear (named name member)
    · exact List.forall_mem_singleton.mpr (Stmt.outlineBlock_clear body inner)
  | .call function arguments, clear => by
    rw [Expr.outline]
    obtain ⟨first, others⟩ := Expr.isClear_call.mp clear
    exact node_clear (by decide) clear
      (List.forall_mem_cons.mpr ⟨function.outline_clear first, Expr.outlineAll_clear arguments others⟩)
  | .array elements, clear => by
    rw [Expr.outline]
    exact node_clear (by decide) clear (Expr.outlineAll_clear elements (Expr.isClear_array.mp clear))
  | .index collection position, clear => by
    rw [Expr.outline]
    obtain ⟨first, second⟩ := Expr.isClear_index.mp clear
    refine node_clear (by decide) clear (List.forall_mem_cons.mpr ⟨collection.outline_clear first, ?_⟩)
    exact List.forall_mem_singleton.mpr (position.outline_clear second)

theorem Expr.outlineAll_clear : (exprs : List Expr) → (∀ expr ∈ exprs, expr.IsClear) →
    ∀ outline ∈ Expr.outlineAll exprs, outline.IsClear
  | [], _ => by
    rw [Expr.outlineAll]
    exact List.forall_mem_nil _
  | expr :: exprs, clear => by
    obtain ⟨first, others⟩ := List.forall_mem_cons.mp clear
    rw [Expr.outlineAll]
    exact List.forall_mem_cons.mpr ⟨expr.outline_clear first, Expr.outlineAll_clear exprs others⟩

theorem Stmt.outline_clear : (stmt : Stmt) → stmt.IsClear → stmt.outline.IsClear
  | .bind name value, clear => by
    rw [Stmt.outline]
    obtain ⟨first, second⟩ := Stmt.isClear_bind.mp clear
    refine node_clear (by decide) clear (List.forall_mem_cons.mpr ⟨ofName_clear first, ?_⟩)
    exact List.forall_mem_singleton.mpr (value.outline_clear second)
  | .leave, clear => by
    rw [Stmt.outline]
    exact node_clear (by decide) clear (List.forall_mem_nil _)
  | .leaveWith value, clear => by
    rw [Stmt.outline]
    have child := value.outline_clear (Stmt.isClear_leaveWith.mp clear)
    exact node_clear (by decide) clear (List.forall_mem_singleton.mpr child)
  | .expr value, clear => by
    rw [Stmt.outline]
    exact node_clear (by decide) clear (List.forall_mem_singleton.mpr (value.outline_clear clear))
  | .block statements, clear => by
    rw [Stmt.outline]
    exact Stmt.outlineBlock_clear statements (Stmt.isClear_block.mp clear)

theorem Stmt.outlineBlock_clear (statements : List Stmt) (clear : ∀ stmt ∈ statements, stmt.IsClear) :
    (Stmt.outlineBlock statements).IsClear := by
  rw [Stmt.outlineBlock]
  exact node_clear (by decide) (clearText_renderBlock.mpr (isClear_renderAllStatements.mpr clear))
    (Stmt.outlineAll_clear statements clear)

theorem Stmt.outlineAll_clear : (stmts : List Stmt) → (∀ stmt ∈ stmts, stmt.IsClear) →
    ∀ outline ∈ Stmt.outlineAll stmts, outline.IsClear
  | [], _ => by
    rw [Stmt.outlineAll]
    exact List.forall_mem_nil _
  | stmt :: stmts, clear => by
    obtain ⟨first, others⟩ := List.forall_mem_cons.mp clear
    rw [Stmt.outlineAll]
    exact List.forall_mem_cons.mpr ⟨stmt.outline_clear first, Stmt.outlineAll_clear stmts others⟩

end

/-- The text of a program whose statements are clear, laid out as a tree. -/
theorem Program.outline_clear {program : Program} (clear : ∀ stmt ∈ program.statements, stmt.IsClear) :
    program.outline.IsClear :=
  Outline.node_clear (by decide) (clearText_renderStatements.mpr (isClear_renderAllStatements.mpr clear))
    (Stmt.outlineAll_clear program.statements clear)

end Treewalk
