import Treewalk.Proofs.RoundTrip
import Treewalk.Proofs.SpacedText

/-! The ladder of precedences. An operand needs parentheses only where its level is below what its place admits; with no
others the symbols of a tree already derive the tree, because a climb stops exactly where the level of what it has read
no longer fits. Any further parentheses around operands do no harm. -/

namespace Treewalk

/-- The ladder, from what ends every expression to what binds tightest. -/
def Precedence.ladder : List Precedence :=
  [.lowest, .assign, .equality, .comparison, .sum, .product, .power, .unary, .call, .index]

theorem Precedence.ladder_ascends : ladder.Pairwise (· < ·) := by decide

def BinaryOp.level : BinaryOp → Precedence
  | .equal | .notEqual => .equality
  | .less | .greater => .comparison
  | .add | .subtract => .sum
  | .multiply | .divide => .product
  | .power => .power
  | .unknown _ => .lowest

/-- How tightly the outermost operation of an expression binds. What is no operation binds tightest. -/
def Expr.level : Expr → Precedence
  | .assign _ _ => .assign
  | .binary _ op _ => op.level
  | .unary _ _ => .unary
  | .call _ _ => .call
  | .index _ _ => .index
  | _ => .index + 1

/-- Where an expression stands as an operand of another one. Everywhere else every expression can stand as it is. -/
inductive Place where
  | left (op : BinaryOp)
  | right (op : BinaryOp)
  | operand
  | callee
  | collection

/-- The lowest level that may stand at a place. On the side to which an operator associates that is its own level, on the
other side the next one. A callee and a collection are what was read so far, so both admit calls and indexing. -/
def Place.admits : Place → Precedence
  | .left op => if op = .power then op.level + 1 else op.level
  | .right op => if op = .power then op.level else op.level + 1
  | .operand => .unary
  | .callee => .call
  | .collection => .call

/-- Of operators on one level in a row the first is applied first, and of powers the last. -/
theorem Place.associates {op other : BinaryOp} (same : other.level = op.level) :
    (other.level < (Place.left op).admits ↔ op = .power) ∧ (other.level < (Place.right op).admits ↔ op ≠ .power) := by
  by_cases power : op = .power <;> simp [Place.admits, power, same]

/-- The tightest operator that can stand behind an expression without taking a part of it. -/
def Expr.tolerance : Expr → Precedence
  | .assign _ _ => .lowest
  | .binary _ op _ => op.kind.rightPrecedence
  | .unary _ _ => .unary
  | _ => .index

section Spelling

-- The places where parentheses are wanted that the ladder does not require.
variable (extra : Place → Expr → Bool)

/-- An operand at its place, in parentheses where the place does not admit it. -/
def enclosed (place : Place) (expr : Expr) (symbols : List Symbol) : List Symbol :=
  if expr.level < place.admits ∨ extra place expr = true then .mark .leftParen :: symbols ++ [.mark .rightParen]
  else symbols

mutual

def Expr.spell : Expr → List Symbol
  | .name name => [⟨.identifier, name⟩]
  | .integer value => [⟨.integer, toString value⟩]
  | .string text => [⟨.string, text⟩]
  | .boolean value => [.mark (if value then .kwTrue else .kwFalse)]
  | .unary op operand => .mark op.kind :: enclosed extra .operand operand operand.spell
  | .binary left op right =>
    enclosed extra (.left op) left left.spell ++ .mark op.kind :: enclosed extra (.right op) right right.spell
  | .assign name value => [⟨.identifier, name⟩] ++ .mark .assign :: value.spell
  | .ifThen condition consequence =>
    .mark .kwIf :: .mark .leftParen :: condition.spell
      ++ .mark .rightParen :: bracesAround (separated .semicolon (Stmt.spellAll consequence))
  | .ifElse condition consequence alternative =>
    .mark .kwIf :: .mark .leftParen :: condition.spell
      ++ .mark .rightParen :: bracesAround (separated .semicolon (Stmt.spellAll consequence))
      ++ .mark .kwElse :: bracesAround (separated .semicolon (Stmt.spellAll alternative))
  | .function parameters body =>
    .mark .kwFunction :: .mark .leftParen :: separated .comma (nameSymbols parameters)
      ++ .mark .rightParen :: bracesAround (separated .semicolon (Stmt.spellAll body))
  | .call function arguments =>
    enclosed extra .callee function function.spell
      ++ .mark .leftParen :: separated .comma (Expr.spellAll arguments) ++ [.mark .rightParen]
  | .array elements => .mark .leftBracket :: separated .comma (Expr.spellAll elements) ++ [.mark .rightBracket]
  | .index collection position =>
    enclosed extra .collection collection collection.spell
      ++ .mark .leftBracket :: position.spell ++ [.mark .rightBracket]

def Expr.spellAll : List Expr → List (List Symbol)
  | [] => []
  | expr :: exprs => expr.spell :: Expr.spellAll exprs

def Stmt.spell : Stmt → List Symbol
  | .bind name value => .mark .kwLet :: ⟨.identifier, name⟩ :: .mark .assign :: value.spell
  | .leave => [.mark .kwReturn]
  | .leaveWith value => .mark .kwReturn :: value.spell
  | .expr value => value.spell
  | .block statements => bracesAround (separated .semicolon (Stmt.spellAll statements))

def Stmt.spellAll : List Stmt → List (List Symbol)
  | [] => []
  | stmt :: stmts => stmt.spell :: Stmt.spellAll stmts

end

theorem Expr.spellAll_eq_map (exprs : List Expr) : Expr.spellAll extra exprs = exprs.map (Expr.spell extra) := by
  induction exprs with
  | nil => rfl
  | cons expr exprs ih => simp [Expr.spellAll, ih]

theorem Stmt.spellAll_eq_map (stmts : List Stmt) : Stmt.spellAll extra stmts = stmts.map (Stmt.spell extra) := by
  induction stmts with
  | nil => rfl
  | cons stmt stmts ih => simp [Stmt.spellAll, ih]

end Spelling

/-- The symbols of an expression with no parentheses but those that the ladder requires. -/
def Expr.sparse (expr : Expr) : List Symbol := expr.spell fun _ _ => false

/-! ### Levels -/

/-- The parser goes by the kinds of tokens, which have the levels of their operators. -/
theorem BinaryOp.precedence_kind (op : BinaryOp) : op.kind.precedence = op.level := by
  cases op <;> rfl

theorem BinaryOp.level_lt_unary (op : BinaryOp) : op.level < .unary := by
  cases op with
  | unknown => exact Nat.succ_pos _
  | _ => decide

theorem Place.precedence_le_left (op : BinaryOp) : op.kind.precedence ≤ (Place.left op).admits := by
  cases op with
  | power => exact Nat.le_succ _
  | unknown => exact Nat.zero_le _
  | _ => exact Nat.le_refl _

theorem Place.lt_right (op : BinaryOp) : op.kind.rightPrecedence < (Place.right op).admits := by
  cases op <;> exact Nat.lt_succ_self _

/-- The rungs of the ladder: a level, and the tightest operator that an expression of that level tolerates behind it. What
associates to the right tolerates only what is below its own level. -/
def rungs : List (Precedence × Precedence) :=
  [(.assign, .lowest), (.equality, .equality), (.comparison, .comparison), (.sum, .sum), (.product, .product),
    (.power, .product), (.unary, .unary), (.call, .index), (.index, .index), (.index + 1, .index)]

theorem BinaryOp.mem_rungs {op : BinaryOp} (known : op.Known) : (op.level, op.kind.rightPrecedence) ∈ rungs := by
  cases op with
  | unknown => exact absurd rfl known
  | _ => decide

theorem Expr.mem_rungs : ∀ {expr : Expr}, expr.WellFormed → (expr.level, expr.tolerance) ∈ rungs
  | .binary _ _ _, ⟨_, known, _⟩ => BinaryOp.mem_rungs known
  | .assign _ _, _ | .unary _ _, _ | .call _ _, _ | .index _ _, _ => by simp [level, tolerance, rungs]
  | .name _, _ | .integer _, _ | .string _, _ | .boolean _, _ => by simp [level, tolerance, rungs]
  | .ifThen _ _, _ | .ifElse _ _ _, _ | .function _ _, _ | .array _, _ => by simp [level, tolerance, rungs]

section Rungs

variable {expr : Expr} (well : expr.WellFormed)

include well

theorem Expr.level_pos : .lowest < expr.level :=
  (by decide : ∀ rung ∈ rungs, .lowest < rung.1) _ (mem_rungs well)

theorem Expr.level_le_tolerance : expr.level ≤ expr.tolerance + 1 :=
  (by decide : ∀ rung ∈ rungs, rung.1 ≤ rung.2 + 1) _ (mem_rungs well)

theorem Expr.unary_le_tolerance : .unary ≤ expr.level → .unary ≤ expr.tolerance :=
  (by decide : ∀ rung ∈ rungs, .unary ≤ rung.1 → .unary ≤ rung.2) _ (mem_rungs well)

theorem Expr.index_le_tolerance : .call ≤ expr.level → .index ≤ expr.tolerance :=
  (by decide : ∀ rung ∈ rungs, .call ≤ rung.1 → .index ≤ rung.2) _ (mem_rungs well)

/-- Every operand that the left side of an operator admits tolerates that operator. -/
theorem Expr.left_le_tolerance (op : BinaryOp) :
    (Place.left op).admits ≤ expr.level → op.kind.precedence ≤ expr.tolerance := by
  have fits : ∀ rung ∈ rungs, (Place.left op).admits ≤ rung.1 → op.kind.precedence ≤ rung.2 := by
    cases op with
    | unknown => exact fun _ _ _ => Nat.zero_le _
    | _ => decide
  exact fits _ (mem_rungs well)

end Rungs

/-! ### Derivations -/

/-- The expression is read whole by a climb from `precedence` with a symbol of the kind `next` behind it. -/
structure Expr.Stands (expr : Expr) (precedence : Precedence) (next : Token.Kind) : Prop where
  climbs : precedence < .call
  binds : expr.level < .unary → precedence < expr.level
  alone : next ≠ .kwElse
  ends : next.precedence ≤ expr.tolerance

theorem Expr.stands_lowest {expr : Expr} (well : expr.WellFormed) {next : Token.Kind} (alone : next ≠ .kwElse)
    (ends : next.precedence ≤ .lowest) : expr.Stands .lowest next :=
  ⟨by decide, fun _ => level_pos well, alone, Nat.le_trans ends (Nat.zero_le _)⟩

namespace Derivation

variable {extra : Place → Expr → Bool}

/-- An operand at its place is read whole, with parentheses or because its place admits it. -/
theorem enclosed_derives {place : Place} {expr : Expr} (well : expr.WellFormed)
    (inner : ∀ {precedence next}, expr.Stands precedence next → Expression precedence (expr.spell extra) next expr)
    {precedence : Precedence} {next : Token.Kind}
    (admitted : place.admits ≤ expr.level → expr.Stands precedence next) :
    Expression precedence (enclosed extra place expr (expr.spell extra)) next expr := by
  unfold enclosed
  split
  next => exact .operand (.grouped (inner (Expr.stands_lowest well (by decide) (by decide))))
  next bare => exact inner (admitted (Nat.le_of_not_lt fun low => bare (.inl low)))

/-- What may be called or indexed without parentheses stands on its own before a call or an index. -/
theorem stands_primary {expr : Expr} (well : expr.WellFormed) {precedence : Precedence} {next : Token.Kind}
    (climbs : precedence < .call) (alone : next ≠ .kwElse) (ends : next.precedence ≤ .index)
    (admitted : .call ≤ expr.level) : expr.Stands precedence next :=
  ⟨climbs, fun low => absurd (Nat.le_trans (by decide) admitted) (Nat.not_le_of_lt low), alone,
    Nat.le_trans ends (Expr.index_le_tolerance well admitted)⟩

theorem operator_ne_else {kind : Token.Kind} (operator : kind.IsOperator) : kind ≠ .kwElse := by
  rintro rfl
  simp [Token.Kind.IsOperator] at operator

mutual

/-- No operand takes anything from what stands around it, and nothing around it takes anything from it. -/
theorem spell_derives : ∀ (expr : Expr), expr.WellFormed → ∀ {precedence : Precedence} {next : Token.Kind},
    expr.Stands precedence next → Expression precedence (expr.spell extra) next expr
  | .name _, _, _, _, _ => .operand .name
  | .integer _, ⟨positive, small⟩, _, next, _ => .operand (integer_derives positive small next)
  | .string _, _, _, _, _ => .operand .string
  | .boolean true, _, _, _, _ => .operand .kwTrue
  | .boolean false, _, _, _, _ => .operand .kwFalse
  | .unary op operand, ⟨known, well⟩, _, next, stands => by
    have sign : op.kind = .bang ∨ op.kind = .minus := by
      cases op with
      | negate => exact Or.inr rfl
      | invert => exact Or.inl rfl
      | unknown => exact absurd rfl known
    have ends : next.precedence ≤ .unary := stands.ends
    have inner : Expression .unary (enclosed extra .operand operand (operand.spell extra)) next operand :=
      enclosed_derives well (spell_derives operand well) fun admitted =>
        ⟨by decide, fun low => absurd admitted (Nat.not_le_of_lt low), stands.alone,
          Nat.le_trans ends (Expr.unary_le_tolerance well admitted)⟩
    have signed : Operand (.mark op.kind :: enclosed extra .operand operand (operand.spell extra)) next _ :=
      .unary sign inner ends
    rw [ofSymbol_text_unary known] at signed
    exact .operand signed
  | .binary left op right, ⟨wellLeft, known, wellRight⟩, precedence, next, stands => by
    have operator := isOperator_kind known
    have ends : next.precedence ≤ op.kind.rightPrecedence := stands.ends
    have binds : precedence < op.kind.precedence := op.precedence_kind ▸ stands.binds op.level_lt_unary
    have first : Expression precedence (enclosed extra (.left op) left (left.spell extra)) op.kind left :=
      enclosed_derives wellLeft (spell_derives left wellLeft) fun admitted =>
        have above : op.kind.precedence ≤ left.level := Nat.le_trans (Place.precedence_le_left op) admitted
        ⟨stands.climbs, fun _ => Nat.lt_of_lt_of_le binds above, operator_ne_else operator,
          Expr.left_le_tolerance wellLeft op admitted⟩
    have second : Expression op.kind.rightPrecedence (enclosed extra (.right op) right (right.spell extra)) next right :=
      enclosed_derives wellRight (spell_derives right wellRight) fun admitted =>
        have above : op.kind.rightPrecedence < right.level := Nat.lt_of_lt_of_le (Place.lt_right op) admitted
        ⟨rightPrecedence_lt_call operator, fun _ => above, stands.alone,
          Nat.le_trans ends (Nat.le_of_lt_succ (Nat.lt_of_lt_of_le above (Expr.level_le_tolerance wellRight)))⟩
    have whole : Expression precedence (_ ++ .mark op.kind :: _) next _ := .binary first operator binds second ends
    rw [ofSymbol_text_binary known] at whole
    exact whole
  | .assign name value, ⟨_, well⟩, _, _, stands =>
    have ends := stands.ends
    .assign (.operand .name) (stands.binds (show Precedence.assign < .unary by decide))
      (spell_derives value well (Expr.stands_lowest well stands.alone ends)) ends
  | .ifThen condition consequence, ⟨test, body⟩, _, _, stands =>
    .operand (.ifThen (spell_derives condition test (Expr.stands_lowest test (by decide) (by decide)))
      (block_derives (Stmt.spellAll_eq_map extra consequence) (stmts_spelt consequence body)) stands.alone)
  | .ifElse condition consequence alternative, ⟨test, body, other⟩, _, _, _ =>
    .operand (.ifElse (spell_derives condition test (Expr.stands_lowest test (by decide) (by decide)))
      (block_derives (Stmt.spellAll_eq_map extra consequence) (stmts_spelt consequence body))
      (block_derives (Stmt.spellAll_eq_map extra alternative) (stmts_spelt alternative other)))
  | .function parameters body, ⟨_, well⟩, _, _, _ =>
    .operand (.function (parameters_derive parameters)
      (block_derives (Stmt.spellAll_eq_map extra body) (stmts_spelt body well)))
  | .call function arguments, ⟨callee, items⟩, _, _, stands =>
    .call (enclosed_derives callee (spell_derives function callee)
        (stands_primary callee stands.climbs (by decide) (by decide))) stands.climbs
      (arguments_derive (Expr.spellAll_eq_map extra arguments) (exprs_spelt arguments items) (by decide))
  | .array elements, items, _, _, _ =>
    .operand (.array (arguments_derive (Expr.spellAll_eq_map extra elements) (exprs_spelt elements items) (by decide)))
  | .index collection position, ⟨whole, inner⟩, _, _, stands =>
    .index (enclosed_derives whole (spell_derives collection whole)
        (stands_primary whole stands.climbs (by decide) (by decide))) (Nat.lt_succ_of_lt stands.climbs)
      (spell_derives position inner (Expr.stands_lowest inner (by decide) (by decide)))

theorem exprs_spelt : ∀ (exprs : List Expr), Expr.AllWellFormed exprs → ∀ expr ∈ exprs, Closed (Expr.spell extra) expr
  | expr :: _, ⟨well, _⟩, _, .head _ => fun alone ends => spell_derives expr well (Expr.stands_lowest well alone ends)
  | _ :: exprs, ⟨_, all⟩, _, .tail _ member => exprs_spelt exprs all _ member

theorem stmt_spelt : ∀ (stmt : Stmt), stmt.WellFormed → Whole (Stmt.spell extra) stmt
  | .bind _ value, ⟨_, well⟩, _, ends =>
    have ⟨alone, loose⟩ := endsReturn_ends ends
    .bind (spell_derives value well (Expr.stands_lowest well alone loose)) loose
  | .leave, _, _, ends => .leave ends
  | .leaveWith value, well, _, ends =>
    have ⟨alone, loose⟩ := endsReturn_ends ends
    .leaveWith (spell_derives value well (Expr.stands_lowest well alone loose)) loose
  | .expr value, well, _, ends =>
    have ⟨alone, loose⟩ := endsReturn_ends ends
    .expr (spell_derives value well (Expr.stands_lowest well alone loose)) loose

theorem stmts_spelt : ∀ (stmts : List Stmt), Stmt.AllWellFormed stmts → ∀ stmt ∈ stmts, Whole (Stmt.spell extra) stmt
  | stmt :: _, ⟨well, _⟩, _, .head _ => stmt_spelt stmt well
  | _ :: stmts, ⟨_, all⟩, _, .tail _ member => stmts_spelt stmts all _ member

end

end Derivation

/-! ### Texts -/

section Texts

variable {extra : Place → Expr → Bool}

theorem Written.enclosed {place : Place} {expr : Expr} {symbols : List Symbol} (written : Written symbols) :
    Written (enclosed extra place expr symbols) := by
  unfold Treewalk.enclosed
  split
  · exact .mark .leftParen (by decide) (written.append (.mark .rightParen (by decide) .nil))
  · exact written

mutual

theorem Expr.spell_written : ∀ (expr : Expr), expr.WellFormed → Written (expr.spell extra)
  | .name _, valid => .name valid
  | .integer _, ⟨positive, _⟩ => .single (Writes.integer positive)
  | .string _, content => .single (Writes.string content)
  | .boolean true, _ => .keyword .kwTrue (by decide) .nil
  | .boolean false, _ => .keyword .kwFalse (by decide) .nil
  | .unary op operand, ⟨known, well⟩ => .mark _ (UnaryOp.mark_text known).1 (operand.spell_written well).enclosed
  | .binary left op right, ⟨wellLeft, known, wellRight⟩ =>
    (left.spell_written wellLeft).enclosed.append
      (.mark _ (BinaryOp.mark_text known).1 (right.spell_written wellRight).enclosed)
  | .assign _ value, ⟨valid, well⟩ => (Written.name valid).append (.mark .assign (by decide) (value.spell_written well))
  | .ifThen condition consequence, ⟨test, body⟩ =>
    have block := Written.braces (.separated (by decide) (Stmt.spellAll_written consequence body))
    .append (.keyword .kwIf (by decide) (.mark .leftParen (by decide) (condition.spell_written test)))
      (.mark .rightParen (by decide) block)
  | .ifElse condition consequence alternative, ⟨test, body, other⟩ =>
    have block := Written.braces (.separated (by decide) (Stmt.spellAll_written consequence body))
    have final := Written.braces (.separated (by decide) (Stmt.spellAll_written alternative other))
    .append (.append (.keyword .kwIf (by decide) (.mark .leftParen (by decide) (condition.spell_written test)))
      (.mark .rightParen (by decide) block)) (.keyword .kwElse (by decide) final)
  | .function parameters body, ⟨valid, well⟩ =>
    have block := Written.braces (.separated (by decide) (Stmt.spellAll_written body well))
    .append (.keyword .kwFunction (by decide) (.mark .leftParen (by decide) (.separated (by decide) (Written.names valid))))
      (.mark .rightParen (by decide) block)
  | .call function arguments, ⟨callee, items⟩ =>
    .append (.append (function.spell_written callee).enclosed
      (.mark .leftParen (by decide) (.separated (by decide) (Expr.spellAll_written arguments items))))
      (.mark .rightParen (by decide) .nil)
  | .array elements, items =>
    .append (.mark .leftBracket (by decide) (.separated (by decide) (Expr.spellAll_written elements items)))
      (.mark .rightBracket (by decide) .nil)
  | .index collection position, ⟨whole, inner⟩ =>
    .append (.append (collection.spell_written whole).enclosed
      (.mark .leftBracket (by decide) (position.spell_written inner))) (.mark .rightBracket (by decide) .nil)

theorem Expr.spellAll_written : ∀ (exprs : List Expr), Expr.AllWellFormed exprs →
    ∀ piece ∈ Expr.spellAll extra exprs, Written piece
  | expr :: _, ⟨well, _⟩, _, .head _ => expr.spell_written well
  | _ :: exprs, ⟨_, all⟩, _, .tail _ member => Expr.spellAll_written exprs all _ member

theorem Stmt.spell_written : ∀ (stmt : Stmt), stmt.WellFormed → Written (stmt.spell extra)
  | .bind _ value, ⟨valid, well⟩ =>
    .keyword .kwLet (by decide) (.append (.name valid) (.mark .assign (by decide) (value.spell_written well)))
  | .leave, _ => .keyword .kwReturn (by decide) .nil
  | .leaveWith value, well => .keyword .kwReturn (by decide) (value.spell_written well)
  | .expr value, well => value.spell_written well

theorem Stmt.spellAll_written : ∀ (stmts : List Stmt), Stmt.AllWellFormed stmts →
    ∀ piece ∈ Stmt.spellAll extra stmts, Written piece
  | stmt :: _, ⟨well, _⟩, _, .head _ => stmt.spell_written well
  | _ :: stmts, ⟨_, all⟩, _, .tail _ member => Stmt.spellAll_written stmts all _ member

end

end Texts

namespace Program

theorem parseWithin_spaced_of_length_le {expr : Expr} (well : expr.WellFormed) (extra : Place → Expr → Bool) {room : Nat}
    (enough : (expr.spell extra).length ≤ room) :
    parseWithin room (spaced (expr.spell extra)) = (⟨[.expr expr]⟩, []) := by
  have read : (Token.scan (spaced (expr.spell extra))).map Token.symbol = expr.spell extra :=
    (expr.spell_written well).spells_spaced.scan
  have whole : Derivation.Expression .lowest (expr.spell extra) .endOfInput expr :=
    Derivation.spell_derives expr well (Expr.stands_lowest well (by decide) (by decide))
  have derived : Derivation.Statements (expr.spell extra ++ []) .endOfInput [.expr expr] :=
    .cons (.plain (.expr whole (by decide)) (by decide)) .none
  rw [List.append_nil, ← read] at derived
  refine ofTokens_complete derived (Nat.le_trans (Nat.le_of_eq ?_) enough)
  rw [← List.length_map (Token.symbol), read]

/-- An expression written with a blank between any two symbols, and with no parentheses but those that the ladder
requires, is what that text is read as, without a diagnostic; further parentheses around operands change nothing. An operand
on the level of its operator requires them on the right, and of a power on the left. The limit on nesting may be any that the
parse does not reach; one level for each symbol is always enough. -/
theorem ladder_reads_back {expr : Expr} (well : expr.WellFormed) (extra : Place → Expr → Bool) :
    Precedence.ladder.Pairwise (· < ·) ∧
      (∀ op other : BinaryOp, other.level = op.level →
        (other.level < (Place.left op).admits ↔ op = .power) ∧ (other.level < (Place.right op).admits ↔ op ≠ .power)) ∧
      (∀ room, .nestingTooDeep ∉ (parseWithin room (spaced (expr.spell extra))).2 →
        parseWithin room (spaced (expr.spell extra)) = (⟨[.expr expr]⟩, [])) ∧
      ∀ room, (expr.spell extra).length ≤ room →
        parseWithin room (spaced (expr.spell extra)) = (⟨[.expr expr]⟩, []) := by
  refine ⟨Precedence.ladder_ascends, fun _ _ => Place.associates, fun room uncut => ?_,
    fun room enough => parseWithin_spaced_of_length_le well extra enough⟩
  rw [parseWithin_eq_of_le (Nat.le_max_left room (expr.spell extra).length) uncut]
  exact parseWithin_spaced_of_length_le well extra (Nat.le_max_right _ _)

/-- Operators of all levels, and everything that can stand before a call or an index. -/
theorem mixed_operators_read_back :
    let item : Expr := .call (.index (.name "d") (.integer 0)) [.name "e", .assign "f" (.integer 1)]
    let power : Expr := .binary (.unary .negate (.name "b")) .power (.binary (.name "c") .power (.unary .invert item))
    let difference : Expr := .binary (.call (.unary .negate (.name "i")) []) .subtract
      (.index (.call (.ifThen (.name "j") [.leave, .expr (.string "k")]) []) (.name "l"))
    let expr : Expr := .assign "a"
      (.binary (.binary power .multiply (.binary (.name "g") .add (.name "h"))) .subtract difference)
    spaced expr.sparse = "a = - b ^ c ^ ! d [ 0 ] ( e , f = 1 ) * ( g + h ) - " ++
        "( ( - i ) ( ) - if ( j ) \x7b return ; \"k\" \x7d ( ) [ l ] )" ∧
      parseWithin 60 (spaced expr.sparse) = (⟨[.expr expr]⟩, []) := by
  refine ⟨by decide +kernel, (ladder_reads_back ?_ _).2.2.2 60 ?_⟩
  · decide
  · decide +kernel

end Program

/-! ### The limit -/

/-- A name with this many minus signs before it. -/
def negations : Nat → Expr
  | 0 => .name "x"
  | count + 1 => .unary .negate (negations count)

theorem negations_wellFormed : ∀ count, (negations count).WellFormed
  | 0 => show IsName "x" by decide
  | count + 1 => ⟨by decide, negations_wellFormed count⟩

theorem negations_sparse : ∀ count, (negations count).sparse = List.replicate count (.mark .minus) ++ [⟨.identifier, "x"⟩]
  | 0 => rfl
  | count + 1 => by
    have admitted : ¬ (negations count).level < Place.operand.admits := by
      cases count <;> simp [negations, Expr.level, Place.admits, Precedence.index, Precedence.unary]
    have inner : Expr.spell (fun _ _ => false) (negations count) = _ := negations_sparse count
    simp [Expr.sparse, negations, Expr.spell, enclosed, admitted, inner, List.replicate_succ, UnaryOp.kind]

namespace Grammar

open Treewalk.Parser

/-- Each sign is one level, so that many signs cannot be read with that much room. -/
theorem expression_tooDeep {room : Nat} {symbols : List Symbol} : ∀ {tokens : List Token},
    tokens.map Token.symbol = List.replicate room (.mark .minus) ++ symbols → ∀ precedence,
      ∃ rest, (expression room precedence).run tokens = ⟨.tooDeep, rest, []⟩ := by
  induction room with
  | zero => exact fun {tokens} _ _ => ⟨tokens, rfl⟩
  | succ room ih =>
    intro tokens same precedence
    obtain ⟨position, behind, rfl, signs⟩ := exists_cons_of_symbols same
    obtain ⟨rest, deeper⟩ := ih signs .unary
    have first : (operand (expression room)).run (⟨.minus, Token.Kind.minus.text, position⟩ :: behind) =
        ⟨.tooDeep, rest, []⟩ := by
      change (unary (expression room)).run (⟨.minus, Token.Kind.minus.text, position⟩ :: behind) = _
      simp [unary, run_bind, current, advance, deeper]
    exact ⟨rest, by simp [expression, climb, run_bind, first]⟩

end Grammar

namespace Program

theorem ofTokens_tooDeep {room : Nat} {symbols : List Symbol} {tokens : List Token} (positive : 0 < room)
    (signs : tokens.map Token.symbol = List.replicate room (.mark .minus) ++ symbols) :
    ofTokens room tokens = (⟨[]⟩, [.nestingTooDeep]) := by
  obtain ⟨rest, deep⟩ := Grammar.expression_tooDeep signs .lowest
  obtain ⟨room, rfl⟩ := Nat.exists_eq_succ_of_ne_zero (Nat.ne_of_gt positive)
  obtain ⟨position, behind, rfl, -⟩ := Grammar.exists_cons_of_symbols signs
  have stopped : (Grammar.statement (Grammar.expression (room + 1))).run
      (⟨.minus, Token.Kind.minus.text, position⟩ :: behind) = ⟨.tooDeep, rest, []⟩ := by
    simp [Grammar.statement, Grammar.expressionStatement, Parser.run_bind, Parser.current, deep]
  rw [ofTokens, Grammar.sequence.eq_def]
  simp [stopped]

/-- The limit cuts deep trees off, whatever they are written with. -/
theorem deep_negation_not_read_back :
    (negations 3000).WellFormed ∧ parse (spaced (negations 3000).sparse) = (⟨[]⟩, [.nestingTooDeep]) ∧
      parse (spaced (negations 3000).sparse) ≠ (⟨[.expr (negations 3000)]⟩, []) := by
  have well := negations_wellFormed 3000
  have read : (Token.scan (spaced (negations 3000).sparse)).map Token.symbol = (negations 3000).sparse :=
    (Expr.spell_written _ well).spells_spaced.scan
  have signs : (negations 3000).sparse =
      List.replicate nestingLimit (.mark .minus) ++ (List.replicate 2500 (.mark .minus) ++ [⟨.identifier, "x"⟩]) := by
    rw [negations_sparse, ← List.append_assoc, List.replicate_append_replicate, nestingLimit]
  have cut : parse (spaced (negations 3000).sparse) = (⟨[]⟩, [.nestingTooDeep]) :=
    ofTokens_tooDeep (by decide) (read.trans signs)
  exact ⟨well, cut, by simp [cut]⟩

end Program

end Treewalk
