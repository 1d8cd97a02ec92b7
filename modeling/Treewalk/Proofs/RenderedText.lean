import Treewalk.Proofs.Spelling
import Treewalk.Proofs.WellFormed

/-! The text of a well-formed tree spells the symbols of the tree. Pieces of it are glued together without blanks in a
few places only; there the character that follows shows where the piece before it ends. -/

namespace Treewalk

/-- Nothing that could continue a word or a number. -/
def Delimited (chars : List Char) : Prop :=
  ∀ c, chars.head? = some c → c ∈ [' ', '\n', '(', ')', '[', ']', ',', ';']

theorem Delimited.cons {c : Char} (listed : c ∈ [' ', '\n', '(', ')', '[', ']', ',', ';']) (chars : List Char) :
    Delimited (c :: chars) :=
  fun _ same => Option.some.inj same ▸ listed

theorem Delimited.nil : Delimited [] := fun _ none => nomatch none

theorem Delimited.not_word {chars : List Char} (delimited : Delimited chars) (c : Char) (first : chars.head? = some c) :
    isWordChar c = false := by
  have listed := delimited c first
  simp only [List.mem_cons, List.not_mem_nil, or_false] at listed
  rcases listed with rfl | rfl | rfl | rfl | rfl | rfl | rfl | rfl <;> rfl

theorem Delimited.not_digit {chars : List Char} (delimited : Delimited chars) (c : Char) (first : chars.head? = some c) :
    c.isDigit = false := by
  have listed := delimited c first
  simp only [List.mem_cons, List.not_mem_nil, or_false] at listed
  rcases listed with rfl | rfl | rfl | rfl | rfl | rfl | rfl | rfl <;> rfl

/-- Before anything delimited, the text is read as these symbols. -/
def Writes (text : String) (symbols : List Symbol) : Prop :=
  ∀ chars rest, Delimited chars → Spells chars rest → Spells (text.toList ++ chars) (symbols ++ rest)

namespace Writes

theorem name {name : String} (valid : IsName name) : Writes name [⟨.identifier, name⟩] := by
  intro chars rest delimited spelt
  have word := spelt.word valid.2.1 valid.1 delimited.not_word
  rwa [valid.2.2] at word

theorem isNumeral_toString {value : Int} (positive : 0 ≤ value) : IsNumeral (toString value) := by
  obtain ⟨number, rfl⟩ := Int.eq_ofNat_of_zero_le positive
  rw [IsNumeral, toList_toString]
  exact ⟨Nat.toDigits_ne_nil, fun c member => Nat.isDigit_of_mem_toDigits (by decide) (by decide) member⟩

theorem integer {value : Int} (positive : 0 ≤ value) : Writes (toString value) [⟨.integer, toString value⟩] :=
  fun _ _ delimited spelt => spelt.number (isNumeral_toString positive) delimited.not_digit

theorem string {text : String} (content : IsContent text) : Writes (renderString text) [⟨.string, text⟩] :=
  fun _ _ _ spelt => spelt.quoted content

theorem keyword (word : String) (letters : word.toList.all isWordChar = true) (some_left : word.toList ≠ []) :
    Writes word [⟨.ofWord word, word⟩] :=
  fun _ _ delimited spelt => spelt.word (List.all_eq_true.mp letters) some_left delimited.not_word

theorem empty : Writes "" [] := fun _ _ _ spelt => spelt

theorem cons_comma {text second : String} {texts : List String} {symbols first : List Symbol} {pieces : List (List Symbol)}
    (head : Writes text symbols) (tail : Writes (renderList (second :: texts)) (separated .comma (first :: pieces))) :
    Writes (renderList (text :: second :: texts)) (separated .comma (symbols :: first :: pieces)) := by
  intro chars rest delimited spelt
  have more := (tail chars rest delimited spelt).space |>.mark .comma (by decide) trivial
  have whole := head _ _ (.cons (by decide) _) more
  simpa [renderList, Token.Kind.text] using! whole

theorem cons_semicolon {text second : String} {texts : List String} {symbols first : List Symbol} {pieces : List (List Symbol)}
    (head : Writes text symbols) (tail : Writes (renderStatements (second :: texts)) (separated .semicolon (first :: pieces))) :
    Writes (renderStatements (text :: second :: texts)) (separated .semicolon (symbols :: first :: pieces)) := by
  intro chars rest delimited spelt
  have more := (tail chars rest delimited spelt).space |>.mark .semicolon (by decide) trivial
  have whole := head _ _ (.cons (by decide) _) more
  simpa [renderStatements, Token.Kind.text] using! whole

theorem names : ∀ names : List String, (∀ name ∈ names, IsName name) →
    Writes (renderList names) (separated .comma (nameSymbols names))
  | [], _ => .empty
  | [only], valid => by simpa [renderList, nameSymbols] using! Writes.name (valid only List.mem_cons_self)
  | first :: second :: others, valid =>
    .cons_comma (.name (valid first List.mem_cons_self)) (names (second :: others) fun name member =>
      valid name (List.mem_cons_of_mem _ member))

/-- A block without statements has a single blank between its braces. -/
theorem block {stmts : List Stmt}
    (inside : Writes (renderStatements (Stmt.renderAll stmts)) (separated .semicolon (Stmt.symbolsAll stmts))) {chars : List Char}
    {rest : List Symbol} (spelt : Spells chars rest) :
    Spells ((renderBlock (Stmt.renderAll stmts)).toList ++ chars)
      (bracesAround (separated .semicolon (Stmt.symbolsAll stmts)) ++ rest) := by
  have closed := (spelt.mark .rightBrace (by decide) trivial).space
  cases stmts with
  | nil => simpa using! closed.mark .leftBrace (by decide) trivial
  | cons stmt stmts =>
    have whole := (inside _ _ (.cons (by decide) _) closed).space.mark .leftBrace (by decide) trivial
    simpa [renderBlock, bracesAround, Token.Kind.text, Stmt.renderAll] using! whole

end Writes

/-- A rendered expression starts with a letter, a digit, a quote or an opening delimiter. -/
theorem Expr.render_head : ∀ (expr : Expr), expr.WellFormed → ∃ c, expr.render.toList.head? = some c ∧ c ≠ '='
  | .name text, valid => by
    obtain ⟨c, rest, first⟩ := List.exists_cons_of_ne_nil valid.1
    refine ⟨c, by simp [Expr.render, first], ?_⟩
    rintro rfl
    exact absurd (valid.2.1 '=' (first ▸ List.mem_cons_self)) (by decide)
  | .integer value, ⟨positive, _⟩ => by
    obtain ⟨c, rest, first⟩ := List.exists_cons_of_ne_nil (Writes.isNumeral_toString positive).1
    refine ⟨c, by simp only [Expr.render, first, List.head?_cons], ?_⟩
    rintro rfl
    exact absurd ((Writes.isNumeral_toString positive).2 '=' (first ▸ List.mem_cons_self)) (by decide)
  | .string _, _ => ⟨'"', by simp [Expr.render, renderString], by decide⟩
  | .boolean true, _ => ⟨'t', by simp [Expr.render], by decide⟩
  | .boolean false, _ => ⟨'f', by simp [Expr.render], by decide⟩
  | .unary _ _, _ => ⟨'(', by simp [Expr.render], by decide⟩
  | .binary _ _ _, _ => ⟨'(', by simp [Expr.render], by decide⟩
  | .assign _ _, _ => ⟨'(', by simp [Expr.render], by decide⟩
  | .ifThen _ _, _ => ⟨'i', by simp [Expr.render], by decide⟩
  | .ifElse _ _ _, _ => ⟨'i', by simp [Expr.render], by decide⟩
  | .function _ _, _ => ⟨'f', by simp [Expr.render], by decide⟩
  | .call callee _, ⟨well, _⟩ => by
    obtain ⟨c, first, other⟩ := callee.render_head well
    exact ⟨c, by simp [Expr.render, first], other⟩
  | .array _, _ => ⟨'[', by simp [Expr.render], by decide⟩
  | .index _ _, _ => ⟨'(', by simp [Expr.render], by decide⟩

theorem UnaryOp.mark_text {op : UnaryOp} (known : op.Known) : op.kind.IsMark ∧ op.kind.text = op.symbol := by
  cases op with
  | unknown => exact absurd rfl known
  | _ => exact ⟨by decide, rfl⟩

theorem BinaryOp.mark_text {op : BinaryOp} (known : op.Known) : op.kind.IsMark ∧ op.kind.text = op.symbol := by
  cases op with
  | unknown => exact absurd rfl known
  | _ => exact ⟨by decide, rfl⟩

mutual

theorem Expr.writes : ∀ (expr : Expr), expr.WellFormed → Writes expr.render expr.symbols
  | .name _, valid => .name valid
  | .integer _, ⟨positive, _⟩ => .integer positive
  | .string _, content => .string content
  | .boolean true, _ => .keyword "true" (by decide) (by decide)
  | .boolean false, _ => .keyword "false" (by decide) (by decide)
  | .unary op operand, ⟨known, well⟩ => by
    intro chars rest delimited spelt
    obtain ⟨fixed, text⟩ := UnaryOp.mark_text known
    have inner := operand.writes well _ _ (.cons (by decide) _) (spelt.mark .rightParen (by decide) trivial)
    have apart : op.kind.Apart (operand.render.toList ++ ')' :: chars) := by
      cases op with
      | unknown => exact absurd rfl known
      | negate => trivial
      | invert =>
        obtain ⟨c, first, other⟩ := operand.render_head well
        simpa [UnaryOp.kind, Token.Kind.Apart, first] using other
    have whole := (inner.mark op.kind fixed apart).mark .leftParen (by decide) trivial
    rw [text] at whole
    simpa [Expr.render, Expr.symbols] using! whole
  | .binary left op right, ⟨wellLeft, known, wellRight⟩ => by
    intro chars rest delimited spelt
    obtain ⟨fixed, text⟩ := BinaryOp.mark_text known
    have second := (right.writes wellRight _ _ (.cons (by decide) _) (spelt.mark .rightParen (by decide) trivial)).space
    have apart : op.kind.Apart (' ' :: (right.render.toList ++ ')' :: chars)) := by
      cases op with
      | unknown => exact absurd rfl known
      | _ => simp [BinaryOp.kind, Token.Kind.Apart]
    have first := left.writes wellLeft _ _ (.cons (by decide) _) (second.mark op.kind fixed apart).space
    have whole := first.mark .leftParen (by decide) trivial
    rw [text] at whole
    simpa [Expr.render, Expr.symbols] using! whole
  | .assign _ value, ⟨valid, well⟩ => by
    intro chars rest delimited spelt
    have inner := value.writes well _ _ (.cons (by decide) _) (spelt.mark .rightParen (by decide) trivial)
    have sign := inner.space.mark .assign (by decide) (by simp [Token.Kind.Apart])
    have target := Writes.name valid _ _ (.cons (by decide) _) sign.space
    simpa [Expr.render, Expr.symbols, Token.Kind.text] using! target.mark .leftParen (by decide) trivial
  | .ifThen condition consequence, ⟨test, body⟩ => by
    intro chars rest delimited spelt
    have inside := (Writes.block (stmts_write consequence body) spelt).space.mark .rightParen (by decide) trivial
    have opened := (condition.writes test _ _ (.cons (by decide) _) inside).mark .leftParen (by decide) trivial
    have whole := Writes.keyword "if" (by decide) (by decide) _ _ (.cons (by decide) _) opened.space
    simpa [Expr.render, Expr.symbols, Token.Kind.text] using! whole
  | .ifElse condition consequence alternative, ⟨test, body, other⟩ => by
    intro chars rest delimited spelt
    have last := (Writes.block (stmts_write alternative other) spelt).space
    have between := (Writes.keyword "else" (by decide) (by decide) _ _ (.cons (by decide) _) last).space
    have inside := (Writes.block (stmts_write consequence body) between).space.mark .rightParen (by decide) trivial
    have opened := (condition.writes test _ _ (.cons (by decide) _) inside).mark .leftParen (by decide) trivial
    have whole := Writes.keyword "if" (by decide) (by decide) _ _ (.cons (by decide) _) opened.space
    simpa [Expr.render, Expr.symbols, Token.Kind.text] using! whole
  | .function parameters body, ⟨valid, well⟩ => by
    intro chars rest delimited spelt
    have inside := (Writes.block (stmts_write body well) spelt).space.mark .rightParen (by decide) trivial
    have opened := (Writes.names parameters valid _ _ (.cons (by decide) _) inside).mark .leftParen (by decide) trivial
    have whole := Writes.keyword "fn" (by decide) (by decide) _ _ (.cons (by decide) _) opened
    simpa [Expr.render, Expr.symbols, Token.Kind.text] using! whole
  | .call callee arguments, ⟨well, items⟩ => by
    intro chars rest delimited spelt
    have inner := exprs_write arguments items _ _ (.cons (by decide) _) (spelt.mark .rightParen (by decide) trivial)
    have whole := callee.writes well _ _ (.cons (by decide) _) (inner.mark .leftParen (by decide) trivial)
    simpa [Expr.render, Expr.symbols, Token.Kind.text] using! whole
  | .array elements, items => by
    intro chars rest delimited spelt
    have inner := exprs_write elements items _ _ (.cons (by decide) _) (spelt.mark .rightBracket (by decide) trivial)
    simpa [Expr.render, Expr.symbols, Token.Kind.text] using! inner.mark .leftBracket (by decide) trivial
  | .index collection position, ⟨whole, well⟩ => by
    intro chars rest delimited spelt
    have closed := (spelt.mark .rightParen (by decide) trivial).mark .rightBracket (by decide) trivial
    have inner := (position.writes well _ _ (.cons (by decide) _) closed).mark .leftBracket (by decide) trivial
    have front := (collection.writes whole _ _ (.cons (by decide) _) inner).mark .leftParen (by decide) trivial
    simpa [Expr.render, Expr.symbols, Token.Kind.text] using! front

theorem exprs_write : ∀ (exprs : List Expr), Expr.AllWellFormed exprs →
    Writes (renderList (Expr.renderAll exprs)) (separated .comma (Expr.symbolsAll exprs))
  | [], _ => .empty
  | [expr], ⟨well, _⟩ => by simpa [renderList, Expr.renderAll, Expr.symbolsAll] using expr.writes well
  | expr :: second :: others, ⟨well, all⟩ => .cons_comma (expr.writes well) (exprs_write (second :: others) all)

theorem stmts_write : ∀ (stmts : List Stmt), Stmt.AllWellFormed stmts →
    Writes (renderStatements (Stmt.renderAll stmts)) (separated .semicolon (Stmt.symbolsAll stmts))
  | [], _ => .empty
  | [stmt], ⟨well, _⟩ => by simpa [renderStatements, Stmt.renderAll, Stmt.symbolsAll] using stmt.writes well
  | stmt :: second :: others, ⟨well, all⟩ => .cons_semicolon (stmt.writes well) (stmts_write (second :: others) all)

theorem Stmt.writes : ∀ (stmt : Stmt), stmt.WellFormed → Writes stmt.render stmt.symbols
  | .bind _ value, ⟨valid, well⟩ => by
    intro chars rest delimited spelt
    have inner := (value.writes well _ _ delimited spelt).space.mark .assign (by decide) (by simp [Token.Kind.Apart])
    have target := Writes.name valid _ _ (.cons (by decide) _) inner.space
    have whole := Writes.keyword "let" (by decide) (by decide) _ _ (.cons (by decide) _) target.space
    simpa [Stmt.render, Stmt.symbols, Token.Kind.text] using! whole
  | .leave, _ => .keyword "return" (by decide) (by decide)
  | .leaveWith value, well => by
    intro chars rest delimited spelt
    have inner := value.writes well _ _ delimited spelt
    have whole := Writes.keyword "return" (by decide) (by decide) _ _ (.cons (by decide) _) inner.space
    simpa [Stmt.render, Stmt.symbols] using! whole
  | .expr value, well => value.writes well

end

end Treewalk
