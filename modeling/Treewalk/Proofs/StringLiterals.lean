import Treewalk.Proofs.Spelling

/-! Strings between their quotes. Only quotes are escaped when a string is written, so a backslash at its end would escape the
closing quote. Every other string is read back from its text, wherever that stands, and no string that can be read ends in a
backslash. -/

namespace Treewalk

/-- The text of a string, in front of anything, is one lexeme that stands for the string. -/
theorem Cursor.next_renderString {text : String} (content : IsContent text) (position : Nat) (more : List Char) :
    (Cursor.mk position ((renderString text).toList ++ more)).next =
      (⟨.string, text, position⟩, ⟨position + (renderString text).length, more⟩) := by
  simp [next, skipLayout_eq_self (.renderString text more), Lexeme.read_renderString content, take, advance,
    String.length_toList]

/-- The literal of a string token can stand between quotes. -/
theorem Cursor.isContent_of_next {cursor : Cursor} {text : String} {position : Nat}
    (read : cursor.next.1 = ⟨.string, text, position⟩) : IsContent text := by
  have lexical := Lexeme.read_lexical cursor.skipLayout.rest
  have kind : (Lexeme.read cursor.skipLayout.rest).kind = .string := congrArg Token.kind read
  have literal : (Lexeme.read cursor.skipLayout.rest).literal = text := congrArg Token.literal read
  rwa [kind, literal] at lexical

theorem Token.isContent_of_mem_stream {source : String} {token : Token} (member : token ∈ stream source)
    (quoted : token.kind = .string) : IsContent token.literal := by
  have lexical := Cursor.tokens_lexical (.ofString source) token member
  rwa [Symbol.Lexical, Token.symbol, quoted] at lexical

/-- A string is read back from its own text exactly if it does not end in a backslash: the first token is the string, and it
takes that text and no more. Strings that come from a source never end so, and are therefore always read back. -/
theorem Token.string_literals_read_back :
    (∀ text more : String,
      (Cursor.ofString ((Expr.string text).render ++ more)).next =
          (⟨.string, text, 0⟩, ⟨(Expr.string text).render.length, more.toList⟩) ↔
        text.toList.getLast? ≠ some '\\') ∧
      ∀ source, ∀ token ∈ stream source, token.kind = .string →
        token.literal.toList.getLast? ≠ some '\\' ∧
          ∀ more : String, (Cursor.ofString ((Expr.string token.literal).render ++ more)).next =
            (⟨.string, token.literal, 0⟩, ⟨(Expr.string token.literal).render.length, more.toList⟩) := by
  have reads (text more : String) (content : IsContent text) :
      (Cursor.ofString ((Expr.string text).render ++ more)).next =
        (⟨.string, text, 0⟩, ⟨(Expr.string text).render.length, more.toList⟩) := by
    rw [Cursor.ofString, String.toList_append, Expr.render, Cursor.next_renderString content, Nat.zero_add]
  refine ⟨fun text more => ⟨fun read => ?_, reads text more⟩, fun source token member quoted => ?_⟩
  · exact Cursor.isContent_of_next (congrArg Prod.fst read)
  · have content := isContent_of_mem_stream member quoted
    exact ⟨content, fun more => reads token.literal more content⟩

/-- A backslash before a quote inside a string, and backslashes before one that is escaped. -/
theorem Token.backslashes_before_quotes_read_back :
    (Cursor.ofString ("\"a\\\\\"b\"" ++ "\"")).next = (⟨.string, "a\\\"b", 0⟩, ⟨7, ['"']⟩) ∧
      (⟨.string, "\\\"", 1⟩ : Token) ∈ stream " \"\\\\\"\"+\"c\"" ∧
      (Cursor.ofString ("\"\\\\\"\"" ++ "x")).next = (⟨.string, "\\\"", 0⟩, ⟨5, ['x']⟩) := by
  have member : (⟨.string, "\\\"", 1⟩ : Token) ∈ stream " \"\\\\\"\"+\"c\"" := by decide +kernel
  exact ⟨(string_literals_read_back.1 "a\\\"b" "\"").mpr (by decide), member,
    (string_literals_read_back.2 _ _ member rfl).2 "x"⟩

end Treewalk
