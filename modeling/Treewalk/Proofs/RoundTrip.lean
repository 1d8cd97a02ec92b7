import Treewalk.Proofs.NestingLimit
import Treewalk.Proofs.GrammarSoundness
import Treewalk.Proofs.GrammarCompleteness
import Treewalk.Proofs.RenderedText
import Treewalk.Proofs.Skeleton

/-! Rendering and reading. A well-formed program is read back from its own text, and a source that is read without a
diagnostic gives a well-formed program whose text says the same. Both hold for every nesting limit that the parse does
not reach, and no parse reaches a limit as long as its text. -/

namespace Treewalk

/-- Every token but the last takes at least one character. -/
theorem Cursor.tokens_length_le (cursor : Cursor) : cursor.tokens.length ≤ cursor.rest.length + 1 := by
  fun_induction tokens cursor with
  | case1 => simp
  | case2 cursor more ih =>
    have shorter := next_length_lt more
    simp only [List.length_cons]
    omega

theorem Token.scan_length_le (source : String) : (scan source).length ≤ source.length := by
  have bound := Cursor.tokens_length_le (.ofString source)
  simp only [Cursor.ofString, String.length_toList] at bound
  simp only [scan, stream, List.length_dropLast, Cursor.ofString]
  omega

namespace Program

/-- A parse that does not reach its limit is the same under every higher limit. -/
theorem parseWithin_eq_of_le {short full : Nat} {source : String} (less : short ≤ full)
    (uncut : .nestingTooDeep ∉ (parseWithin short source).2) : parseWithin short source = parseWithin full source := by
  refine (ofTokens_truncates less (Token.scan source)).resolve_right ?_
  rintro ⟨found, cut, -⟩
  exact uncut (by simp [parseWithin, cut])

theorem render_spells {program : Program} (well : program.WellFormed) : Spells program.render.toList program.symbols := by
  simpa using! stmts_write program.statements well [] [] .nil .nil

/-- Whatever text spells the symbols of a well-formed program, it is read as the program. -/
theorem parseWithin_of_spells {program : Program} (well : program.WellFormed) {text : String}
    (spelt : Spells text.toList program.symbols) {room : Nat} (enough : text.length ≤ room) :
    parseWithin room text = (program, []) := by
  have derived := symbols_derive well
  rw [← spelt.scan] at derived
  exact ofTokens_complete derived (Nat.le_trans (Token.scan_length_le _) enough)

theorem parseWithin_of_spells_uncut {program : Program} (well : program.WellFormed) {text : String}
    (spelt : Spells text.toList program.symbols) {room : Nat} (uncut : .nestingTooDeep ∉ (parseWithin room text).2) :
    parseWithin room text = (program, []) := by
  rw [parseWithin_eq_of_le (Nat.le_max_left room text.length) uncut]
  exact parseWithin_of_spells well spelt (Nat.le_max_right _ _)

theorem parseWithin_render_of_length_le {program : Program} (well : program.WellFormed) {room : Nat}
    (enough : program.render.length ≤ room) : parseWithin room program.render = (program, []) :=
  parseWithin_of_spells well (render_spells well) enough

theorem parseWithin_render {program : Program} (well : program.WellFormed) {room : Nat}
    (uncut : .nestingTooDeep ∉ (parseWithin room program.render).2) : parseWithin room program.render = (program, []) :=
  parseWithin_of_spells_uncut well (render_spells well) uncut

/-- A well-formed program is what its own text is read as, without a diagnostic. The limit on nesting may be any that
the parse does not reach; one level for each character is always enough. -/
theorem render_reads_back {program : Program} (well : program.WellFormed) :
    (∀ room, .nestingTooDeep ∉ (parseWithin room program.render).2 → parseWithin room program.render = (program, [])) ∧
      ∀ room, program.render.length ≤ room → parseWithin room program.render = (program, []) :=
  ⟨fun _ uncut => parseWithin_render well uncut, fun _ enough => parseWithin_render_of_length_le well enough⟩

/-- Calls and indexing of what ends in a brace, a return at the end of a block, a minus before a number, and a quote
behind a backslash. -/
theorem glued_program_reads_back :
    let program : Program := ⟨[
      .bind "f" (.function ["x", "y"] [.expr (.unary .negate (.integer 7)), .leave]),
      .expr (.index (.call (.ifElse (.boolean true) [] [.leave]) [.string "a\\\"b", .array []]) (.name "f"))]⟩
    program.render = "let f = fn(x, y) \x7b (-7); return \x7d; (if (true) \x7b \x7d else \x7b return \x7d(\"a\\\\\"b\", [])[f])" ∧
      parseWithin 100 program.render = (program, []) := by
  refine ⟨by decide +kernel, (render_reads_back ?_).2 100 ?_⟩
  · decide
  · decide +kernel

theorem well_formed_of_silent {room : Nat} {source : String} (silent : (parseWithin room source).2 = []) :
    (parseWithin room source).1.WellFormed ∧
      skeleton ((Token.scan source).map Token.symbol) = skeleton (parseWithin room source).1.symbols :=
  (ofTokens_sound silent).faithful (Token.scan_lexical source)

/-- What a source without diagnostics is read as is well-formed, and its text has the tokens of the source: the same
kinds and literals in the same order, up to parentheses, semicolons and leading zeros. So the text is read as the same
program again. -/
theorem parse_keeps_tokens {room : Nat} {source : String} (silent : (parseWithin room source).2 = []) :
    let program := (parseWithin room source).1
    program.WellFormed ∧
      skeleton ((Token.stream source).map Token.symbol) = skeleton ((Token.stream program.render).map Token.symbol) ∧
      (∀ again, .nestingTooDeep ∉ (parseWithin again program.render).2 →
        parseWithin again program.render = parseWithin room source) ∧
      ∀ again, program.render.length ≤ again → parseWithin again program.render = parseWithin room source := by
  obtain ⟨well, same⟩ := well_formed_of_silent silent
  have whole : parseWithin room source = ((parseWithin room source).1, []) := Prod.ext rfl silent
  refine ⟨well, ?_, fun again uncut => ?_, fun again enough => ?_⟩
  · rw [Token.map_symbol_stream, Token.map_symbol_stream, skeleton_append, skeleton_append, same, (render_spells well).scan]
  · rw [parseWithin_render well uncut, ← whole]
  · rw [parseWithin_render_of_length_le well enough, ← whole]

theorem loose_source_keeps_tokens :
    let source := "a=((b))+007; fn(x)\x7bx\x7d(\"q\")"
    let program := (parseWithin 20 source).1
    (parseWithin 20 source).2 = [] ∧ program.render = "(a = (b + 7)); fn(x) \x7b x \x7d(\"q\")" ∧
      skeleton ((Token.stream source).map Token.symbol) = skeleton ((Token.stream program.render).map Token.symbol) ∧
      parseWithin 100 program.render = parseWithin 20 source := by
  have silent : (parseWithin 20 "a=((b))+007; fn(x)\x7bx\x7d(\"q\")").2 = [] := List.isEmpty_iff.mp (by decide +kernel)
  obtain ⟨-, kept, -, again⟩ := parse_keeps_tokens silent
  exact ⟨silent, by decide +kernel, kept, again 100 (by decide +kernel)⟩

end Program

end Treewalk
