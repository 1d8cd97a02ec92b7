import Treewalk.Proofs.CallDepth
import Treewalk.Proofs.KeptMoments
import Treewalk.Proofs.RoundTrip

/-! A function shows its source. Its body stands on lines of its own there, so the text is not the one that the function was
written with, but it spells the same symbols. Every function that a run of accepted programs makes is a piece of one of these
programs, so its text can always be read back. -/

namespace Treewalk

/-- The function can be written in a source. -/
def IsSource (parameters : List String) (body : List Stmt) : Prop := (Expr.function parameters body).WellFormed

mutual

theorem Expr.conforms_of_wellFormed : (expr : Expr) → expr.WellFormed → expr.Conforms (fun _ => True) IsSource
  | .name _, _ | .integer _, _ | .string _, _ | .boolean _, _ => trivial
  | .unary _ operand, well => operand.conforms_of_wellFormed well.2
  | .binary left _ right, well => ⟨left.conforms_of_wellFormed well.1, right.conforms_of_wellFormed well.2.2⟩
  | .assign _ value, well => ⟨trivial, value.conforms_of_wellFormed well.2⟩
  | .ifThen condition consequence, well =>
    ⟨condition.conforms_of_wellFormed well.1, Stmt.allConform_of_wellFormed consequence well.2⟩
  | .ifElse condition consequence alternative, well =>
    ⟨condition.conforms_of_wellFormed well.1, Stmt.allConform_of_wellFormed consequence well.2.1,
      Stmt.allConform_of_wellFormed alternative well.2.2⟩
  | .function _ body, well => ⟨well, fun _ _ => trivial, Stmt.allConform_of_wellFormed body well.2⟩
  | .call function arguments, well =>
    ⟨function.conforms_of_wellFormed well.1, Expr.allConform_of_wellFormed arguments well.2⟩
  | .array elements, well => Expr.allConform_of_wellFormed elements well
  | .index collection position, well => ⟨collection.conforms_of_wellFormed well.1, position.conforms_of_wellFormed well.2⟩

theorem Expr.allConform_of_wellFormed : (exprs : List Expr) → Expr.AllWellFormed exprs →
    Expr.AllConform (fun _ => True) IsSource exprs
  | [], _ => trivial
  | expr :: exprs, well => ⟨expr.conforms_of_wellFormed well.1, Expr.allConform_of_wellFormed exprs well.2⟩

theorem Stmt.conforms_of_wellFormed : (stmt : Stmt) → stmt.WellFormed → stmt.Conforms (fun _ => True) IsSource
  | .bind _ value, well => ⟨trivial, value.conforms_of_wellFormed well.2⟩
  | .leave, _ => trivial
  | .leaveWith value, well | .expr value, well => value.conforms_of_wellFormed well

theorem Stmt.allConform_of_wellFormed : (stmts : List Stmt) → Stmt.AllWellFormed stmts →
    Stmt.AllConform (fun _ => True) IsSource stmts
  | [], _ => trivial
  | stmt :: stmts, well => ⟨stmt.conforms_of_wellFormed well.1, Stmt.allConform_of_wellFormed stmts well.2⟩

end

/-! ### Reading the text -/

/-- The program of one expression statement. -/
def Program.ofExpr (expr : Expr) : Program := ⟨[.expr expr]⟩

theorem Value.renderFunction_spells {parameters : List String} {body : List Stmt} (source : IsSource parameters body) :
    Spells (Value.renderFunction parameters body).toList (Program.ofExpr (.function parameters body)).symbols := by
  have closed := Spells.nil.mark .rightBrace (by decide) trivial
  have lines := (stmts_write body source.2 _ _ (.cons (by decide) _) (closed.blank (c := '\n') rfl)).blank (c := '\n') rfl
  have inside := (lines.mark .leftBrace (by decide) trivial).space.mark .rightParen (by decide) trivial
  have opened := (Writes.names parameters source.1 _ _ (.cons (by decide) _) inside).mark .leftParen (by decide) trivial
  have whole := Writes.keyword "fn" (by decide) (by decide) _ _ (.cons (by decide) _) opened
  simpa [Value.renderFunction, Program.ofExpr, Program.symbols, Stmt.symbolsAll, Stmt.symbols, Expr.symbols, bracesAround,
    Token.Kind.text] using! whole

/-- The function's own text is read as a program that makes the function anew: another function with the same text. -/
structure Value.ReadsBack (function : Value) (parameters : List String) (body : List Stmt) : Prop where
  uncut : ∀ room, .nestingTooDeep ∉ (Program.parseWithin room function.inspect).2 →
    Program.parseWithin room function.inspect = (.ofExpr (.function parameters body), [])
  enough : ∀ room, function.inspect.length ≤ room →
    Program.parseWithin room function.inspect = (.ofExpr (.function parameters body), [])
  again : ∀ limit scope (world : World), world.host.Grants limit →
    ∃ copy after, (Program.ofExpr (.function parameters body)).evaluate? limit scope world = some (copy, after) ∧
      copy = .function world.nextIdentity parameters body scope ∧ copy.inspect = function.inspect

theorem Value.readsBack_of_isSource {parameters : List String} {body : List Stmt} (source : IsSource parameters body)
    (identity : Identity) (captured : ScopeId) : (Value.function identity parameters body captured).ReadsBack parameters body where
  uncut room := by
    have well : (Program.ofExpr (.function parameters body)).WellFormed := ⟨source, trivial⟩
    exact Program.parseWithin_of_spells_uncut well (Value.renderFunction_spells source)
  enough room := by
    have well : (Program.ofExpr (.function parameters body)).WellFormed := ⟨source, trivial⟩
    exact Program.parseWithin_of_spells well (Value.renderFunction_spells source)
  again limit scope world granted :=
    ⟨_, _, Node.evaluate?_of_grants granted (.program (.ofExpr (.function parameters body))) scope, rfl, rfl⟩

/-! ### Functions of accepted programs -/

/-- Functions that can be written in a source. -/
def Value.IsWritten (object : Value) : Prop :=
  ∀ identity parameters body scope, object = .function identity parameters body scope → IsSource parameters body

/-- Every function that is bound anywhere, or is inside a value that is, can be written in a source. -/
def World.Written (world : World) : Prop := world.heap.Everywhere (Value.Throughout Value.IsWritten)

theorem World.initial_written (host : Host) : (World.initial host).Written := (Heap.empty_everywhere _).enclose none

def sourceUpkeep : Upkeep OneStage := .single (fun _ _ => True) (fun _ => Value.IsWritten) IsSource

theorem sourceUpkeep_lawful : sourceUpkeep.Lawful := by
  refine Upkeep.single_lawful (fun _ _ _ _ written => written) (fun written => ?_) (fun _ _ => ?_) fun _ _ source _ => ?_
  · exact Stmt.allConform_of_wellFormed _ (written _ _ _ _ rfl).2
  · exact ⟨.only, le_refl _, trivial, nofun⟩
  · refine ⟨.only, le_refl _, trivial, ?_⟩
    rintro _ _ _ _ ⟨⟩
    exact source

/-- Accepted programs run one after another from a world in which all functions can be written in a source, as in the world
without bindings. Whatever function is at hand at any moment, in the answer of an evaluation or bound anywhere after it: its
text is read without a diagnostic as a program that consists of the function, with its parameters and its body. The limit on
nesting may be any that the parse does not reach; one level for each character is always enough. Evaluated, wherever and under
whatever limit that is not refused, this program makes a function with the same text. -/
theorem Program.functions_read_back {scope : ScopeId} {programs : List (Program × Int)} {world : World}
    (accepted : ∀ entry ∈ programs, ∃ room source, parseWithin room source = (entry.1, [])) (written : world.Written)
    {moment : Moment} (during : moment.DuringAll scope programs world) {identity : Identity} {parameters : List String}
    {body : List Stmt} {captured : ScopeId} (there : AtHand moment.ending (.function identity parameters body captured)) :
    (Value.function identity parameters body captured).ReadsBack parameters body := by
  have conform (entry : Program × Int) (member : entry ∈ programs) :
      (Node.program entry.1).Conforms sourceUpkeep.names sourceUpkeep.functions := by
    obtain ⟨room, source, parsed⟩ := accepted entry member
    have well := (well_formed_of_silent (congrArg Prod.snd parsed)).1
    rw [parsed] at well
    exact Stmt.allConform_of_wellFormed entry.1.statements well
  have worlds : sourceUpkeep.worlds .only world world := ⟨rfl, written, trivial⟩
  obtain ⟨later, -, begins⟩ := during.comes sourceUpkeep_lawful trivial conform worlds
  obtain ⟨last, -, ends⟩ := begins.ends sourceUpkeep_lawful
  exact Value.readsBack_of_isSource (Upkeep.single_atHand ends there rfl _ _ _ _ rfl) identity captured

/-- A function without parameters and statements inside another one, a string with quotes and a line break, and a return that
ends the body. -/
theorem Program.nested_function_reads_back :
    let body : List Stmt := [.bind "g" (.function [] []), .expr (.string "a \"quoted\"\nline"), .leave]
    let program : Program := ⟨[.bind "n" (.integer 7), .expr (.function ["x", "y"] body)]⟩
    let world := World.initial .usual
    let moment : Moment := ⟨10, World.root, .program program, world⟩
    (∀ entry ∈ [(program, (10 : Int))], ∃ room source, parseWithin room source = (entry.1, [])) ∧ world.Written ∧
      moment.DuringAll World.root [(program, 10)] world ∧
      moment.ending.1.inspect = "fn(x, y) \x7b\nlet g = fn() \x7b \x7d; \"a \\\"quoted\\\"\nline\"; return\n\x7d" ∧
      moment.ending.1.ReadsBack ["x", "y"] body := by
  intro body program world moment
  have accepted : ∀ entry ∈ [(program, (10 : Int))], ∃ room source, parseWithin room source = (entry.1, []) := by
    refine List.forall_mem_singleton.mpr ⟨_, program.render, (render_reads_back ?_).2 _ (Nat.le_refl _)⟩
    decide
  have during : moment.DuringAll World.root [(program, 10)] world := Moment.DuringAll.head (by decide +kernel) .refl
  have answer : moment.ending.1 = .function 0 ["x", "y"] body World.root := rfl
  refine ⟨accepted, World.initial_written _, during, by decide +kernel, ?_⟩
  rw [answer]
  exact functions_read_back accepted (World.initial_written _) during (Or.inl (answer ▸ .here))

end Treewalk
