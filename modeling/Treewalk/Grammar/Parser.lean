import Treewalk.Grammar.Diagnostic

/-! Parsers over the tokens that are left. The first token of the list is the current one; an empty list stands at
the end of the source. A parser that rejects stays where it stopped and keeps the diagnostics it has recorded, so
that its caller may go on from there. No parser hands back more tokens than it was given, which is why the loops
below end. -/

namespace Treewalk

inductive Outcome (α : Type) where
  | accepted (value : α)
  | rejected
  /-- The nesting limit was reached. Nothing recovers from this below the level of the program. -/
  | tooDeep
  deriving Inhabited

structure Parsed (α : Type) where
  outcome : Outcome α
  rest : List Token
  diagnostics : List Diagnostic
  deriving Inhabited

structure Parser (α : Type) where
  run : List Token → Parsed α
  rest_length_le : ∀ tokens, (run tokens).rest.length ≤ tokens.length

/-- The kind of the current token. -/
def kindOf (tokens : List Token) : Token.Kind :=
  match tokens with
  | [] => .endOfInput
  | token :: _ => token.kind

namespace Parser

variable {α β : Type}

def accept (value : α) : Parser α := ⟨fun tokens => ⟨.accepted value, tokens, []⟩, fun _ => Nat.le_refl _⟩

/-- Gives up here without a diagnostic of its own. -/
def reject : Parser α := ⟨fun tokens => ⟨.rejected, tokens, []⟩, fun _ => Nat.le_refl _⟩

def fail (diagnostic : Diagnostic) : Parser α :=
  ⟨fun tokens => ⟨.rejected, tokens, [diagnostic]⟩, fun _ => Nat.le_refl _⟩

def tooDeep : Parser α := ⟨fun tokens => ⟨.tooDeep, tokens, []⟩, fun _ => Nat.le_refl _⟩

def andThen (parser : Parser α) (next : α → Parser β) : Parser β where
  run tokens :=
    let first := parser.run tokens
    match first.outcome with
    | .accepted value =>
      let second := (next value).run first.rest
      ⟨second.outcome, second.rest, first.diagnostics ++ second.diagnostics⟩
    | .rejected => ⟨.rejected, first.rest, first.diagnostics⟩
    | .tooDeep => ⟨.tooDeep, first.rest, first.diagnostics⟩
  rest_length_le tokens := by
    have first := parser.rest_length_le tokens
    cases outcome : (parser.run tokens).outcome with
    | accepted value => simpa only [outcome] using Nat.le_trans ((next value).rest_length_le _) first
    | rejected => simpa only [outcome] using first
    | tooDeep => simpa only [outcome] using first

instance : Monad Parser where
  pure := accept
  bind := andThen

/-- The current token. At the end of the source it is an end token. -/
def current : Parser Token :=
  ⟨fun tokens => ⟨.accepted (tokens.headD (.finish 0)), tokens, []⟩, fun _ => Nat.le_refl _⟩

/-- The kind of the token after the current one. -/
def nextKind : Parser Token.Kind :=
  ⟨fun tokens => ⟨.accepted (kindOf tokens.tail), tokens, []⟩, fun _ => Nat.le_refl _⟩

def advance : Parser Unit :=
  ⟨fun tokens => ⟨.accepted (), tokens.tail, []⟩, fun tokens => by simp⟩

/-- Moves on to the next token if it is of the wanted kind, and gives up before it otherwise. -/
def expect (want : Token.Kind) : Parser Unit := do
  let got ← nextKind
  if got = want then advance else fail (.expectedNext want got)

/-- Moves over the next token if it is of the given kind. -/
def skipNext (kind : Token.Kind) : Parser Unit := do
  if (← nextKind) = kind then advance else accept ()

/-- Turns rejection into an answer. -/
def attempt (parser : Parser α) : Parser (Option α) where
  run tokens :=
    let parsed := parser.run tokens
    match parsed.outcome with
    | .accepted value => ⟨.accepted (some value), parsed.rest, parsed.diagnostics⟩
    | .rejected => ⟨.accepted none, parsed.rest, parsed.diagnostics⟩
    | .tooDeep => ⟨.tooDeep, parsed.rest, parsed.diagnostics⟩
  rest_length_le tokens := by
    have bound := parser.rest_length_le tokens
    cases outcome : (parser.run tokens).outcome <;> simpa [outcome] using bound

/-- The loop of `whileNext`. Every round reads the token it moves on to. -/
def runWhile (continues : Token.Kind → Bool) (step : α → Parser α) (value : α) (tokens : List Token) : Parsed α :=
  match ahead : tokens.tail with
  | [] => ⟨.accepted value, tokens, []⟩
  | next :: _ =>
    if continues next.kind then
      let stepped := (step value).run tokens.tail
      match stepped.outcome with
      | .accepted following =>
        have : ((step value).run tokens.tail).rest.length < tokens.length :=
          Nat.lt_of_le_of_lt ((step value).rest_length_le tokens.tail) (by cases tokens <;> simp_all)
        let more := runWhile continues step following stepped.rest
        ⟨more.outcome, more.rest, stepped.diagnostics ++ more.diagnostics⟩
      | .rejected => ⟨.rejected, stepped.rest, stepped.diagnostics⟩
      | .tooDeep => ⟨.tooDeep, stepped.rest, stepped.diagnostics⟩
    else ⟨.accepted value, tokens, []⟩
termination_by tokens.length

theorem runWhile_length_le (continues : Token.Kind → Bool) (step : α → Parser α) (value : α) (tokens : List Token) :
    (runWhile continues step value tokens).rest.length ≤ tokens.length := by
  fun_induction runWhile continues step value tokens with
  | case1 => exact Nat.le_refl _
  | case2 value tokens next rest ahead going stepped following outcome shorter more ih =>
    exact Nat.le_trans ih (Nat.le_of_lt shorter)
  | case3 value tokens next rest ahead going stepped outcome =>
    exact Nat.le_trans ((step value).rest_length_le tokens.tail) (by simp)
  | case4 value tokens next rest ahead going stepped outcome =>
    exact Nat.le_trans ((step value).rest_length_le tokens.tail) (by simp)
  | case5 => exact Nat.le_refl _

/-- As long as the next token is of a kind that continues, moves on to it and takes a step from the value so far. -/
def whileNext (continues : Token.Kind → Bool) (step : α → Parser α) (start : α) : Parser α :=
  ⟨runWhile continues step start, runWhile_length_le continues step start⟩

/-- A parser that starts at the next token leaves less than there was. -/
theorem length_run_tail_lt (parser : Parser α) {tokens : List Token} (more : tokens.tail ≠ []) :
    (parser.run tokens.tail).rest.length < tokens.length := by
  have bound := parser.rest_length_le tokens.tail
  have positive := List.length_pos_iff.mpr more
  simp only [List.length_tail] at bound positive
  omega

end Parser

end Treewalk
