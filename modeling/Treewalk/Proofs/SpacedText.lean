import Treewalk.Proofs.RenderedText

/-! Texts with a blank between any two symbols. Nothing can be glued together in them, so they spell their symbols as soon
as each symbol has a text of its own. -/

namespace Treewalk

def Symbol.text (symbol : Symbol) : String :=
  if symbol.kind = .string then renderString symbol.literal else symbol.literal

def spaced (symbols : List Symbol) : String := " ".intercalate (symbols.map Symbol.text)

/-- Each of the symbols is read from its own text. -/
def Written (symbols : List Symbol) : Prop := ∀ symbol ∈ symbols, Writes symbol.text [symbol]

theorem Written.spells_spaced : ∀ {symbols : List Symbol}, Written symbols → Spells (spaced symbols).toList symbols
  | [], _ => .nil
  | [symbol], written => by
    simpa [spaced] using! written symbol List.mem_cons_self [] [] .nil .nil
  | symbol :: second :: others, written => by
    have more := (spells_spaced fun other member => written other (List.mem_cons_of_mem _ member)).space
    have whole := written symbol List.mem_cons_self _ _ (.cons (by decide) _) more
    simpa [spaced] using! whole

namespace Written

variable {front back symbols : List Symbol}

theorem nil : Written [] := fun _ none => nomatch none

theorem cons {symbol : Symbol} (head : Writes symbol.text [symbol]) (tail : Written symbols) : Written (symbol :: symbols) :=
  List.forall_mem_cons.mpr ⟨head, tail⟩

theorem append (first : Written front) (second : Written back) : Written (front ++ back) :=
  List.forall_mem_append.mpr ⟨first, second⟩

theorem single {symbol : Symbol} (written : Writes symbol.text [symbol]) : Written [symbol] := .cons written .nil

theorem mark (kind : Token.Kind) (fixed : kind.IsMark) (tail : Written symbols) : Written (.mark kind :: symbols) := by
  refine .cons ?_ tail
  intro chars rest delimited spelt
  have unquoted : (Symbol.mark kind).text = kind.text := if_neg (by rintro rfl; simp [Token.Kind.IsMark] at fixed)
  have apart : kind.Apart chars := by
    unfold Token.Kind.Apart
    split
    next => exact fun equals => by simpa using delimited '=' equals
    next => exact fun equals => by simpa using delimited '=' equals
    next => exact fun slash => by simpa using delimited '/' slash
    next => trivial
  rw [unquoted]
  exact spelt.mark kind fixed apart

theorem keyword (kind : Token.Kind) (word : kind ∈ [.kwFunction, .kwLet, .kwTrue, .kwFalse, .kwIf, .kwElse, .kwReturn])
    (tail : Written symbols) : Written (.mark kind :: symbols) := by
  refine .cons ?_ tail
  simp only [List.mem_cons, List.not_mem_nil, or_false] at word
  rcases word with rfl | rfl | rfl | rfl | rfl | rfl | rfl <;> exact Writes.keyword _ (by decide) (by decide)

theorem name {name : String} (valid : IsName name) : Written [⟨.identifier, name⟩] := single (Writes.name valid)

theorem separated {kind : Token.Kind} (fixed : kind.IsMark) : ∀ {pieces : List (List Symbol)},
    (∀ piece ∈ pieces, Written piece) → Written (separated kind pieces)
  | [], _ => nil
  | [piece], written => by simpa using written piece List.mem_cons_self
  | piece :: second :: others, written => by
    rw [separated_cons_cons]
    exact (written piece List.mem_cons_self).append
      (.mark kind fixed (separated fixed fun other member => written other (List.mem_cons_of_mem _ member)))

theorem names {names : List String} (valid : ∀ name ∈ names, IsName name) :
    ∀ piece ∈ nameSymbols names, Written piece := by
  intro piece member
  obtain ⟨name, listed, rfl⟩ := List.mem_map.mp member
  exact Written.name (valid name listed)

theorem braces (written : Written symbols) : Written (bracesAround symbols) :=
  .mark .leftBrace (by decide) (written.append (.mark .rightBrace (by decide) .nil))

end Written

end Treewalk
