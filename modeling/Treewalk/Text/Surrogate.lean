import Treewalk.Text.Hexadecimal

/-! Lone surrogates. Half of a surrogate pair is no character and no bytes in UTF-8 stand for it, but the text that a
program gets can hold one all the same. An alphabet says which characters are halves in disguise; in the plain one,
none is. -/

namespace Treewalk

/-- The lone surrogate that a character stands for, if it does not stand for itself. -/
abbrev Alphabet := Char → Option Nat

namespace Alphabet

def plain : Alphabet := fun _ => none

/-- Lone surrogates next to each other in a text: the position of the first, its number, and how many follow it. -/
structure Halves where
  position : Nat
  first : Nat
  others : Nat
  deriving DecidableEq, Repr, Inhabited

def Halves.message (halves : Halves) : String :=
  let place :=
    if halves.others = 0 then
      "character '\\u" ++ hexadecimal 4 halves.first ++ "' in position " ++ toString halves.position
    else "characters in position " ++ toString halves.position ++ "-" ++ toString (halves.position + halves.others)
  "'utf-8' codec can't encode " ++ place ++ ": surrogates not allowed"

/-- The first lone surrogates among characters. Positions are counted from the given one. -/
def halvesFrom? (alphabet : Alphabet) (position : Nat) : List Char → Option Halves
  | [] => none
  | c :: rest =>
    match alphabet c with
    | none => alphabet.halvesFrom? (position + 1) rest
    | some first => some ⟨position, first, (rest.takeWhile fun other => (alphabet other).isSome).length⟩

/-- The first lone surrogates of a text, at which encoding it fails. -/
def halves? (alphabet : Alphabet) (text : String) : Option Halves := alphabet.halvesFrom? 0 text.toList

theorem halvesFrom?_eq_none_iff {alphabet : Alphabet} {position : Nat} {chars : List Char} :
    alphabet.halvesFrom? position chars = none ↔ ∀ c ∈ chars, alphabet c = none := by
  induction chars generalizing position with
  | nil => simp [halvesFrom?]
  | cons c rest ih => cases found : alphabet c <;> simp [halvesFrom?, found, ih]

/-- A text can be encoded when all its characters stand for themselves. -/
theorem halves?_eq_none_iff {alphabet : Alphabet} {text : String} :
    alphabet.halves? text = none ↔ ∀ c ∈ text.toList, alphabet c = none := halvesFrom?_eq_none_iff

@[simp] theorem halves?_plain (text : String) : plain.halves? text = none := halves?_eq_none_iff.mpr fun _ _ => rfl

end Alphabet

end Treewalk
