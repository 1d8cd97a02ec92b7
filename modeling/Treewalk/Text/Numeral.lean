import Treewalk.Text.Space

/-! Decimal numerals, as people write them: digits of any script, single underscores between digits, a sign in front,
and white space around. -/

namespace Treewalk

/-- The code points of the zeros of all decimal digits of Unicode 14.0, in ascending order. The other nine digits of a
script follow its zero. -/
def digitZeros : List Nat :=
  [0x30, 0x660, 0x6F0, 0x7C0, 0x966, 0x9E6, 0xA66, 0xAE6, 0xB66, 0xBE6, 0xC66, 0xCE6, 0xD66, 0xDE6, 0xE50, 0xED0,
   0xF20, 0x1040, 0x1090, 0x17E0, 0x1810, 0x1946, 0x19D0, 0x1A80, 0x1A90, 0x1B50, 0x1BB0, 0x1C40, 0x1C50, 0xA620,
   0xA8D0, 0xA900, 0xA9D0, 0xA9F0, 0xAA50, 0xABF0, 0xFF10, 0x104A0, 0x10D30, 0x11066, 0x110F0, 0x11136, 0x111D0,
   0x112F0, 0x11450, 0x114D0, 0x11650, 0x116C0, 0x11730, 0x118E0, 0x11950, 0x11C50, 0x11D50, 0x11DA0, 0x16A60,
   0x16AC0, 0x16B50, 0x1D7CE, 0x1D7D8, 0x1D7E2, 0x1D7EC, 0x1D7F6, 0x1E140, 0x1E2F0, 0x1E950, 0x1FBF0]

/-- The value of a decimal digit of any script. -/
def digitValue? (c : Char) : Option Nat :=
  (digitZeros.find? fun first => first ≤ c.toNat && c.toNat < first + 10).map (c.toNat - ·)

def isDecimalDigit (c : Char) : Bool := (digitValue? c).isSome

example : digitZeros.length = 66 := rfl

namespace Numeral

/-- A numeral with more digits than this is not read. -/
def maxDigits : Nat := 4300

/-- The values of digits. An underscore may stand between two of them, but not next to another underscore and not at
the end. -/
def digits? : List Char → Option (List Nat)
  | [] => none
  | [c] => (digitValue? c).map ([·])
  | c :: '_' :: rest => do return (← digitValue? c) :: (← digits? rest)
  | c :: rest => do return (← digitValue? c) :: (← digits? rest)

def natural? (chars : List Char) : Option Nat := do
  let digits ← digits? chars
  if digits.length ≤ maxDigits then some (digits.foldl (fun value digit => 10 * value + digit) 0) else none

/-- White space may stand around a numeral, but not the ASCII separators. -/
def isMargin (c : Char) : Bool := isSpace c && !(0x1C ≤ c.toNat && c.toNat ≤ 0x1F)

/-- The integer that a numeral denotes. -/
def integer? (text : String) : Option Int :=
  match trimmed isMargin text.toList with
  | '+' :: rest => (natural? rest).map Int.ofNat
  | '-' :: rest => (natural? rest).map fun value => -Int.ofNat value
  | chars => (natural? chars).map Int.ofNat

end Numeral

end Treewalk
