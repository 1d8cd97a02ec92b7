import Treewalk.Text.Hexadecimal

/-! Reading UTF-8. Text is refused at the first byte that cannot be part of a code point at its place: overlong forms,
surrogates and code points past the last one are no code points. A fault names the bytes that belong together up to
there. -/

namespace Treewalk.Utf8

inductive Reason where
  | invalidStart | invalidContinuation | unexpectedEnd
  deriving DecidableEq, Repr, Inhabited

def Reason.text : Reason → String
  | .invalidStart => "invalid start byte"
  | .invalidContinuation => "invalid continuation byte"
  | .unexpectedEnd => "unexpected end of data"

/-- The bytes that are no code point: the position of the first, the first itself, and how many there are. -/
structure Fault where
  position : Nat
  first : UInt8
  count : Nat
  reason : Reason
  deriving DecidableEq, Repr, Inhabited

def Fault.message (fault : Fault) : String :=
  let place :=
    if fault.count ≤ 1 then
      "byte 0x" ++ hexadecimal 2 fault.first.toNat ++ " in position " ++ toString fault.position
    else
      "bytes in position " ++ toString fault.position ++ "-" ++ toString (fault.position + fault.count - 1)
  "'utf-8' codec can't decode " ++ place ++ ": " ++ fault.reason.text

/-- How many bytes follow the first one of a code point, if it is a first one. -/
def following? (first : UInt8) : Option Nat :=
  if first < 0x80 then some 0
  else if first < 0xC2 then none
  else if first < 0xE0 then some 1
  else if first < 0xF0 then some 2
  else if first < 0xF5 then some 3
  else none

def isContinuation (byte : UInt8) : Bool := 0x80 ≤ byte && byte < 0xC0

/-- Whether a byte can be the second one behind a first one. -/
def allowsSecond (first second : UInt8) : Bool :=
  isContinuation second && (first != 0xE0 || 0xA0 ≤ second) && (first != 0xED || second < 0xA0)
    && (first != 0xF0 || 0x90 ≤ second) && (first != 0xF4 || second < 0x90)

/-- The bytes behind the first one that can belong to its code point. -/
def fitting (first : UInt8) : List UInt8 → List UInt8
  | [] => []
  | second :: rest => if allowsSecond first second then second :: rest.takeWhile isContinuation else []

/-- What the low bits of a first byte stand for. The more bytes follow, the fewer of its bits belong to the code
point. -/
def leadingBits (first : UInt8) (following : Nat) : Nat :=
  match following with
  | 0 => first.toNat
  | 1 => first.toNat % 32
  | 2 => first.toNat % 16
  | _ => first.toNat % 8

/-- The code point of a first byte and the bytes that follow it. -/
def codePoint (first : UInt8) (others : List UInt8) : Nat :=
  others.foldl (fun code byte => 64 * code + byte.toNat % 64) (leadingBits first others.length)

def decodeFrom (position : Nat) (bytes : List UInt8) : Except Fault (List Char) :=
  match bytes with
  | [] => .ok []
  | first :: rest =>
    match following? first with
    | none => .error ⟨position, first, 1, .invalidStart⟩
    | some count =>
      let others := fitting first (rest.take count)
      if others.length = count then
        (decodeFrom (position + 1 + count) (rest.drop count)).map (Char.ofNat (codePoint first others) :: ·)
      else if others.length = rest.length then .error ⟨position, first, 1 + others.length, .unexpectedEnd⟩
      else .error ⟨position, first, 1 + others.length, .invalidContinuation⟩
termination_by bytes.length
decreasing_by
  simp only [List.length_drop, List.length_cons]
  omega

/-- The characters that bytes stand for. -/
def decode (bytes : List UInt8) : Except Fault (List Char) := decodeFrom 0 bytes

/-- Makes every line break a line feed, whether it is written with a carriage return, with both, or with a line
feed. -/
def unifyLineBreaks : List Char → List Char
  | [] => []
  | '\r' :: '\n' :: rest => '\n' :: unifyLineBreaks rest
  | '\r' :: rest => '\n' :: unifyLineBreaks rest
  | c :: rest => c :: unifyLineBreaks rest

/-- The text of a file. -/
def readText (bytes : List UInt8) : Except Fault String :=
  (decode bytes).map fun chars => String.ofList (unifyLineBreaks chars)

end Treewalk.Utf8
