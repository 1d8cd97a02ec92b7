/-! Numbers in hexadecimal, with the digits from ten on as small letters. -/

namespace Treewalk

/-- A number in hexadecimal, padded with zeros to a width. -/
def hexadecimal (width value : Nat) : String :=
  let digits := Nat.toDigits 16 value
  String.ofList (List.replicate (width - digits.length) '0' ++ digits)

end Treewalk
