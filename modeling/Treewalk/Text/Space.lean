/-! White space, as Unicode defines it, together with the four ASCII separators that delimit files, groups, records
and units. Zero-width characters and the byte order mark do not belong to it. -/

namespace Treewalk

def isSpace (c : Char) : Bool :=
  let code := c.toNat
  (0x09 ≤ code && code ≤ 0x0D) || (0x1C ≤ code && code ≤ 0x20) || code == 0x85 || code == 0xA0 || code == 0x1680
    || (0x2000 ≤ code && code ≤ 0x200A) || code == 0x2028 || code == 0x2029 || code == 0x202F || code == 0x205F
    || code == 0x3000

/-- Takes away the characters on both ends that satisfy a test. -/
def trimmed (test : Char → Bool) (chars : List Char) : List Char :=
  ((chars.dropWhile test).reverse.dropWhile test).reverse

/-- A text without the white space around it. -/
def strip (text : String) : String := String.ofList (trimmed isSpace text.toList)

end Treewalk
