import Treewalk.Text.Hexadecimal
import Treewalk.Text.Printable

/-! Quoting text on one line. Single quotes stand around it, or double quotes if only single ones occur inside. A
backslash and the quote in use are written with a backslash before them, line feed, carriage return and tab by their
letters, and any other character that is not to be shown as it is by its code point. -/

namespace Treewalk

def quoteMark (text : String) : Char :=
  if text.toList.contains '\'' && !text.toList.contains '"' then '"' else '\''

/-- A character by its code point, in the shortest of three widths. -/
def codePointEscape (c : Char) : String :=
  if c.toNat < 0x100 then "\\x" ++ hexadecimal 2 c.toNat
  else if c.toNat < 0x10000 then "\\u" ++ hexadecimal 4 c.toNat
  else "\\U" ++ hexadecimal 8 c.toNat

def escapeChar (shows : Char → Bool) (mark c : Char) : String :=
  if c == mark || c == '\\' then "\\" ++ c.toString
  else if c == '\n' then "\\n"
  else if c == '\r' then "\\r"
  else if c == '\t' then "\\t"
  else if shows c then c.toString
  else codePointEscape c

/-- A text between quotes. `shows` says which characters are shown as they are. -/
def quoteShowing (shows : Char → Bool) (text : String) : String :=
  let mark := quoteMark text
  mark.toString ++ String.join (text.toList.map (escapeChar shows mark)) ++ mark.toString

def quote (text : String) : String := quoteShowing isPrintable text

/-- A text between quotes in ASCII alone. -/
def quoteAscii (text : String) : String := quoteShowing (fun c => isPrintable c && c.toNat < 0x80) text

end Treewalk
