import Treewalk.Text.Layout
import Treewalk.Text.Quoted

/-! Message templates. A field between braces has a name; subscripts behind it pick a part of what it names, a
conversion stands behind an exclamation mark and a layout behind a colon, which may hold fields of its own. A doubled
brace stands for itself. A template is read from left to right, and the first thing wrong with it counts. -/

namespace Treewalk

inductive TemplateFault where
  | looseOpening
  | looseClosing
  | openingInName
  | unclosedField
  | noConversion
  | noColon
  | unclosedLayout
  /-- There is no argument of this number. -/
  | missingArgument (index : Nat)
  /-- Arguments have no names. -/
  | named (name : String)
  | manualThenAutomatic
  | automaticThenManual
  | emptyAccess
  | afterSubscript
  | attribute (kind name : String)
  | missingCharacter
  | subscriptNotNumber
  | noParts (kind : String)
  | unknownConversion (letter : Char)
  | nestedTooDeep
  | layoutRefused (kind : String)
  | layout (fault : LayoutFault)
  deriving DecidableEq, Repr, Inhabited

/-- The letter of a conversion as a message shows it: by its code point unless it is visible ASCII. -/
def conversionText (letter : Char) : String :=
  if 32 < letter.toNat && letter.toNat < 127 then letter.toString else "\\x" ++ hexadecimal 1 letter.toNat

def TemplateFault.message : TemplateFault → String
  | .looseOpening => "Single '\x7b' encountered in format string"
  | .looseClosing => "Single '\x7d' encountered in format string"
  | .openingInName => "unexpected '\x7b' in field name"
  | .unclosedField => "expected '\x7d' before end of string"
  | .noConversion => "end of string while looking for conversion specifier"
  | .noColon => "expected ':' after conversion specifier"
  | .unclosedLayout => "unmatched '\x7b' in format spec"
  | .missingArgument index =>
    "Replacement index " ++ toString index ++ " out of range for positional args tuple"
  | .named name => quote name
  | .manualThenAutomatic => "cannot switch from manual field specification to automatic field numbering"
  | .automaticThenManual => "cannot switch from automatic field numbering to manual field specification"
  | .emptyAccess => "Empty attribute in format string"
  | .afterSubscript => "Only '.' or '[' may follow ']' in format field specifier"
  | .attribute kind name => "'" ++ kind ++ "' object has no attribute '" ++ name ++ "'"
  | .missingCharacter => "string index out of range"
  | .subscriptNotNumber => "string indices must be integers, not 'str'"
  | .noParts kind => "'" ++ kind ++ "' object is not subscriptable"
  | .unknownConversion letter => "Unknown conversion specifier " ++ conversionText letter
  | .nestedTooDeep => "Max string recursion exceeded"
  | .layoutRefused kind => "unsupported format string passed to " ++ kind ++ ".__format__"
  | .layout fault => fault.message

namespace Template

/-- What stands between the braces. The conversion and the layout may be missing. -/
structure Field where
  name : List Char
  conversion? : Option Char
  layout : List Char
  deriving DecidableEq, Repr, Inhabited

inductive Piece where
  | char (c : Char)
  | field (field : Field)
  | fault (fault : TemplateFault)
  deriving DecidableEq, Repr, Inhabited

/-- Where in a template its reader is. What was read of a name or a layout so far is held in reverse. -/
inductive Position where
  | outside
  | behindOpening
  | behindClosing
  | inName (name : List Char)
  | inSubscript (name : List Char)
  | atConversion (name : List Char)
  | behindConversion (name : List Char) (letter : Char)
  /-- Inside a layout, with a number of braces open around it. -/
  | inLayout (name : List Char) (conversion? : Option Char) (braces : Nat) (layout : List Char)
  deriving DecidableEq, Repr, Inhabited

namespace Position

def fieldOf (name : List Char) (conversion? : Option Char) (layout : List Char) : Piece :=
  .field ⟨name.reverse, conversion?, layout.reverse⟩

/-- Reads a character of a name. A closing bracket is needed before anything else can end the name. -/
def stepName (name : List Char) : Char → Position × List Piece
  | '{' => (.outside, [.fault .openingInName])
  | '}' => (.outside, [fieldOf name none []])
  | ':' => (.inLayout name none 1 [], [])
  | '!' => (.atConversion name, [])
  | '[' => (.inSubscript ('[' :: name), [])
  | c => (.inName (c :: name), [])

/-- Reads a character of a layout, which ends with the brace that closes its field. -/
def stepLayout (name : List Char) (conversion? : Option Char) (braces : Nat) (layout : List Char) :
    Char → Position × List Piece
  | '{' => (.inLayout name conversion? (braces + 1) ('{' :: layout), [])
  | '}' =>
    if braces = 1 then (.outside, [fieldOf name conversion? layout])
    else (.inLayout name conversion? (braces - 1) ('}' :: layout), [])
  | c => (.inLayout name conversion? braces (c :: layout), [])

/-- Reads a character: where the reader is then, and which pieces are complete with it. -/
def step : Position → Char → Position × List Piece
  | .outside, '{' => (.behindOpening, [])
  | .outside, '}' => (.behindClosing, [])
  | .outside, c => (.outside, [.char c])
  | .behindOpening, '{' => (.outside, [.char '{'])
  | .behindOpening, c => stepName [] c
  | .behindClosing, '}' => (.outside, [.char '}'])
  | .behindClosing, _ => (.outside, [.fault .looseClosing])
  | .inName name, c => stepName name c
  | .inSubscript name, ']' => (.inName (']' :: name), [])
  | .inSubscript name, c => (.inSubscript (c :: name), [])
  | .atConversion name, c => (.behindConversion name c, [])
  | .behindConversion name letter, '}' => (.outside, [fieldOf name (some letter) []])
  | .behindConversion name letter, ':' => (.inLayout name (some letter) 1 [], [])
  | .behindConversion _ _, _ => (.outside, [.fault .noColon])
  | .inLayout name conversion? braces layout, c => stepLayout name conversion? braces layout c

/-- What it means for a template to end here. -/
def finish : Position → List Piece
  | .outside => []
  | .behindOpening => [.fault .looseOpening]
  | .behindClosing => [.fault .looseClosing]
  | .inName _ | .inSubscript _ => [.fault .unclosedField]
  | .atConversion _ => [.fault .noConversion]
  | .behindConversion _ _ | .inLayout _ _ _ _ => [.fault .unclosedLayout]

end Position

/-- The pieces of a template from some position on. Nothing counts that comes behind a fault. -/
def pieces (position : Position) : List Char → List Piece
  | [] => position.finish
  | c :: rest => (position.step c).2 ++ pieces (position.step c).1 rest

end Template

end Treewalk
