import Treewalk.Text.Hexadecimal
import Treewalk.Text.Numeral

/-! Layouts: how much room a value takes and where in it the value stands. A layout is written as a sequence of parts,
each of which may be missing: an alignment with or without a fill character in front, a sign, `z`, `#`, `0`, a width, a
separator of thousands, a precision behind a point, and the letter of a type. Texts and integers make no use of some of
them and refuse those. -/

namespace Treewalk

inductive Alignment where
  | left | right | centre
  /-- Between the sign and the digits of a number. -/
  | afterSign
  deriving DecidableEq, Repr, Inhabited

def Alignment.ofChar? : Char → Option Alignment
  | '<' => some .left
  | '>' => some .right
  | '^' => some .centre
  | '=' => some .afterSign
  | _ => none

/-- What can be wrong with a layout. Some faults depend on the kind of value that is laid out. -/
inductive LayoutFault where
  | tooManyDigits
  | bothSeparators
  | noPrecision
  | leftOver (layout kind : String)
  | separatorWith (separator type : Char)
  | unknownType (type : Char) (kind : String)
  | signOfText (sign : Char)
  | zeroOfText
  | alternateText
  | alignmentOfText
  | precisionOfInteger
  | outOfMemory
  deriving DecidableEq, Repr, Inhabited

namespace LayoutFault

/-- The letter of a type as a message shows it: by its code point unless it is visible ASCII. -/
def typeText (type : Char) : String :=
  if 32 < type.toNat && type.toNat < 128 then type.toString else "\\x" ++ hexadecimal 1 type.toNat

def message : LayoutFault → String
  | .tooManyDigits => "Too many decimal digits in format string"
  | .bothSeparators => "Cannot specify both ',' and '_'."
  | .noPrecision => "Format specifier missing precision"
  | .leftOver layout kind => "Invalid format specifier '" ++ layout ++ "' for object of type '" ++ kind ++ "'"
  | .separatorWith separator type =>
    "Cannot specify '" ++ separator.toString ++ "' with '" ++ typeText type ++ "'."
  | .unknownType type kind => "Unknown format code '" ++ typeText type ++ "' for object of type '" ++ kind ++ "'"
  | .signOfText ' ' => "Space not allowed in string format specifier"
  | .signOfText _ => "Sign not allowed in string format specifier"
  | .zeroOfText => "Negative zero coercion (z) not allowed in string format specifier"
  | .alternateText => "Alternate form (#) not allowed in string format specifier"
  | .alignmentOfText => "'=' alignment not allowed in string format specifier"
  | .precisionOfInteger => "Precision not allowed in integer format specifier"
  | .outOfMemory => ""

end LayoutFault

structure Layout where
  fill? : Option Char
  alignment? : Option Alignment
  sign? : Option Char
  /-- Whether a negative zero loses its sign. -/
  unsignsZero : Bool
  alternate : Bool
  /-- Whether a zero stands before the width. -/
  zeros : Bool
  width : Nat
  separator? : Option Char
  precision? : Option Nat
  type? : Option Char
  deriving DecidableEq, Repr, Inhabited

namespace Layout

/-- The largest number that is read in a layout. -/
def maxNumber : Nat := 9223372036854775807

/-- More padding than this does not fit in memory. -/
def maxPadding : Nat := 1000000000

/-- The number at the front of a text, if there is one, and what follows it. -/
def numberAhead (chars : List Char) : Except LayoutFault (Option Nat × List Char) :=
  let digits := chars.takeWhile isDecimalDigit
  let value := (digits.filterMap digitValue?).foldl (fun value digit => 10 * value + digit) 0
  if maxNumber < value then .error .tooManyDigits
  else .ok (if digits.isEmpty then none else some value, chars.dropWhile isDecimalDigit)

/-- A fill character and an alignment at the front of a text, and what follows them. -/
def alignmentAhead : List Char → (Option Char × Option Alignment) × List Char
  | first :: second :: rest =>
    match Alignment.ofChar? second, Alignment.ofChar? first with
    | some alignment, _ => ((some first, some alignment), rest)
    | none, some alignment => ((none, some alignment), second :: rest)
    | none, none => ((none, none), first :: second :: rest)
  | [first] =>
    match Alignment.ofChar? first with
    | some alignment => ((none, some alignment), [])
    | none => ((none, none), [first])
  | [] => ((none, none), [])

/-- One of some characters at the front of a text, if there is one, and what follows it. -/
def oneAhead (choices : List Char) : List Char → Option Char × List Char
  | c :: rest => if choices.contains c then (some c, rest) else (none, c :: rest)
  | [] => (none, [])

def separatorAhead (chars : List Char) : Except LayoutFault (Option Char × List Char) :=
  match oneAhead [',', '_'] chars with
  | (some ',', '_' :: _) | (some '_', ',' :: _) => .error .bothSeparators
  | found => .ok found

def precisionAhead : List Char → Except LayoutFault (Option Nat × List Char)
  | '.' :: rest => do
    match ← numberAhead rest with
    | (none, _) => .error .noPrecision
    | found => .ok found
  | chars => .ok (none, chars)

/-- The types whose digits can be separated. -/
def separatedTypes : Option Char → List Char
  | some '_' => ['d', 'e', 'f', 'g', 'E', 'F', 'G', '%', 'b', 'o', 'x', 'X']
  | _ => ['d', 'e', 'f', 'g', 'E', 'F', 'G', '%']

/-- Refuses a separator for a type without thousands. -/
def checkSeparator (separator? : Option Char) (type : Char) : Except LayoutFault Unit :=
  match separator? with
  | none => .ok ()
  | some separator =>
    if (separatedTypes separator?).contains type then .ok () else .error (.separatorWith separator type)

/-- Reads the layout of a value of some kind, whose type is taken to be `type` where none is given. -/
def read (kind : String) (type : Char) (chars : List Char) : Except LayoutFault Layout := do
  let ((fill?, alignment?), rest) := alignmentAhead chars
  let (sign?, rest) := oneAhead ['+', '-', ' '] rest
  let (coercion?, rest) := oneAhead ['z'] rest
  let (alternate?, rest) := oneAhead ['#'] rest
  let (zero?, rest) := if fill?.isSome then (none, rest) else oneAhead ['0'] rest
  let (width?, rest) ← numberAhead rest
  let (separator?, rest) ← separatorAhead rest
  let (precision?, rest) ← precisionAhead rest
  match rest with
  | _ :: _ :: _ => throw (.leftOver (String.ofList chars) kind)
  | _ =>
    checkSeparator separator? (rest.head?.getD type)
    return ⟨fill?, alignment?, sign?, coercion?.isSome, alternate?.isSome, zero?.isSome, width?.getD 0, separator?,
      precision?, rest.head?⟩

/-- The character that fills the room. -/
def fill (layout : Layout) : Char := layout.fill?.getD (if layout.zeros then '0' else ' ')

def padding (layout : Layout) (length : Nat) : String := String.ofList (List.replicate length layout.fill)

/-- Puts a sign and what follows it into the room. What is spare in it goes behind, in front, on both sides with the
smaller half in front, or in between. -/
def place (layout : Layout) (alignment : Alignment) (sign body : String) : Except LayoutFault String :=
  let spare := layout.width - (sign.length + body.length)
  if maxPadding < spare then .error .outOfMemory
  else
    .ok <| match alignment with
      | .left => sign ++ body ++ layout.padding spare
      | .right => layout.padding spare ++ sign ++ body
      | .centre => layout.padding (spare / 2) ++ sign ++ body ++ layout.padding (spare - spare / 2)
      | .afterSign => sign ++ layout.padding spare ++ body

/-- Refuses whatever a text makes no use of. -/
def checkText (layout : Layout) : Except LayoutFault Unit := do
  if let some type := layout.type? then
    if type ≠ 's' then throw (.unknownType type "str")
  if let some sign := layout.sign? then throw (.signOfText sign)
  if layout.unsignsZero then throw .zeroOfText
  if layout.alternate then throw .alternateText
  if layout.alignment? = some .afterSign then throw .alignmentOfText

/-- Lays out a text. It stands at the left unless the layout says otherwise, and the precision is the most that is shown
of it. -/
def text (chars : List Char) (value : String) : Except LayoutFault String := do
  let layout ← read "str" 's' chars
  layout.checkText
  let shown := match layout.precision? with
    | none => value
    | some precision => String.ofList (value.toList.take precision)
  layout.place (layout.alignment?.getD .left) "" shown

/-- Refuses whatever an integer makes no use of. -/
def checkInteger (layout : Layout) (kind : String) : Except LayoutFault Unit := do
  if let some type := layout.type? then
    if type ≠ 'd' then throw (.unknownType type kind)
  if layout.precision?.isSome then throw .precisionOfInteger

/-- Lays out an integer of some kind. It stands at the right unless the layout says otherwise, but zeros in front of the
width go between its sign and its digits. -/
def integer (chars : List Char) (kind : String) (value : Int) : Except LayoutFault String := do
  let layout ← read kind 'd' chars
  layout.checkInteger kind
  let sign := if value < 0 then "-" else ""
  layout.place (layout.alignment?.getD (if layout.zeros then .afterSign else .right)) sign (toString value.natAbs)

end Layout

end Treewalk
