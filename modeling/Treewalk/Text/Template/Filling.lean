import Treewalk.Text.Quoted
import Treewalk.Text.Template

/-! Filling templates. A field is replaced by an argument, which it names by its number or, if its name is empty, takes
next in order. The argument is converted and laid out as the field says. Arguments that are left over are ignored. -/

namespace Treewalk

namespace Template

inductive Argument where
  | text (value : String)
  | integer (value : Int)
  | boolean (value : Bool)
  | absent
  deriving DecidableEq, Repr, Inhabited

namespace Argument

/-- What messages call the kind of an argument. -/
def kind : Argument → String
  | .text _ => "str"
  | .integer _ => "int"
  | .boolean _ => "bool"
  | .absent => "NoneType"

/-- An argument as it is shown without a layout. -/
def shown : Argument → String
  | .text value => value
  | .integer value => toString value
  | .boolean value => if value then "True" else "False"
  | .absent => "None"

/-- An argument as it is written down: texts are quoted. -/
def written : Argument → String
  | .text value => quote value
  | argument => argument.shown

end Argument

/-- How the fields of a template name their arguments. All of them do so in the same way. -/
inductive Numbering where
  | undecided
  | automatic (next : Nat)
  | manual
  deriving DecidableEq, Repr, Inhabited

abbrev Filling := StateT Numbering (Except TemplateFault)

/-- The number that some characters make up. Too many digits are refused even if other characters follow. -/
def number? (chars : List Char) : Except TemplateFault (Option Nat) := do
  let (value?, rest) ← (Layout.numberAhead chars).mapError .layout
  return if rest.isEmpty then value? else none

/-- The number of the argument that comes next in order. -/
def nextNumber : Filling Nat := do
  match ← get with
  | .undecided =>
    set (Numbering.automatic 1)
    return 0
  | .automatic next =>
    set (Numbering.automatic (next + 1))
    return next
  | .manual => throw .manualThenAutomatic

/-- Takes note of an argument that is named by its number. -/
def useNumber : Filling Unit := do
  match ← get with
  | .automatic _ => throw .automaticThenManual
  | _ => set Numbering.manual

/-- The argument that the front of a name stands for. -/
def argument (arguments : List Argument) (name : List Char) : Filling Argument := do
  let index ← match ← number? name with
    | some index =>
      useNumber
      pure index
    | none => if name.isEmpty then nextNumber else throw (.named (String.ofList name))
  match arguments[index]? with
  | some argument => return argument
  | none => throw (.missingArgument index)

def opensAccess (c : Char) : Bool := c == '.' || c == '['

/-- The part of an argument under a subscript. Only texts have parts, which are their characters. -/
def part (argument : Argument) (subscript : List Char) : Except TemplateFault Argument := do
  let index? ← number? subscript
  if subscript.isEmpty then throw .emptyAccess
  match argument, index? with
  | .text value, some index =>
    match value.toList[index]? with
    | some c => return .text c.toString
    | none => throw .missingCharacter
  | .text _, none => throw .subscriptNotNumber
  | other, _ => throw (.noParts other.kind)

/-- What follows a point in a name asks for an attribute, but arguments have none. -/
def attributeFault (argument : Argument) (chars : List Char) : TemplateFault :=
  let name := chars.takeWhile fun c => !opensAccess c
  if name.isEmpty then .emptyAccess else .attribute argument.kind (String.ofList name)

/-- Follows the accesses behind the front of a name. `subscript?` is what was read of a subscript so far, in reverse. -/
def access (argument : Argument) (subscript? : Option (List Char)) : List Char → Except TemplateFault Argument
  | [] => if subscript?.isNone then .ok argument else .error .unclosedField
  | c :: rest =>
    match subscript? with
    | some subscript =>
      if c = ']' then do access (← part argument subscript.reverse) none rest
      else access argument (some (c :: subscript)) rest
    | none =>
      if c = '[' then access argument (some []) rest
      else if c = '.' then .error (attributeFault argument rest)
      else .error .afterSubscript

def convert (argument : Argument) : (conversion? : Option Char) → Except TemplateFault Argument
  | none => .ok argument
  | some 's' => .ok (.text argument.shown)
  | some 'r' => .ok (.text argument.written)
  | some 'a' =>
    match argument with
    | .text value => .ok (.text (quoteAscii value))
    | other => .ok (.text other.shown)
  | some letter => .error (.unknownConversion letter)

/-- Lays out an argument. An empty layout shows it as it is. -/
def layOut (argument : Argument) (layout : List Char) : Except TemplateFault String :=
  if layout.isEmpty then .ok argument.shown
  else
    match argument with
    | .text value => (Layout.text layout value).mapError .layout
    | .integer value => (Layout.integer layout argument.kind value).mapError .layout
    | .boolean value => (Layout.integer layout argument.kind (if value then 1 else 0)).mapError .layout
    | .absent => .error (.layoutRefused argument.kind)

/-- Fills a field. `expand` fills the fields of its layout. -/
def fillField (expand : List Char → Filling String) (arguments : List Argument) (field : Field) : Filling String := do
  let front := field.name.takeWhile fun c => !opensAccess c
  let found ← argument arguments front
  let wanted ← access found none (field.name.drop front.length)
  let converted ← convert wanted field.conversion?
  let layout ← if field.layout.contains '{' then (·.toList) <$> expand field.layout else pure field.layout
  layOut converted layout

def fillPieces (expand : List Char → Filling String) (arguments : List Argument) : List Piece → Filling String
  | [] => return ""
  | .char c :: rest => return c.toString ++ (← fillPieces expand arguments rest)
  | .field field :: rest => do
    let filled ← fillField expand arguments field
    return filled ++ (← fillPieces expand arguments rest)
  | .fault fault :: _ => throw fault

/-- Fills a template and, up to a number of levels, the layouts in it. -/
def fillLevels (arguments : List Argument) : (levels : Nat) → List Char → Filling String
  | 0, _ => throw .nestedTooDeep
  | levels + 1, template => fillPieces (fillLevels arguments levels) arguments (pieces .outside template)

/-- A template with its fields filled. Layouts may hold fields, but not these in turn. -/
def fill (template : String) (arguments : List Argument) : Except TemplateFault String :=
  (·.1) <$> (fillLevels arguments 2 template.toList).run .undecided

example : (fill "\x7b\x7d, \x7b:>3\x7d" [.text "a", .integer 2]).toOption = some "a,   2" := by decide +kernel

example : (fill "\x7b0!r:_^7\x7d" [.text "a"]).toOption = some "__'a'__" := by decide +kernel

end Template

end Treewalk
