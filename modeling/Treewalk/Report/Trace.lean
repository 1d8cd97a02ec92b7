import Treewalk.Text.Space

/-! Which source is being worked on. A trace lists paths in the order in which they were first entered, and with each
of them the unit that is current there, a piece of its source with a number. Entering a path again does not move
it. -/

namespace Treewalk

/-- A piece of source and its number. Where no unit is current, there is no text. -/
structure SourceUnit where
  text? : Option String
  number? : Option Int
  deriving DecidableEq, Repr, Inhabited

namespace SourceUnit

/-- The unit of a path on which nothing is current. -/
def absent : SourceUnit := ⟨none, none⟩

def numberText (unit : SourceUnit) : String :=
  match unit.number? with
  | none => "None"
  | .some number => toString number

end SourceUnit

abbrev Trace := List (String × SourceUnit)

namespace Trace

/-- Makes a unit the current one of a path. -/
def enter (path : String) (unit : SourceUnit) : Trace → Trace
  | [] => [(path, unit)]
  | (other, old) :: rest => if other = path then (other, unit) :: rest else (other, old) :: enter path unit rest

/-- The trace with no unit current anywhere. -/
def cleared (trace : Trace) : Trace := trace.map fun (path, _) => (path, .absent)

/-- Where a message belongs that is not about a particular unit: to the last path, and to its unit if one is
current. -/
def location (trace : Trace) : String :=
  match trace.getLast? with
  | none => ""
  | some (path, unit) => if unit.text?.isSome then path ++ ":" ++ unit.numberText ++ ": " else path ++ ": "

def entryText : String × SourceUnit → String
  | (path, unit) =>
    match unit.text? with
    | none => ""
    | some text => "  File '" ++ path ++ "', line " ++ unit.numberText ++ ":\n    " ++ strip text ++ "\n"

/-- The current units, each under its path and number. Nothing at all is written when there are none. -/
def summary (trace : Trace) : String :=
  if trace.any fun entry => entry.2.text?.isSome then "Traceback:\n" ++ String.join (trace.map entryText) else ""

end Trace

end Treewalk
