import Treewalk.CallLimit
import Treewalk.Text.Numeral

/-! The command line. It takes one file and three options; a long option may be shortened as long as it stays
unambiguous, and its value may follow behind an equals sign. What each argument can be is decided before any of them is
obeyed; then they are obeyed from left to right, and arguments that nothing asks for are only refused at the end. -/

namespace Treewalk

structure Options where
  file? : Option String
  /-- The most calls at a time. It may have been left unstated. -/
  limit? : Option Int
  showsTree : Bool
  deriving DecidableEq, Repr, Inhabited

/-- What a command line asks for. -/
inductive Command where
  | help
  | misuse
  | run (options : Options)
  deriving DecidableEq, Repr, Inhabited

namespace Options

/-- What is done without any arguments. -/
def initial : Options := ⟨none, some defaultCallLimit, false⟩

def usage : String :=
  "usage: bananascript [-h] [--max-depth MAX_DEPTH] [--ast] [file]\n\n"
    ++ "positional arguments:\n"
    ++ "  file                  file to interpret and run (if empty, goes to command-\n"
    ++ "                        line mode)\n\n"
    ++ "options:\n"
    ++ "  -h, --help            show this help message and exit\n"
    ++ "  --max-depth MAX_DEPTH\n"
    ++ "                        maximum nested function calls before evaluation fails\n"
    ++ "                        (default 500)\n"
    ++ "  --ast                 print the parsed tree instead of evaluating it\n"

/-- The argument behind which everything is plain. -/
def doubleDash : String := "--"

/-- What one argument can be. -/
inductive Argument where
  | plain (text : String)
  | separator
  | help
  | tree
  | limit (value? : Option String)
  /-- An option with a value that it does not take. -/
  | misused
  | unknown
  deriving DecidableEq, Repr, Inhabited

/-- Whether the characters behind a dash make the argument a negative number. A line feed at the end is not
regarded. -/
def isNumber (chars : List Char) : Bool :=
  let body := if chars.getLast? = some '\n' then chars.dropLast else chars
  let whole := body.takeWhile isDecimalDigit
  match body.dropWhile isDecimalDigit with
  | [] => !whole.isEmpty
  | '.' :: fraction => !fraction.isEmpty && fraction.all isDecimalDigit
  | _ => false

/-- An argument that starts with a dash and is no option. It is taken for a plain one if it looks like a number or
holds a space. -/
def Argument.ofStranger (text : String) : Argument :=
  if isNumber text.toList.tail || text.toList.contains ' ' then .plain text else .unknown

/-- What an argument is that starts with the short option for help. Only repetitions of its letter may follow, either
at once or, if there are any, behind an equals sign. -/
def Argument.ofHelpTail (tail : List Char) : Argument :=
  let repetitions := if tail.head? = some '=' ∧ tail.length ≠ 1 then tail.tail else tail
  if repetitions.all (· == 'h') then .help else .misused

/-- The long options, without their dashes, and what they are with and without a value. -/
def longOptions : List (String × (Option String → Argument)) :=
  [("help", fun value? => if value?.isSome then .misused else .help),
   ("max-depth", .limit),
   ("ast", fun value? => if value?.isSome then .misused else .tree)]

/-- The characters behind the first equals sign. -/
def valueOf? (chars : List Char) : Option String :=
  match chars.dropWhile (· != '=') with
  | [] => none
  | _ :: value => some (String.ofList value)

/-- What an argument that is not just two dashes can be. There is no answer if it is short for several options. -/
def Argument.ofText? (text : String) : Option Argument :=
  match text.toList with
  | '-' :: '-' :: chars =>
    match longOptions.filter fun option => (chars.takeWhile (· != '=')).isPrefixOf option.1.toList with
    | [] => some (.ofStranger text)
    | [option] => some (option.2 (valueOf? chars))
    | _ => none
  | '-' :: 'h' :: tail => some (.ofHelpTail tail)
  | '-' :: _ :: _ => some (.ofStranger text)
  | _ => some (.plain text)

def Argument.ofTexts? : List String → Option (List Argument)
  | [] => some []
  | text :: texts =>
    if text = doubleDash then some (.separator :: texts.map .plain)
    else do return (← Argument.ofText? text) :: (← Argument.ofTexts? texts)

/-- The limit that a text states, if it is one that may stand for a limit at all. A separator given for a limit leaves
it unstated. -/
def limitOf? (text : String) : Option (Option Int) :=
  if text = doubleDash then some none else (Numeral.integer? text).map some

/-- Obeys arguments from left to right. The first plain one is the file; the separator next to it belongs to it.
`surplus` says whether there was an argument that nothing asks for. -/
def obey (options : Options) (surplus : Bool) : List Argument → Command
  | [] => if surplus then .misuse else .run options
  | .help :: _ => .help
  | .misused :: _ => .misuse
  | .unknown :: rest => obey options true rest
  | .tree :: rest => obey { options with showsTree := true } surplus rest
  | .limit (some text) :: rest | .limit none :: .plain text :: rest =>
    match limitOf? text with
    | some limit? => obey { options with limit? } surplus rest
    | none => .misuse
  | .limit none :: _ => .misuse
  | .separator :: rest => if options.file?.isNone then obey options surplus rest else .misuse
  | .plain text :: .separator :: rest =>
    if options.file?.isNone then obey { options with file? := some text } surplus rest else .misuse
  | .plain text :: rest =>
    if options.file?.isNone then obey { options with file? := some text } surplus rest else obey options true rest

end Options

def Command.ofArguments (arguments : List String) : Command :=
  match Options.Argument.ofTexts? arguments with
  | none => .misuse
  | some classified => Options.initial.obey false classified

end Treewalk
