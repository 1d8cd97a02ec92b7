import Treewalk.CommandLine.Options
import Treewalk.Shell

/-! A whole run of the program: on a file, which ends with the first complaint, or as a shell, which outlives all of
them. -/

namespace Treewalk

/-- Runs the file of a session and prints its value unless that is null, or prints its tree instead. -/
def Session.runFile (showsTree : Bool) (contents? : Option (List UInt8)) : Action Session Unit := do
  start false contents?
  if showsTree then
    let outlines ← display
    onConsole (·.printLine [.plain outlines])
  else
    run
    match (← get).results.getLast? with
    | none | some .null => return ()
    | some _ => printResult

namespace Shell

/-- A shell at a prompt, before its first line. -/
def opening (host : Host) (limit? : Option Int) : Shell :=
  .initial ((Session.start true none) (.initial host (.initial true) Session.promptPath limit?)).2

/-- Lets the console decide what becomes of the outcome of some work. -/
def settle (outcome : Except Failure Unit) : Action Shell Unit := onSession (Session.settle outcome)

end Shell

namespace CommandLine

/-- The lines of a text. A line feed at its end does not start another line. -/
def linesFrom (line : List Char) : List Char → List String
  | [] => if line.isEmpty then [] else [String.ofList line.reverse]
  | '\n' :: rest => String.ofList line.reverse :: linesFrom [] rest
  | c :: rest => linesFrom (c :: line) rest

/-- The lines of what is typed in, whatever breaks them. -/
def inputLines (input : String) : List String := linesFrom [] (Utf8.unifyLineBreaks input.toList)

/-- Runs a file: how that ended, and what was printed. -/
def runFile (host : Host) (options : Options) (path : String) (contents? : Option (List UInt8)) :
    Except Failure Unit × StyledText :=
  let (outcome, session) :=
    (Session.guarded (Session.runFile options.showsTree contents?)) (.initial host (.initial true) path options.limit?)
  (outcome, session.console.printed)

/-- Runs a shell on lines typed in. -/
def runShell (host : Host) (options : Options) (lines : List String) : Except Failure Unit × StyledText :=
  let (outcome, shell) := (do Shell.printLine Shell.intro; Shell.converse lines) (.opening host options.limit?)
  let (settled, after) := (Shell.settle outcome) shell
  (settled, after.session.console.printed)

/-- Runs the program on its arguments, given the contents of the files that can be opened and what is typed in. -/
def run (host : Host) (arguments : List String) (read? : String → Option (List UInt8)) (input : String) :
    Except Failure Unit × StyledText :=
  match Command.ofArguments arguments with
  | .help => (.error (.exit (.code 0)), [.plain Options.usage])
  | .misuse => (.error (.exit (.code 2)), [])
  | .run options =>
    match options.file? with
    | some path => runFile host options path (read? path)
    | none => runShell host options (inputLines input)

end CommandLine

end Treewalk
