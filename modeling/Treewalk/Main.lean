import Treewalk.CommandLine

/-! The program as it is started from a terminal. -/

namespace Treewalk

/-- Prints what a console holds and empties it. -/
def Console.flush (coloured : Bool) (console : Console) : IO Console := do
  let stdout ← IO.getStdout
  stdout.putStr (console.printed.render coloured)
  stdout.flush
  return console.silenced

def Shell.flush (coloured : Bool) (shell : Shell) : IO Shell := do
  let console ← shell.session.console.flush coloured
  return { shell with session := { shell.session with console } }

/-- Reads lines until the shell stops or fails. -/
partial def Shell.interact (coloured : Bool) (shell : Shell) : IO (Except Failure Unit × Shell) := do
  let (_, prompted) := Shell.print [.plain shell.prompt] shell
  let ready ← prompted.flush coloured
  let line ← (← IO.getStdin).getLine
  let request := if line.isEmpty then .endOfInput else .ofLine line
  let (outcome, after) := Shell.perform request ready
  let next ← after.flush coloured
  match outcome with
  | .error failure => return (.error failure, next)
  | .ok true => return (.ok (), next)
  | .ok false => next.interact coloured

namespace Terminal

/-- Hands an exit status to the operating system. -/
def leave : ExitStatus → IO UInt32
  | .code value => return UInt32.ofInt value
  | .unstated => return 0
  | .text message => do
    (← IO.getStderr).putStrLn message
    return 1

def finish : Except Failure Unit → IO UInt32
  | .ok () => return 0
  | .error (.exit status) => leave status
  | .error _ => return 1

def contents? (path : String) : IO (Option (List UInt8)) := do
  try
    return some (← IO.FS.readBinFile path).toList
  catch _ => return none

def run (arguments : List String) : IO UInt32 := do
  let stdout ← IO.getStdout
  let coloured := (← stdout.isTty) && (← IO.getEnv "NO_COLOR").isNone
  match Command.ofArguments arguments with
  | .help =>
    stdout.putStr Options.usage
    return 0
  | .misuse =>
    (← IO.getStderr).putStr Options.usage
    return 2
  | .run options =>
    match options.file? with
    | some path =>
      let (outcome, printed) := CommandLine.runFile .usual options path (← contents? path)
      stdout.putStr (printed.render coloured)
      finish outcome
    | none =>
      let (_, greeted) := Shell.printLine Shell.intro (.opening .usual options.limit?)
      let (outcome, shell) ← greeted.interact coloured
      let (settled, after) := Shell.settle outcome shell
      discard (after.flush coloured)
      finish settled

end Terminal

end Treewalk

def main (arguments : List String) : IO UInt32 := Treewalk.Terminal.run arguments
