import Treewalk.Entry
import Treewalk.Session

/-! The shell takes lines, one at a time. A line is stripped first. A blank line does nothing, a line that starts with
a command word gives that command, and any other one is an entry or the next line of the entry that is not complete
yet. A complete entry is run at once, and its value is printed. -/

namespace Treewalk

structure Shell where
  session : Session
  /-- The lines so far of an entry that is not complete. -/
  pending : String
  /-- How many lines of entries there were so far. -/
  lineNumber : Nat
  /-- What the next line is asked for with. -/
  prompt : String

namespace Shell

def firstPrompt : String := ">> "

def continuationPrompt : String := ".. "

def initial (session : Session) : Shell := ⟨session, "", 0, firstPrompt⟩

def intro : String := "bananascript interpreter :: Python backend\nType 'help' for more information."

def help : String :=
  "Welcome to the bananascript interpreter!\n\n"
    ++ "Entries are evaluated as you type them, and bindings persist between entries. \n"
    ++ "An entry with an unclosed bracket continues on the next line.\n\n"
    ++ "Try it out by typing 'let add = fn(a, b) \x7b a + b \x7d;'. This binds a function to \n"
    ++ "the name 'add'. Next, try typing 'add(2, 3)'. This calls 'add', giving 5 as \n"
    ++ "the result."

/-- What a line asks for. -/
inductive Request where
  | nothing
  | help
  | exit
  /-- The end of the input, typed or real. -/
  | endOfInput
  | entry (line : String)
  deriving DecidableEq, Repr, Inhabited

/-- The characters of command words. -/
def isCommandChar (c : Char) : Bool := c.isAlphanum || c == '_'

/-- Reads a line. A command word may be followed by anything that is not part of a word; a question mark asks for
help. -/
def Request.ofLine (line : String) : Request :=
  let stripped := strip line
  match stripped.toList with
  | [] => .nothing
  | '?' :: _ => .help
  | chars =>
    match String.ofList (chars.takeWhile isCommandChar) with
    | "help" => .help
    | "exit" => .exit
    | "EOF" => .endOfInput
    | _ => .entry stripped

def onSession {α : Type} (work : Action Session α) : Action Shell α := fun shell =>
  let (outcome, session) := work shell.session
  (outcome, { shell with session })

def print (text : StyledText) : Action Shell Unit := onSession (Session.onConsole (·.print text))

def printLine (text : String) : Action Shell Unit := print [.plain text, .plain "\n"]

/-- Runs a complete entry and prints its value. -/
def runEntry (source : String) (number : Int) : Action Session Unit := do
  Session.add source (some number)
  Session.run
  Session.printResult

/-- Takes a line of an entry. -/
def takeEntry (line : String) : Action Shell Unit := do
  let shell ← get
  let number := shell.lineNumber + 1
  let source := if shell.pending.isEmpty then line else shell.pending ++ "\n" ++ line
  if needsContinuation source then
    set { shell with lineNumber := number, pending := source, prompt := continuationPrompt }
  else
    set { shell with lineNumber := number, pending := "", prompt := firstPrompt }
    onSession (Session.guarded (runEntry source number))

/-- Does what a line asks for and says whether to stop. -/
def perform : Request → Action Shell Bool
  | .nothing => return false
  | .help => do
    printLine help
    return false
  | .exit => return true
  | .endOfInput => do
    printLine ""
    return true
  | .entry line => do
    takeEntry line
    return false

def onLine (line : String) : Action Shell Bool := perform (.ofLine line)

/-- Takes lines, each after a prompt, until one says to stop. At the end of the lines the input has ended. -/
def converse : (lines : List String) → Action Shell Unit
  | [] => do
    print [.plain (← get).prompt]
    discard (perform .endOfInput)
  | line :: lines => do
    print [.plain (← get).prompt]
    if ← onLine line then return () else converse lines

end Shell

end Treewalk
