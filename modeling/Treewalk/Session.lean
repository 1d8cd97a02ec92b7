import Treewalk.CallLimit
import Treewalk.Grammar
import Treewalk.Report.Console
import Treewalk.Syntax.Outline

/-! A session owns one root scope and runs units of source in it, each with the bindings that the earlier ones left
behind. Units are queued first and run in order later. Syntax errors are warned about and keep a unit out of the
queue; a failed evaluation ends the run, and the units behind it stay queued. -/

namespace Treewalk

/-- A unit of source that waits to be run. Units of interactive sessions are numbered. -/
structure QueuedUnit where
  program : Program
  source : String
  number? : Option Int
  deriving Inhabited

namespace Host

/-- How a limit on calls is refused: one that leaves no frames at all, and one that leaves fewer than are in use. -/
def refusal (limit : Int) : Failure := if framesAllowed limit ≤ 0 then .unexpected .limitRefused else .nestingTooDeep

/-- A text of so many levels, if there is room for putting it together. -/
def compose (host : Host) (levels : Nat) (text : String) : Except Failure String :=
  if levels ≤ host.levels then .ok text else .error .nestingTooDeep

end Host

structure Session where
  console : Console
  path : String
  /-- The most calls at a time. Where it was left unstated, nothing can be evaluated. -/
  limit? : Option Int
  world : World
  queue : List QueuedUnit
  /-- The values of the units that have run, the latest last. -/
  results : List Value

namespace Session

/-- The path of what is typed in. No file can be run under it. -/
def promptPath : String := "<in>"

/-- A session in which nothing has happened. -/
def initial (host : Host) (console : Console) (path : String) (limit? : Option Int) : Session :=
  ⟨console, path, limit?, .initial host, [], []⟩

def onConsole (change : Console → Console) : Action Session Unit :=
  modify fun session => { session with console := change session.console }

/-- Makes a unit the current one of the session. -/
def enter (unit : SourceUnit) : Action Session Unit := do
  let path := (← get).path
  onConsole (·.enter path unit)

/-- Makes a piece of source the current unit if it has a number. -/
def enterNumbered (source : String) : Option Int → Action Session Unit
  | none => return ()
  | some number => enter ⟨some source, some number⟩

/-- Reads a source and queues it. One with syntax errors is refused after a warning for each of them. -/
def add (source : String) (number? : Option Int) : Action Session Unit := do
  enterNumbered source number?
  match Program.parse source with
  | (program, []) =>
    modify fun session => { session with queue := session.queue ++ [⟨program, source, number?⟩] }
    enter .absent
  | (_, diagnostics) =>
    onConsole (·.warnAll (diagnostics.map Diagnostic.message))
    throw (.complaint (.syntaxErrors diagnostics.length))

/-- Evaluates a program in the root scope and prints what it printed. -/
def evaluate (program : Program) : Action Session Value := fun session =>
  match session.limit? with
  | none => (.error (.unexpected .limitUnstated), session)
  | some limit =>
    match program.evaluate? limit World.root session.world with
    | none => (.error (Host.refusal limit), session)
    | some (value, world) =>
      (.ok value,
        { session with
          world := world.silenced
          console := session.console.print (world.printed.toList.map fun line => .plain (line ++ "\n")) })

/-- Runs one unit and keeps its value. -/
def runUnit (unit : QueuedUnit) : Action Session Unit := do
  enterNumbered unit.source unit.number?
  match ← evaluate unit.program with
  | .error fault => throw (.ofFault fault)
  | value =>
    modify fun session => { session with results := session.results ++ [value] }
    enter .absent

/-- Runs units in order. Each one leaves the queue before it is run, so that none is ever run twice. -/
def runUnits : List QueuedUnit → Action Session Unit
  | [] => return ()
  | unit :: units => do
    modify fun session => { session with queue := units }
    runUnit unit
    runUnits units

def run : Action Session Unit := do
  runUnits (← get).queue

/-- The outlines of programs. -/
def outlines (programs : List Program) : String :=
  "\n".intercalate (programs.map fun program => program.outline.display 0)

/-- The outlines of the queued units. -/
def display : Action Session String := fun session =>
  let programs := session.queue.map QueuedUnit.program
  let levels := (programs.map Program.outlineLevels).foldl max 0
  (session.world.host.compose levels (outlines programs), session)

/-- Takes away the latest result and gives its text. The result is gone even if there is no room for its text. -/
def pop : Action Session String := fun session =>
  match session.results.getLast? with
  | none => (.error (.unexpected .nothingLeft), session)
  | some value =>
    (session.world.host.compose value.levels value.inspect, { session with results := session.results.dropLast })

/-- Prints the latest result, if there is one, and takes it away. -/
def printResult : Action Session Unit := do
  if (← get).results.isEmpty then return ()
  else
    let text ← pop
    onConsole (·.printLine [.plain text])

/-- Lets the console decide what becomes of the outcome of some work. -/
def settle (outcome : Except Failure Unit) : Action Session Unit := fun session =>
  let (settled, console) := Console.settle outcome session.console
  (settled, { session with console })

/-- Works under the console's eyes: no complaint gets past it. -/
def guarded (work : Action Session Unit) : Action Session Unit := fun session =>
  let (outcome, after) := work session
  settle outcome after

/-- Queues the contents of the session's file. There are none when the file cannot be opened. -/
def addFile (contents? : Option (List UInt8)) : Action Session Unit := do
  let path := (← get).path
  if path.toList.contains '\x00' then throw (.unexpected .nulInPath)
  match contents? with
  | none => throw (.complaint (.cannotOpen path))
  | some bytes =>
    match Utf8.readText bytes with
    | .error fault => throw (.unexpected (.undecodable fault))
    | .ok source => add source none

/-- Starts a session with the contents of its file, or of the prompt if it is interactive. An interactive session is
never fatal. -/
def start (interactive : Bool) (contents? : Option (List UInt8)) : Action Session Unit := do
  enter .absent
  if interactive then onConsole ({ · with fatal := false })
  let path := (← get).path
  if path ≠ promptPath then addFile contents?
  else if !interactive then throw (.complaint .reservedName)

end Session

end Treewalk
