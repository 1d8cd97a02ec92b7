import Treewalk.Report.Failure
import Treewalk.Report.Trace

/-! The console prints the output of programs, warnings and complaints. It knows which source is being worked on and
says so in what it prints. A fatal console ends the whole program with the first complaint; any other one forgets the
current units and lets the work go on. -/

namespace Treewalk

structure Console where
  fatal : Bool
  trace : Trace
  /-- All that was printed and has not been taken away yet. -/
  printed : StyledText
  deriving Inhabited

namespace Console

def initial (fatal : Bool) : Console := ⟨fatal, [], []⟩

/-- The console after what it printed has been taken away. -/
def silenced (console : Console) : Console := { console with printed := [] }

def print (console : Console) (text : StyledText) : Console := { console with printed := console.printed ++ text }

def printLine (console : Console) (text : StyledText) : Console := console.print (text ++ [.plain "\n"])

def enter (console : Console) (path : String) (unit : SourceUnit) : Console :=
  { console with trace := console.trace.enter path unit }

/-- A warning on one line, after its location. -/
def warn (console : Console) (message : String) : Console :=
  console.printLine [.bold console.trace.location, ⟨.boldMagenta, "warning: "⟩, .plain message]

def warnAll (console : Console) (messages : List String) : Console := messages.foldl warn console

def complaintText (trace : Trace) (complaint : Complaint) : StyledText :=
  [.plain trace.summary] ++ (if complaint.isInternal then [⟨.boldRed, "[internal] "⟩] else [])
    ++ [⟨.boldRed, "error: "⟩] ++ complaint.message

/-- Prints a complaint after the units it may come from, and exits if the console is fatal. -/
def complain (complaint : Complaint) : Action Console Unit := fun console =>
  let told := console.printLine (complaintText console.trace complaint)
  if console.fatal then (.error (.exit (.code 1)), told) else (.ok (), { told with trace := told.trace.cleared })

/-- Decides what becomes of the outcome of guarded work. A failure that a user can cause is told and thereby dealt
with. One that nobody planned for is told and goes on; a request to exit just goes on. -/
def settle : Except Failure Unit → Action Console Unit
  | .ok () => return ()
  | .error (.complaint complaint) => complain complaint
  | .error .interrupted => complain .interrupted
  | .error .nestingTooDeep => complain .nestingTooDeep
  | .error (.exit status) => throw (.exit status)
  | .error (.unexpected cause) => do
    complain (.unexpected cause)
    throw (.unexpected cause)

end Console

end Treewalk
