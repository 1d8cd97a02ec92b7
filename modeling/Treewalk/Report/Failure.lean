import Treewalk.Text.Styled
import Treewalk.Text.Template.Filling
import Treewalk.Text.Utf8
import Treewalk.Value

/-! What can go wrong around a program. A complaint is meant for the user and comes with its wording. A failure is
anything that ends the work at hand: a complaint, an interruption, a request to exit, or something nobody planned
for. -/

namespace Treewalk

/-- Failures that no complaint covers, each with the kind and the message it is reported under. -/
inductive Unexpected where
  | limitRefused
  | limitUnstated
  | undecodable (fault : Utf8.Fault)
  | unencodable (halves : Alphabet.Halves)
  | nulInPath
  | nothingLeft
  | template (fault : TemplateFault)
  | other (kind message : String)
  deriving Repr, Inhabited

namespace Unexpected

/-- The kind under which a fault of a template is reported. -/
def templateKind : TemplateFault → String
  | .missingArgument _ | .missingCharacter => "IndexError"
  | .named _ => "KeyError"
  | .attribute _ _ => "AttributeError"
  | .subscriptNotNumber | .noParts _ | .layoutRefused _ => "TypeError"
  | .layout .outOfMemory => "MemoryError"
  | _ => "ValueError"

def kind : Unexpected → String
  | .limitRefused | .nulInPath => "ValueError"
  | .limitUnstated => "TypeError"
  | .undecodable _ => "UnicodeDecodeError"
  | .unencodable _ => "UnicodeEncodeError"
  | .nothingLeft => "IndexError"
  | .template fault => templateKind fault
  | .other kind _ => kind

def message : Unexpected → String
  | .limitRefused => "recursion limit must be greater or equal than 1"
  | .limitUnstated => "'<' not supported between instances of 'int' and 'list'"
  | .undecodable fault => fault.message
  | .unencodable halves => halves.message
  | .nulInPath => "embedded null byte"
  | .nothingLeft => "pop from empty list"
  | .template fault => fault.message
  | .other _ message => message

end Unexpected

inductive Complaint where
  | reservedName
  | cannotOpen (path : String)
  | syntaxErrors (count : Nat)
  | evaluationFailed (fault : Fault)
  | interrupted
  | nestingTooDeep
  | unexpected (cause : Unexpected)
  /-- A complaint that is known only by its wording, with and without styles. -/
  | worded (shown plain : String) (internal : Bool)
  deriving Inhabited

namespace Complaint

/-- The wording as it is shown. What varies in it is in bold. -/
def message : Complaint → StyledText
  | .reservedName => [.plain "'<in>' is a reserved filename"]
  | .cannotOpen path => [.plain "'", .bold path, .plain "' could not be opened"]
  | .syntaxErrors count => [.bold (toString count), .plain " syntax error(s), nothing was evaluated"]
  | .evaluationFailed fault => [.bold fault.message]
  | .interrupted => [.plain "keyboard interrupt"]
  | .nestingTooDeep => [.plain "maximum nesting depth exceeded"]
  | .unexpected cause =>
    [.plain "unknown error: '", .bold cause.kind, .plain ": ", .bold cause.message, .plain "'"]
  | .worded shown _ _ => [.plain shown]

/-- The wording without its styles. -/
def plainMessage : Complaint → String
  | .worded _ plain _ => plain
  | complaint => complaint.message.plain

/-- Whether the user is not to blame. -/
def isInternal : Complaint → Bool
  | .unexpected _ => true
  | .worded _ _ internal => internal
  | _ => false

/-- The complaint that a template words. Where it is shown, the arguments are texts in bold; they are laid out with
their styles, and that comes first. -/
def ofTemplate (coloured : Bool) (template : String) (arguments : List Template.Argument) (internal : Bool) :
    Except TemplateFault Complaint := do
  let bold := arguments.map fun argument => .text ((Span.bold argument.shown).render coloured)
  let shown ← Template.fill template bold
  let plain ← Template.fill template arguments
  return .worded shown plain internal

end Complaint

/-- What a request to exit hands to the caller of the program. -/
inductive ExitStatus where
  | code (value : Int)
  | text (message : String)
  | unstated
  deriving DecidableEq, Repr, Inhabited

inductive Failure where
  | complaint (complaint : Complaint)
  | interrupted
  | nestingTooDeep
  | exit (status : ExitStatus)
  | unexpected (cause : Unexpected)
  deriving Inhabited

/-- How the end of a failed evaluation is reported. -/
def Failure.ofFault : Fault → Failure
  | .unencodable halves => .unexpected (.unencodable halves)
  | fault => .complaint (.evaluationFailed fault)

/-- Work on a state that may fail. What was done before the failure stays done. -/
abbrev Action (σ : Type) := ExceptT Failure (StateM σ)

end Treewalk
