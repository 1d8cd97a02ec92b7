import Treewalk.Host
import Treewalk.Scope

/-! The state of evaluation: all scopes, the identities handed out so far, and the lines printed so far. The host is part
of it and stays the same. -/

namespace Treewalk

/-- The number of bytes of a text. A text with lone surrogates in it has none. -/
def Host.byteLength (host : Host) (text : String) : Value :=
  match host.alphabet.halves? text with
  | none => .integer text.utf8ByteSize
  | some halves => .error (.unencodable halves)

/-- What is true of the number and of the error is true of the answer. -/
theorem Host.byteLength_rule (host : Host) {text : String} {holds : Value → Prop} (counted : holds (.integer text.utf8ByteSize))
    (refused : ∀ halves, holds (.error (.unencodable halves))) : holds (host.byteLength text) := by
  unfold byteLength
  split
  · exact counted
  · exact refused _

structure World where
  heap : Heap
  nextIdentity : Identity
  printed : Array String
  host : Host

namespace World

/-- A world that holds one empty scope with nothing outside it. -/
def initial (host : Host) : World := ⟨Heap.empty.enclose none, 0, #[], host⟩

@[simp] theorem initial_host (host : Host) : (initial host).host = host := rfl

/-- The scope of `initial`. -/
def root : ScopeId := 0

/-- The world after what it printed has been taken away. -/
def silenced (world : World) : World := { world with printed := #[] }

end World

/-- A computation that may change the world. -/
abbrev Run := StateM World

namespace Run

theorem pure_apply {α : Type} (value : α) (world : World) : (pure value : Run α) world = (value, world) := rfl

theorem bind_apply {α β : Type} (first : Run α) (next : α → Run β) (world : World) :
    (first >>= next) world = next (first world).1 (first world).2 := rfl

def freshIdentity : Run Identity := fun world =>
  (world.nextIdentity, { world with nextIdentity := world.nextIdentity + 1 })

def freshArray (elements : List Value) : Run Value := do
  return .array (← freshIdentity) elements

def print (line : String) : Run Unit := fun world => ((), { world with printed := world.printed.push line })

def byteLength (text : String) : Run Value := fun world => (world.host.byteLength text, world)

/-- What a name means: the value the nearest scope binds it to, or else the builtin of that name. -/
def lookup (scope : ScopeId) (name : String) : Run Value := fun world =>
  let value :=
    match world.heap.get? scope name with
    | some value => value
    | none =>
      match Builtin.ofName? name with
      | some builtin => .builtin builtin
      | none => .error (.unknownName name)
  (value, world)

def define (scope : ScopeId) (name : String) (value : Value) : Run Unit := fun world =>
  ((), { world with heap := world.heap.define scope name value })

/-- Gives a bound name another value. Assignment never binds a name anew. -/
def assign (scope : ScopeId) (name : String) (value : Value) : Run Value := fun world =>
  match world.heap.assign? scope name value with
  | some heap => (value, { world with heap })
  | none => (.error (.unknownName name), world)

/-- A new scope inside another. -/
def enclose (outer : ScopeId) : Run ScopeId := fun world =>
  (world.heap.scopes.size, { world with heap := world.heap.enclose (some outer) })

/-- Binds parameters to arguments in order, so that of two parameters with one name the later counts. -/
def defineAll (scope : ScopeId) : List (String × Value) → Run Unit
  | [] => return ()
  | (name, value) :: rest => do
    define scope name value
    defineAll scope rest

end Run

end Treewalk
