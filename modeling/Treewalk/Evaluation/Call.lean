import Treewalk.Evaluation.World

/-! Calling values. Builtins never change their arguments: `push` and `rest` make new arrays. -/

namespace Treewalk

namespace Builtin

/-- The answer for an argument that has to be an array, from its elements. -/
def onArray (builtin : Builtin) (argument : Value) (answer : List Value → Run Value) : Run Value :=
  match argument with
  | .array _ elements => answer elements
  | other => return .error (.notAnArray builtin other.kind)

/-- Applies a builtin to the arguments it gets, of the number that it takes. -/
def applyTo (builtin : Builtin) (arguments : List Value) : Run Value :=
  match builtin, arguments with
  | .len, [.string text] => Run.byteLength text
  | .len, [.array _ elements] => return .integer elements.length
  | .len, [other] => return .error (.noLength other.kind)
  | .first, [argument] => builtin.onArray argument fun elements => return elements.head?.getD .null
  | .last, [argument] => builtin.onArray argument fun elements => return elements.getLast?.getD .null
  | .rest, [argument] => builtin.onArray argument fun elements =>
    match elements with
    | [] => return .null
    | _ :: others => Run.freshArray others
  | .push, [argument, value] => builtin.onArray argument fun elements => Run.freshArray (elements ++ [value])
  | .print, arguments => do
    Run.print (" ".intercalate (Value.inspectAll arguments))
    return .null
  | builtin, arguments => return .error (.wrongBuiltinArguments (builtin.arity.getD 0) arguments.length)

def apply (builtin : Builtin) (arguments : List Value) : Run Value :=
  match builtin.arity with
  | some arity =>
    if arguments.length = arity then builtin.applyTo arguments
    else return .error (.wrongBuiltinArguments arity arguments.length)
  | none => builtin.applyTo arguments

/-- All that a step of a builtin can do to the world: it hands out identities and prints lines. -/
def LeavesScopes (run : Run Value) : Prop :=
  ∀ world, ∃ identity lines, (run world).2 = { world with nextIdentity := identity, printed := world.printed ++ lines }

theorem leavesScopes_value (value : Value) : LeavesScopes (pure value) :=
  fun world => ⟨world.nextIdentity, #[], by simp [Run.pure_apply]⟩

theorem leavesScopes_freshArray (elements : List Value) : LeavesScopes (Run.freshArray elements) :=
  fun world => ⟨world.nextIdentity + 1, #[], by simp [Run.freshArray, Run.bind_apply, Run.freshIdentity, Run.pure_apply]⟩

theorem leavesScopes_byteLength (text : String) : LeavesScopes (Run.byteLength text) :=
  fun world => ⟨world.nextIdentity, #[], by simp [Run.byteLength]⟩

theorem leavesScopes_onArray (builtin : Builtin) (argument : Value) {answer : List Value → Run Value}
    (answers : ∀ values, LeavesScopes (answer values)) : LeavesScopes (builtin.onArray argument answer) := by
  cases argument with
  | array identity elements => exact answers elements
  | _ => exact leavesScopes_value _

theorem applyTo_leavesScopes (builtin : Builtin) (arguments : List Value) : LeavesScopes (builtin.applyTo arguments) := by
  unfold applyTo
  split
  case h_1 => exact leavesScopes_byteLength _
  case h_2 | h_3 | h_9 => exact leavesScopes_value _
  case h_4 | h_5 => exact leavesScopes_onArray _ _ fun values => leavesScopes_value _
  case h_6 =>
    refine leavesScopes_onArray _ _ fun values => ?_
    cases values with
    | nil => exact leavesScopes_value _
    | cons => exact leavesScopes_freshArray _
  case h_7 => exact leavesScopes_onArray _ _ fun values => leavesScopes_freshArray _
  case h_8 => exact fun world => ⟨world.nextIdentity, #[_], by simp [Run.bind_apply, Run.print, Run.pure_apply]; rfl⟩

/-- Builtins change no scope. They only hand out identities and print. -/
theorem apply_leavesScopes (builtin : Builtin) (arguments : List Value) : LeavesScopes (builtin.apply arguments) := by
  unfold apply
  split
  · split
    · exact applyTo_leavesScopes builtin arguments
    · exact leavesScopes_value _
  · exact applyTo_leavesScopes builtin arguments

end Builtin

/-- Calls a value. The body of a function is run by the parameter, on the parameters bound to the arguments and the
scope that the function remembers. -/
def Value.call (runBody : ScopeId → List (String × Value) → List Stmt → Run Value) (function : Value)
    (arguments : List Value) : Run Value :=
  match function with
  | .builtin which => which.apply arguments
  | .function _ parameters body scope =>
    if arguments.length = parameters.length then runBody scope (parameters.zip arguments) body
    else return .error (.wrongArguments parameters.length arguments.length)
  | other => return .error (.notAFunction other.kind)

end Treewalk
