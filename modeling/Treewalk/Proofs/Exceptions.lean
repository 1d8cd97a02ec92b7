import Treewalk.Evaluation

/-! A second meaning of programs, with exceptions in place of signals. A failure and a `return` end everything around
them at once, because nothing here ever looks at a value to see whether to go on. Only calls of functions and programs
catch a returned value; nothing catches a failure. -/

namespace Treewalk

inductive Interrupt where
  | returned (value : Value)
  | failed (fault : Fault)

/-- The value that stands for an exception where exceptions are values. -/
def Interrupt.signal : Interrupt → Value
  | .returned value => .returned value
  | .failed fault => .error fault

/-- A computation that may change the world and may be interrupted. What it changed before stays changed. -/
abbrev Exec := ExceptT Interrupt Run

namespace Exec

def fail {α : Type} (fault : Fault) : Exec α := throw (.failed fault)

/-- Goes on with what a primitive step answered, unless that is an error. -/
def ensure : Value → Exec Value
  | .error fault => fail fault
  | value => pure value

/-- Ends a function or a program: here a `return` arrives. -/
def catchReturn (body : Exec Value) : Exec Value :=
  tryCatch body fun
    | .returned value => pure value
    | .failed fault => fail fault

def lookup (scope : ScopeId) (name : String) : Exec Value := do
  match (← get).heap.get? scope name with
  | some value => return value
  | none =>
    match Builtin.ofName? name with
    | some builtin => return .builtin builtin
    | none => fail (.unknownName name)

def assign (scope : ScopeId) (name : String) (value : Value) : Exec Value := do
  match (← get).heap.assign? scope name value with
  | some heap =>
    modify fun world => { world with heap }
    return value
  | none => fail (.unknownName name)

theorem run_bind {α β : Type} (first : Exec α) (next : α → Exec β) (world : World) :
    (first >>= next).run world = match first.run world with
      | (.ok value, after) => (next value).run after
      | (.error interrupt, after) => (.error interrupt, after) := by
  rw [ExceptT.run_bind, Run.bind_apply]
  rcases first.run world with ⟨outcome, after⟩
  cases outcome <;> rfl

theorem run_get_bind {α : Type} (next : World → Exec α) (world : World) :
    ((get : Exec World) >>= next).run world = (next world).run world := rfl

theorem run_catchReturn (body : Exec Value) (world : World) :
    (catchReturn body).run world = match body.run world with
      | (.error (.returned value), after) => (.ok value, after)
      | (outcome, after) => (outcome, after) := by
  rw [catchReturn, ExceptT.run_tryCatch, Run.bind_apply]
  rcases body.run world with ⟨(value | fault) | value, after⟩ <;> rfl

/-- An answer or an exception, as the one value that signals make of both. -/
def settle : Except Interrupt Value → Value
  | .ok value => value
  | .error interrupt => interrupt.signal

end Exec

/-- How to call a value when failures are exceptions. -/
abbrev Perform := Value → List Value → Exec Value

mutual

def Expr.exec (perform : Perform) (scope : ScopeId) : Expr → Exec Value
  | .name name => Exec.lookup scope name
  | .integer value => return .integer value
  | .string text => return .string text
  | .boolean value => return .boolean value
  | .unary op operand => do
    let value ← operand.exec perform scope
    Exec.ensure (op.apply value)
  | .binary left op right => do
    let first ← left.exec perform scope
    let second ← right.exec perform scope
    Exec.ensure (op.apply first second)
  | .assign name value => do
    let result ← value.exec perform scope
    Exec.assign scope name result
  | .ifThen condition consequence => do
    let test ← condition.exec perform scope
    if test.isTruthy then Stmt.execAll perform scope .null consequence else return .null
  | .ifElse condition consequence alternative => do
    let test ← condition.exec perform scope
    if test.isTruthy then Stmt.execAll perform scope .null consequence
    else Stmt.execAll perform scope .null alternative
  | .function parameters body => return .function (← Run.freshIdentity) parameters body scope
  | .call function arguments => do
    let callee ← function.exec perform scope
    let values ← Expr.execAll perform scope arguments
    perform callee values
  | .array elements => do
    let values ← Expr.execAll perform scope elements
    Run.freshArray values
  | .index collection position => do
    let whole ← collection.exec perform scope
    let place ← position.exec perform scope
    Exec.ensure (whole.elementAt place)

def Expr.execAll (perform : Perform) (scope : ScopeId) : List Expr → Exec (List Value)
  | [] => return []
  | expr :: exprs => do
    let value ← expr.exec perform scope
    let values ← Expr.execAll perform scope exprs
    return value :: values

def Stmt.exec (perform : Perform) (scope : ScopeId) : Stmt → Exec Value
  | .bind name value => do
    let result ← value.exec perform scope
    Run.define scope name result
    return .null
  | .leave => throw (.returned .null)
  | .leaveWith value => do
    let result ← value.exec perform scope
    throw (.returned result)
  | .expr value => value.exec perform scope
  | .block statements => Stmt.execAll perform scope .null statements

/-- The value of the last statement. `result` is the value so far. -/
def Stmt.execAll (perform : Perform) (scope : ScopeId) (result : Value) : List Stmt → Exec Value
  | [] => return result
  | stmt :: stmts => do
    let value ← stmt.exec perform scope
    Stmt.execAll perform scope value stmts

end

def Value.perform (runBody : ScopeId → List (String × Value) → List Stmt → Exec Value) (function : Value)
    (arguments : List Value) : Exec Value :=
  match function with
  | .builtin which => do Exec.ensure (← which.apply arguments)
  | .function _ parameters body scope =>
    if arguments.length = parameters.length then runBody scope (parameters.zip arguments) body
    else Exec.fail (.wrongArguments parameters.length arguments.length)
  | other => Exec.fail (.notAFunction other.kind)

/-- Calls a value where `depth` more calls of functions may be inside each other. -/
def perform : (depth : Nat) → Perform
  | 0 => Value.perform fun _ _ _ => Exec.fail .callsTooDeep
  | depth + 1 => Value.perform fun captured bindings body => do
    let scope ← Run.enclose captured
    Run.defineAll scope bindings
    Exec.catchReturn (Stmt.execAll (perform depth) scope .null body)

def Node.exec (depth : Nat) (scope : ScopeId) : Node → Exec Value
  | .program whole => Exec.catchReturn (Stmt.execAll (perform depth) scope .null whole.statements)
  | .stmt part => part.exec (perform depth) scope
  | .expr part => part.exec (perform depth) scope

/-- The value and the world a node ends in. An exception that nothing caught shows as the signal it stands for. -/
def Node.conclude (depth : Nat) (scope : ScopeId) (node : Node) (world : World) : Value × World :=
  let (ending, after) := (node.exec depth scope).run world
  (Exec.settle ending, after)

end Treewalk
