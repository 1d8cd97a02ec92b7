import Treewalk.Evaluation.Call
import Treewalk.Operator

/-! Evaluation. Every construct evaluates its parts from left to right and hands on the first signal among their
values, without touching the parts behind it. A returned value is unwrapped by the innermost call, or by the program;
an error by nothing. Recursion follows the syntax tree; only a call starts a body that is not part of the tree at
hand, and the number of calls inside each other is limited. -/

namespace Treewalk

/-- How to call a value. -/
abbrev Invoke := Value → List Value → Run Value

mutual

def Expr.eval (invoke : Invoke) (scope : ScopeId) : Expr → Run Value
  | .name name => Run.lookup scope name
  | .integer value => return .integer value
  | .string text => return .string text
  | .boolean value => return .boolean value
  | .unary op operand => do
    let value ← operand.eval invoke scope
    if value.isSignal then return value else return op.apply value
  | .binary left op right => do
    let first ← left.eval invoke scope
    if first.isSignal then return first
    else
      let second ← right.eval invoke scope
      if second.isSignal then return second else return op.apply first second
  | .assign name value => do
    let result ← value.eval invoke scope
    if result.isSignal then return result else Run.assign scope name result
  | .ifThen condition consequence => do
    let test ← condition.eval invoke scope
    if test.isSignal then return test
    else if test.isTruthy then Stmt.evalAll invoke scope .null consequence
    else return .null
  | .ifElse condition consequence alternative => do
    let test ← condition.eval invoke scope
    if test.isSignal then return test
    else if test.isTruthy then Stmt.evalAll invoke scope .null consequence
    else Stmt.evalAll invoke scope .null alternative
  | .function parameters body => return .function (← Run.freshIdentity) parameters body scope
  | .call function arguments => do
    let callee ← function.eval invoke scope
    if callee.isSignal then return callee
    else
      match ← Expr.evalAll invoke scope arguments with
      | .error signal => return signal
      | .ok values => invoke callee values
  | .array elements => do
    match ← Expr.evalAll invoke scope elements with
    | .error signal => return signal
    | .ok values => Run.freshArray values
  | .index collection position => do
    let whole ← collection.eval invoke scope
    if whole.isSignal then return whole
    else
      let place ← position.eval invoke scope
      if place.isSignal then return place else return whole.elementAt place

/-- The values of expressions in order, or the first signal among them. -/
def Expr.evalAll (invoke : Invoke) (scope : ScopeId) : List Expr → Run (Except Value (List Value))
  | [] => return .ok []
  | expr :: exprs => do
    let value ← expr.eval invoke scope
    if value.isSignal then return .error value
    else
      match ← Expr.evalAll invoke scope exprs with
      | .error signal => return .error signal
      | .ok values => return .ok (value :: values)

def Stmt.eval (invoke : Invoke) (scope : ScopeId) : Stmt → Run Value
  | .bind name value => do
    let result ← value.eval invoke scope
    if result.isSignal then return result
    else
      Run.define scope name result
      return .null
  | .leave => return .returned .null
  | .leaveWith value => do
    let result ← value.eval invoke scope
    if result.isSignal then return result else return .returned result
  | .expr value => value.eval invoke scope
  | .block statements => Stmt.evalAll invoke scope .null statements

/-- The value of the last statement, or the first signal. `result` is the value so far. -/
def Stmt.evalAll (invoke : Invoke) (scope : ScopeId) (result : Value) : List Stmt → Run Value
  | [] => return result
  | stmt :: stmts => do
    let value ← stmt.eval invoke scope
    if value.isSignal then return value else Stmt.evalAll invoke scope value stmts

end

/-- Calls a value where `depth` more calls of functions may be inside each other. Arguments are counted before calls
are, and builtins are not counted at all. -/
def invoke : (depth : Nat) → Invoke
  | 0 => Value.call fun _ _ _ => return .error .callsTooDeep
  | depth + 1 => Value.call fun captured bindings body => do
    let scope ← Run.enclose captured
    Run.defineAll scope bindings
    return (← Stmt.evalAll (invoke depth) scope .null body).unwrap

/-- Evaluates any piece of syntax. Only a program unwraps what a `return` outside all functions hands up. -/
def Node.eval (depth : Nat) (scope : ScopeId) : Node → Run Value
  | .program whole => return (← Stmt.evalAll (invoke depth) scope .null whole.statements).unwrap
  | .stmt part => part.eval (invoke depth) scope
  | .expr part => part.eval (invoke depth) scope

def Program.eval (program : Program) (depth : Nat) (scope : ScopeId) : Run Value := (Node.program program).eval depth scope

end Treewalk
