import Treewalk.CallLimit
import Treewalk.Proofs.Exceptions
import Treewalk.Proofs.Interruption
import Treewalk.Proofs.SignalFree

/-! Signals are exceptions. Evaluation, which hands signals up by looking for them after every step, gives the values,
worlds and output of the meaning in which they are thrown. That needs a heap of data: a name bound to a signal would be
looked up as a value by the one and stop the other. So both meanings are followed together with the fact that the heap
stays one of data. -/

namespace Treewalk

/-- What an exception carries is data. -/
def Interrupt.CarriesData : Interrupt → Prop
  | .returned value => value.SignalFree
  | .failed _ => True

namespace Exec

def settleAll : Except Interrupt (List Value) → Except Value (List Value)
  | .ok values => .ok values
  | .error interrupt => .error interrupt.signal

/-- An ending without signals inside: the answer is data, or the exception carries data. -/
def EndsWith {α : Type} (data : α → Prop) : Except Interrupt α → Prop
  | .ok value => data value
  | .error interrupt => interrupt.CarriesData

end Exec

open Exec

/-- From every heap of data the evaluation ends as the computation with exceptions does, in the same world, and that
world and ending hold data again. -/
def Simulates {α β : Type} (seen : Except Interrupt α → β) (data : α → Prop) (run : Run β) (exec : Exec α) : Prop :=
  ∀ world, world.SignalFree →
    run world = (seen (exec.run world).1, (exec.run world).2) ∧
      (exec.run world).2.SignalFree ∧ EndsWith data (exec.run world).1

abbrev SimulatesValue : Run Value → Exec Value → Prop := Simulates settle Value.SignalFree

abbrev SimulatesValues : Run (Except Value (List Value)) → Exec (List Value) → Prop :=
  Simulates settleAll fun values => ∀ value ∈ values, value.SignalFree

/-- Calls agree when what is called and what is handed over is data. Nothing is said about other calls. -/
def Invoke.Simulates (invoke : Invoke) (perform : Perform) : Prop :=
  ∀ callee arguments, callee.SignalFree → (∀ argument ∈ arguments, argument.SignalFree) →
    SimulatesValue (invoke callee arguments) (perform callee arguments)

theorem Interrupt.signal_isSignal (interrupt : Interrupt) : interrupt.signal.isSignal = true := by
  cases interrupt <;> rfl

namespace Simulates

variable {α β : Type} {seen : Except Interrupt α → β} {data : α → Prop}

/-- A signal has to be handed up where the computation with exceptions stops. -/
theorem bind {γ δ : Type} {held : Except Interrupt γ → δ} {good : γ → Prop} {first : Run δ} {exec : Exec γ}
    {next : δ → Run β} {after : γ → Exec α} (head : Simulates held good first exec)
    (stops : ∀ interrupt, next (held (.error interrupt)) = pure (seen (.error interrupt)))
    (goes : ∀ value, good value → Simulates seen data (next (held (.ok value))) (after value)) :
    Simulates seen data (first >>= next) (exec >>= after) := by
  intro world kept
  obtain ⟨same, kept, ends⟩ := head world kept
  rw [Run.bind_apply, run_bind, same]
  generalize exec.run world = ending at kept ends ⊢
  rcases ending with ⟨interrupt | value, middle⟩
  · rw [stops]
    exact ⟨rfl, kept, ends⟩
  · exact goes value ends middle kept

/-- The rule for every step that looks for a signal. `skip` is how it hands the signal up. -/
theorem unlessSignal {first : Run Value} {exec : Exec Value} {next : Value → Run β} {after : Value → Exec α}
    {skip : Value → β} (head : SimulatesValue first exec)
    (handed : ∀ interrupt : Interrupt, skip interrupt.signal = seen (.error interrupt))
    (goes : ∀ value, value.SignalFree → Simulates seen data (next value) (after value)) :
    Simulates seen data (first >>= fun value => if value.isSignal then pure (skip value) else next value)
      (exec >>= after) := by
  apply bind head
  · intro interrupt
    rw [← handed]
    exact if_pos interrupt.signal_isSignal
  · intro value free
    have going : (if value.isSignal then pure (skip value) else next value) = next value :=
      if_neg (by simp [free.not_signal])
    exact going.symm ▸ goes value free

theorem value {value : Value} (free : value.SignalFree) : SimulatesValue (pure value) (pure value) :=
  fun _ kept => ⟨rfl, kept, free⟩

theorem raised (interrupt : Interrupt) (carried : interrupt.CarriesData) :
    SimulatesValue (pure interrupt.signal) (throw interrupt) :=
  fun _ kept => ⟨rfl, kept, carried⟩

theorem ensured {value : Value} (answer : value.DataOrError) : SimulatesValue (pure value) (ensure value) := by
  rcases answer with free | ⟨fault, rfl⟩
  · have same : ensure value = pure value := by cases free <;> rfl
    rw [same]
    exact Simulates.value free
  · exact raised (.failed fault) trivial

/-- Primitive steps answer with errors; what follows them has to raise these. -/
theorem primitive {run : Run Value} (keeps : run.KeepsData) : SimulatesValue run (do ensure (← run)) := by
  intro world kept
  obtain ⟨answer, kept⟩ := keeps world kept
  exact ensured answer (run world).2 kept

theorem lookup (scope : ScopeId) (name : String) : SimulatesValue (Run.lookup scope name) (Exec.lookup scope name) := by
  intro world kept
  rw [Exec.lookup, run_get_bind, Run.lookup]
  cases found : world.heap.get? scope name with
  | some value => exact ⟨rfl, kept, Heap.Everywhere.get? kept found⟩
  | none =>
    cases Builtin.ofName? name with
    | some builtin => exact ⟨rfl, kept, .builtin⟩
    | none => exact ⟨rfl, kept, trivial⟩

theorem assign (scope : ScopeId) (name : String) {value : Value} (free : value.SignalFree) :
    SimulatesValue (Run.assign scope name value) (Exec.assign scope name value) := by
  intro world kept
  rw [Exec.assign, run_get_bind, Run.assign]
  cases found : world.heap.assign? scope name value with
  | some heap => exact ⟨rfl, Heap.Everywhere.assign? kept free found, free⟩
  | none => exact ⟨rfl, kept, trivial⟩

/-- Both meanings share the steps that never fail. -/
theorem afterStep {γ : Type} {step : Run γ} {next : γ → Run β} {after : γ → Exec α}
    (keeps : ∀ world, World.SignalFree world → (step world).2.SignalFree)
    (rest : ∀ value, Simulates seen data (next value) (after value)) :
    Simulates seen data (step >>= next) ((liftM step : Exec γ) >>= after) :=
  fun world kept => rest (step world).1 (step world).2 (keeps world kept)

/-- Where a `return` arrives, unwrapping its value and catching it are the same. -/
theorem caught {run : Run Value} {exec : Exec Value} (body : SimulatesValue run exec) :
    SimulatesValue (do return (← run).unwrap) (catchReturn exec) := by
  intro world kept
  obtain ⟨same, kept, ends⟩ := body world kept
  rw [Run.bind_apply, run_catchReturn, same]
  generalize exec.run world = ending at kept ends ⊢
  match ending with
  | (.ok value, after) => exact ⟨congrArg (·, after) (Value.SignalFree.unwrap ends), kept, ends⟩
  | (.error (.returned value), after) => exact ⟨rfl, kept, ends⟩
  | (.error (.failed fault), after) => exact ⟨rfl, kept, ends⟩

end Simulates

mutual

theorem Expr.eval_simulates {invoke : Invoke} {perform : Perform} (agree : invoke.Simulates perform) (scope : ScopeId) :
    (expr : Expr) → SimulatesValue (expr.eval invoke scope) (expr.exec perform scope)
  | .name name => by
    rw [Expr.eval, Expr.exec]
    exact .lookup scope name
  | .integer _ => by
    rw [Expr.eval, Expr.exec]
    exact .value .integer
  | .string _ => by
    rw [Expr.eval, Expr.exec]
    exact .value .string
  | .boolean _ => by
    rw [Expr.eval, Expr.exec]
    exact .value .boolean
  | .unary op operand => by
    rw [Expr.eval, Expr.exec]
    exact .unlessSignal (operand.eval_simulates agree scope) (fun _ => rfl) fun value _ =>
      .ensured (op.apply_dataOrError value)
  | .binary left op right => by
    rw [Expr.eval, Expr.exec]
    exact .unlessSignal (left.eval_simulates agree scope) (fun _ => rfl) fun first _ =>
      .unlessSignal (right.eval_simulates agree scope) (fun _ => rfl) fun second _ => .ensured (op.apply_dataOrError first second)
  | .assign name value => by
    rw [Expr.eval, Expr.exec]
    exact .unlessSignal (value.eval_simulates agree scope) (fun _ => rfl) fun _ free => .assign scope name free
  | .ifThen condition consequence => by
    rw [Expr.eval, Expr.exec]
    refine .unlessSignal (condition.eval_simulates agree scope) (fun _ => rfl) fun test _ => ?_
    split
    · exact Stmt.evalAll_simulates agree scope .null consequence
    · exact .value .null
  | .ifElse condition consequence alternative => by
    rw [Expr.eval, Expr.exec]
    refine .unlessSignal (condition.eval_simulates agree scope) (fun _ => rfl) fun test _ => ?_
    split
    · exact Stmt.evalAll_simulates agree scope .null consequence
    · exact Stmt.evalAll_simulates agree scope .null alternative
  | .function parameters body => by
    rw [Expr.eval, Expr.exec]
    exact fun _ kept => ⟨rfl, kept, .function⟩
  | .call function arguments => by
    rw [Expr.eval, Expr.exec]
    refine .unlessSignal (function.eval_simulates agree scope) (fun _ => rfl) fun callee data => ?_
    exact .bind (Expr.evalAll_simulates agree scope arguments) (fun _ => rfl) fun values free => agree callee values data free
  | .array elements => by
    rw [Expr.eval, Expr.exec]
    refine .bind (Expr.evalAll_simulates agree scope elements) (fun _ => rfl) fun values free => ?_
    exact fun _ kept => ⟨rfl, kept, .array free⟩
  | .index collection position => by
    rw [Expr.eval, Expr.exec]
    exact .unlessSignal (collection.eval_simulates agree scope) (fun _ => rfl) fun whole free =>
      .unlessSignal (position.eval_simulates agree scope) (fun _ => rfl) fun place _ =>
        .ensured (Value.elementAt_dataOrError place free)

theorem Expr.evalAll_simulates {invoke : Invoke} {perform : Perform} (agree : invoke.Simulates perform) (scope : ScopeId) :
    (exprs : List Expr) → SimulatesValues (Expr.evalAll invoke scope exprs) (Expr.execAll perform scope exprs)
  | [] => by
    rw [Expr.evalAll, Expr.execAll]
    exact fun _ kept => ⟨rfl, kept, List.forall_mem_nil _⟩
  | expr :: exprs => by
    rw [Expr.evalAll, Expr.execAll]
    refine .unlessSignal (expr.eval_simulates agree scope) (fun _ => rfl) fun value first => ?_
    refine .bind (Expr.evalAll_simulates agree scope exprs) (fun _ => rfl) fun values free => ?_
    exact fun _ kept => ⟨rfl, kept, List.forall_mem_cons.mpr ⟨first, free⟩⟩

theorem Stmt.eval_simulates {invoke : Invoke} {perform : Perform} (agree : invoke.Simulates perform) (scope : ScopeId) :
    (stmt : Stmt) → SimulatesValue (stmt.eval invoke scope) (stmt.exec perform scope)
  | .bind name value => by
    rw [Stmt.eval, Stmt.exec]
    exact .unlessSignal (value.eval_simulates agree scope) (fun _ => rfl) fun _ free =>
      .afterStep (fun _ kept => Heap.Everywhere.define kept scope name free) fun _ => .value .null
  | .leave => by
    rw [Stmt.eval, Stmt.exec]
    exact .raised (.returned .null) .null
  | .leaveWith value => by
    rw [Stmt.eval, Stmt.exec]
    exact .unlessSignal (value.eval_simulates agree scope) (fun _ => rfl) fun result free => .raised (.returned result) free
  | .expr value => by
    rw [Stmt.eval, Stmt.exec]
    exact value.eval_simulates agree scope
  | .block statements => by
    rw [Stmt.eval, Stmt.exec]
    exact Stmt.evalAll_simulates agree scope .null statements

theorem Stmt.evalAll_simulates {invoke : Invoke} {perform : Perform} (agree : invoke.Simulates perform) (scope : ScopeId)
    {result : Value} (start : result.SignalFree) :
    (stmts : List Stmt) →
      SimulatesValue (Stmt.evalAll invoke scope result stmts) (Stmt.execAll perform scope result stmts)
  | [] => by
    rw [Stmt.evalAll, Stmt.execAll]
    exact .value start
  | stmt :: stmts => by
    rw [Stmt.evalAll, Stmt.execAll]
    refine .unlessSignal (stmt.eval_simulates agree scope) (fun _ => rfl) fun _ free => ?_
    exact Stmt.evalAll_simulates agree scope free stmts

end

theorem Value.call_simulates {runBody : ScopeId → List (String × Value) → List Stmt → Run Value}
    {execBody : ScopeId → List (String × Value) → List Stmt → Exec Value}
    (bodies : ∀ captured bindings body, (∀ binding ∈ bindings, binding.2.SignalFree) →
      SimulatesValue (runBody captured bindings body) (execBody captured bindings body)) :
    Invoke.Simulates (Value.call runBody) (Value.perform execBody) := by
  intro callee arguments data free
  cases callee with
  | builtin which => exact .primitive (which.apply_keepsData free)
  | function identity parameters body captured =>
    simp only [Value.call, Value.perform]
    split
    · exact bodies captured _ body fun binding member => free binding.2 (List.of_mem_zip member).2
    · exact .raised (.failed _) trivial
  | _ => exact .raised (.failed _) trivial

/-- Opening a scope and binding parameters to data leaves a heap of data. -/
theorem Run.defineAll_signalFree (scope : ScopeId) :
    (bindings : List (String × Value)) → (∀ binding ∈ bindings, binding.2.SignalFree) →
      ∀ world : World, world.SignalFree → (Run.defineAll scope bindings world).2.SignalFree
  | [], _ => fun _ kept => kept
  | (name, value) :: rest, free => fun _ kept =>
    Run.defineAll_signalFree scope rest (fun binding member => free binding (List.mem_cons_of_mem _ member)) _
      (Heap.Everywhere.define kept scope name (free (name, value) List.mem_cons_self))

/-- One level of calls, from the calls that its bodies make. -/
theorem Value.call_simulates_of_bodies {invoke : Invoke} {perform : Perform} (agree : invoke.Simulates perform) :
    Invoke.Simulates
      (Value.call fun captured bindings body => do
        let scope ← Run.enclose captured
        Run.defineAll scope bindings
        return (← Stmt.evalAll invoke scope .null body).unwrap)
      (Value.perform fun captured bindings body => do
        let scope ← Run.enclose captured
        Run.defineAll scope bindings
        catchReturn (Stmt.execAll perform scope .null body)) := by
  apply Value.call_simulates
  intro captured bindings body free
  refine .afterStep (fun _ kept => Heap.Everywhere.enclose kept (some captured)) fun scope => ?_
  refine .afterStep (Run.defineAll_signalFree scope bindings free) fun _ => ?_
  exact .caught (Stmt.evalAll_simulates agree scope .null body)

theorem Value.call_simulates_of_limit :
    Invoke.Simulates (Value.call fun _ _ _ => return .error .callsTooDeep)
      (Value.perform fun _ _ _ => Exec.fail .callsTooDeep) :=
  Value.call_simulates fun _ _ _ _ => .raised (.failed .callsTooDeep) trivial

theorem invoke_simulates : (depth : Nat) → Invoke.Simulates (invoke depth) (perform depth)
  | 0 => Value.call_simulates_of_limit
  | depth + 1 => Value.call_simulates_of_bodies (invoke_simulates depth)

theorem Node.eval_simulates (depth : Nat) (scope : ScopeId) :
    (node : Node) → SimulatesValue (node.eval depth scope) (node.exec depth scope)
  | .program whole => .caught (Stmt.evalAll_simulates (invoke_simulates depth) scope .null whole.statements)
  | .stmt part => part.eval_simulates (invoke_simulates depth) scope
  | .expr part => part.eval_simulates (invoke_simulates depth) scope

/-- Evaluation and the meaning with exceptions agree on the value, on every scope and on what is printed. Any limit may
be asked for; what a refused one does is nothing. And whatever part of the node ends with a signal, nothing behind that
part takes effect. -/
theorem Node.eval_eq_conclude (node : Node) (scope : ScopeId) (world : World) (data : world.heap.SignalFree) :
    (∀ depth, node.eval depth scope world = node.conclude depth scope world) ∧
      (∀ limit, node.evaluate? limit scope world =
        (world.host.allowedCalls? limit).map fun depth => node.conclude depth scope world) ∧
      ∀ depth part there, Reaches depth scope part there node world →
        ∀ signal after, part.eval depth scope there = (signal, after) → signal.isSignal = true →
          node.eval depth scope world = (node.receive signal, after) := by
  have agree : ∀ depth, node.eval depth scope world = node.conclude depth scope world :=
    fun depth => (node.eval_simulates depth scope world data).1
  refine ⟨agree, fun limit => ?_, fun depth part there reached signal after ends raised => ?_⟩
  · exact congrArg (fun run => (world.host.allowedCalls? limit).map run) (funext agree)
  · exact reached.interrupts ends raised

/-- A `return` among the elements of an array leaves the array and the division behind it. -/
theorem return_in_array_eq_conclude :
    let node := Node.expr (.array [.ifThen (.boolean true) [.leaveWith (.integer 2)], .binary (.integer 1) .divide (.integer 0)])
    let leaving := Node.stmt (.leaveWith (.integer 2))
    let world := World.initial .usual
    world.heap.SignalFree ∧ node.eval 1 World.root world = node.conclude 1 World.root world ∧
      Reaches 1 World.root leaving world node world ∧ node.eval 1 World.root world = (.returned (.integer 2), world) := by
  intro node leaving world
  have data := World.initial_signalFree .usual
  obtain ⟨agree, -, interrupts⟩ := Node.eval_eq_conclude node World.root world data
  have inBlock : Reaches 1 World.root leaving world (.stmt (.block ([] ++ [.leaveWith (.integer 2)]))) world :=
    .statement rfl rfl (.here nofun)
  have inElement : Reaches 1 World.root leaving world
      (.expr (.ifThen (.boolean true) [.leaveWith (.integer 2)])) world := .onlyConsequence ⟨rfl, rfl⟩ rfl inBlock
  have reached : Reaches 1 World.root leaving world
      (.expr (.array ([] ++ _ :: [.binary (.integer 1) .divide (.integer 0)]))) world := .element rfl inElement
  exact ⟨data, agree 1, reached, interrupts 1 leaving world reached _ _ rfl rfl⟩

end Treewalk
