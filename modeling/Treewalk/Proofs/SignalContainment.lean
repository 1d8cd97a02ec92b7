import Treewalk.Proofs.ExceptionSimulation

/-! Signals never become data. A heap of data stays one through every evaluation, whoever calls whom, and no call ever
hands a signal over. The latter is stated without a record of calls: whatever calls with other arguments were made to
do instead, evaluation would be the same. -/

namespace Treewalk

/-- The possible answers of an evaluation: data, an error, or data on its way out of a function. -/
def Value.Ending (value : Value) : Prop := value.DataOrError ∨ ∃ payload, value = .returned payload ∧ payload.SignalFree

/-- Calls that hand over data as they are, and every other call as `escape` has it. -/
def Invoke.onData (escape invoke : Invoke) : Invoke := fun callee arguments =>
  if ∀ argument ∈ arguments, argument.SignalFree then invoke callee arguments else escape callee arguments

/-- Calls as `invoke` makes them, except that at every depth those with a signal among the arguments escape. -/
def invokeOnData (escape : Invoke) : (depth : Nat) → Invoke
  | 0 => .onData escape (Value.call fun _ _ _ => return .error .callsTooDeep)
  | depth + 1 => .onData escape (Value.call fun captured bindings body => do
    let scope ← Run.enclose captured
    Run.defineAll scope bindings
    return (← Stmt.evalAll (invokeOnData escape depth) scope .null body).unwrap)

def Node.evalOnData (escape : Invoke) (depth : Nat) (scope : ScopeId) : Node → Run Value
  | .program whole => return (← Stmt.evalAll (invokeOnData escape depth) scope .null whole.statements).unwrap
  | .stmt part => part.eval (invokeOnData escape depth) scope
  | .expr part => part.eval (invokeOnData escape depth) scope

/-- Programs one after another in one scope, each under a limit of its own. A refused limit leaves no value. -/
def Program.evaluateAll (scope : ScopeId) : List (Program × Int) → World → List (Option Value) × World
  | [], world => ([], world)
  | (program, limit) :: rest, world =>
    match program.evaluate? limit scope world with
    | none =>
      let (values, after) := evaluateAll scope rest world
      (none :: values, after)
    | some (value, middle) =>
      let (values, after) := evaluateAll scope rest middle
      (some value :: values, after)

open Exec

theorem Exec.settle_ending {ending : Except Interrupt Value} (ends : EndsWith Value.SignalFree ending) :
    (settle ending).Ending := by
  match ending with
  | .ok value => exact Or.inl (Or.inl ends)
  | .error (.returned value) => exact Or.inr ⟨value, rfl, ends⟩
  | .error (.failed fault) => exact Or.inl (Value.dataOrError_error fault)

/-- Only a value under way can be unwrapped, and it carries data. -/
theorem Value.Ending.unwrap {value : Value} (ends : value.Ending) : value.unwrap.DataOrError := by
  rcases ends with (free | ⟨fault, rfl⟩) | ⟨payload, rfl, free⟩
  · exact Or.inl (free.unwrap.symm ▸ free)
  · exact Value.dataOrError_error fault
  · exact Or.inl free

theorem Value.DataOrError.ne_returned {value : Value} (answer : value.DataOrError) (payload : Value) :
    value ≠ .returned payload := by
  rcases answer with free | ⟨fault, rfl⟩
  · rintro rfl
    cases free
  · exact nofun

theorem SimulatesValue.ending {run : Run Value} {exec : Exec Value} (agree : SimulatesValue run exec) {world : World}
    (data : world.SignalFree) : (run world).1.Ending ∧ (run world).2.SignalFree := by
  obtain ⟨same, kept, ends⟩ := agree world data
  rw [same]
  exact ⟨settle_ending ends, kept⟩

theorem Invoke.onData_simulates (escape : Invoke) {invoke : Invoke} {perform : Perform}
    (agree : invoke.Simulates perform) : (Invoke.onData escape invoke).Simulates perform := by
  intro callee arguments data free
  have handed : Invoke.onData escape invoke callee arguments = invoke callee arguments := if_pos free
  exact handed.symm ▸ agree callee arguments data free

theorem invokeOnData_simulates (escape : Invoke) :
    (depth : Nat) → Invoke.Simulates (invokeOnData escape depth) (perform depth)
  | 0 => Invoke.onData_simulates escape Value.call_simulates_of_limit
  | depth + 1 => Invoke.onData_simulates escape (Value.call_simulates_of_bodies (invokeOnData_simulates escape depth))

theorem Node.evalOnData_simulates (escape : Invoke) (depth : Nat) (scope : ScopeId) :
    (node : Node) → SimulatesValue (node.evalOnData escape depth scope) (node.exec depth scope)
  | .program whole => .caught (Stmt.evalAll_simulates (invokeOnData_simulates escape depth) scope .null whole.statements)
  | .stmt part => part.eval_simulates (invokeOnData_simulates escape depth) scope
  | .expr part => part.eval_simulates (invokeOnData_simulates escape depth) scope

/-- Both evaluations follow the same meaning with exceptions as long as calls hand over data, and there they do. -/
theorem Node.evalOnData_eq_eval (escape : Invoke) (depth : Nat) (scope : ScopeId) (node : Node) {world : World}
    (data : world.SignalFree) : node.evalOnData escape depth scope world = node.eval depth scope world :=
  (node.evalOnData_simulates escape depth scope world data).1.trans (node.eval_simulates depth scope world data).1.symm

theorem Program.eval_dataOrError (program : Program) (depth : Nat) (scope : ScopeId) {world : World}
    (data : world.SignalFree) : (program.eval depth scope world).1.DataOrError := by
  have body := Stmt.evalAll_simulates (invoke_simulates depth) scope .null program.statements
  exact (SimulatesValue.ending body data).1.unwrap

theorem Program.evaluateAll_data (scope : ScopeId) (programs : List (Program × Int)) (world : World)
    (data : world.SignalFree) :
    (Program.evaluateAll scope programs world).2.SignalFree ∧
      ∀ value, some value ∈ (Program.evaluateAll scope programs world).1 → value.DataOrError := by
  induction programs generalizing world with
  | nil => exact ⟨data, by simp [evaluateAll]⟩
  | cons first rest ih =>
    obtain ⟨program, limit⟩ := first
    cases allowed : world.host.allowedCalls? limit with
    | none =>
      have refused : program.evaluate? limit scope world = none := by
        simp [Program.evaluate?, Node.evaluate?, allowed]
      simpa [evaluateAll, refused] using ih world data
    | some depth =>
      have evaluated : program.evaluate? limit scope world = some (program.eval depth scope world) := by
        simp [Program.evaluate?, Node.evaluate?, allowed, Program.eval, StateT.run]
      have kept := ((Node.program program).eval_simulates depth scope).ending data
      obtain ⟨after, values⟩ := ih _ kept.2
      simp only [evaluateAll, evaluated]
      refine ⟨after, fun value member => ?_⟩
      rcases List.mem_cons.mp member with here | later
      · cases here
        exact program.eval_dataOrError depth scope data
      · exact values value later

/-- From a heap of data every evaluation ends in one, with data, an error, or data under way; no call hands over
anything but data; and programs, however many run one after another, answer with data or an error only. -/
theorem Node.eval_keeps_signals_out (world : World) (data : world.heap.SignalFree) :
    (∀ depth scope node, (Node.eval depth scope node world).1.Ending ∧ (Node.eval depth scope node world).2.heap.SignalFree) ∧
      (∀ escape depth scope node, Node.evalOnData escape depth scope node world = Node.eval depth scope node world) ∧
      (∀ program depth scope payload, (Program.eval program depth scope world).1 ≠ .returned payload) ∧
      ∀ scope programs, (Program.evaluateAll scope programs world).2.heap.SignalFree ∧
        ∀ value, some value ∈ (Program.evaluateAll scope programs world).1 → value.DataOrError := by
  refine ⟨fun depth scope node => ?_, fun escape depth scope node => ?_, fun program depth scope payload => ?_, ?_⟩
  · exact (node.eval_simulates depth scope).ending data
  · exact node.evalOnData_eq_eval escape depth scope data
  · exact (program.eval_dataOrError depth scope data).ne_returned payload
  · exact fun scope programs => Program.evaluateAll_data scope programs world data

/-- A `return` among the arguments of a call: the call is never made, and the value under way is data. -/
theorem return_in_arguments_keeps_signals_out :
    let node := Node.expr (.call (.function ["x"] [.expr (.name "x")]) [.ifThen (.boolean true) [.leaveWith (.integer 2)]])
    let world := World.initial .usual
    world.heap.SignalFree ∧ (∀ escape, node.evalOnData escape 1 World.root world = node.eval 1 World.root world) ∧
      (node.eval 1 World.root world).1 = .returned (.integer 2) ∧ (node.eval 1 World.root world).1.Ending :=
  have data := World.initial_signalFree .usual
  have kept := Node.eval_keeps_signals_out _ data
  ⟨data, fun escape => kept.2.1 escape 1 World.root _, rfl, (kept.1 1 World.root _).1⟩

end Treewalk
