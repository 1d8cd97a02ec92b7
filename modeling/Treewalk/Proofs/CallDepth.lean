import Treewalk.CallLimit

/-! The limit on calls only cuts an evaluation short. With a lower limit everything happens as with a higher one, up to
the first call that the lower limit forbids; the error of that call goes up through everything around it, and nothing is
printed any more. Two evaluations are compared step by step, for any two ways of calling that are related like this. -/

namespace Treewalk

/-- On the same host, more has been printed. -/
structure World.Extends (world later : World) : Prop where
  printed : world.printed.toList <+: later.printed.toList
  host : later.host = world.host

theorem World.Extends.trans {world middle later : World} (first : world.Extends middle) (second : middle.Extends later) :
    world.Extends later :=
  ⟨first.printed.trans second.printed, second.host.trans first.host⟩

namespace Run

variable {α β : Type}

/-- A step that prints nothing. -/
def Quiet (run : Run α) : Prop := ∀ world, (run world).2.printed = world.printed ∧ (run world).2.host = world.host

/-- The first computation is the second one, or it answers `stopped` and has printed the first part of what the second
one prints. -/
structure CutShort (stopped : α) (short full : Run α) : Prop where
  grows : ∀ world : World, world.Extends (full world).2
  agrees : ∀ world, short world = full world ∨ (short world).1 = stopped ∧ (short world).2.Extends (full world).2

/-- The error of a call beyond the limit. -/
abbrev CutByLimit : Run Value → Run Value → Prop := CutShort (.error .callsTooDeep)

namespace CutShort

theorem same {stopped : α} {run : Run α} (grows : ∀ world : World, world.Extends (run world).2) : CutShort stopped run run :=
  ⟨grows, fun _ => Or.inl rfl⟩

/-- A step that prints nothing is the same under both limits. -/
theorem silent {stopped : α} {run : Run α} (quiet : run.Quiet) : CutShort stopped run run :=
  .same fun world => ⟨(quiet world).1.symm ▸ List.prefix_rfl, (quiet world).2⟩

theorem value {stopped : α} (value : α) : CutShort stopped (pure value) (pure value) := .silent fun _ => ⟨rfl, rfl⟩

/-- Nothing may go on from an answer that was cut short. -/
theorem bind {halted : α} {stopped : β} {first first' : Run α} {next next' : α → Run β}
    (head : CutShort halted first first') (hands : next halted = pure stopped)
    (tail : ∀ value, CutShort stopped (next value) (next' value)) :
    CutShort stopped (first >>= next) (first' >>= next') := by
  refine ⟨fun world => (head.grows world).trans ((tail _).grows _), fun world => ?_⟩
  simp only [bind_apply]
  rcases head.agrees world with same | ⟨cut, less⟩
  · rw [same]
    exact (tail _).agrees _
  · rw [cut, hands]
    exact Or.inr ⟨rfl, less.trans ((tail _).grows _)⟩

/-- The rule for every step that looks for a signal. -/
theorem unlessSignal {stopped : α} {first first' : Run Value} {next next' : Value → Run α} {skip : Value → α}
    (head : CutByLimit first first') (hands : skip (.error .callsTooDeep) = stopped)
    (tail : ∀ value, CutShort stopped (next value) (next' value)) :
    CutShort stopped (first >>= fun value => if value.isSignal then pure (skip value) else next value)
      (first' >>= fun value => if value.isSignal then pure (skip value) else next' value) := by
  refine head.bind (congrArg pure hands) fun value => ?_
  split
  · exact .value _
  · exact tail value

/-- A step that cannot be cut short, and then one that can. -/
theorem afterStep {γ : Type} {stopped : α} {step : Run γ} {next next' : γ → Run α} (quiet : step.Quiet)
    (tail : ∀ value, CutShort stopped (next value) (next' value)) : CutShort stopped (step >>= next) (step >>= next') := by
  refine ⟨fun world => ?_, fun world => (tail _).agrees _⟩
  have first : CutShort (step world).1 step step := silent quiet
  exact (first.grows world).trans ((tail (step world).1).grows (step world).2)

theorem unwrapped {run run' : Run Value} (body : CutByLimit run run') :
    CutByLimit (do return (← run).unwrap) (do return (← run').unwrap) :=
  body.bind rfl fun _ => .value _

end CutShort

theorem defineAll_quiet (scope : ScopeId) : ∀ bindings : List (String × Value), (defineAll scope bindings).Quiet
  | [], _ => ⟨rfl, rfl⟩
  | (_, _) :: rest, _ => defineAll_quiet scope rest _

theorem assign_quiet (scope : ScopeId) (name : String) (value : Value) : (assign scope name value).Quiet := by
  intro world
  unfold assign
  split <;> exact ⟨rfl, rfl⟩

end Run

open Run

theorem Builtin.apply_cutShort (builtin : Builtin) (arguments : List Value) :
    CutByLimit (builtin.apply arguments) (builtin.apply arguments) := by
  refine .same fun world => ?_
  obtain ⟨identity, lines, effect⟩ := builtin.apply_leavesScopes arguments world
  rw [effect]
  exact ⟨Array.toList_append ▸ List.prefix_append _ _, rfl⟩

def Invoke.CutShort (short full : Invoke) : Prop :=
  ∀ callee arguments, CutByLimit (short callee arguments) (full callee arguments)

mutual

theorem Expr.eval_cutShort {short full : Invoke} (calls : short.CutShort full) (scope : ScopeId) :
    (expr : Expr) → CutByLimit (expr.eval short scope) (expr.eval full scope)
  | .name name => by
    rw [Expr.eval, Expr.eval]
    exact .silent fun _ => ⟨rfl, rfl⟩
  | .integer _ => by
    rw [Expr.eval, Expr.eval]
    exact .value _
  | .string _ => by
    rw [Expr.eval, Expr.eval]
    exact .value _
  | .boolean _ => by
    rw [Expr.eval, Expr.eval]
    exact .value _
  | .unary op operand => by
    rw [Expr.eval, Expr.eval]
    exact .unlessSignal (operand.eval_cutShort calls scope) rfl fun _ => .value _
  | .binary left op right => by
    rw [Expr.eval, Expr.eval]
    exact .unlessSignal (left.eval_cutShort calls scope) rfl fun _ =>
      .unlessSignal (right.eval_cutShort calls scope) rfl fun _ => .value _
  | .assign name value => by
    rw [Expr.eval, Expr.eval]
    exact .unlessSignal (value.eval_cutShort calls scope) rfl fun result => .silent (assign_quiet scope name result)
  | .ifThen condition consequence => by
    rw [Expr.eval, Expr.eval]
    refine .unlessSignal (condition.eval_cutShort calls scope) rfl fun test => ?_
    split
    · exact Stmt.evalAll_cutShort calls scope .null consequence
    · exact .value _
  | .ifElse condition consequence alternative => by
    rw [Expr.eval, Expr.eval]
    refine .unlessSignal (condition.eval_cutShort calls scope) rfl fun test => ?_
    split
    · exact Stmt.evalAll_cutShort calls scope .null consequence
    · exact Stmt.evalAll_cutShort calls scope .null alternative
  | .function _ _ => by
    rw [Expr.eval, Expr.eval]
    exact .silent fun _ => ⟨rfl, rfl⟩
  | .call function arguments => by
    rw [Expr.eval, Expr.eval]
    refine .unlessSignal (function.eval_cutShort calls scope) rfl fun callee => ?_
    refine (Expr.evalAll_cutShort calls scope arguments).bind rfl fun values => ?_
    cases values with
    | error signal => exact .value _
    | ok values => exact calls callee values
  | .array elements => by
    rw [Expr.eval, Expr.eval]
    refine (Expr.evalAll_cutShort calls scope elements).bind rfl fun values => ?_
    cases values with
    | error signal => exact .value _
    | ok values => exact .silent fun _ => ⟨rfl, rfl⟩
  | .index collection position => by
    rw [Expr.eval, Expr.eval]
    exact .unlessSignal (collection.eval_cutShort calls scope) rfl fun _ =>
      .unlessSignal (position.eval_cutShort calls scope) rfl fun _ => .value _

theorem Expr.evalAll_cutShort {short full : Invoke} (calls : short.CutShort full) (scope : ScopeId) :
    (exprs : List Expr) → CutShort (.error (.error .callsTooDeep)) (Expr.evalAll short scope exprs) (Expr.evalAll full scope exprs)
  | [] => by
    rw [Expr.evalAll, Expr.evalAll]
    exact .value _
  | expr :: exprs => by
    rw [Expr.evalAll, Expr.evalAll]
    refine .unlessSignal (expr.eval_cutShort calls scope) rfl fun value => ?_
    refine (Expr.evalAll_cutShort calls scope exprs).bind rfl fun values => ?_
    cases values <;> exact .value _

theorem Stmt.eval_cutShort {short full : Invoke} (calls : short.CutShort full) (scope : ScopeId) :
    (stmt : Stmt) → CutByLimit (stmt.eval short scope) (stmt.eval full scope)
  | .bind name value => by
    rw [Stmt.eval, Stmt.eval]
    exact .unlessSignal (value.eval_cutShort calls scope) rfl fun result => .silent fun _ => ⟨rfl, rfl⟩
  | .leave => by
    rw [Stmt.eval, Stmt.eval]
    exact .value _
  | .leaveWith value => by
    rw [Stmt.eval, Stmt.eval]
    exact .unlessSignal (value.eval_cutShort calls scope) rfl fun _ => .value _
  | .expr value => by
    rw [Stmt.eval, Stmt.eval]
    exact value.eval_cutShort calls scope
  | .block statements => by
    rw [Stmt.eval, Stmt.eval]
    exact Stmt.evalAll_cutShort calls scope .null statements

theorem Stmt.evalAll_cutShort {short full : Invoke} (calls : short.CutShort full) (scope : ScopeId) (result : Value) :
    (stmts : List Stmt) → CutByLimit (Stmt.evalAll short scope result stmts) (Stmt.evalAll full scope result stmts)
  | [] => by
    rw [Stmt.evalAll, Stmt.evalAll]
    exact .value _
  | stmt :: stmts => by
    rw [Stmt.evalAll, Stmt.evalAll]
    exact .unlessSignal (stmt.eval_cutShort calls scope) rfl fun value => Stmt.evalAll_cutShort calls scope value stmts

end

theorem Value.call_cutShort {runBody runBody' : ScopeId → List (String × Value) → List Stmt → Run Value}
    (bodies : ∀ captured bindings body, CutByLimit (runBody captured bindings body) (runBody' captured bindings body)) :
    Invoke.CutShort (Value.call runBody) (Value.call runBody') := by
  intro callee arguments
  cases callee with
  | builtin which => exact which.apply_cutShort arguments
  | function identity parameters body captured =>
    simp only [Value.call]
    split
    · exact bodies captured _ body
    · exact .value _
  | _ => exact .value _

theorem body_cutShort {short full : Invoke} (calls : short.CutShort full) (captured : ScopeId)
    (bindings : List (String × Value)) (body : List Stmt) :
    CutByLimit
      (do
        let scope ← Run.enclose captured
        Run.defineAll scope bindings
        return (← Stmt.evalAll short scope .null body).unwrap)
      (do
        let scope ← Run.enclose captured
        Run.defineAll scope bindings
        return (← Stmt.evalAll full scope .null body).unwrap) :=
  .afterStep (fun _ => ⟨rfl, rfl⟩) fun scope => .afterStep (defineAll_quiet scope bindings) fun _ =>
    .unwrapped (Stmt.evalAll_cutShort calls scope .null body)

/-- The induction is on the higher limit. Where the lower one forbids a call, the other still may print. -/
theorem invoke_cutShort {short full : Nat} (less : short ≤ full) : (invoke short).CutShort (invoke full) := by
  induction full generalizing short with
  | zero =>
    obtain rfl := Nat.le_zero.mp less
    exact Value.call_cutShort fun _ _ _ => .value _
  | succ full ih =>
    cases short with
    | zero =>
      refine Value.call_cutShort fun captured bindings body => ?_
      have grows := (body_cutShort (ih (Nat.le_refl full)) captured bindings body).grows
      exact ⟨grows, fun world => Or.inr ⟨rfl, grows world⟩⟩
    | succ short =>
      exact Value.call_cutShort fun captured bindings body =>
        body_cutShort (ih (Nat.le_of_succ_le_succ less)) captured bindings body

theorem Node.eval_cutShort {short full : Nat} (less : short ≤ full) (scope : ScopeId) :
    (node : Node) → CutByLimit (node.eval short scope) (node.eval full scope)
  | .program whole => .unwrapped (Stmt.evalAll_cutShort (invoke_cutShort less) scope .null whole.statements)
  | .stmt part => part.eval_cutShort (invoke_cutShort less) scope
  | .expr part => part.eval_cutShort (invoke_cutShort less) scope

/-- What a run from `world` under a lower limit is, compared with the run under a higher one: the same, with the same
value, output and scopes, or one that failed for its limit after printing the first lines of the other. -/
def OnlyCut (world : World) (short full : Value × World) : Prop :=
  short = full ∨
    short.1 = .error .callsTooDeep ∧ ∃ lines more, short.2.printed.toList = world.printed.toList ++ lines ∧
      full.2.printed.toList = world.printed.toList ++ lines ++ more

/-- Evaluation stays on its host. -/
theorem Node.eval_host (node : Node) (depth : Nat) (scope : ScopeId) (world : World) :
    (node.eval depth scope world).2.host = world.host :=
  ((node.eval_cutShort (Nat.le_refl depth) scope).grows world).host

theorem Program.eval_host (program : Program) (depth : Nat) (scope : ScopeId) (world : World) :
    (program.eval depth scope world).2.host = world.host := (Node.program program).eval_host depth scope world

theorem Node.eval_onlyCut {short full : Nat} (less : short ≤ full) (scope : ScopeId) (node : Node) (world : World) :
    OnlyCut world (node.eval short scope world) (node.eval full scope world) := by
  refine (node.eval_cutShort less scope |>.agrees world).imp_right fun ⟨cut, fewer⟩ => ⟨cut, ?_⟩
  obtain ⟨⟨lines, printed⟩, -⟩ := (node.eval_cutShort (Nat.le_refl short) scope).grows world
  obtain ⟨⟨more, further⟩, -⟩ := fewer
  exact ⟨lines, more, printed.symm, by rw [printed, further]⟩

theorem Node.evaluate?_of_grants {limit : Int} {world : World} (granted : world.host.Grants limit) (node : Node)
    (scope : ScopeId) : node.evaluate? limit scope world = some (node.eval (min limit.toNat world.host.calls) scope world) := by
  rw [evaluate?, Host.allowedCalls?, if_pos granted]
  rfl

theorem Node.evaluate?_of_nonneg {limit : Int} (positive : 0 ≤ limit) (node : Node) (scope : ScopeId) (world : World) :
    node.evaluate? limit scope world = some (node.eval (min limit.toNat world.host.calls) scope world) :=
  evaluate?_of_grants (world.host.grants_of_nonneg positive) node scope

theorem Program.evaluate?_of_nonneg {limit : Int} (positive : 0 ≤ limit) (program : Program) (scope : ScopeId) (world : World) :
    program.evaluate? limit scope world = some (program.eval (min limit.toNat world.host.calls) scope world) :=
  Node.evaluate?_of_nonneg positive (.program program) scope world

/-- A lower limit on calls changes nothing but where a run ends: it is the run under the higher limit, or fails with the
error that the limit was reached. Limits are compared as evaluation has them and as callers state them. -/
theorem Program.eval_limit_only_cuts (program : Program) (scope : ScopeId) (world : World) :
    (∀ depth depth', depth ≤ depth' → OnlyCut world (program.eval depth scope world) (program.eval depth' scope world)) ∧
      (∀ limit limit', 0 ≤ limit → limit ≤ limit' → ∃ short full, program.evaluate? limit scope world = some short ∧
        program.evaluate? limit' scope world = some full ∧ OnlyCut world short full) ∧
      Fault.callsTooDeep.message = "maximum recursion depth exceeded" := by
  refine ⟨fun depth depth' less => Node.eval_onlyCut less scope _ world, fun limit limit' positive less => ?_, rfl⟩
  exact ⟨_, _, program.evaluate?_of_nonneg positive scope world,
    program.evaluate?_of_nonneg (Int.le_trans positive less) scope world, Node.eval_onlyCut (by omega) scope _ world⟩

/-- A function that prints its argument and calls itself with the argument below it. One call is too few for it. -/
theorem countdown_limit_only_cuts :
    let countdown : Program := ⟨[
      .bind "f" (.function ["n"] [.expr (.call (.name "print") [.name "n"]),
        .expr (.ifElse (.binary (.name "n") .equal (.integer 0)) [.expr (.name "n")]
          [.expr (.call (.name "f") [.binary (.name "n") .subtract (.integer 1)])])]),
      .expr (.call (.name "f") [.integer 1])]⟩
    let world := World.initial .usual
    let short := countdown.eval 1 World.root world
    let full := countdown.eval 2 World.root world
    OnlyCut world short full ∧ short.1.inspect = "ERROR: maximum recursion depth exceeded" ∧
      short.2.printed = #["1"] ∧ full.1.inspect = "0" ∧ full.2.printed = #["1", "0"] := by
  intro countdown world short full
  have cut := (Program.eval_limit_only_cuts countdown World.root world).1 1 2 (by decide)
  exact ⟨cut, by decide +kernel, by decide +kernel, by decide +kernel, by decide +kernel⟩

end Treewalk
