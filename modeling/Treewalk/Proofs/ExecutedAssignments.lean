import Treewalk.Proofs.Moments

/-! The frame law of lexical scoping. What evaluation does to scopes from before is known up to their values; of these, a
scope other than the one evaluated in has one replaced only by an assignment that was carried out meanwhile: an assignment
expression that evaluation came to, in the same body or in one that a call entered, whose own expression ended with the value,
and from which the nearest scope that bound the name was that scope. -/

namespace Treewalk

/-- An assignment begins at this moment. Its expression ends with the value, and then the nearest scope that binds the name
is this one. -/
inductive Moment.Writes (id : ScopeId) (name : String) (value : Value) : Moment → Prop where
  | assign {depth : Nat} {scope : ScopeId} {expr : Expr} {start middle : World}
    (passed : Expr.Passes depth scope expr start value middle) (found : middle.heap.owner? scope name = some id) :
    Writes id name value ⟨depth, scope, .expr (.assign name expr), start⟩

/-- The name is given the value in the scope by an assignment that begins at one of these moments. -/
def Assigned (moments : Moment → Prop) (id : ScopeId) (name : String) (value : Value) : Prop :=
  ∃ moment, moments moment ∧ moment.Writes id name value

/-- The bodies that a call enters, and whatever evaluation comes to in them. -/
def Moment.DuringCall (depth : Nat) (callee : Value) (arguments : List Value) (there : World) (moment : Moment) : Prop :=
  ∃ body, Enters depth callee arguments there body ∧ moment.During body

theorem Moment.closed_duringCall (depth : Nat) (callee : Value) (arguments : List Value) (there : World) :
    Closed (DuringCall depth callee arguments there) :=
  fun _ _ ⟨body, entered, during⟩ step => ⟨body, entered, .head step during⟩

/-- From one world to the next, a scope that is there keeps what it binds the name to, or has it assigned. -/
structure World.Tracks (moments : Moment → Prop) (id : ScopeId) (name : String) (before after : World) : Prop where
  there : id < after.heap.scopes.size
  value : after.heap.own? id name = before.heap.own? id name ∨
    ∃ value, after.heap.own? id name = some value ∧ Assigned moments id name value

section

variable {moments : Moment → Prop} {id : ScopeId} {name : String} {before middle after : World}

namespace World.Tracks

theorem of_same (there : id < after.heap.scopes.size) (same : after.heap.own? id name = before.heap.own? id name) :
    before.Tracks moments id name after :=
  ⟨there, Or.inl same⟩

theorem trans (first : before.Tracks moments id name middle) (second : middle.Tracks moments id name after) :
    before.Tracks moments id name after := by
  refine ⟨second.there, ?_⟩
  rcases second.value with same | assigned
  · exact same ▸ first.value
  · exact Or.inr assigned

theorem bind {α β : Type} {first : Run α} {next : α → Run β} (head : before.Tracks moments id name (first before).2)
    (tail : ∀ value middle, first before = (value, middle) → id < middle.heap.scopes.size →
      middle.Tracks moments id name (next value middle).2) :
    before.Tracks moments id name ((first >>= next) before).2 :=
  head.trans (tail _ _ rfl head.there)

/-- What comes behind a signal has no part in it. -/
theorem unlessSignal {α : Type} {first : Run Value} {next : Value → Run α} {skip : Value → α}
    (head : before.Tracks moments id name (first before).2)
    (tail : ∀ value middle, first before = (value, middle) → value.isSignal = false → id < middle.heap.scopes.size →
      middle.Tracks moments id name (next value middle).2) :
    before.Tracks moments id name
      ((first >>= fun value => if value.isSignal then pure (skip value) else next value) before).2 := by
  refine head.bind fun value middle ends there => ?_
  cases signal : value.isSignal with
  | true => exact .of_same there rfl
  | false => exact tail value middle ends signal there

theorem lookup (there : id < before.heap.scopes.size) (scope : ScopeId) (wanted : String) :
    before.Tracks moments id name (Run.lookup scope wanted before).2 :=
  .of_same there rfl

theorem define (there : id < before.heap.scopes.size) {scope : ScopeId} (elsewhere : scope ≠ id) (bound : String) (value : Value) :
    before.Tracks moments id name (Run.define scope bound value before).2 :=
  .of_same (by simpa [Run.define] using there) (Heap.own?_define_of_ne elsewhere bound value name)

/-- The only step that replaces a value, and the assignment that it belongs to. -/
theorem assign (there : id < before.heap.scopes.size) {scope : ScopeId} {target : String} {value : Value}
    (begins : before.heap.owner? scope target = some id → Assigned moments id target value) :
    before.Tracks moments id name (Run.assign scope target value before).2 := by
  unfold Run.assign
  cases assigned : before.heap.assign? scope target value with
  | none => exact .of_same there rfl
  | some heap =>
    obtain ⟨owner, found, rfl⟩ := Heap.assign?_eq_some_iff.mp assigned
    refine ⟨by simpa using there, ?_⟩
    by_cases here : owner = id ∧ target = name
    · obtain ⟨rfl, rfl⟩ := here
      exact Or.inr ⟨value, by simp [Heap.own?_define, there], begins found⟩
    · exact Or.inl (by rw [Heap.own?_define, if_neg fun hit => here ⟨hit.1, hit.2.1⟩])

end World.Tracks

/-- Calls change other scopes by assignments only, provided that the bodies they enter are among the moments. -/
def Invoke.Tracks (moments : Moment → Prop) (id : ScopeId) (name : String) (depth : Nat) : Prop :=
  ∀ callee arguments (world : World), id < world.heap.scopes.size →
    (∀ body, Enters depth callee arguments world body → moments body) →
    world.Tracks moments id name (invoke depth callee arguments world).2

variable {depth : Nat} {scope : ScopeId}

mutual

theorem Expr.eval_tracks (closed : Moment.Closed moments) (calls : Invoke.Tracks moments id name depth) (elsewhere : scope ≠ id) :
    (expr : Expr) → (world : World) → id < world.heap.scopes.size → moments ⟨depth, scope, .expr expr, world⟩ →
      world.Tracks moments id name (expr.eval (invoke depth) scope world).2
  | .name wanted, world, there, _ => by
    rw [Expr.eval]
    exact .lookup there scope wanted
  | .integer _, _, there, _ | .string _, _, there, _ | .boolean _, _, there, _ | .function _ _, _, there, _ => by
    rw [Expr.eval]
    exact .of_same there rfl
  | .unary op operand, world, there, now => by
    rw [Expr.eval]
    refine .unlessSignal (operand.eval_tracks closed calls elsewhere world there (closed now (.part (.operand .itself_expr))))
      fun _ _ _ _ there => .of_same there rfl
  | .binary left op right, world, there, now => by
    rw [Expr.eval]
    refine .unlessSignal (left.eval_tracks closed calls elsewhere world there (closed now (.part (.left .itself_expr))))
      fun first middle passed plain there => ?_
    refine .unlessSignal (right.eval_tracks closed calls elsewhere middle there
      (closed now (.part (.right ⟨passed, plain⟩ .itself_expr)))) fun _ _ _ _ there => .of_same there rfl
  | .assign target value, world, there, now => by
    rw [Expr.eval]
    refine .unlessSignal (value.eval_tracks closed calls elsewhere world there (closed now (.part (.assigned .itself_expr))))
      fun result middle passed plain there => ?_
    exact .assign there fun found => ⟨_, now, .assign ⟨passed, plain⟩ found⟩
  | .ifThen condition consequence, world, there, now => by
    rw [Expr.eval]
    refine .unlessSignal (condition.eval_tracks closed calls elsewhere world there
      (closed now (.part (.onlyCondition .itself_expr)))) fun test middle passed plain there => ?_
    split
    next holds =>
      have body := closed now (.part (.onlyConsequence ⟨passed, plain⟩ holds .itself_stmt))
      exact Stmt.evalAll_tracks closed calls elsewhere rfl consequence middle there (closed.block body)
    next => exact .of_same there rfl
  | .ifElse condition consequence alternative, world, there, now => by
    rw [Expr.eval]
    refine .unlessSignal (condition.eval_tracks closed calls elsewhere world there
      (closed now (.part (.condition .itself_expr)))) fun test middle passed plain there => ?_
    split
    next holds =>
      have body := closed now (.part (.consequence ⟨passed, plain⟩ holds .itself_stmt))
      exact Stmt.evalAll_tracks closed calls elsewhere rfl consequence middle there (closed.block body)
    next fails =>
      have body := closed now (.part (.alternative ⟨passed, plain⟩ (Bool.eq_false_iff.mpr fails) .itself_stmt))
      exact Stmt.evalAll_tracks closed calls elsewhere rfl alternative middle there (closed.block body)
  | .call function arguments, world, there, now => by
    rw [Expr.eval]
    refine .unlessSignal (function.eval_tracks closed calls elsewhere world there (closed now (.part (.callee .itself_expr))))
      fun callee middle passed plain there => ?_
    refine .bind (Expr.evalAll_tracks closed calls elsewhere arguments middle there (closed.arguments now ⟨passed, plain⟩))
      fun values later evaluated there => ?_
    cases values with
    | error signal => exact .of_same there rfl
    | ok values => exact calls callee values later there fun body entered => closed now (.body ⟨passed, plain⟩ evaluated entered)
  | .array elements, world, there, now => by
    rw [Expr.eval]
    refine .bind (Expr.evalAll_tracks closed calls elsewhere elements world there (closed.elements now))
      fun values later _ there => ?_
    cases values <;> exact .of_same there rfl
  | .index collection position, world, there, now => by
    rw [Expr.eval]
    refine .unlessSignal (collection.eval_tracks closed calls elsewhere world there
      (closed now (.part (.collection .itself_expr)))) fun whole middle passed plain there => ?_
    refine .unlessSignal (position.eval_tracks closed calls elsewhere middle there
      (closed now (.part (.position ⟨passed, plain⟩ .itself_expr)))) fun _ _ _ _ there => .of_same there rfl

/-- Each of the expressions is evaluated behind the values of those in front of it. -/
theorem Expr.evalAll_tracks (closed : Moment.Closed moments) (calls : Invoke.Tracks moments id name depth)
    (elsewhere : scope ≠ id) : (exprs : List Expr) → (world : World) → id < world.heap.scopes.size →
      Expr.AllAmong moments depth scope exprs world →
      world.Tracks moments id name (Expr.evalAll (invoke depth) scope exprs world).2
  | [], _, there, _ => by
    rw [Expr.evalAll]
    exact .of_same there rfl
  | expr :: exprs, world, there, now => by
    rw [Expr.evalAll]
    refine .unlessSignal (expr.eval_tracks closed calls elsewhere world there (now [] expr exprs [] world rfl rfl))
      fun value middle passed plain there => ?_
    refine .bind (Expr.evalAll_tracks closed calls elsewhere exprs middle there (now.tail passed plain)) fun values _ _ there => ?_
    cases values <;> exact .of_same there rfl

theorem Stmt.eval_tracks (closed : Moment.Closed moments) (calls : Invoke.Tracks moments id name depth) (elsewhere : scope ≠ id) :
    (stmt : Stmt) → (world : World) → id < world.heap.scopes.size → moments ⟨depth, scope, .stmt stmt, world⟩ →
      world.Tracks moments id name (stmt.eval (invoke depth) scope world).2
  | .bind bound value, world, there, now => by
    rw [Stmt.eval]
    refine .unlessSignal (value.eval_tracks closed calls elsewhere world there (closed now (.part (.bound .itself_expr))))
      fun result middle _ _ there => ?_
    exact .bind (.define there elsewhere bound result) fun _ _ _ there => .of_same there rfl
  | .leave, _, there, _ => by
    rw [Stmt.eval]
    exact .of_same there rfl
  | .leaveWith value, world, there, now => by
    rw [Stmt.eval]
    exact .unlessSignal (value.eval_tracks closed calls elsewhere world there (closed now (.part (.leaving .itself_expr))))
      fun _ _ _ _ there => .of_same there rfl
  | .expr value, world, there, now => by
    rw [Stmt.eval]
    exact value.eval_tracks closed calls elsewhere world there (closed now (.part (.expression .itself_expr)))
  | .block statements, world, there, now => by
    rw [Stmt.eval]
    exact Stmt.evalAll_tracks closed calls elsewhere rfl statements world there (closed.block now)

theorem Stmt.evalAll_tracks (closed : Moment.Closed moments) (calls : Invoke.Tracks moments id name depth)
    (elsewhere : scope ≠ id) {result : Value} (calm : result.isSignal = false) : (stmts : List Stmt) → (world : World) →
      id < world.heap.scopes.size → Stmt.AllAmong moments depth scope result stmts world →
      world.Tracks moments id name (Stmt.evalAll (invoke depth) scope result stmts world).2
  | [], _, there, _ => by
    rw [Stmt.evalAll]
    exact .of_same there rfl
  | stmt :: stmts, world, there, now => by
    rw [Stmt.evalAll]
    refine .unlessSignal (stmt.eval_tracks closed calls elsewhere world there (now [] stmt stmts result world rfl rfl calm))
      fun value middle passed plain there => ?_
    exact Stmt.evalAll_tracks closed calls elsewhere plain stmts middle there (now.tail passed plain)

end

/-! ### Calls -/

theorem Value.call_tracks {runBody : ScopeId → List (String × Value) → List Stmt → Run Value} {callee : Value}
    {arguments : List Value} (there : id < before.heap.scopes.size)
    (bodies : ∀ identity parameters body captured, callee = .function identity parameters body captured →
      arguments.length = parameters.length →
      before.Tracks moments id name (runBody captured (parameters.zip arguments) body before).2) :
    before.Tracks moments id name (Value.call runBody callee arguments before).2 := by
  cases callee with
  | builtin which =>
    obtain ⟨identity, lines, effect⟩ := which.apply_leavesScopes arguments before
    rw [Value.call, effect]
    exact .of_same there rfl
  | function identity parameters body captured =>
    simp only [Value.call]
    split
    next enough => exact bodies identity parameters body captured rfl enough
    next => exact .of_same there rfl
  | _ => exact .of_same there rfl

theorem World.enter_tracks (there : id < before.heap.scopes.size) (captured : ScopeId) (bindings : List (String × Value)) :
    before.Tracks moments id name (before.enter captured bindings) := by
  obtain ⟨size, -, others⟩ := Run.defineAll_heap before.heap.scopes.size bindings (Run.enclose captured before).2
  have larger : (Run.enclose captured before).2.heap.scopes.size = before.heap.scopes.size + 1 := Heap.size_enclose ..
  refine .of_same (Nat.lt_of_lt_of_eq (Nat.lt_succ_of_lt there) (size.trans larger).symm) ?_
  have untouched := (others id (Nat.ne_of_lt there)).trans (Heap.scopes_enclose_of_lt there _)
  simp only [Heap.own?, World.enter, untouched]

/-- A body runs in a scope that was not there before, so that its own declarations change no other one. The induction is on
the number of calls that may be inside each other. -/
theorem invoke_tracks (closed : Moment.Closed moments) : (depth : Nat) → Invoke.Tracks moments id name depth
  | 0, _, _, _, there, _ => Value.call_tracks there fun _ _ _ _ _ _ => .of_same there rfl
  | depth + 1, callee, arguments, world, there, entered => Value.call_tracks there <| by
    rintro identity parameters body captured rfl enough
    have ready : world.Tracks moments id name (world.enter captured (parameters.zip arguments)) :=
      World.enter_tracks there captured _
    exact ready.trans (Stmt.evalAll_tracks closed (invoke_tracks closed depth) (Nat.ne_of_gt there) rfl body _ ready.there
      (closed.block (entered _ (.body enough))))

theorem Node.eval_tracks (closed : Moment.Closed moments) (elsewhere : scope ≠ id) (world : World)
    (there : id < world.heap.scopes.size) : (node : Node) → moments ⟨depth, scope, node, world⟩ →
      world.Tracks moments id name (node.eval depth scope world).2
  | .program whole, now =>
    .bind (Stmt.evalAll_tracks closed (invoke_tracks closed depth) elsewhere rfl whole.statements world there
      (closed.block (closed now (.part (.program .itself_stmt))))) fun _ _ _ there => .of_same there rfl
  | .stmt part, now => part.eval_tracks closed (invoke_tracks closed depth) elsewhere world there now
  | .expr part, now => part.eval_tracks closed (invoke_tracks closed depth) elsewhere world there now

end

/-! ### The frame law -/

/-- What an evaluation in `scope` that comes to these moments leaves as it was before. -/
structure Heap.Framed (before : Heap) (scope : ScopeId) (declared : List String) (moments : Moment → Prop) (after : Heap) :
    Prop where
  links : ∀ id, id < before.scopes.size → after.outer? id = before.outer? id ∧ after.chain id = before.chain id
  older : ∀ id outer, after.outer? id = some outer → outer < id
  nested : ∀ id, before.scopes.size ≤ id → id < after.scopes.size → ∃ outer, after.outer? id = some outer
  finite : ∀ id, (after.chain id).Pairwise (· > ·)
  keeps : ∀ id name, before.Binds id name → after.Binds id name
  others : ∀ id, id < before.scopes.size → id ≠ scope → ∀ name, after.Binds id name ↔ before.Binds id name
  values : ∀ id, id < before.scopes.size → id ≠ scope → ∀ name, after.own? id name = before.own? id name ∨
    ∃ value, after.own? id name = some value ∧ Assigned moments id name value
  declares : scope < before.scopes.size → ∀ name, after.Binds scope name → before.Binds scope name ∨ name ∈ declared

theorem World.framed_of_tracks {before after : World} {scope : ScopeId} {declared : List String} {moments : Moment → Prop}
    (run : before.heap.Evolves scope declared after.heap)
    (tracks : ∀ id, id < before.heap.scopes.size → id ≠ scope → ∀ name, before.Tracks moments id name after) :
    before.heap.Framed scope declared moments after.heap where
  links _ old := ⟨run.outer? old, run.chain old⟩
  older _ _ := Heap.outer?_lt
  nested _ := run.linked
  finite := after.heap.chain_descends
  keeps _ _ := run.binds
  others _ old different _ :=
    ⟨fun bound => (run.binds_before old bound).resolve_right fun here => different here.1, run.binds⟩
  values id old different name := (tracks id old different name).value
  declares old _ bound := (run.binds_before old bound).imp_right And.right

/-- Evaluation in a scope is framed: links and chains stay as they are, no name is lost, only that scope gains names and
only those declared in the node outside functions, and elsewhere values change only by assignments that evaluation comes to.
Calls, whoever makes them and wherever, declare nothing in any scope that exists by then, and change values only by
assignments in the bodies they enter; a function has its parameters bound in a new scope and its body evaluated there. It
starts from complete worlds, as all reachable ones are, and leaves complete ones. -/
theorem Node.eval_framed (node : Node) (depth : Nat) {scope : ScopeId} {world : World} (complete : world.heap.Complete)
    (inside : scope < world.heap.scopes.size) :
    world.heap.Framed scope node.declared (·.During ⟨depth, scope, node, world⟩) (node.eval depth scope world).2.heap ∧
      (node.eval depth scope world).2.heap.Complete ∧
      (∀ depth callee arguments (there : World) here, there.heap.Complete → callee.Within there.heap.scopes.size →
        (∀ argument ∈ arguments, argument.Within there.heap.scopes.size) →
        there.heap.Framed here [] (Moment.DuringCall depth callee arguments there) (invoke depth callee arguments there).2.heap) ∧
      ∀ depth identity parameters body captured arguments (there : World), captured < there.heap.scopes.size →
        arguments.length = parameters.length →
        ∃ inside, there.Entered captured (parameters.zip arguments) inside ∧
          invoke (depth + 1) (.function identity parameters body captured) arguments there =
            ((Stmt.evalAll (invoke depth) there.heap.scopes.size .null body inside).1.unwrap,
              (Stmt.evalAll (invoke depth) there.heap.scopes.size .null body inside).2) := by
  have ran := node.eval_evolves depth inside world complete (Nat.le_refl _)
  refine ⟨World.framed_of_tracks ran.heap fun id old different name => ?_, ran.complete,
    fun depth callee arguments there here ready called given => ?_,
    fun depth identity parameters body captured arguments there older sized => ?_⟩
  · exact Node.eval_tracks (Moment.closed_during _) (Ne.symm different) world old node .refl
  · have called := invoke_evolves depth _ callee arguments here [] called given there ready (Nat.le_refl _)
    refine World.framed_of_tracks called.heap fun id old _ name => ?_
    exact invoke_tracks (Moment.closed_duringCall ..) depth callee arguments there old fun body entered => ⟨body, entered, .refl⟩
  · exact ⟨_, there.enter_entered older _, invoke_function sized there⟩

/-- A closure counts its calls in a variable of the program. A block in another scope calls it and gains the name that it
declares itself, but not the one that the function declares; the variable changes, by the assignment in the body. -/
theorem counting_program_framed :
    let body : List Stmt := [.bind "local" (.name "k"), .expr (.assign "n" (.binary (.name "n") .add (.name "local")))]
    let counter := Node.program ⟨[.bind "n" (.integer 0), .bind "bump" (.function ["k"] body),
      .expr (.call (.function [] []) [])]⟩
    let world := (counter.eval 1 World.root (.initial .usual)).2
    let caller := Node.program ⟨[.expr (.ifThen (.boolean true) [.bind "m" (.call (.name "bump") [.integer 5])])]⟩
    let after := (caller.eval 1 1 world).2
    world.heap.Complete ∧ 1 < world.heap.scopes.size ∧
      world.heap.Framed 1 ["m"] (·.During ⟨1, 1, caller, world⟩) after.heap ∧
      (∃ inside, world.Entered World.root [("k", .integer 5)] inside ∧
        invoke 1 (.function 0 ["k"] body World.root) [.integer 5] world =
          ((Stmt.evalAll (invoke 0) 2 .null body inside).1.unwrap, (Stmt.evalAll (invoke 0) 2 .null body inside).2)) ∧
      (∃ value, Assigned (·.During ⟨1, 1, caller, world⟩) World.root "n" value ∧ value.inspect = "5") ∧
      after.heap.Binds 1 "m" ∧ ¬ after.heap.Binds 1 "local" ∧ after.heap.Binds 2 "local" := by
  intro body counter world caller after
  have complete : world.heap.Complete :=
    (Heap.Reachable.eval (.initial .usual) counter 1 (by decide)).complete
  have there : 1 < world.heap.scopes.size := by decide
  obtain ⟨framed, -, -, enters⟩ := Node.eval_framed caller 1 complete there
  have counted : (after.heap.own? World.root "n").map Value.inspect = some "5" := by decide +kernel
  have assigned : ∃ value, Assigned (·.During ⟨1, 1, caller, world⟩) World.root "n" value ∧ value.inspect = "5" := by
    obtain same | ⟨value, found, assigned⟩ := framed.values World.root (Nat.lt_trans Nat.zero_lt_one there) (by decide) "n"
    · have before : (world.heap.own? World.root "n").map Value.inspect = some "0" := by decide
      exact absurd (before.symm.trans ((congrArg _ same.symm).trans counted)) (by decide)
    · exact ⟨value, assigned, Option.some.inj ((congrArg _ found.symm).trans counted)⟩
  exact ⟨complete, there, framed, enters 0 0 ["k"] body World.root [.integer 5] world (by decide) rfl, assigned,
    by decide +kernel, by decide +kernel, by decide +kernel⟩

end Treewalk
