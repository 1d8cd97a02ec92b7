import Mathlib.Data.Prod.Basic
import Mathlib.Order.RelClasses
import Treewalk.Proofs.CallDepth
import Treewalk.Proofs.ScopeLaws

/-! Evaluation ends. It is looked at here as a recursion that might go on: one step of it evaluates a node and is given the
recursion as a parameter, it counts the active calls itself, and it may have no result. Only a call leaves the tree at hand,
for a body that may come from anywhere, but there are fewer calls left for the body; every other step goes on with a part
of its node. So what a step asks for is below it in a lexicographic order, which carries the induction. -/

namespace Treewalk

/-! ### The order -/

mutual

/-- The number of nodes of a tree. Branches and bodies are blocks, which are nodes of their own. -/
def Expr.size : Expr → Nat
  | .name _ | .integer _ | .string _ | .boolean _ => 1
  | .unary _ operand => operand.size + 1
  | .binary left _ right => left.size + right.size + 1
  | .assign _ value => value.size + 1
  | .ifThen condition consequence => condition.size + (Stmt.sizeAll consequence + 1) + 1
  | .ifElse condition consequence alternative =>
    condition.size + ((Stmt.sizeAll consequence + 1) + (Stmt.sizeAll alternative + 1)) + 1
  | .function _ body => Stmt.sizeAll body + 1 + 1
  | .call function arguments => function.size + Expr.sizeAll arguments + 1
  | .array elements => Expr.sizeAll elements + 1
  | .index collection position => collection.size + position.size + 1

def Expr.sizeAll : List Expr → Nat
  | [] => 0
  | expr :: exprs => expr.size + Expr.sizeAll exprs

def Stmt.size : Stmt → Nat
  | .bind _ value => value.size + 1
  | .leave => 1
  | .leaveWith value => value.size + 1
  | .expr value => value.size + 1
  | .block statements => Stmt.sizeAll statements + 1

def Stmt.sizeAll : List Stmt → Nat
  | [] => 0
  | stmt :: stmts => stmt.size + Stmt.sizeAll stmts

end

def Node.size : Node → Nat
  | .program whole => Stmt.sizeAll whole.statements + 1
  | .stmt part => part.size
  | .expr part => part.size

/-- First the number of calls that are left counts, then the size of the node. Both nodes come with how many calls are
active when their evaluation begins. -/
def Descends (limit : Nat) : (inner outer : Nat × Node) → Prop :=
  InvImage (Prod.Lex (· < ·) (· < ·)) fun moment => (limit - moment.1, moment.2.size)

instance (limit : Nat) : DecidableRel (Descends limit) := fun _ _ => inferInstanceAs (Decidable (Prod.Lex _ _ _ _))

theorem descends_wellFounded (limit : Nat) : WellFounded (Descends limit) :=
  InvImage.wf _ (WellFounded.prod_lex Nat.lt_wfRel.wf Nat.lt_wfRel.wf)

section

variable {limit active : Nat} {node part : Node}

theorem descends_part (smaller : part.size < node.size) : Descends limit (active, part) (active, node) :=
  Prod.Lex.right _ smaller

/-- A body is as large as it likes. -/
theorem descends_body (allowed : active < limit) : Descends limit (active + 1, part) (active, node) :=
  Prod.Lex.left _ _ (Nat.sub_succ_lt_self limit active allowed)

end

/-! ### Evaluation step by step -/

/-- The world while calls are active in it. -/
structure Activity where
  world : World
  active : Nat

/-- A computation that just ends, in a world with active calls. -/
def Activity.run {α : Type} (activity : Activity) (run : Run α) : α × Activity :=
  ((run activity.world).1, { activity with world := (run activity.world).2 })

/-- A computation that need not end. It has no result then. -/
abbrev Effort := StateT Activity Option

namespace Effort

def primitive {α : Type} (run : Run α) : Effort α := fun activity => some (activity.run run)

def active : Effort Nat := fun activity => some (activity.active, activity)

/-- The body of a call. The call is active as long as the body is evaluated. -/
def counted (body : Effort Value) : Effort Value := do
  modify fun activity => { activity with active := activity.active + 1 }
  let result ← body
  modify fun activity => { activity with active := activity.active - 1 }
  return result.unwrap

end Effort

/-- How to evaluate a node. -/
abbrev Recursion := ScopeId → Node → Effort Value

namespace Recursion

/-- The values of expressions in order, or the first signal among them. -/
def inOrder (recur : Recursion) (scope : ScopeId) : List Expr → Effort (Except Value (List Value))
  | [] => return .ok []
  | expr :: exprs => do
    let value ← recur scope (.expr expr)
    if value.isSignal then return .error value
    else
      match ← recur.inOrder scope exprs with
      | .error signal => return .error signal
      | .ok values => return .ok (value :: values)

/-- The value of the last statement, or the first signal. -/
def each (recur : Recursion) (scope : ScopeId) (result : Value) : List Stmt → Effort Value
  | [] => return result
  | stmt :: stmts => do
    let value ← recur scope (.stmt stmt)
    if value.isSignal then return value else recur.each scope value stmts

/-- A call is refused if too many are active. -/
def call (limit : Nat) (recur : Recursion) (callee : Value) (values : List Value) : Effort Value :=
  match callee with
  | .builtin which => Effort.primitive (which.apply values)
  | .function _ parameters body captured =>
    if values.length = parameters.length then do
      if limit ≤ (← Effort.active) then return .error .callsTooDeep
      else
        let scope ← Effort.primitive (Run.enclose captured)
        Effort.primitive (Run.defineAll scope (parameters.zip values))
        Effort.counted (recur scope (.stmt (.block body)))
    else return .error (.wrongArguments parameters.length values.length)
  | other => return .error (.notAFunction other.kind)

end Recursion

/-- Evaluates a node, with the recursion as a parameter. -/
def Node.step (limit : Nat) (recur : Recursion) (scope : ScopeId) : Node → Effort Value
  | .program whole => return (← recur.each scope .null whole.statements).unwrap
  | .stmt (.bind name value) => do
    let result ← recur scope (.expr value)
    if result.isSignal then return result
    else
      Effort.primitive (Run.define scope name result)
      return .null
  | .stmt .leave => return .returned .null
  | .stmt (.leaveWith value) => do
    let result ← recur scope (.expr value)
    if result.isSignal then return result else return .returned result
  | .stmt (.expr value) => recur scope (.expr value)
  | .stmt (.block statements) => recur.each scope .null statements
  | .expr (.name name) => Effort.primitive (Run.lookup scope name)
  | .expr (.integer value) => return .integer value
  | .expr (.string text) => return .string text
  | .expr (.boolean value) => return .boolean value
  | .expr (.unary op operand) => do
    let value ← recur scope (.expr operand)
    if value.isSignal then return value else return op.apply value
  | .expr (.binary left op right) => do
    let first ← recur scope (.expr left)
    if first.isSignal then return first
    else
      let second ← recur scope (.expr right)
      if second.isSignal then return second else return op.apply first second
  | .expr (.assign name value) => do
    let result ← recur scope (.expr value)
    if result.isSignal then return result else Effort.primitive (Run.assign scope name result)
  | .expr (.ifThen condition consequence) => do
    let test ← recur scope (.expr condition)
    if test.isSignal then return test
    else if test.isTruthy then recur scope (.stmt (.block consequence))
    else return .null
  | .expr (.ifElse condition consequence alternative) => do
    let test ← recur scope (.expr condition)
    if test.isSignal then return test
    else if test.isTruthy then recur scope (.stmt (.block consequence))
    else recur scope (.stmt (.block alternative))
  | .expr (.function parameters body) =>
    Effort.primitive do return .function (← Run.freshIdentity) parameters body scope
  | .expr (.call function arguments) => do
    let callee ← recur scope (.expr function)
    if callee.isSignal then return callee
    else
      match ← recur.inOrder scope arguments with
      | .error signal => return signal
      | .ok values => recur.call limit callee values
  | .expr (.array elements) => do
    match ← recur.inOrder scope elements with
    | .error signal => return signal
    | .ok values => Effort.primitive (Run.freshArray values)
  | .expr (.index collection position) => do
    let whole ← recur scope (.expr collection)
    if whole.isSignal then return whole
    else
      let place ← recur scope (.expr position)
      if place.isSignal then return place else return whole.elementAt place

/-- The steps, as deep inside each other as there is room. -/
def evalWithin (limit : Nat) : (room : Nat) → Recursion
  | 0 => fun _ _ _ => none
  | room + 1 => fun scope node => node.step limit (evalWithin limit room) scope

/-- A recursion for the steps of one node only: it ends on what is below the node, and on nothing else. -/
def granted (limit active : Nat) (node : Node) : Recursion := fun scope part activity =>
  if Descends limit (activity.active, part) (active, node) then
    some (activity.run (part.eval (limit - activity.active) scope))
  else none

/-! ### Efforts that end -/

section

variable {α β : Type} {active : Nat}

/-- With enough room, the effort ends as the computation does, with as many active calls as before. -/
def Follows (active : Nat) (effort : (room : Nat) → Effort α) (run : Run α) : Prop :=
  ∀ world, ∃ room, ∀ more, effort (room + more) ⟨world, active⟩ = some (Activity.run ⟨world, active⟩ run)

namespace Follows

theorem value (result : α) : Follows active (fun _ => pure result) (pure result) := fun _ => ⟨0, fun _ => rfl⟩

theorem primitive (run : Run α) : Follows active (fun _ => Effort.primitive run) run := fun _ => ⟨0, fun _ => rfl⟩

theorem bind {first : Nat → Effort α} {next : Nat → α → Effort β} {head : Run α} {tail : α → Run β}
    (heads : Follows active first head) (tails : ∀ result, Follows active (fun room => next room result) (tail result)) :
    Follows active (fun room => first room >>= next room) (head >>= tail) := by
  intro world
  obtain ⟨room, ends⟩ := heads world
  obtain ⟨room', ends'⟩ := tails (head world).1 (head world).2
  refine ⟨room + room', fun more => ?_⟩
  have here := ends (room' + more)
  have behind := ends' (room + more)
  rw [← Nat.add_assoc] at here
  rw [← Nat.add_assoc, Nat.add_comm room'] at behind
  change (first _ _).bind (fun ended => next _ ended.1 ended.2) = _
  rw [here]
  exact behind

theorem unlessSignal {first : Nat → Effort Value} {next : Nat → Value → Effort α} {skip : Value → α} {head : Run Value}
    {tail : Value → Run α} (heads : Follows active first head)
    (tails : ∀ result, Follows active (fun room => next room result) (tail result)) :
    Follows active (fun room => first room >>= fun result => if result.isSignal then pure (skip result) else next room result)
      (head >>= fun result => if result.isSignal then pure (skip result) else tail result) := by
  refine heads.bind fun result => ?_
  split
  · exact value _
  · exact tails result

theorem reading {next : Nat → Nat → Effort α} {run : Run α} (goes : Follows active (fun room => next room active) run) :
    Follows active (fun room => Effort.active >>= next room) run := goes

theorem counted {body : Nat → Effort Value} {run : Run Value} (inside : Follows (active + 1) body run) :
    Follows active (fun room => Effort.counted (body room)) (do return (← run).unwrap) := by
  intro world
  obtain ⟨room, ends⟩ := inside world
  refine ⟨room, fun more => ?_⟩
  change ((body (room + more)) ⟨world, active + 1⟩).bind _ = _
  rw [ends]
  rfl

/-- A step that the room does not count. -/
theorem later {effort : Nat → Effort α} {run : Run α} (next : Follows active (fun room => effort (room + 1)) run) :
    Follows active effort run := by
  intro world
  obtain ⟨room, ends⟩ := next world
  refine ⟨room + 1, fun more => ?_⟩
  rw [Nat.add_right_comm]
  exact ends more

end Follows

end

variable {limit active : Nat} {recur : Nat → Recursion}

/-- The recursion ends as evaluation does, on nodes below a size and on the bodies that one call more may enter. -/
structure FollowsBelow (limit active size : Nat) (recur : Nat → Recursion) : Prop where
  part : ∀ (part : Node) (scope : ScopeId), part.size < size →
    Follows active (fun room => recur room scope part) (part.eval (limit - active) scope)
  body : active < limit → ∀ (body : List Stmt) (scope : ScopeId),
    Follows (active + 1) (fun room => recur room scope (.stmt (.block body)))
      (Stmt.evalAll (invoke (limit - (active + 1))) scope .null body)

namespace FollowsBelow

variable {size : Nat} (below : FollowsBelow limit active size recur) (scope : ScopeId)
include below

theorem expr (part : Expr) (smaller : part.size < size) :
    Follows active (fun room => recur room scope (.expr part)) (part.eval (invoke (limit - active)) scope) :=
  below.part (.expr part) scope smaller

theorem stmt (part : Stmt) (smaller : part.size < size) :
    Follows active (fun room => recur room scope (.stmt part)) (part.eval (invoke (limit - active)) scope) :=
  below.part (.stmt part) scope smaller

theorem inOrder (exprs : List Expr) (smaller : Expr.sizeAll exprs < size) :
    Follows active (fun room => (recur room).inOrder scope exprs) (Expr.evalAll (invoke (limit - active)) scope exprs) := by
  induction exprs with
  | nil => exact .value _
  | cons first rest ih =>
    simp only [Expr.sizeAll] at smaller
    simp only [Recursion.inOrder, Expr.evalAll]
    refine (below.expr scope first (by omega)).unlessSignal fun value => (ih (by omega)).bind fun values => ?_
    cases values <;> exact .value _

theorem each (result : Value) (stmts : List Stmt) (smaller : Stmt.sizeAll stmts < size) :
    Follows active (fun room => (recur room).each scope result stmts)
      (Stmt.evalAll (invoke (limit - active)) scope result stmts) := by
  induction stmts generalizing result with
  | nil => exact .value _
  | cons first rest ih =>
    simp only [Stmt.sizeAll] at smaller
    simp only [Recursion.each, Stmt.evalAll]
    exact (below.stmt scope first (by omega)).unlessSignal fun value => ih value (by omega)

omit scope in
/-- A call asks for nothing but the body, and not even for that if no more calls may be active. -/
theorem call (callee : Value) (values : List Value) :
    Follows active (fun room => (recur room).call limit callee values) (invoke (limit - active) callee values) := by
  cases callee with
  | builtin which => cases limit - active <;> exact .primitive _
  | function identity parameters body captured =>
    by_cases enough : values.length = parameters.length
    · simp only [Recursion.call, enough, if_true]
      refine .reading ?_
      rcases Nat.lt_or_ge active limit with allowed | beyond
      · -- `invoke` counts down the calls that are left, an effort counts up the active ones.
        have left : limit - active = limit - (active + 1) + 1 := by omega
        simp only [left, invoke, Value.call, enough, if_true, Nat.not_le.mpr allowed, if_false]
        refine (Follows.primitive _).bind fun inner => (Follows.primitive _).bind fun _ => ?_
        exact (below.body allowed body inner).counted
      · simp only [Nat.sub_eq_zero_of_le beyond, invoke, Value.call, enough, if_true, beyond]
        exact .value _
    · simp only [Recursion.call, enough, if_false]
      cases limit - active <;> simp only [invoke, Value.call, enough, if_false] <;> exact .value _
  | _ => cases limit - active <;> exact .value _

end FollowsBelow

theorem Stmt.step_follows {stmt : Stmt} (below : FollowsBelow limit active stmt.size recur) (scope : ScopeId) :
    Follows active (fun room => (Node.stmt stmt).step limit (recur room) scope) (stmt.eval (invoke (limit - active)) scope) := by
  cases stmt with
  | bind name value =>
    refine (below.expr scope value (Nat.lt_succ_self _)).unlessSignal fun result => ?_
    exact (Follows.primitive _).bind fun _ => .value _
  | leave => exact .value _
  | leaveWith value => exact (below.expr scope value (Nat.lt_succ_self _)).unlessSignal fun _ => .value _
  | expr value => exact below.expr scope value (Nat.lt_succ_self _)
  | block statements => exact below.each scope .null statements (Nat.lt_succ_self _)

theorem Expr.step_follows {expr : Expr} (below : FollowsBelow limit active expr.size recur) (scope : ScopeId) :
    Follows active (fun room => (Node.expr expr).step limit (recur room) scope) (expr.eval (invoke (limit - active)) scope) := by
  cases expr with
  | name | function => exact .primitive _
  | integer | string | boolean => exact .value _
  | unary op operand => exact (below.expr scope operand (Nat.lt_succ_self _)).unlessSignal fun _ => .value _
  | binary left op right =>
    refine (below.expr scope left (Nat.lt_succ_of_le (Nat.le_add_right _ _))).unlessSignal fun first => ?_
    exact (below.expr scope right (Nat.lt_succ_of_le (Nat.le_add_left _ _))).unlessSignal fun second => .value _
  | assign name value => exact (below.expr scope value (Nat.lt_succ_self _)).unlessSignal fun _ => .primitive _
  | ifThen condition consequence =>
    refine (below.expr scope condition (Nat.lt_succ_of_le (Nat.le_add_right _ _))).unlessSignal fun test => ?_
    split
    · exact below.stmt scope (.block consequence) (Nat.lt_succ_of_le (Nat.le_add_left _ _))
    · exact .value _
  | ifElse condition consequence alternative =>
    refine (below.expr scope condition (Nat.lt_succ_of_le (Nat.le_add_right _ _))).unlessSignal fun test => ?_
    split
    · exact below.stmt scope (.block consequence) (Nat.lt_succ_of_le (Nat.le_add_left_of_le (Nat.le_add_right _ _)))
    · exact below.stmt scope (.block alternative) (Nat.lt_succ_of_le (Nat.le_add_left_of_le (Nat.le_add_left _ _)))
  | call function arguments =>
    refine (below.expr scope function (Nat.lt_succ_of_le (Nat.le_add_right _ _))).unlessSignal fun callee => ?_
    refine (below.inOrder scope arguments (Nat.lt_succ_of_le (Nat.le_add_left _ _))).bind fun values => ?_
    cases values with
    | error signal => exact .value _
    | ok values => exact below.call callee values
  | array elements =>
    refine (below.inOrder scope elements (Nat.lt_succ_self _)).bind fun values => ?_
    cases values with
    | error signal => exact .value _
    | ok values => exact .primitive _
  | index collection position =>
    refine (below.expr scope collection (Nat.lt_succ_of_le (Nat.le_add_right _ _))).unlessSignal fun whole => ?_
    exact (below.expr scope position (Nat.lt_succ_of_le (Nat.le_add_left _ _))).unlessSignal fun place => .value _

/-- A step ends as evaluation does if the recursion it is given does so on what is below the node. -/
theorem Node.step_follows {node : Node} (scope : ScopeId)
    (follows : ∀ active' part scope, Descends limit (active', part) (active, node) →
      Follows active' (fun room => recur room scope part) (part.eval (limit - active') scope)) :
    Follows active (fun room => node.step limit (recur room) scope) (node.eval (limit - active) scope) := by
  have below : FollowsBelow limit active node.size recur :=
    { part := fun part scope smaller => follows active part scope (descends_part smaller)
      body := fun allowed body scope => follows (active + 1) (.stmt (.block body)) scope (descends_body allowed) }
  cases node with
  | program whole => exact (below.each scope .null whole.statements (Nat.lt_succ_self _)).bind fun _ => .value _
  | stmt stmt => exact stmt.step_follows below scope
  | expr expr => exact expr.step_follows below scope

/-- The recursion that is granted to a step is enough for it. It is the same one in every room. -/
theorem Node.step_granted (node : Node) (scope : ScopeId) (activity : Activity) :
    node.step limit (granted limit activity.active node) scope activity =
      some (activity.run (node.eval (limit - activity.active) scope)) := by
  have follows : Follows activity.active (fun _ => node.step limit (granted limit activity.active node) scope)
      (node.eval (limit - activity.active) scope) :=
    node.step_follows scope fun active' part scope below world => ⟨0, fun _ => if_pos below⟩
  obtain ⟨room, ends⟩ := follows activity.world
  exact ends 0

/-- The induction is on the order, not on the room: how much room there has to be is only known from behind. -/
theorem evalWithin_follows (moment : Nat × Node) (scope : ScopeId) :
    Follows moment.1 (fun room => evalWithin limit room scope moment.2) (moment.2.eval (limit - moment.1) scope) := by
  induction moment using (descends_wellFounded limit).induction generalizing scope with
  | _ moment ih =>
    refine Follows.later (Node.step_follows scope fun active' part scope below => ?_)
    exact ih (active', part) below scope

namespace Heap

/-! ### Walks along scopes -/

/-- Looks for a scope that binds a name, going outward for so many steps. There is no result if the walk goes on after them.
Links may lead anywhere here. -/
def seek (scopes : Array Scope) (name : String) : (steps : Nat) → Option ScopeId → Option (Option ScopeId)
  | 0, _ => none
  | _ + 1, none => some none
  | steps + 1, some id =>
    match scopes[id]? with
    | none => some none
    | some scope => if (scope.bindings.get? name).isSome then some (some id) else seek scopes name steps scope.outer

/-- Looks a name up in so many steps. -/
def getWithin (heap : Heap) (steps : Nat) (id : ScopeId) (name : String) : Option (Option Value) :=
  (seek heap.scopes name steps (some id)).map fun owner? => owner?.bind fun owner => heap.own? owner name

/-- Gives a bound name another value in so many steps. -/
def assignWithin (heap : Heap) (steps : Nat) (id : ScopeId) (name : String) (value : Value) : Option (Option Heap) :=
  (seek heap.scopes name steps (some id)).map fun owner? => owner?.map fun owner => heap.define owner name value

/-- There are no more scopes on the way than were created up to the first one. -/
theorem seek_ends (heap : Heap) (id : ScopeId) (name : String) (more : Nat) :
    seek heap.scopes name (id + 2 + more) (some id) = some (heap.owner? id name) := by
  induction id using Nat.strongRecOn generalizing more with
  | ind id ih =>
    rw [show id + 2 + more = id + more + 1 + 1 by omega, seek, owner?_eq]
    cases found : heap.scopes[id]? with
    | none => simp [Binds, own?, outer?, found]
    | some scope =>
      simp only [Binds, own?, outer?, found, Option.bind_some]
      split
      · rfl
      · cases linked : scope.outer with
        | none => rfl
        | some outer =>
          have earlier : outer < id := heap.outer_lt found linked
          obtain ⟨between, rfl⟩ := Nat.exists_eq_add_of_lt earlier
          have shorter (first second : Nat) : first + second + 1 + more + 1 = first + 2 + (second + more) := by omega
          rw [shorter, ih outer earlier, Option.bind_some]

theorem getWithin_ends (heap : Heap) (id : ScopeId) (name : String) (more : Nat) :
    heap.getWithin (id + 2 + more) id name = some (heap.get? id name) := by
  rw [getWithin, seek_ends]
  rfl

theorem assignWithin_ends (heap : Heap) (id : ScopeId) (name : String) (value : Value) (more : Nat) :
    heap.assignWithin (id + 2 + more) id name value = some (heap.assign? id name value) := by
  rw [assignWithin, seek_ends]
  rfl

end Heap

/-- Evaluation ends, whatever is evaluated and whatever the scopes hold, under any limit on calls. Every step goes down in a
well-founded order, in which the calls that are left come before the size of the node: it gets on with a recursion that only
ends below the node. So all steps come to an end, in the value and the world of the evaluation and with as many active calls as
before; a request with a limit is answered by such an end. Walks along the scopes come to an end as well. -/
theorem evaluation_ends (limit : Nat) :
    WellFounded (Descends limit) ∧
    (∀ (node : Node) (scope : ScopeId) (activity : Activity),
      node.step limit (granted limit activity.active node) scope activity =
        some (activity.run (node.eval (limit - activity.active) scope))) ∧
    (∀ (node : Node) (scope : ScopeId) (activity : Activity), ∃ room, ∀ more,
      evalWithin limit (room + more) scope node activity = some (activity.run (node.eval (limit - activity.active) scope))) ∧
    (∀ (node : Node) (scope : ScopeId) (world : World), ∃ value after,
      node.evaluate? limit scope world = some (value, after) ∧
      ∃ room, ∀ more,
        evalWithin (min limit world.host.calls) (room + more) scope node ⟨world, 0⟩ = some (value, ⟨after, 0⟩)) ∧
    (∀ (heap : Heap) (id : ScopeId) (name : String) (value : Value) (more : Nat),
      heap.getWithin (id + 2 + more) id name = some (heap.get? id name) ∧
      heap.assignWithin (id + 2 + more) id name value = some (heap.assign? id name value)) := by
  refine ⟨descends_wellFounded limit, Node.step_granted, ?_, ?_, ?_⟩
  · intro node scope activity
    exact evalWithin_follows (activity.active, node) scope activity.world
  · intro node scope world
    have answered := node.evaluate?_of_nonneg (Int.natCast_nonneg limit) scope world
    exact ⟨_, _, answered, evalWithin_follows (0, node) scope world⟩
  · intro heap id name value more
    exact ⟨heap.getWithin_ends id name more, heap.assignWithin_ends id name value more⟩

/-- A function that calls itself for ever is stopped by the limit. -/
example :
    let again := Stmt.expr (.call (.name "f") [])
    let program := Program.mk [.bind "f" (.function [] [again]), again]
    (evalWithin 3 20 World.root (.program program) ⟨World.initial .usual, 0⟩).map (fun ended => (ended.1.inspect, ended.2.active)) =
      some ("ERROR: maximum recursion depth exceeded", 0) := by
  decide +kernel

end Treewalk
