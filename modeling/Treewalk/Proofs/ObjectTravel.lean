import Treewalk.Proofs.ChainUpdates
import Treewalk.Proofs.Moments
import Treewalk.Proofs.ValueParts

/-! How objects travel. Declarations, assignments, calls, closures, returns, arrays and the builtins that look into arrays hand
on the very value that they are given, so what arrives is the object that set out. -/

namespace Treewalk

namespace Heap

variable {heap after : Heap} {id : ScopeId} {name : String} {value : Value}

theorem get?_define_self (inside : id < heap.scopes.size) : (heap.define id name value).get? id name = some value :=
  (define_changedAt inside name value).get?_of_reachesFirst (heap.reachesFirst_self id name)

/-- After an assignment the name means the value that was assigned. -/
theorem get?_assign? (assigned : heap.assign? id name value = some after) : after.get? id name = some value := by
  obtain ⟨owner, found, rfl⟩ := assign?_eq_some_iff.mp assigned
  have nearest := owner?_eq_some_iff.mp found
  exact (define_changedAt (lt_of_binds nearest.bound) name value).get?_of_reachesFirst nearest.reached

/-- What a name means in a scope depends on nothing that is newer than the scope. -/
theorem get?_congr {other : Heap} (same : ∀ older, older ≤ id → heap.scopes[older]? = other.scopes[older]?) :
    heap.get? id name = other.get? id name := by
  induction id using Nat.strongRecOn with
  | ind id ih =>
    have own : heap.own? id name = other.own? id name := by rw [own?, own?, same id (Nat.le_refl id)]
    have links : heap.outer? id = other.outer? id := by rw [outer?, outer?, same id (Nat.le_refl id)]
    rw [get?_eq, get?_eq, own, links]
    cases linked : other.outer? id with
    | none => rfl
    | some outer =>
      have earlier := outer?_lt linked
      rw [Option.bind_some, Option.bind_some, ih outer earlier fun older le => same older (Nat.le_trans le (Nat.le_of_lt earlier))]

end Heap

/-- What a name means where a body begins: what it is bound to there, or else what it means where the function was written. -/
theorem World.enter_get? (world : World) {captured : ScopeId} (inside : captured < world.heap.scopes.size)
    (bindings : List (String × Value)) (name : String) :
    (world.enter captured bindings).heap.get? world.heap.scopes.size name =
      (bindings.reverse.lookup name).or (world.heap.get? captured name) := by
  have entered := world.enter_entered inside bindings
  rw [Heap.get?_eq, entered.parameters, entered.linked, Option.bind_some]
  refine congrArg _ (Heap.get?_congr fun older le => entered.untouched older ?_)
  exact Nat.lt_of_le_of_lt le inside

theorem Run.lookup_of_get? {world : World} {scope : ScopeId} {name : String} {value : Value}
    (found : world.heap.get? scope name = some value) : Run.lookup scope name world = (value, world) := by
  simp only [Run.lookup, found]

/-- The object arrives as it set out, whichever way it takes. -/
structure Value.Travels (object : Value) : Prop where
  declared : ∀ {depth scope name expr start middle}, Expr.Passes depth scope expr start object middle →
    scope < middle.heap.scopes.size → ∃ after, (Stmt.bind name expr).eval (invoke depth) scope start = (.null, after) ∧
      Run.lookup scope name after = (object, after)
  assigned : ∀ {depth scope name expr start middle}, Expr.Passes depth scope expr start object middle →
    (middle.heap.get? scope name).isSome → ∃ after, (Expr.assign name expr).eval (invoke depth) scope start = (object, after) ∧
      Run.lookup scope name after = (object, after)
  /-- As an argument it is what its parameter means where the body begins. Of two parameters with one name the later counts. -/
  handed : ∀ {depth identity parameters body captured values name} {world : World}, captured < world.heap.scopes.size →
    values.length = parameters.length → (parameters.zip values).reverse.lookup name = some object →
    ∃ inside, Enters (depth + 1) (.function identity parameters body captured) values world inside ∧
      Run.lookup inside.scope name inside.world = (object, inside.world)
  /-- What is no parameter means in the body what it means, at that time, in the scope the function was written in. -/
  captured : ∀ {depth identity parameters body captured values name} {world : World}, captured < world.heap.scopes.size →
    values.length = parameters.length → name ∉ parameters → world.heap.get? captured name = some object →
    ∃ inside, Enters (depth + 1) (.function identity parameters body captured) values world inside ∧
      Run.lookup inside.scope name inside.world = (object, inside.world)
  leaving : ∀ {depth scope expr start after}, Expr.Passes depth scope expr start object after →
    (Stmt.leaveWith expr).eval (invoke depth) scope start = (.returned object, after)
  /-- A body ends with what it returns, or else with the value of its last statement. -/
  returned : ∀ {depth identity parameters body captured values world after}, values.length = parameters.length →
    (Stmt.evalAll (invoke depth) world.heap.scopes.size .null body (world.enter captured (parameters.zip values)) =
        (.returned object, after) ∨
      Stmt.evalAll (invoke depth) world.heap.scopes.size .null body (world.enter captured (parameters.zip values)) =
        (object, after)) →
    invoke (depth + 1) (.function identity parameters body captured) values world = (object, after)
  stored : ∀ {depth scope elements start values after}, Expr.evalAll (invoke depth) scope elements start = (.ok values, after) →
    object ∈ values → ∃ identity later, (Expr.array elements).eval (invoke depth) scope start = (.array identity values, later)
  indexed : ∀ {depth scope collection position start identity values middle place after},
    Expr.Passes depth scope collection start (.array identity values) middle →
    Expr.Passes depth scope position middle (.integer (Nat.cast place)) after → values[place]? = some object →
    (Expr.index collection position).eval (invoke depth) scope start = (object, after)
  first : ∀ identity others world, Builtin.first.apply [.array identity (object :: others)] world = (object, world)
  last : ∀ identity others world, Builtin.last.apply [.array identity (others ++ [object])] world = (object, world)
  pushed : ∀ identity values world, ∃ later, Builtin.push.apply [.array identity values, object] world =
    (.array world.nextIdentity (values ++ [object]), later)

theorem Value.travels {object : Value} (made : object.identity?.isSome) : object.Travels where
  declared {depth scope name expr start middle} passed inside := by
    refine ⟨{ middle with heap := middle.heap.define scope name object }, ?_, ?_⟩
    · rw [Stmt.eval, Run.unlessSignal_of_value passed.1 passed.2]
      rfl
    · exact Run.lookup_of_get? (Heap.get?_define_self inside)
  assigned {depth scope name expr start middle} passed bound := by
    obtain ⟨after, assigned⟩ : ∃ after, middle.heap.assign? scope name object = some after := by
      rw [← Option.isSome_iff_exists, Heap.assign?, Option.isSome_map, ← Heap.isSome_get?]
      exact bound
    refine ⟨{ middle with heap := after }, ?_, Run.lookup_of_get? (Heap.get?_assign? assigned)⟩
    rw [Expr.eval, Run.unlessSignal_of_value passed.1 passed.2]
    simp only [Run.assign, assigned]
  handed {depth identity parameters body captured values name world} inside enough found := by
    refine ⟨_, .body enough, Run.lookup_of_get? ?_⟩
    rw [world.enter_get? inside, found, Option.some_or]
  captured {depth identity parameters body captured values name world} inside enough free found := by
    refine ⟨_, .body enough, Run.lookup_of_get? ?_⟩
    have missing : (parameters.zip values).reverse.lookup name = none := by
      rw [List.lookup_eq_none_iff]
      intro binding member
      refine bne_iff_ne.mpr fun same => free ?_
      exact same ▸ (List.of_mem_zip (List.mem_reverse.mp member)).1
    rw [world.enter_get? inside, missing, Option.none_or, found]
  leaving passed := by
    rw [Stmt.eval, Run.unlessSignal_of_value passed.1 passed.2]
    rfl
  returned enough ended := by
    have unwrapped : object.unwrap = object := by cases object <;> first | rfl | cases made
    rw [invoke_function enough]
    rcases ended with ended | ended <;> rw [ended]
    · rfl
    · rw [unwrapped]
  stored evaluated _ := by
    rw [Expr.eval, Run.bind_apply, evaluated]
    exact ⟨_, _, rfl⟩
  indexed {depth scope collection position start identity values middle place after} passed placed found := by
    rw [Expr.eval, Run.unlessSignal_of_value passed.1 passed.2, Run.unlessSignal_of_value placed.1 placed.2]
    simp [Value.elementAt, found, Run.pure_apply]
  first _ _ _ := rfl
  last identity others world := by
    simp [Builtin.apply, Builtin.arity, Builtin.applyTo, Builtin.onArray, Run.pure_apply]
  pushed _ _ _ := ⟨_, rfl⟩

end Treewalk
