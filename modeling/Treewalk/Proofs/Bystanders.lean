import Mathlib.Data.Option.Defs
import Treewalk.CallLimit
import Treewalk.Proofs.Regions
import Treewalk.Proofs.Upkeep

/-! Bindings that have nothing to do with a program do not interfere with it. Evaluation is followed in two worlds of which one
has such a binding more: as long as no code within reach mentions the name, it is never looked up, declared or assigned, so
both evaluations take the same steps. -/

namespace Treewalk

/-- The name is written nowhere in the code: it is not used, assigned or declared, and is no parameter of any function. -/
def Expr.Avoids (name : String) (expr : Expr) : Prop := expr.Conforms (· ≠ name) fun _ _ => True

def Program.Avoids (name : String) (program : Program) : Prop := (Node.program program).Conforms (· ≠ name) fun _ _ => True

/-- One world is as the other is, except that in one scope a name is bound to this value there. -/
structure World.Beside (scope : ScopeId) (name : String) (value : Value) (world other : World) : Prop where
  size : other.heap.scopes.size = world.heap.scopes.size
  links : ∀ id, other.heap.outer? id = world.heap.outer? id
  bindings : ∀ id inner, ¬ (id = scope ∧ inner = name) → other.heap.own? id inner = world.heap.own? id inner
  bystander : other.heap.own? scope name = some value
  identities : other.nextIdentity = world.nextIdentity
  printed : other.printed = world.printed
  host : other.host = world.host

namespace World.Beside

variable {scope : ScopeId} {name inner : String} {value : Value} {world other : World}

theorem own? (beside : Beside scope name value world other) (different : inner ≠ name) (id : ScopeId) :
    other.heap.own? id inner = world.heap.own? id inner :=
  beside.bindings id inner fun same => different same.2

/-- Names other than that of the bystander have the same owners. -/
theorem owner? (beside : Beside scope name value world other) (different : inner ≠ name) (id : ScopeId) :
    other.heap.owner? id inner = world.heap.owner? id inner := by
  induction id using Nat.strongRecOn with
  | ind id ih =>
    have binds : other.heap.Binds id inner ↔ world.heap.Binds id inner := by
      rw [Heap.Binds, Heap.Binds, beside.own? different]
    rw [other.heap.owner?_eq, world.heap.owner?_eq, beside.links, if_congr binds rfl]
    cases linked : world.heap.outer? id with
    | none => rfl
    | some outer => exact ih outer (Heap.outer?_lt linked)

theorem get? (beside : Beside scope name value world other) (different : inner ≠ name) (id : ScopeId) :
    other.heap.get? id inner = world.heap.get? id inner := by
  rw [Heap.get?, Heap.get?, beside.owner? different]
  exact congrArg _ (funext (beside.own? different))

theorem define (beside : Beside scope name value world other) (different : inner ≠ name) (id : ScopeId) (given : Value) :
    Beside scope name value { world with heap := world.heap.define id inner given }
      { other with heap := other.heap.define id inner given } where
  size := by rw [Heap.size_define, Heap.size_define, beside.size]
  links target := by rw [Heap.outer?_define, Heap.outer?_define, beside.links]
  bindings target bound away := by rw [Heap.own?_define, Heap.own?_define, beside.size, beside.bindings target bound away]
  bystander := by
    rw [Heap.own?_define, if_neg fun hit => different hit.2.1]
    exact beside.bystander
  identities := beside.identities
  printed := beside.printed
  host := beside.host

theorem enclose (beside : Beside scope name value world other) (outer : Option ScopeId) :
    Beside scope name value { world with heap := world.heap.enclose outer } { other with heap := other.heap.enclose outer } where
  size := by rw [Heap.size_enclose, Heap.size_enclose, beside.size]
  links target := by rw [Heap.outer?_enclose, Heap.outer?_enclose, beside.size, beside.links]
  bindings target bound away := by rw [Heap.own?_enclose, Heap.own?_enclose, beside.bindings target bound away]
  bystander := by
    rw [Heap.own?_enclose]
    exact beside.bystander
  identities := beside.identities
  printed := beside.printed
  host := beside.host

theorem freshIdentity (beside : Beside scope name value world other) :
    (Run.freshIdentity other).1 = (Run.freshIdentity world).1 ∧
      Beside scope name value (Run.freshIdentity world).2 (Run.freshIdentity other).2 :=
  ⟨beside.identities, beside.size, beside.links, beside.bindings, beside.bystander, congrArg (· + 1) beside.identities,
    beside.printed, beside.host⟩

/-- Whatever the name was bound to before, binding it makes a world that is beside. -/
theorem of_define (world : World) (inside : scope < world.heap.scopes.size) (name : String) (value : Value) :
    Beside scope name value world (Run.define scope name value world).2 where
  size := Heap.size_define ..
  links id := Heap.outer?_define ..
  bindings id inner away := by
    refine (Heap.own?_define ..).trans (if_neg fun hit => away ?_)
    exact ⟨hit.1.symm, hit.2.1.symm⟩
  bystander := (Heap.own?_define ..).trans (if_pos ⟨rfl, rfl, inside⟩)
  identities := rfl
  printed := rfl
  host := rfl

end World.Beside

section

variable (reach : ScopeId → Prop) (scope : ScopeId) (name : String) (value : Value)

/-- Functions of scopes within reach that do not mention the name. -/
def Value.Unaware (object : Value) : Prop :=
  ∀ identity parameters body captured, object = .function identity parameters body captured →
    reach captured ∧ (Expr.function parameters body).Avoids name

/-- The two worlds that evaluation is followed in: one is beside the other, and no function within reach mentions the name. -/
def besideUpkeep : Upkeep OneStage where
  worlds _ world other :=
    world.heap.Region reach (Value.Throughout (Value.Unaware reach name)) ∧ World.Beside scope name value world other
  objects _ := Value.Unaware reach name
  scopes := reach
  names := (· ≠ name)
  functions _ _ := True

theorem besideUpkeep_lawful : (besideUpkeep reach scope name value).Lawful where
  host worlds := worlds.2.host
  mono _ given := given
  opens given := by
    obtain ⟨reached, avoids⟩ := given _ _ _ _ rfl
    exact ⟨reached, avoids.2⟩
  lookup {stage id inner} reached different := by
    rintro now world other - ⟨region, beside⟩
    have same : Run.lookup id inner other = ((Run.lookup id inner world).1, other) := by
      simp only [Run.lookup, beside.get? different]
    rw [same]
    refine ⟨rfl, .only, le_refl _, ⟨region, beside⟩, ?_⟩
    simp only [Run.lookup]
    split
    next found => exact region.get? reached found
    next =>
      split
      · exact .plain .builtin
      · exact .plain .error
  define {stage id inner given} reached different known := by
    rintro now world other - ⟨region, beside⟩
    exact ⟨rfl, .only, le_refl _, ⟨region.define id inner known, beside.define different id given⟩, trivial⟩
  assign {stage id inner given} reached different known := by
    rintro now world other - ⟨region, beside⟩
    simp only [Run.assign, Heap.assign?, beside.owner? different]
    cases world.heap.owner? id inner with
    | none => exact ⟨rfl, .only, le_refl _, ⟨region, beside⟩, .plain .error⟩
    | some owner =>
      exact ⟨rfl, .only, le_refl _, ⟨region.define owner inner known, beside.define different owner given⟩, known⟩
  enclose {stage outer} reached := by
    rintro now world other - ⟨region, beside⟩
    exact ⟨beside.size, .only, le_refl _, ⟨region.enclose reached, beside.enclose _⟩, region.fresh (Nat.le_refl _)⟩
  print line := by
    rintro now world other - ⟨region, beside⟩
    exact ⟨rfl, .only, le_refl _, ⟨region, { beside with printed := congrArg (·.push line) beside.printed }⟩, trivial⟩
  array {stage elements} known := by
    rintro now world other - ⟨region, beside⟩
    obtain ⟨same, kept⟩ := beside.freshIdentity
    refine ⟨congrArg (Value.array · elements) same, .only, le_refl _, ⟨region, kept⟩, .array ?_ known⟩
    rintro _ _ _ _ ⟨⟩
  function {stage id parameters body} reached avoids := by
    rintro now world other - ⟨region, beside⟩
    obtain ⟨same, kept⟩ := beside.freshIdentity
    refine ⟨congrArg (Value.function · parameters body id) same, .only, le_refl _, ⟨region, kept⟩, .function ?_⟩
    rintro _ _ _ _ ⟨⟩
    exact ⟨reached, avoids⟩

end

variable {scope : ScopeId} {name : String} {world : World}

/-- If no function that can be got at mentions the name, then the scopes within reach make a region without it. -/
theorem Heap.unaware_region (apart : ∀ identity parameters body captured,
      world.heap.Offers scope (.function identity parameters body captured) → (Expr.function parameters body).Avoids name) :
    world.heap.Region (fun id => world.heap.LeadsTo scope id ∨ world.heap.scopes.size ≤ id)
      (Value.Throughout (Value.Unaware (fun id => world.heap.LeadsTo scope id ∨ world.heap.scopes.size ≤ id) name)) := by
  refine (world.heap.leadsTo_region scope).mono fun value known => known.mono ?_
  rintro _ offered identity parameters body captured rfl
  refine ⟨?_, apart identity parameters body captured offered⟩
  obtain ⟨id, bound, value, reached, found, held⟩ := offered
  exact Or.inl (.captured reached found held)

/-- A program is evaluated in a scope, and again where the scope binds one name more, which neither the program mentions nor
any function that it could get at. The limit is refused both times, or neither time; then the results are the same, the same
lines have been printed, all other names of all scopes are bound to the same values, and the name is still bound to its own. -/
theorem Program.bystander_does_not_interfere (program : Program) (limit : Int) (value : Value)
    (inside : scope < world.heap.scopes.size) (avoids : program.Avoids name)
    (apart : ∀ identity parameters body captured,
      world.heap.Offers scope (.function identity parameters body captured) → (Expr.function parameters body).Avoids name) :
    Option.Rel (fun ended ended' => ended'.1 = ended.1 ∧ World.Beside scope name value ended.2 ended'.2)
      (program.evaluate? limit scope world) (program.evaluate? limit scope (Run.define scope name value world).2) := by
  simp only [Program.evaluate?, Node.evaluate?, Run.define]
  cases world.host.allowedCalls? limit with
  | none => exact .none
  | some depth =>
    have laws := besideUpkeep_lawful (fun id => world.heap.LeadsTo scope id ∨ world.heap.scopes.size ≤ id) scope name value
    obtain ⟨same, -, -, ⟨-, beside⟩, -⟩ := (Node.program program).eval_keeps laws depth (Or.inl .here) avoids .only world _
      (le_refl _) ⟨Heap.unaware_region apart, .of_define world inside name value⟩
    exact .some ⟨same, beside⟩

/-- A counter is a closure over `count`. Binding one name more, to the very same closure, is not noticed by a program that
counts and prints. -/
theorem Program.counter_beside_unused_name :
    let counter := Value.function 0 ["step"] [.expr (.assign "count" (.binary (.name "count") .add (.name "step")))] World.root
    let world := (Run.define World.root "bump" counter (Run.define World.root "count" (.integer 5) (.initial .usual)).2).2
    let program : Program :=
      ⟨[.expr (.call (.name "print") [.call (.name "bump") [.integer 2]]), .expr (.name "count")]⟩
    World.root < world.heap.scopes.size ∧ program.Avoids "unused" ∧
      (∀ identity parameters body captured, world.heap.Offers World.root (.function identity parameters body captured) →
        (Expr.function parameters body).Avoids "unused") ∧
      Option.Rel (fun ended ended' => ended'.1 = ended.1 ∧ World.Beside World.root "unused" counter ended.2 ended'.2)
        (program.evaluate? 500 World.root world)
        (program.evaluate? 500 World.root (Run.define World.root "unused" counter world).2) ∧
      (program.evaluate? 500 World.root world).map (fun ended => (ended.1.inspect, ended.2.printed)) = some ("7", #["7"]) := by
  intro counter world program
  have inside : World.root < world.heap.scopes.size := by decide
  have avoids : program.Avoids "unused" := by
    simp [program, Program.Avoids, Node.Conforms, Stmt.AllConform, Stmt.Conforms, Expr.Conforms, Expr.AllConform]
  have apart (identity : Identity) (parameters : List String) (body : List Stmt) (captured : ScopeId)
      (offered : world.heap.Offers World.root (.function identity parameters body captured)) :
      (Expr.function parameters body).Avoids "unused" := by
    obtain ⟨id, name, value, -, found, held⟩ := offered
    simp only [world, Run.define, Heap.own?_define] at found
    split at found
    · cases found
      simp only [counter] at held
      cases held
      simp [Expr.Avoids, Expr.Conforms, Stmt.AllConform, Stmt.Conforms]
    · split at found
      · cases found
        cases held
      · exact ((Heap.empty_everywhere fun _ => False).enclose none id name value found).elim
  exact ⟨inside, avoids, apart, bystander_does_not_interfere program 500 counter inside avoids apart, by decide +kernel⟩

end Treewalk
