import Treewalk.Proofs.CapturedScopes

/-! What evaluation in a scope does to the scopes there are. It changes the heap by four kinds of steps only: it binds the
names that are declared outside functions in that scope, gives bound names other values, opens scopes inside scopes that are
there, and binds names in the scopes it has opened. So links stay, every other scope keeps its set of names, and a call
works in a scope of its own. -/

namespace Treewalk

mutual

/-- The names that `let` binds in the scope an expression is evaluated in. Functions written in it bind theirs elsewhere. -/
def Expr.declared : Expr → List String
  | .name _ | .integer _ | .string _ | .boolean _ | .function _ _ => []
  | .unary _ operand => operand.declared
  | .binary left _ right => left.declared ++ right.declared
  | .assign _ value => value.declared
  | .ifThen condition consequence => condition.declared ++ Stmt.declaredAll consequence
  | .ifElse condition consequence alternative =>
    condition.declared ++ Stmt.declaredAll consequence ++ Stmt.declaredAll alternative
  | .call function arguments => function.declared ++ Expr.declaredAll arguments
  | .array elements => Expr.declaredAll elements
  | .index collection position => collection.declared ++ position.declared

def Expr.declaredAll : List Expr → List String
  | [] => []
  | expr :: exprs => expr.declared ++ Expr.declaredAll exprs

def Stmt.declared : Stmt → List String
  | .bind name value => name :: value.declared
  | .leave => []
  | .leaveWith value | .expr value => value.declared
  | .block statements => Stmt.declaredAll statements

def Stmt.declaredAll : List Stmt → List String
  | [] => []
  | stmt :: stmts => stmt.declared ++ Stmt.declaredAll stmts

end

def Node.declared : Node → List String
  | .program whole => Stmt.declaredAll whole.statements
  | .stmt part => part.declared
  | .expr part => part.declared

namespace Heap

/-- What evaluation in `scope` can make of a heap, one step after the other. -/
inductive Evolves (start : Heap) (scope : ScopeId) (declared : List String) : Heap → Prop where
  | unchanged : Evolves start scope declared start
  | declare (earlier : Evolves start scope declared heap) (listed : name ∈ declared) (value : Value) :
    Evolves start scope declared (heap.define scope name value)
  | assign (earlier : Evolves start scope declared heap) (assigned : heap.assign? target name value = some after) :
    Evolves start scope declared after
  | enclose (earlier : Evolves start scope declared heap) (captured : outer < heap.scopes.size) :
    Evolves start scope declared (heap.enclose (some outer))
  | inside (earlier : Evolves start scope declared heap) (opened : start.scopes.size ≤ target) (name : String) (value : Value) :
    Evolves start scope declared (heap.define target name value)

theorem size_assign? {heap after : Heap} {id : ScopeId} {name : String} {value : Value}
    (assigned : heap.assign? id name value = some after) : after.scopes.size = heap.scopes.size := by
  obtain ⟨owner, -, rfl⟩ := assign?_eq_some_iff.mp assigned
  exact size_define heap owner name value

namespace Evolves

variable {start middle after : Heap} {scope : ScopeId} {declared : List String}

theorem size_le (run : start.Evolves scope declared after) : start.scopes.size ≤ after.scopes.size := by
  induction run with
  | unchanged => exact Nat.le_refl _
  | declare _ _ _ ih | inside _ _ _ _ ih => exact (size_define ..).symm ▸ ih
  | assign _ assigned ih => exact (size_assign? assigned).symm ▸ ih
  | enclose _ _ ih => exact (size_enclose ..).symm ▸ Nat.le_succ_of_le ih

theorem trans (first : start.Evolves scope declared middle) (second : middle.Evolves scope declared after) :
    start.Evolves scope declared after := by
  induction second with
  | unchanged => exact first
  | declare _ listed value ih => exact ih.declare listed value
  | assign _ assigned ih => exact ih.assign assigned
  | enclose _ captured ih => exact ih.enclose captured
  | inside _ opened name value ih => exact ih.inside (Nat.le_trans first.size_le opened) name value

/-- Whatever is declared in a scope that was opened here is no concern of the scopes from before. -/
theorem within {opened : ScopeId} {names : List String} (first : start.Evolves scope declared middle)
    (fresh : start.scopes.size ≤ opened) (second : middle.Evolves opened names after) :
    start.Evolves scope declared after := by
  induction second with
  | unchanged => exact first
  | declare _ _ value ih => exact ih.inside fresh _ value
  | assign _ assigned ih => exact ih.assign assigned
  | enclose _ captured ih => exact ih.enclose captured
  | inside _ opened name value ih => exact ih.inside (Nat.le_trans first.size_le opened) name value

theorem outer? {id : ScopeId} (run : start.Evolves scope declared after) (old : id < start.scopes.size) :
    after.outer? id = start.outer? id := by
  induction run with
  | unchanged => rfl
  | declare _ _ _ ih | inside _ _ _ _ ih => rw [outer?_define, ih]
  | assign _ assigned ih =>
    obtain ⟨owner, -, rfl⟩ := assign?_eq_some_iff.mp assigned
    rw [outer?_define, ih]
  | enclose earlier _ ih => rw [outer?_enclose_of_lt (Nat.lt_of_lt_of_le old earlier.size_le), ih]

/-- Scopes that are opened lie inside others. -/
theorem linked {id : ScopeId} (run : start.Evolves scope declared after) (opened : start.scopes.size ≤ id)
    (inside : id < after.scopes.size) : ∃ outer, after.outer? id = some outer := by
  induction run with
  | unchanged => exact absurd inside (Nat.not_lt.mpr opened)
  | declare _ _ _ ih | inside _ _ _ _ ih =>
    rw [size_define] at inside
    rw [outer?_define]
    exact ih inside
  | assign _ assigned ih =>
    rw [size_assign? assigned] at inside
    obtain ⟨owner, -, rfl⟩ := assign?_eq_some_iff.mp assigned
    rw [outer?_define]
    exact ih inside
  | enclose _ captured ih =>
    rw [size_enclose] at inside
    rcases Nat.lt_succ_iff_lt_or_eq.mp inside with older | rfl
    · rw [outer?_enclose_of_lt older]
      exact ih older
    · exact ⟨_, outer?_enclose_size captured⟩

theorem chain {id : ScopeId} (run : start.Evolves scope declared after) (old : id < start.scopes.size) :
    after.chain id = start.chain id :=
  chain_congr fun _ le => run.outer? (Nat.lt_of_le_of_lt le old)

theorem binds {id : ScopeId} {name : String} (run : start.Evolves scope declared after) (bound : start.Binds id name) :
    after.Binds id name := by
  induction run with
  | unchanged => exact bound
  | declare _ _ _ ih | inside _ _ _ _ ih => exact binds_define.mpr (Or.inl ih)
  | assign _ assigned ih => exact (binds_assign? assigned).mpr ih
  | enclose _ _ ih => exact binds_enclose.mpr ih

/-- A scope from before has new names only if evaluation happens in it, and only declared ones. -/
theorem binds_before {id : ScopeId} {name : String} (run : start.Evolves scope declared after)
    (old : id < start.scopes.size) (bound : after.Binds id name) : start.Binds id name ∨ id = scope ∧ name ∈ declared := by
  induction run with
  | unchanged => exact Or.inl bound
  | declare _ listed _ ih =>
    rcases binds_define.mp bound with bound | ⟨rfl, rfl, -⟩
    · exact ih bound
    · exact Or.inr ⟨rfl, listed⟩
  | assign _ assigned ih => exact ih ((binds_assign? assigned).mp bound)
  | enclose _ _ ih => exact ih (binds_enclose.mp bound)
  | inside _ opened _ _ ih =>
    rcases binds_define.mp bound with bound | ⟨rfl, -, -⟩
    · exact ih bound
    · exact absurd old (Nat.not_lt.mpr opened)

end Evolves

end Heap

/-- Evaluation in a scope took a complete world to a complete world, and the answer is about that world. -/
structure World.Evolves {α : Type} (before : World) (scope : ScopeId) (declared : List String) (answers : Nat → α → Prop)
    (after : α × World) : Prop where
  heap : before.heap.Evolves scope declared after.2.heap
  complete : after.2.heap.Complete
  answer : answers after.2.heap.scopes.size after.1

/-- From every complete world of at least `size` scopes the computation changes the heap as evaluation in this scope may. -/
def Run.Evolves {α : Type} (size : Nat) (scope : ScopeId) (declared : List String) (answers : Nat → α → Prop)
    (run : Run α) : Prop :=
  ∀ world : World, world.heap.Complete → size ≤ world.heap.scopes.size → world.Evolves scope declared answers (run world)

namespace Run.Evolves

variable {α β : Type} {size : Nat} {scope : ScopeId} {declared : List String} {between : Nat → α → Prop}
  {answers : Nat → β → Prop}

theorem value {value : β} (answer : ∀ larger, size ≤ larger → answers larger value) :
    (pure value : Run β).Evolves size scope declared answers :=
  fun _ complete enough => ⟨.unchanged, complete, answer _ enough⟩

theorem answer {value : Value} (inside : value.Within size) :
    (pure value : Run Value).Evolves size scope declared Value.Within :=
  .value fun _ more => inside.mono more

/-- What comes second finds a world that may have more scopes. -/
theorem bind {first : Run α} {next : α → Run β} (head : first.Evolves size scope declared between)
    (tail : ∀ larger value, size ≤ larger → between larger value → (next value).Evolves larger scope declared answers) :
    (first >>= next).Evolves size scope declared answers := by
  intro world complete enough
  obtain ⟨heap, complete, answer⟩ := head world complete enough
  obtain ⟨later, complete, final⟩ :=
    tail _ _ (Nat.le_trans enough heap.size_le) answer _ complete (Nat.le_refl _)
  exact ⟨heap.trans later, complete, final⟩

theorem unlessSignal {first : Run Value} {next : Value → Run β} {skip : Value → β}
    (head : first.Evolves size scope declared Value.Within)
    (skips : ∀ larger value, value.Within larger → answers larger (skip value))
    (tail : ∀ larger value, size ≤ larger → value.Within larger → (next value).Evolves larger scope declared answers) :
    (first >>= fun value => if value.isSignal then pure (skip value) else next value).Evolves size scope declared answers := by
  refine head.bind fun larger value more inside => ?_
  split
  · exact .value fun _ further => skips _ value (inside.mono further)
  · exact tail larger value more inside

/-- Of most constructs a signal is the answer as it is. -/
theorem unlessDone {first : Run Value} {next : Value → Run Value} (head : first.Evolves size scope declared Value.Within)
    (tail : ∀ larger value, size ≤ larger → value.Within larger → (next value).Evolves larger scope declared Value.Within) :
    (first >>= fun value => if value.isSignal then pure value else next value).Evolves size scope declared Value.Within :=
  head.unlessSignal (fun _ _ inside => inside) tail

theorem lookup (target : ScopeId) (name : String) : (Run.lookup target name).Evolves size scope declared Value.Within := by
  refine fun world complete _ => ⟨.unchanged, complete, ?_⟩
  unfold Run.lookup
  cases found : world.heap.get? target name with
  | some value => exact Heap.Everywhere.get? complete found
  | none => cases Builtin.ofName? name with
    | some builtin => exact .builtin
    | none => exact .error

theorem assign (target : ScopeId) (name : String) {value : Value} (inside : value.Within size) :
    (Run.assign target name value).Evolves size scope declared Value.Within := by
  intro world complete enough
  unfold Run.assign
  cases assigned : world.heap.assign? target name value with
  | some heap =>
    have changed : world.heap.Evolves scope declared heap := .assign .unchanged assigned
    have there := inside.mono enough
    exact ⟨changed, complete.assign? there assigned, there.mono changed.size_le⟩
  | none => exact ⟨.unchanged, complete, .error⟩

theorem declare {name : String} {value : Value} (listed : name ∈ declared) (inside : value.Within size) :
    (Run.define scope name value).Evolves size scope declared fun _ _ => True :=
  fun _ complete enough => ⟨.declare .unchanged listed value, complete.define scope name (inside.mono enough), trivial⟩

theorem freshArray {values : List Value} (inside : ∀ value ∈ values, value.Within size) :
    (Run.freshArray values).Evolves size scope declared Value.Within :=
  fun _ complete enough => ⟨.unchanged, complete, .array fun value member => (inside value member).mono enough⟩

end Run.Evolves

open Run

/-- What is known of evaluated arguments, or of the signal in place of them. -/
def Value.AllWithin (size : Nat) : Except Value (List Value) → Prop
  | .error signal => signal.Within size
  | .ok values => ∀ value ∈ values, value.Within size

/-- Calls declare nothing in any scope that exists when they are made. -/
def Invoke.Evolves (invoke : Invoke) : Prop :=
  ∀ size callee arguments scope declared, callee.Within size → (∀ argument ∈ arguments, argument.Within size) →
    (invoke callee arguments).Evolves size scope declared Value.Within

mutual

theorem Expr.eval_evolves {invoke : Invoke} (calls : invoke.Evolves) {scope : ScopeId} {declared : List String} {size : Nat}
    (inside : scope < size) : (expr : Expr) → expr.declared ⊆ declared →
      (expr.eval invoke scope).Evolves size scope declared Value.Within
  | .name name, _ => by
    rw [Expr.eval]
    exact .lookup scope name
  | .integer _, _ => by
    rw [Expr.eval]
    exact .answer .integer
  | .string _, _ => by
    rw [Expr.eval]
    exact .answer .string
  | .boolean _, _ => by
    rw [Expr.eval]
    exact .answer .boolean
  | .unary op operand, listed => by
    rw [Expr.declared] at listed
    rw [Expr.eval]
    exact .unlessDone (operand.eval_evolves calls inside listed) fun _ value _ _ =>
      .answer (op.apply_answers (Value.within_hereditary _) value).within
  | .binary left op right, listed => by
    rw [Expr.declared, List.append_subset] at listed
    rw [Expr.eval]
    refine .unlessDone (left.eval_evolves calls inside listed.1) fun _ first more _ => ?_
    refine .unlessDone (right.eval_evolves calls (Nat.lt_of_lt_of_le inside more) listed.2) fun _ second _ _ => ?_
    exact .answer (op.apply_answers (Value.within_hereditary _) first second).within
  | .assign name value, listed => by
    rw [Expr.declared] at listed
    rw [Expr.eval]
    exact .unlessDone (value.eval_evolves calls inside listed) fun _ _ _ given => .assign scope name given
  | .ifThen condition consequence, listed => by
    rw [Expr.declared, List.append_subset] at listed
    rw [Expr.eval]
    refine .unlessDone (condition.eval_evolves calls inside listed.1) fun _ test more _ => ?_
    split
    · exact Stmt.evalAll_evolves calls (Nat.lt_of_lt_of_le inside more) .null consequence listed.2
    · exact .answer .null
  | .ifElse condition consequence alternative, listed => by
    rw [Expr.declared, List.append_subset, List.append_subset] at listed
    rw [Expr.eval]
    refine .unlessDone (condition.eval_evolves calls inside listed.1.1) fun _ test more _ => ?_
    split
    · exact Stmt.evalAll_evolves calls (Nat.lt_of_lt_of_le inside more) .null consequence listed.1.2
    · exact Stmt.evalAll_evolves calls (Nat.lt_of_lt_of_le inside more) .null alternative listed.2
  | .function _ _, _ => by
    rw [Expr.eval]
    exact fun _ complete enough => ⟨.unchanged, complete, .function (Nat.lt_of_lt_of_le inside enough)⟩
  | .call function arguments, listed => by
    rw [Expr.declared, List.append_subset] at listed
    rw [Expr.eval]
    refine .unlessDone (function.eval_evolves calls inside listed.1) fun _ callee more called => ?_
    refine (Expr.evalAll_evolves calls (Nat.lt_of_lt_of_le inside more) arguments listed.2).bind fun _ values further given => ?_
    cases values with
    | error signal => exact .answer given
    | ok values => exact calls _ callee values scope declared (called.mono further) given
  | .array elements, listed => by
    rw [Expr.declared] at listed
    rw [Expr.eval]
    refine (Expr.evalAll_evolves calls inside elements listed).bind fun _ values _ given => ?_
    cases values with
    | error signal => exact .answer given
    | ok values => exact .freshArray given
  | .index collection position, listed => by
    rw [Expr.declared, List.append_subset] at listed
    rw [Expr.eval]
    refine .unlessDone (collection.eval_evolves calls inside listed.1) fun _ whole more given => ?_
    refine .unlessDone (position.eval_evolves calls (Nat.lt_of_lt_of_le inside more) listed.2) fun _ place further _ => ?_
    exact .answer ((Value.within_hereditary _).elementAt place (given.mono further)).within

theorem Expr.evalAll_evolves {invoke : Invoke} (calls : invoke.Evolves) {scope : ScopeId} {declared : List String} {size : Nat}
    (inside : scope < size) : (exprs : List Expr) → Expr.declaredAll exprs ⊆ declared →
      (Expr.evalAll invoke scope exprs).Evolves size scope declared Value.AllWithin
  | [], _ => by
    rw [Expr.evalAll]
    exact .value fun _ _ => List.forall_mem_nil _
  | expr :: exprs, listed => by
    rw [Expr.declaredAll, List.append_subset] at listed
    rw [Expr.evalAll]
    refine .unlessSignal (expr.eval_evolves calls inside listed.1) (fun _ _ signal => signal) fun _ value more first => ?_
    refine (Expr.evalAll_evolves calls (Nat.lt_of_lt_of_le inside more) exprs listed.2).bind fun _ values further others => ?_
    cases values with
    | error signal => exact .value fun _ more => Value.Within.mono others more
    | ok values =>
      refine .value fun _ more => List.forall_mem_cons.mpr ⟨first.mono (Nat.le_trans further more), fun value member => ?_⟩
      exact (others value member).mono more

theorem Stmt.eval_evolves {invoke : Invoke} (calls : invoke.Evolves) {scope : ScopeId} {declared : List String} {size : Nat}
    (inside : scope < size) : (stmt : Stmt) → stmt.declared ⊆ declared →
      (stmt.eval invoke scope).Evolves size scope declared Value.Within
  | .bind name value, listed => by
    rw [Stmt.declared, List.cons_subset] at listed
    rw [Stmt.eval]
    refine .unlessDone (value.eval_evolves calls inside listed.2) fun _ result _ given => ?_
    exact (Run.Evolves.declare listed.1 given).bind fun _ _ _ _ => .answer .null
  | .leave, _ => by
    rw [Stmt.eval]
    exact .answer (.returned .null)
  | .leaveWith value, listed => by
    rw [Stmt.declared] at listed
    rw [Stmt.eval]
    exact .unlessDone (value.eval_evolves calls inside listed) fun _ _ _ given => .answer (.returned given)
  | .expr value, listed => by
    rw [Stmt.declared] at listed
    rw [Stmt.eval]
    exact value.eval_evolves calls inside listed
  | .block statements, listed => by
    rw [Stmt.declared] at listed
    rw [Stmt.eval]
    exact Stmt.evalAll_evolves calls inside .null statements listed

theorem Stmt.evalAll_evolves {invoke : Invoke} (calls : invoke.Evolves) {scope : ScopeId} {declared : List String} {size : Nat}
    (inside : scope < size) {result : Value} (given : result.Within size) : (stmts : List Stmt) →
      Stmt.declaredAll stmts ⊆ declared → (Stmt.evalAll invoke scope result stmts).Evolves size scope declared Value.Within
  | [], _ => by
    rw [Stmt.evalAll]
    exact .answer given
  | stmt :: stmts, listed => by
    rw [Stmt.declaredAll, List.append_subset] at listed
    rw [Stmt.evalAll]
    exact .unlessDone (stmt.eval_evolves calls inside listed.1) fun _ _ more last =>
      Stmt.evalAll_evolves calls (Nat.lt_of_lt_of_le inside more) last stmts listed.2

end

/-! ### Calls -/

/-- The world in which a body starts: there is one more scope, and the parameters are bound in it. -/
def World.enter (world : World) (captured : ScopeId) (bindings : List (String × Value)) : World :=
  (Run.defineAll world.heap.scopes.size bindings (Run.enclose captured world).2).2

theorem Run.defineAll_evolves {start : Heap} {scope fresh : ScopeId} {declared : List String}
    (opened : start.scopes.size ≤ fresh) : ∀ (bindings : List (String × Value)) (world : World),
      start.Evolves scope declared world.heap → start.Evolves scope declared (Run.defineAll fresh bindings world).2.heap
  | [], _, earlier => earlier
  | (name, value) :: rest, _, earlier => Run.defineAll_evolves opened rest _ (earlier.inside opened name value)

theorem World.enter_evolves (world : World) {captured : ScopeId} (inside : captured < world.heap.scopes.size)
    (bindings : List (String × Value)) (scope : ScopeId) (declared : List String) :
    world.heap.Evolves scope declared (world.enter captured bindings).heap :=
  Run.defineAll_evolves (Nat.le_refl _) bindings _ (.enclose .unchanged inside)

theorem Run.defineAll_complete (fresh : ScopeId) : ∀ (bindings : List (String × Value)) (world : World), world.heap.Complete →
    (∀ binding ∈ bindings, binding.2.Within world.heap.scopes.size) → (Run.defineAll fresh bindings world).2.heap.Complete
  | [], _, complete, _ => complete
  | (name, value) :: rest, world, complete, given => by
    obtain ⟨first, others⟩ := List.forall_mem_cons.mp given
    refine Run.defineAll_complete fresh rest (Run.define fresh name value world).2 (complete.define fresh name first) ?_
    simpa only [Run.define, Heap.size_define] using others

theorem World.enter_complete {world : World} (complete : world.heap.Complete) (captured : ScopeId)
    {bindings : List (String × Value)} (given : ∀ binding ∈ bindings, binding.2.Within world.heap.scopes.size) :
    (world.enter captured bindings).heap.Complete := by
  refine Run.defineAll_complete _ bindings _ (complete.enclose (some captured)) fun binding member => ?_
  exact (given binding member).mono (by simp [Run.enclose])

/-- Binding parameters is seen in their scope only, and of two with one name the later one counts. -/
theorem Run.own?_defineAll (fresh : ScopeId) : ∀ (bindings : List (String × Value)) (world : World),
    fresh < world.heap.scopes.size → ∀ id name, (Run.defineAll fresh bindings world).2.heap.own? id name =
      if id = fresh then (bindings.reverse.lookup name).or (world.heap.own? id name) else world.heap.own? id name
  | [], world, _, id, name => by simp [Run.defineAll, Run.pure_apply]
  | (first, value) :: rest, world, inside, id, name => by
    have bound := Run.own?_defineAll fresh rest (Run.define fresh first value world).2 (by simpa [Run.define] using inside)
      id name
    rw [Run.defineAll, Run.bind_apply, bound]
    simp only [Run.define, Heap.own?_define, inside, and_true, List.reverse_cons, List.lookup_append, List.lookup_cons,
      List.lookup_nil]
    by_cases here : id = fresh
    · subst here
      by_cases hit : first = name
      · subst hit
        simp
      · have other : (name == first) = false := beq_eq_false_iff_ne.mpr (Ne.symm hit)
        simp [hit, other]
    · simp [here, Ne.symm here]

/-- The scope that a call opens: it did not exist before, lies inside the one the function was written in, and binds
the parameters and nothing else. All scopes from before are as they were. -/
structure World.Entered (before : World) (captured : ScopeId) (bindings : List (String × Value)) (inside : World) : Prop where
  fresh : before.heap.scopes[before.heap.scopes.size]? = none
  opened : inside.heap.scopes.size = before.heap.scopes.size + 1
  linked : inside.heap.outer? before.heap.scopes.size = some captured
  parameters : ∀ name, inside.heap.own? before.heap.scopes.size name = bindings.reverse.lookup name
  untouched : ∀ id, id < before.heap.scopes.size → inside.heap.scopes[id]? = before.heap.scopes[id]?

theorem Run.defineAll_heap (fresh : ScopeId) : ∀ (bindings : List (String × Value)) (world : World),
    (Run.defineAll fresh bindings world).2.heap.scopes.size = world.heap.scopes.size ∧
      (∀ id, (Run.defineAll fresh bindings world).2.heap.outer? id = world.heap.outer? id) ∧
      ∀ id, id ≠ fresh → (Run.defineAll fresh bindings world).2.heap.scopes[id]? = world.heap.scopes[id]?
  | [], _ => ⟨rfl, fun _ => rfl, fun _ _ => rfl⟩
  | (name, value) :: rest, world => by
    obtain ⟨size, links, others⟩ := Run.defineAll_heap fresh rest (Run.define fresh name value world).2
    refine ⟨size.trans (Heap.size_define ..), fun id => (links id).trans (Heap.outer?_define ..), fun id different => ?_⟩
    exact (others id different).trans (Heap.scopes_define_of_ne (Ne.symm different) name value)

theorem World.enter_entered (world : World) {captured : ScopeId} (inside : captured < world.heap.scopes.size)
    (bindings : List (String × Value)) : world.Entered captured bindings (world.enter captured bindings) := by
  obtain ⟨size, links, others⟩ := Run.defineAll_heap world.heap.scopes.size bindings (Run.enclose captured world).2
  have larger : (Run.enclose captured world).2.heap.scopes.size = world.heap.scopes.size + 1 := Heap.size_enclose ..
  have missing : world.heap.own? world.heap.scopes.size = fun _ => none := by
    funext name
    simp [Heap.own?]
  refine ⟨by simp, size.trans larger, ?_, fun name => ?_, fun id old => ?_⟩
  · exact (links _).trans (Heap.outer?_enclose_size inside)
  · have inside := Nat.lt_of_lt_of_eq (Nat.lt_succ_self _) larger.symm
    rw [World.enter, Run.own?_defineAll _ bindings _ inside, if_pos rfl]
    simp [Run.enclose, Heap.own?_enclose, missing]
  · exact (others id (Nat.ne_of_lt old)).trans (Heap.scopes_enclose_of_lt old _)

/-- A call with as many arguments as parameters evaluates the body in the scope it opens for them. -/
theorem invoke_function {depth : Nat} {identity : Identity} {parameters : List String} {body : List Stmt} {captured : ScopeId}
    {arguments : List Value} (sized : arguments.length = parameters.length) (world : World) :
    invoke (depth + 1) (.function identity parameters body captured) arguments world =
      ((Stmt.evalAll (invoke depth) world.heap.scopes.size .null body
          (world.enter captured (parameters.zip arguments))).1.unwrap,
        (Stmt.evalAll (invoke depth) world.heap.scopes.size .null body
          (world.enter captured (parameters.zip arguments))).2) := by
  simp only [invoke, Value.call, sized, if_true]
  rfl

theorem Value.call_evolves {runBody : ScopeId → List (String × Value) → List Stmt → Run Value}
    (bodies : ∀ size captured bindings body scope declared, captured < size →
      (∀ binding ∈ bindings, binding.2.Within size) →
      (runBody captured bindings body).Evolves size scope declared Value.Within) :
    Invoke.Evolves (Value.call runBody) := by
  intro size callee arguments scope declared called given
  cases callee with
  | builtin which =>
    intro world complete enough
    have answer := which.apply_answers (Value.within_hereditary _) (fun value member => (given value member).mono enough)
      (fun _ _ _ _ => trivial) world
    obtain ⟨identity, lines, effect⟩ := which.apply_leavesScopes arguments world
    have same : (which.apply arguments world).2.heap = world.heap := by rw [effect]
    constructor <;> rw [Value.call, same]
    · exact .unchanged
    · exact complete
    · exact answer.within
  | function identity parameters body captured =>
    cases called with
    | function inside =>
      simp only [Value.call]
      split
      · exact bodies size captured _ body scope declared inside fun binding member =>
          given binding.2 (List.of_mem_zip member).2
      · exact .answer .error
  | _ => exact .answer .error

/-- The induction is on the number of calls that may be inside each other. -/
theorem invoke_evolves : (depth : Nat) → (invoke depth).Evolves
  | 0 => Value.call_evolves fun _ _ _ _ _ _ _ _ => .answer .error
  | depth + 1 => Value.call_evolves fun size captured bindings body scope declared inside given world complete enough => by
    have older := Nat.lt_of_lt_of_le inside enough
    have ready := World.enter_complete complete captured fun binding member => (given binding member).mono enough
    have more : world.heap.scopes.size < (world.enter captured bindings).heap.scopes.size :=
      (world.enter_entered older bindings).opened ▸ Nat.lt_succ_self _
    have ran := Stmt.evalAll_evolves (invoke_evolves depth) more .null body (List.Subset.refl _) _ ready (Nat.le_refl _)
    exact ⟨(world.enter_evolves older bindings scope declared).within (Nat.le_refl _) ran.heap, ran.complete, ran.answer.unwrap⟩

theorem Node.eval_evolves (depth : Nat) {scope : ScopeId} {size : Nat} (inside : scope < size) :
    (node : Node) → (node.eval depth scope).Evolves size scope node.declared Value.Within
  | .program whole =>
    .bind (Stmt.evalAll_evolves (invoke_evolves depth) inside .null whole.statements (List.Subset.refl _))
      fun _ _ _ given => .answer given.unwrap
  | .stmt part => part.eval_evolves (invoke_evolves depth) inside (List.Subset.refl _)
  | .expr part => part.eval_evolves (invoke_evolves depth) inside (List.Subset.refl _)

/-- The heaps that evaluation gets to, one node after the other, each in a scope that is there. -/
inductive Heap.Reachable : Heap → Prop where
  | initial (host : Host) : Reachable (World.initial host).heap
  | eval {world : World} (earlier : Reachable world.heap) (node : Node) (depth : Nat)
    (inside : scope < world.heap.scopes.size) : Reachable (node.eval depth scope world).2.heap

theorem Heap.Reachable.complete {heap : Heap} (reachable : heap.Reachable) : heap.Complete := by
  induction reachable with
  | initial host => exact World.initial_complete host
  | eval _ node depth inside ih => exact (node.eval_evolves depth inside _ ih (Nat.le_refl _)).complete

end Treewalk
