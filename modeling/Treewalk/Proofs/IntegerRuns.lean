import Treewalk.Proofs.IntegerRange
import Treewalk.Proofs.MomentLists
import Treewalk.Proofs.SignalContainment

/-! No run leaves the range of its integers. A part of a body ends in range when it begins in range, because every part before
it has done so; a call does because the body that it enters has one call less to make. Only lengths could be out of range, and
they are not as long as no value is that long at any moment. -/

namespace Treewalk

/-- No string and no array that the evaluation comes to is too long for its length to be an integer. -/
def Moment.Bounded (outer : Moment) : Prop :=
  ∀ inner : Moment, inner.During outer → ∀ length, inner.ending.1.length? = some length → length ≤ maxInteger

/-- A value and a world in range, as an evaluation leaves them. -/
structure EndsInRange (reach : ScopeId → Prop) (start : Heap) (ended : Value × World) : Prop where
  value : ended.1.InRange reach
  heap : Heap.StaysInRange reach start ended.2.heap

variable {reach : ScopeId → Prop} {start : Heap} {depth : Nat} {scope : ScopeId} {world : World}

theorem Moment.Bounded.step {inner outer : Moment} (bounded : outer.Bounded) (step : Step inner outer) : inner.Bounded :=
  fun moment during => bounded moment (during.tail step)

theorem Moment.closed_bounded : Closed Moment.Bounded := fun _ _ => Bounded.step

theorem Moment.Bounded.part {part whole : Node} {there : World} (bounded : (Moment.mk depth scope whole world).Bounded)
    (reached : Reaches depth scope part there whole world) : (Moment.mk depth scope part there).Bounded :=
  bounded.step (.part reached)

theorem EndsInRange.unlessSignal {first : Run Value} {next : Value → Run Value} (head : EndsInRange reach start (first world))
    (tail : ∀ value after, first world = (value, after) → value.isSignal = false → EndsInRange reach start (value, after) →
      EndsInRange reach start (next value after)) :
    EndsInRange reach start ((first >>= fun value => if value.isSignal then pure value else next value) world) := by
  cases ended : first world with
  | mk value after =>
    rw [ended] at head
    cases signal : value.isSignal with
    | true =>
      rw [Run.unlessSignal_of_signal ended signal]
      exact head
    | false =>
      rw [Run.unlessSignal_of_value ended signal]
      exact tail value after ended signal head

/-! ### Single steps -/

theorem Run.lookup_endsInRange (reached : reach scope) (stays : Heap.StaysInRange reach start world.heap) (name : String) :
    EndsInRange reach start (Run.lookup scope name world) := by
  refine ⟨?_, stays⟩
  simp only [Run.lookup]
  split
  next value found => exact stays.get? reached found
  next =>
    split
    · exact .builtin
    · exact .error

theorem Run.assign_endsInRange (reached : reach scope) {value : Value}
    (given : EndsInRange reach start (value, world)) (name : String) :
    EndsInRange reach start (Run.assign scope name value world) := by
  simp only [Run.assign]
  split
  next heap assigned => exact ⟨given.value, given.heap.assign? reached given.value assigned⟩
  next => exact ⟨.error, given.heap⟩

theorem Run.defineAll_staysInRange (reached : reach scope) (bindings : List (String × Value))
    (given : ∀ binding ∈ bindings, binding.2.InRange reach) (stays : Heap.StaysInRange reach start world.heap) :
    Heap.StaysInRange reach start (Run.defineAll scope bindings world).2.heap := by
  induction bindings generalizing world with
  | nil => exact stays
  | cons binding bindings ih =>
    obtain ⟨first, others⟩ := List.forall_mem_cons.mp given
    rw [Run.defineAll, Run.bind_apply]
    exact ih others (stays.define reached binding.1 first)

/-- The scope that a call opens is a new one, and it is linked to one that the function remembers. -/
theorem World.enter_staysInRange {captured : ScopeId} (reached : reach captured) {bindings : List (String × Value)}
    (given : ∀ binding ∈ bindings, binding.2.InRange reach) (stays : Heap.StaysInRange reach start world.heap) :
    Heap.StaysInRange reach start (world.enter captured bindings).heap :=
  Run.defineAll_staysInRange (stays.fresh (Nat.le_refl _)) bindings given (stays.enclose reached)

/-- Values that can be handed over: they are in range, and so are their lengths. -/
def Handed (reach : ScopeId → Prop) (values : List Value) : Prop :=
  ∀ value ∈ values, value.InRange reach ∧ ∀ length, value.length? = some length → length ≤ maxInteger

theorem Builtin.apply_endsInRange (builtin : Builtin) {arguments : List Value} (handed : Handed reach arguments)
    (stays : Heap.StaysInRange reach start world.heap) : EndsInRange reach start (builtin.apply arguments world) := by
  have answer := builtin.apply_answers (Value.inRange_hereditary reach) (fun argument member => (handed argument member).1)
    (fun argument member length found => inWord_of_le ((handed argument member).2 length found)) world
  obtain ⟨identity, lines, effect⟩ := builtin.apply_leavesScopes arguments world
  exact ⟨answer.inRange, by rw [effect]; exact stays⟩

/-! ### Bodies -/

/-- Calls end in range where the bodies that they enter are bounded. -/
def CallsInRange (reach : ScopeId → Prop) (start : Heap) (depth : Nat) : Prop :=
  ∀ callee values world, callee.InRange reach → Handed reach values → Heap.StaysInRange reach start world.heap →
    (∀ inner, Enters depth callee values world inner → inner.Bounded) →
    EndsInRange reach start (invoke depth callee values world)

/-- What expressions evaluated one after another leave: values to hand over, or a signal. -/
def AllEndInRange (reach : ScopeId → Prop) (start : Heap) : Except Value (List Value) × World → Prop
  | (.ok values, after) => Handed reach values ∧ Heap.StaysInRange reach start after.heap
  | (.error signal, after) => EndsInRange reach start (signal, after)

mutual

theorem Expr.endsInRange (calls : CallsInRange reach start depth) (reached : reach scope) :
    (expr : Expr) → {world : World} → expr.Fits → Heap.StaysInRange reach start world.heap →
      (Moment.mk depth scope (.expr expr) world).Bounded → EndsInRange reach start (expr.eval (invoke depth) scope world)
  | .name name, world, _, stays, _ => by
    rw [Expr.eval]
    exact Run.lookup_endsInRange reached stays name
  | .integer _, _, fits, stays, _ => ⟨.integer fits, stays⟩
  | .string _, _, _, stays, _ => ⟨.string, stays⟩
  | .boolean _, _, _, stays, _ => ⟨.boolean, stays⟩
  | .unary op operand, world, fits, stays, bounded => by
    rw [Expr.eval]
    have head := operand.endsInRange calls reached fits stays (bounded.part (.operand .itself_expr))
    refine head.unlessSignal fun value after _ _ given => ?_
    exact ⟨(op.apply_answers (Value.inRange_hereditary reach) value).inRange, given.heap⟩
  | .binary left op right, world, fits, stays, bounded => by
    rw [Expr.eval]
    have head := left.endsInRange calls reached fits.1 stays (bounded.part (.left .itself_expr))
    refine head.unlessSignal fun first middle passed plain given => ?_
    have tail := right.endsInRange calls reached fits.2 given.heap (bounded.part (.right ⟨passed, plain⟩ .itself_expr))
    refine tail.unlessSignal fun second after _ _ given' => ?_
    exact ⟨(op.apply_answers (Value.inRange_hereditary reach) first second).inRange, given'.heap⟩
  | .assign name value, world, fits, stays, bounded => by
    rw [Expr.eval]
    have head := value.endsInRange calls reached fits stays (bounded.part (.assigned .itself_expr))
    exact head.unlessSignal fun result after _ _ given => Run.assign_endsInRange reached given name
  | .ifThen condition consequence, world, fits, stays, bounded => by
    rw [Expr.eval]
    have head := condition.endsInRange calls reached fits.1 stays (bounded.part (.onlyCondition .itself_expr))
    refine head.unlessSignal fun test middle passed plain given => ?_
    cases holds : test.isTruthy with
    | true =>
      have body := bounded.part (.onlyConsequence ⟨passed, plain⟩ holds .itself_stmt)
      exact Stmt.allEndInRange calls reached consequence fits.2 .null rfl given.heap (Moment.closed_bounded.block body)
    | false => exact ⟨.null, given.heap⟩
  | .ifElse condition consequence alternative, world, fits, stays, bounded => by
    rw [Expr.eval]
    have head := condition.endsInRange calls reached fits.1 stays (bounded.part (.condition .itself_expr))
    refine head.unlessSignal fun test middle passed plain given => ?_
    cases holds : test.isTruthy with
    | true =>
      have body := bounded.part (.consequence ⟨passed, plain⟩ holds .itself_stmt)
      exact Stmt.allEndInRange calls reached consequence fits.2.1 .null rfl given.heap (Moment.closed_bounded.block body)
    | false =>
      have body := bounded.part (.alternative ⟨passed, plain⟩ holds .itself_stmt)
      exact Stmt.allEndInRange calls reached alternative fits.2.2 .null rfl given.heap (Moment.closed_bounded.block body)
  | .function _ _, _, fits, stays, _ => ⟨.function fits reached, stays⟩
  | .call function arguments, world, fits, stays, bounded => by
    rw [Expr.eval]
    have head := function.endsInRange calls reached fits.1 stays (bounded.part (.callee .itself_expr))
    refine head.unlessSignal fun callee middle passed plain given => ?_
    have among := Moment.closed_bounded.arguments bounded ⟨passed, plain⟩
    have all := Expr.allEndInRange calls reached arguments fits.2 given.heap among
    rw [Run.bind_apply]
    cases evaluated : Expr.evalAll (invoke depth) scope arguments middle with
    | mk outcome later =>
      rw [evaluated] at all
      cases outcome with
      | error signal => exact all
      | ok values =>
        refine calls callee values later given.value all.1 all.2 fun inner entered => ?_
        exact bounded.step (.body ⟨passed, plain⟩ evaluated entered)
  | .array elements, world, fits, stays, bounded => by
    have all := Expr.allEndInRange calls reached elements fits stays (Moment.closed_bounded.elements bounded)
    rw [Expr.eval, Run.bind_apply]
    generalize Expr.evalAll (invoke depth) scope elements world = ended at all ⊢
    obtain ⟨outcome, later⟩ := ended
    cases outcome with
    | error signal => exact all
    | ok values => exact ⟨.array fun value member => (all.1 value member).1, all.2⟩
  | .index collection position, world, fits, stays, bounded => by
    rw [Expr.eval]
    have head := collection.endsInRange calls reached fits.1 stays (bounded.part (.collection .itself_expr))
    refine head.unlessSignal fun whole middle passed plain given => ?_
    have tail := position.endsInRange calls reached fits.2 given.heap (bounded.part (.position ⟨passed, plain⟩ .itself_expr))
    refine tail.unlessSignal fun place after _ _ given' => ?_
    exact ⟨((Value.inRange_hereditary reach).elementAt place given.value).inRange, given'.heap⟩

theorem Expr.allEndInRange (calls : CallsInRange reach start depth) (reached : reach scope) :
    (exprs : List Expr) → {world : World} → Expr.AllFit exprs → Heap.StaysInRange reach start world.heap →
      Expr.AllAmong Moment.Bounded depth scope exprs world → AllEndInRange reach start (Expr.evalAll (invoke depth) scope exprs world)
  | [], _, _, stays, _ => ⟨nofun, stays⟩
  | expr :: exprs, world, fits, stays, bounded => by
    have first := bounded [] expr exprs [] world rfl rfl
    have head := expr.endsInRange calls reached fits.1 stays first
    rw [Expr.evalAll]
    cases ended : expr.eval (invoke depth) scope world with
    | mk value after =>
      rw [ended] at head
      cases signal : value.isSignal with
      | true =>
        rw [Run.unlessSignal_of_signal ended signal]
        exact head
      | false =>
        have others := Expr.allEndInRange calls reached exprs fits.2 head.heap (bounded.tail ended signal)
        rw [Run.unlessSignal_of_value ended signal, Run.bind_apply]
        generalize Expr.evalAll (invoke depth) scope exprs after = rest at others ⊢
        obtain ⟨outcome, last⟩ := rest
        cases outcome with
        | error signal => exact others
        | ok values =>
          have short (length : Nat) (found : value.length? = some length) : length ≤ maxInteger := by
            refine first _ .refl length ?_
            rw [Moment.ending, Node.eval, ended]
            exact found
          exact ⟨List.forall_mem_cons.mpr ⟨⟨head.value, short⟩, others.1⟩, others.2⟩

theorem Stmt.endsInRange (calls : CallsInRange reach start depth) (reached : reach scope) :
    (stmt : Stmt) → {world : World} → stmt.Fits → Heap.StaysInRange reach start world.heap →
      (Moment.mk depth scope (.stmt stmt) world).Bounded → EndsInRange reach start (stmt.eval (invoke depth) scope world)
  | .bind name value, world, fits, stays, bounded => by
    rw [Stmt.eval]
    have head := value.endsInRange calls reached fits stays (bounded.part (.bound .itself_expr))
    exact head.unlessSignal fun result after _ _ given => ⟨.null, given.heap.define reached name given.value⟩
  | .leave, _, _, stays, _ => ⟨.returned .null, stays⟩
  | .leaveWith value, world, fits, stays, bounded => by
    rw [Stmt.eval]
    have head := value.endsInRange calls reached fits stays (bounded.part (.leaving .itself_expr))
    exact head.unlessSignal fun result after _ _ given => ⟨.returned given.value, given.heap⟩
  | .expr value, world, fits, stays, bounded => by
    rw [Stmt.eval]
    exact value.endsInRange calls reached fits stays (bounded.part (.expression .itself_expr))
  | .block statements, world, fits, stays, bounded => by
    rw [Stmt.eval]
    exact Stmt.allEndInRange calls reached statements fits .null rfl stays (Moment.closed_bounded.block bounded)

theorem Stmt.allEndInRange (calls : CallsInRange reach start depth) (reached : reach scope) :
    (stmts : List Stmt) → {result : Value} → {world : World} → Stmt.AllFit stmts → result.InRange reach →
      result.isSignal = false → Heap.StaysInRange reach start world.heap → Stmt.AllAmong Moment.Bounded depth scope result stmts world →
      EndsInRange reach start (Stmt.evalAll (invoke depth) scope result stmts world)
  | [], _, _, _, given, _, stays, _ => ⟨given, stays⟩
  | stmt :: stmts, result, world, fits, given, plain, stays, bounded => by
    rw [Stmt.evalAll]
    have head := stmt.endsInRange calls reached fits.1 stays (bounded [] stmt stmts result world rfl rfl plain)
    refine head.unlessSignal fun value after ended plain' given' => ?_
    exact Stmt.allEndInRange calls reached stmts fits.2 given'.value plain' given'.heap (bounded.tail ended plain')

end

/-- The induction is on the calls that are left. -/
theorem callsInRange (reach : ScopeId → Prop) (start : Heap) (depth : Nat) : CallsInRange reach start depth := by
  induction depth using Nat.strongRecOn with
  | ind depth ih =>
    intro callee values world given handed stays bounded
    cases callee with
    | builtin which => cases depth <;> exact which.apply_endsInRange handed stays
    | function identity parameters body captured =>
      by_cases enough : values.length = parameters.length
      · cases depth with
        | zero =>
          simp only [invoke, Value.call, enough, if_true]
          exact ⟨.error, stays⟩
        | succ depth =>
          rw [invoke_function enough]
          have ended : EndsInRange reach start (Stmt.evalAll (invoke depth) world.heap.scopes.size .null body
              (world.enter captured (parameters.zip values))) := by
            cases given with
            | function fits reached =>
              have handed (binding : String × Value) (member : binding ∈ parameters.zip values) : binding.2.InRange reach :=
                (handed binding.2 (List.of_mem_zip member).2).1
              exact Stmt.allEndInRange (ih depth (Nat.lt_succ_self depth)) (stays.fresh (Nat.le_refl _)) body fits .null rfl
                (world.enter_staysInRange reached handed stays) (Moment.closed_bounded.block (bounded _ (.body enough)))
          exact ⟨ended.value.unwrap, ended.heap⟩
      · cases depth <;> simp only [invoke, Value.call, enough, if_false] <;> exact ⟨.error, stays⟩
    | _ => cases depth <;> exact ⟨.error, stays⟩

/-! ### Moments -/

/-- A moment at which nothing is out of range. -/
structure Moment.BeginsInRange (reach : ScopeId → Prop) (start : Heap) (moment : Moment) : Prop where
  scope : reach moment.scope
  node : moment.node.Fits
  heap : Heap.StaysInRange reach start moment.world.heap

theorem Moment.BeginsInRange.ending {moment : Moment} (begins : moment.BeginsInRange reach start) (bounded : moment.Bounded) :
    EndsInRange reach start moment.ending := by
  obtain ⟨depth, scope, node, world⟩ := moment
  have calls := callsInRange reach start depth
  cases node with
  | program whole =>
    have body := bounded.part (.program .itself_stmt)
    have ended := Stmt.allEndInRange calls begins.scope whole.statements begins.node .null rfl begins.heap (Moment.closed_bounded.block body)
    exact ⟨ended.value.unwrap, ended.heap⟩
  | stmt part => exact part.endsInRange calls begins.scope begins.node begins.heap bounded
  | expr part => exact part.endsInRange calls begins.scope begins.node begins.heap bounded

theorem Expr.Passes.endsInRange {expr : Expr} {value : Value} {after : World} (passed : Expr.Passes depth scope expr world value after)
    (reached : reach scope) (fits : expr.Fits) (stays : Heap.StaysInRange reach start world.heap)
    (bounded : (Moment.mk depth scope (.expr expr) world).Bounded) : EndsInRange reach start (value, after) := by
  rw [← passed.1]
  exact expr.endsInRange (callsInRange reach start depth) reached fits stays bounded

theorem Expr.handed_of_evalAll {exprs : List Expr} {values : List Value} {after : World} (reached : reach scope)
    (fits : Expr.AllFit exprs) (stays : Heap.StaysInRange reach start world.heap)
    (evaluated : Expr.evalAll (invoke depth) scope exprs world = (.ok values, after))
    (bounded : Expr.AllAmong Moment.Bounded depth scope exprs world) : Handed reach values ∧ Heap.StaysInRange reach start after.heap := by
  have all := Expr.allEndInRange (callsInRange reach start depth) reached exprs fits stays bounded
  rwa [evaluated] at all

/-- Each part of a body begins in range, since what comes before it has ended so. -/
theorem Reaches.beginsInRange {part whole : Node} {there : World} (reached : Reaches depth scope part there whole world)
    (begins : (Moment.mk depth scope whole world).BeginsInRange reach start)
    (bounded : (Moment.mk depth scope whole world).Bounded) : (Moment.mk depth scope part there).BeginsInRange reach start := by
  induction reached with
  | here => exact begins
  | operand _ ih => exact ih ⟨begins.scope, begins.node, begins.heap⟩ (bounded.part (.operand .itself_expr))
  | left _ ih => exact ih ⟨begins.scope, begins.node.1, begins.heap⟩ (bounded.part (.left .itself_expr))
  | right passed _ ih =>
    have ended := passed.endsInRange begins.scope begins.node.1 begins.heap (bounded.part (.left .itself_expr))
    exact ih ⟨begins.scope, begins.node.2, ended.heap⟩ (bounded.part (.right passed .itself_expr))
  | assigned _ ih => exact ih ⟨begins.scope, begins.node, begins.heap⟩ (bounded.part (.assigned .itself_expr))
  | onlyCondition _ ih => exact ih ⟨begins.scope, begins.node.1, begins.heap⟩ (bounded.part (.onlyCondition .itself_expr))
  | onlyConsequence passed holds _ ih =>
    have ended := passed.endsInRange begins.scope begins.node.1 begins.heap (bounded.part (.onlyCondition .itself_expr))
    exact ih ⟨begins.scope, begins.node.2, ended.heap⟩ (bounded.part (.onlyConsequence passed holds .itself_stmt))
  | condition _ ih => exact ih ⟨begins.scope, begins.node.1, begins.heap⟩ (bounded.part (.condition .itself_expr))
  | consequence passed holds _ ih =>
    have ended := passed.endsInRange begins.scope begins.node.1 begins.heap (bounded.part (.condition .itself_expr))
    exact ih ⟨begins.scope, begins.node.2.1, ended.heap⟩ (bounded.part (.consequence passed holds .itself_stmt))
  | alternative passed fails _ ih =>
    have ended := passed.endsInRange begins.scope begins.node.1 begins.heap (bounded.part (.condition .itself_expr))
    exact ih ⟨begins.scope, begins.node.2.2, ended.heap⟩ (bounded.part (.alternative passed fails .itself_stmt))
  | callee _ ih => exact ih ⟨begins.scope, begins.node.1, begins.heap⟩ (bounded.part (.callee .itself_expr))
  | argument passed earlier _ ih =>
    have ended := passed.endsInRange begins.scope begins.node.1 begins.heap (bounded.part (.callee .itself_expr))
    obtain ⟨before, fits, -⟩ := Expr.allFit_append.mp begins.node.2
    have handed := Expr.handed_of_evalAll begins.scope before ended.heap earlier <| by
      rintro front expr back values later rfl earlier
      rw [List.append_assoc, List.cons_append] at bounded
      exact bounded.part (.argument passed earlier .itself_expr)
    exact ih ⟨begins.scope, fits, handed.2⟩ (bounded.part (.argument passed earlier .itself_expr))
  | element earlier _ ih =>
    obtain ⟨before, fits, -⟩ := Expr.allFit_append.mp begins.node
    have handed := Expr.handed_of_evalAll begins.scope before begins.heap earlier <| by
      rintro front expr back values later rfl earlier
      rw [List.append_assoc, List.cons_append] at bounded
      exact bounded.part (.element earlier .itself_expr)
    exact ih ⟨begins.scope, fits, handed.2⟩ (bounded.part (.element earlier .itself_expr))
  | collection _ ih => exact ih ⟨begins.scope, begins.node.1, begins.heap⟩ (bounded.part (.collection .itself_expr))
  | position passed _ ih =>
    have ended := passed.endsInRange begins.scope begins.node.1 begins.heap (bounded.part (.collection .itself_expr))
    exact ih ⟨begins.scope, begins.node.2, ended.heap⟩ (bounded.part (.position passed .itself_expr))
  | bound _ ih => exact ih ⟨begins.scope, begins.node, begins.heap⟩ (bounded.part (.bound .itself_expr))
  | leaving _ ih => exact ih ⟨begins.scope, begins.node, begins.heap⟩ (bounded.part (.leaving .itself_expr))
  | expression _ ih => exact ih ⟨begins.scope, begins.node, begins.heap⟩ (bounded.part (.expression .itself_expr))
  | statement earlier plain _ ih =>
    obtain ⟨before, fits, -⟩ := Stmt.allFit_append.mp begins.node
    have handed := Stmt.allEndInRange (callsInRange reach start depth) begins.scope _ before .null rfl begins.heap <| by
      rintro front stmt back value later rfl earlier plain
      rw [List.append_assoc, List.cons_append] at bounded
      exact bounded.part (.statement earlier plain .itself_stmt)
    rw [earlier] at handed
    exact ih ⟨begins.scope, fits, handed.heap⟩ (bounded.part (.statement earlier plain .itself_stmt))
  | program _ ih => exact ih ⟨begins.scope, begins.node, begins.heap⟩ (bounded.part (.program .itself_stmt))

theorem Moment.Step.beginsInRange {inner outer : Moment} (step : Step inner outer) (begins : outer.BeginsInRange reach start)
    (bounded : outer.Bounded) : inner.BeginsInRange reach start := by
  cases step with
  | part reached => exact reached.beginsInRange begins bounded
  | body passed evaluated entered =>
    have ended := passed.endsInRange begins.scope begins.node.1 begins.heap (bounded.part (.callee .itself_expr))
    have handed := Expr.handed_of_evalAll begins.scope begins.node.2 ended.heap evaluated
      (closed_bounded.arguments bounded passed)
    cases entered with
    | body enough =>
      cases ended.value with
      | function fits reached =>
        refine ⟨handed.2.fresh (Nat.le_refl _), fits, World.enter_staysInRange reached ?_ handed.2⟩
        exact fun binding member => (handed.1 binding.2 (List.of_mem_zip member).2).1

theorem Moment.During.beginsInRange {inner outer : Moment} (during : inner.During outer)
    (begins : outer.BeginsInRange reach start) (bounded : outer.Bounded) : inner.BeginsInRange reach start ∧ inner.Bounded := by
  induction during using Relation.ReflTransGen.head_induction_on with
  | refl => exact ⟨begins, bounded⟩
  | head step _ ih => exact ⟨step.beginsInRange ih.1 ih.2, ih.2.step step⟩

/-! ### Programs one after another -/

/-- The values of programs that have run one after another, and all moments of their runs. -/
theorem Program.evaluateAll_inRange {programs : List (Program × Int)} (fits : ∀ entry ∈ programs, Stmt.AllFit entry.1.statements)
    (reached : reach scope) (stays : Heap.StaysInRange reach start world.heap)
    (bounded : ∀ moment : Moment, moment.DuringAll scope programs world →
      ∀ length, moment.ending.1.length? = some length → length ≤ maxInteger) :
    (∀ moment : Moment, moment.DuringAll scope programs world →
      Heap.StaysInRange reach start moment.world.heap ∧ EndsInRange reach start moment.ending) ∧
      (∀ value, some value ∈ (evaluateAll scope programs world).1 → value.InRange reach) ∧
      Heap.StaysInRange reach start (evaluateAll scope programs world).2.heap := by
  induction programs generalizing world with
  | nil => exact ⟨nofun, nofun, stays⟩
  | cons entry programs ih =>
    obtain ⟨program, limit⟩ := entry
    obtain ⟨fit, fits⟩ := List.forall_mem_cons.mp fits
    cases allowed : world.host.allowedCalls? limit with
    | none =>
      have refused : program.evaluate? limit scope world = none := by
        simp only [Program.evaluate?, Node.evaluate?, allowed, Option.map_none]
      simp only [Moment.DuringAll, allowed] at bounded ⊢
      obtain ⟨moments, values, heap⟩ := ih fits stays bounded
      simp only [evaluateAll, refused]
      exact ⟨moments, fun value member => values value (by simpa using member), heap⟩
    | some depth =>
      have evaluated : program.evaluate? limit scope world = some (program.eval depth scope world) := by
        simp only [Program.evaluate?, Node.evaluate?, allowed, Option.map_some]
        rfl
      simp only [Moment.DuringAll, allowed] at bounded ⊢
      have begins : (Moment.mk depth scope (.program program) world).BeginsInRange reach start := ⟨reached, fit, stays⟩
      have here : (Moment.mk depth scope (.program program) world).Bounded := fun inner during => bounded inner (Or.inl during)
      have ended := begins.ending here
      obtain ⟨moments, values, heap⟩ := ih fits ended.heap fun moment later => bounded moment (Or.inr later)
      simp only [evaluateAll, evaluated]
      refine ⟨fun moment during => ?_, fun value member => ?_, heap⟩
      · rcases during with during | later
        · obtain ⟨inside, bounded⟩ := during.beginsInRange begins here
          exact ⟨inside.heap, inside.ending bounded⟩
        · exact moments moment later
      · rcases List.mem_cons.mp member with same | later
        · exact Option.some.inj same ▸ ended.value
        · exact values value later

/-- From scopes whose values are in range, programs that are read without a diagnostic never leave it: not at any moment, and
neither in what they bind nor in what they answer. Scopes that cannot be reached from there stay as they are. -/
theorem Program.integers_stay_in_range {programs : List (Program × Int)}
    (accepted : ∀ entry ∈ programs, ∃ source, Program.parse source = (entry.1, [])) (reached : reach scope)
    (inside : world.heap.InRange reach)
    (bounded : ∀ moment : Moment, moment.DuringAll scope programs world →
      ∀ length, moment.ending.1.length? = some length → length ≤ maxInteger) :
    (∀ moment : Moment, moment.DuringAll scope programs world →
      Heap.StaysInRange reach world.heap moment.world.heap ∧ EndsInRange reach world.heap moment.ending) ∧
      (∀ value, some value ∈ (evaluateAll scope programs world).1 → value.InRange reach) ∧
      Heap.StaysInRange reach world.heap (evaluateAll scope programs world).2.heap := by
  refine evaluateAll_inRange (fun entry member => ?_) reached ⟨inside, fun _ _ _ => rfl⟩ bounded
  obtain ⟨source, parsed⟩ := accepted entry member
  have silent : (Program.parse source).2 = [] := by rw [parsed]
  have well : (Program.parse source).1.WellFormed := (Program.well_formed_of_silent silent).1
  rw [parsed] at well
  exact Stmt.allFit_of_wellFormed entry.1.statements well

/-- Programs as they are read, each with its limit. -/
def Program.parseAll (sources : List (String × Int)) : List (Program × Int) :=
  sources.map fun entry => ((parse entry.1).1, entry.2)

theorem Program.parseAll_accepted {sources : List (String × Int)}
    (silent : ∀ entry ∈ sources, (parse entry.1).2.isEmpty = true) :
    ∀ entry ∈ parseAll sources, ∃ source, parse source = (entry.1, []) := by
  intro entry member
  obtain ⟨origin, listed, rfl⟩ := List.mem_map.mp member
  exact ⟨origin.1, Prod.ext rfl (List.isEmpty_iff.mp (silent origin listed))⟩

theorem World.initial_inRange (host : Host) : (initial host).heap.InRange fun _ => True :=
  ⟨fun {id name value} _ found => (Heap.empty_everywhere _).enclose none id name value found, fun _ _ => trivial, fun _ => trivial⟩

/-- Whether values are short enough can be computed, moment by moment. -/
theorem Moment.length_le_of_ofPrograms {programs : List (Program × Int)}
    (short : ∀ moment ∈ ofPrograms scope programs world, moment.ending.1.length?.all (· ≤ maxInteger) = true) (moment : Moment)
    (during : moment.DuringAll scope programs world) (length : Nat) (found : moment.ending.1.length? = some length) :
    length ≤ maxInteger := by
  have here := short moment (mem_ofPrograms_iff.mpr during)
  rw [found] at here
  exact of_decide_eq_true here

/-- Below the least integer and from its quotient by minus one, a closure makes an array of integers that wrapped around; the
length of a string is among them. A later program multiplies them. -/
theorem Program.wrapped_integers_stay_in_range :
    let sources := [
      ("let least = -9223372036854775807 - 1; let scaled = fn(by) { fn(xs) { push(xs, least / by) } };
        let table = scaled(-1)([least - 1, len(\"abc\")]);", (5 : Int)),
      ("table[0] * table[2] + len(table)", 0)]
    let programs := parseAll sources
    ∃ answers after, evaluateAll World.root programs (.initial .usual) = (answers, after) ∧
      (∀ value, some value ∈ answers → value.InRange fun _ => True) ∧
      Heap.StaysInRange (fun _ => True) (World.initial .usual).heap after.heap ∧
      (after.heap.own? World.root "table").map Value.inspect = some "[9223372036854775807, 3, -9223372036854775808]" ∧
      answers.map (Option.map Value.inspect) = [some "null", some "-9223372036854775805"] := by
  intro sources programs
  -- One computation, since most of it is the reading of the sources.
  have computed : (∀ entry ∈ sources, (parse entry.1).2.isEmpty = true) ∧
      (∀ moment ∈ Moment.ofPrograms World.root programs (.initial .usual), moment.ending.1.length?.all (· ≤ maxInteger) = true) ∧
      ((evaluateAll World.root programs (.initial .usual)).2.heap.own? World.root "table").map Value.inspect =
        some "[9223372036854775807, 3, -9223372036854775808]" ∧
      (evaluateAll World.root programs (.initial .usual)).1.map (Option.map Value.inspect) =
        [some "null", some "-9223372036854775805"] := by decide +kernel
  obtain ⟨silent, short, table, printed⟩ := computed
  have ranges := integers_stay_in_range (parseAll_accepted silent) trivial (World.initial_inRange .usual)
    (Moment.length_le_of_ofPrograms short)
  exact ⟨_, _, (Prod.eta _).symm, ranges.2.1, ranges.2.2, table, printed⟩

end Treewalk
