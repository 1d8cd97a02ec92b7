import Treewalk.Proofs.Moments
import Treewalk.Proofs.SignalContainment
import Treewalk.Proofs.Upkeep

/-! What is kept up holds at every moment. Evaluation comes to a part of a body after what stands before the part has been
evaluated, and to the body of a function after its callee and its arguments have been; so each moment begins at some later
stage than the evaluation that it belongs to. -/

namespace Treewalk

variable {Stage : Type} [Preorder Stage] {care : Upkeep Stage} {stage : Stage} {depth : Nat} {scope : ScopeId}

/-- A moment at which everything is as it is to be kept up. -/
structure Moment.Begins (care : Upkeep Stage) (stage : Stage) (moment : Moment) : Prop where
  scope : care.scopes moment.scope
  node : moment.node.Conforms care.names care.functions
  world : care.worlds stage moment.world moment.world

/-- What an evaluation leaves that has kept everything up. -/
structure Upkeep.Ends (care : Upkeep Stage) (stage : Stage) (ended : Value × World) : Prop where
  value : care.values stage ended.1
  world : care.worlds stage ended.2 ended.2

theorem Run.Keeps.ends {run : Run Value} (keeps : run.Keeps care stage care.values) {world : World}
    (worlds : care.worlds stage world world) : ∃ later, stage ≤ later ∧ care.Ends later (run world) := by
  obtain ⟨-, later, further, kept, given⟩ := keeps stage world world (le_refl stage) worlds
  exact ⟨later, further, given, kept⟩

theorem Moment.Begins.ends {moment : Moment} (begins : moment.Begins care stage) (laws : care.Lawful) :
    ∃ later, stage ≤ later ∧ care.Ends later moment.ending :=
  (moment.node.eval_keeps laws moment.depth begins.scope begins.node).ends begins.world

theorem Expr.Passes.ends {expr : Expr} {start after : World} {value : Value}
    (passed : Expr.Passes depth scope expr start value after) (laws : care.Lawful)
    (begins : (Moment.mk depth scope (.expr expr) start).Begins care stage) :
    ∃ later, stage ≤ later ∧ care.Ends later (value, after) := by
  rw [← passed.1]
  exact begins.ends laws

/-- Expressions that are evaluated one after another and end with values. -/
theorem Expr.evalAll_ends {exprs : List Expr} {values : List Value} {start after : World} (laws : care.Lawful)
    (within : care.scopes scope) (conform : Expr.AllConform care.names care.functions exprs)
    (worlds : care.worlds stage start start) (evaluated : Expr.evalAll (invoke depth) scope exprs start = (.ok values, after)) :
    ∃ later, stage ≤ later ∧ (∀ value ∈ values, care.values later value) ∧ care.worlds later after after := by
  have keeps : Run.Keeps care stage care.allValues (Expr.evalAll (invoke depth) scope exprs) :=
    Expr.evalAll_keeps laws (invoke_keeps laws depth) within exprs conform
  obtain ⟨-, later, further, kept, given⟩ := keeps stage start start (le_refl stage) worlds
  rw [evaluated] at kept given
  exact ⟨later, further, given, kept⟩

theorem Expr.allConform_append {names : String → Prop} {functions : List String → List Stmt → Prop} {first second : List Expr} :
    Expr.AllConform names functions (first ++ second) ↔
      Expr.AllConform names functions first ∧ Expr.AllConform names functions second := by
  induction first with
  | nil => simp [Expr.AllConform]
  | cons expr exprs ih => simp [Expr.AllConform, ih, and_assoc]

theorem Stmt.allConform_append {names : String → Prop} {functions : List String → List Stmt → Prop} {first second : List Stmt} :
    Stmt.AllConform names functions (first ++ second) ↔
      Stmt.AllConform names functions first ∧ Stmt.AllConform names functions second := by
  induction first with
  | nil => simp [Stmt.AllConform]
  | cons stmt stmts ih => simp [Stmt.AllConform, ih, and_assoc]

/-- The moment begins as it is to begin, at this stage or later. -/
def Moment.Comes (care : Upkeep Stage) (stage : Stage) (moment : Moment) : Prop :=
  ∃ later, stage ≤ later ∧ moment.Begins care later

theorem Moment.Comes.since {later : Stage} {moment : Moment} (comes : moment.Comes care later) (further : stage ≤ later) :
    moment.Comes care stage := by
  obtain ⟨last, more, begins⟩ := comes
  exact ⟨last, further.trans more, begins⟩

theorem Reaches.comes {part whole : Node} {there start : World} (reached : Reaches depth scope part there whole start)
    (laws : care.Lawful) (begins : (Moment.mk depth scope whole start).Begins care stage) :
    (Moment.mk depth scope part there).Comes care stage := by
  induction reached generalizing stage with
  | here => exact ⟨stage, le_refl stage, begins⟩
  | operand _ ih | expression _ ih | leaving _ ih | program _ ih => exact ih ⟨begins.scope, begins.node, begins.world⟩
  | left _ ih | onlyCondition _ ih | condition _ ih | callee _ ih | collection _ ih =>
    exact ih ⟨begins.scope, begins.node.1, begins.world⟩
  | assigned _ ih | bound _ ih => exact ih ⟨begins.scope, begins.node.2, begins.world⟩
  | right passed _ ih | onlyConsequence passed _ _ ih | position passed _ ih =>
    obtain ⟨later, further, ended⟩ := passed.ends laws ⟨begins.scope, begins.node.1, begins.world⟩
    exact (ih ⟨begins.scope, begins.node.2, ended.world⟩).since further
  | consequence passed _ _ ih =>
    obtain ⟨later, further, ended⟩ := passed.ends laws ⟨begins.scope, begins.node.1, begins.world⟩
    exact (ih ⟨begins.scope, begins.node.2.1, ended.world⟩).since further
  | alternative passed _ _ ih =>
    obtain ⟨later, further, ended⟩ := passed.ends laws ⟨begins.scope, begins.node.1, begins.world⟩
    exact (ih ⟨begins.scope, begins.node.2.2, ended.world⟩).since further
  | argument passed earlier _ ih =>
    obtain ⟨later, further, ended⟩ := passed.ends laws ⟨begins.scope, begins.node.1, begins.world⟩
    obtain ⟨before, itself, -⟩ := Expr.allConform_append.mp begins.node.2
    obtain ⟨last, more, -, kept⟩ := Expr.evalAll_ends laws begins.scope before ended.world earlier
    exact (ih ⟨begins.scope, itself, kept⟩).since (further.trans more)
  | element earlier _ ih =>
    obtain ⟨before, itself, -⟩ := Expr.allConform_append.mp begins.node
    obtain ⟨later, further, -, kept⟩ := Expr.evalAll_ends laws begins.scope before begins.world earlier
    exact (ih ⟨begins.scope, itself, kept⟩).since further
  | statement earlier _ _ ih =>
    obtain ⟨before, itself, -⟩ := Stmt.allConform_append.mp begins.node
    obtain ⟨later, further, ended⟩ :=
      (Stmt.evalAll_keeps laws (invoke_keeps laws depth) begins.scope _ before (.plain .null)).ends begins.world
    rw [earlier] at ended
    exact (ih ⟨begins.scope, itself, ended.world⟩).since further

theorem World.enter_keeps (laws : care.Lawful) {world : World} {captured : ScopeId} {bindings : List (String × Value)}
    (worlds : care.worlds stage world world) (within : care.scopes captured)
    (given : ∀ binding ∈ bindings, care.names binding.1 ∧ care.values stage binding.2) :
    ∃ later, stage ≤ later ∧ care.scopes world.heap.scopes.size ∧
      care.worlds later (world.enter captured bindings) (world.enter captured bindings) := by
  obtain ⟨-, later, further, opened, inside⟩ := laws.enclose within stage world world (le_refl stage) worlds
  have defines := laws.defineAll inside fun binding member => (given binding member).imp_right (laws.values_mono further)
  obtain ⟨-, last, more, kept, -⟩ := defines later _ _ (le_refl later) opened
  exact ⟨last, further.trans more, inside, kept⟩

theorem Moment.Step.comes {inner outer : Moment} (step : Step inner outer) (laws : care.Lawful)
    (begins : outer.Begins care stage) : inner.Comes care stage := by
  cases step with
  | part reached => exact reached.comes laws begins
  | body passed evaluated entered =>
    obtain ⟨later, further, ended⟩ := passed.ends laws ⟨begins.scope, begins.node.1, begins.world⟩
    obtain ⟨last, more, given, kept⟩ := Expr.evalAll_ends laws begins.scope begins.node.2 ended.world evaluated
    cases entered with
    | body enough =>
      obtain ⟨within, named, conforms⟩ := laws.opens (ended.value.itself rfl)
      obtain ⟨final, since, inside, kept⟩ := World.enter_keeps laws kept within fun binding member =>
        ⟨named binding.1 (List.of_mem_zip member).1, given binding.2 (List.of_mem_zip member).2⟩
      exact ⟨final, further.trans (more.trans since), inside, conforms, kept⟩

theorem Moment.During.comes {inner outer : Moment} (during : inner.During outer) (laws : care.Lawful)
    (begins : outer.Begins care stage) : inner.Comes care stage := by
  induction during using Relation.ReflTransGen.head_induction_on with
  | refl => exact ⟨stage, le_refl stage, begins⟩
  | head step _ ih =>
    obtain ⟨later, further, begins⟩ := ih
    exact (step.comes laws begins).since further

/-- Programs one after another: what the ones before have kept up is there when the next one begins. -/
theorem Moment.DuringAll.comes {programs : List (Program × Int)} {world : World} {moment : Moment}
    (during : moment.DuringAll scope programs world) (laws : care.Lawful) (within : care.scopes scope)
    (conform : ∀ entry ∈ programs, (Node.program entry.1).Conforms care.names care.functions)
    (worlds : care.worlds stage world world) : moment.Comes care stage := by
  induction programs generalizing world stage with
  | nil => exact during.elim
  | cons entry programs ih =>
    obtain ⟨program, limit⟩ := entry
    obtain ⟨first, others⟩ := List.forall_mem_cons.mp conform
    cases allowed : world.host.allowedCalls? limit with
    | none =>
      simp only [Moment.DuringAll, allowed] at during
      exact ih during others worlds
    | some depth =>
      simp only [Moment.DuringAll, allowed] at during
      have begins : (Moment.mk depth scope (.program program) world).Begins care stage := ⟨within, first, worlds⟩
      rcases during with here | later
      · exact here.comes laws begins
      · obtain ⟨later', further, ended⟩ := begins.ends laws
        exact (ih later others ended.world).since further

/-! ### What is at hand -/

/-- The value is bound somewhere, or is inside one that is. -/
def World.Contains (world : World) (value : Value) : Prop :=
  ∃ id name whole, world.heap.own? id name = some whole ∧ whole.Holds value

/-- The value is, or is inside, the answer of an evaluation or something bound in the world that the evaluation leaves. -/
def AtHand (ended : Value × World) (value : Value) : Prop := ended.1.Holds value ∨ ended.2.Contains value

theorem World.initial_contains (host : Host) (value : Value) : ¬ (World.initial host).Contains value := by
  rintro ⟨id, name, whole, found, -⟩
  exact (Heap.empty_everywhere fun _ => False).enclose none id name whole found

section

variable {clock : Stage → Identity → Prop} {objects : Stage → Value → Prop} {functions : List String → List Stmt → Prop}
  {object : Value}

theorem Upkeep.single_contained {world : World} (worlds : (single clock objects functions).worlds stage world world)
    (there : world.Contains object) (some_identity : object.identity?.isSome) : objects stage object := by
  obtain ⟨id, name, whole, found, held⟩ := there
  exact worlds.2.1 id name whole found object held some_identity

theorem Upkeep.single_atHand {ended : Value × World} (ends : (single clock objects functions).Ends stage ended)
    (there : AtHand ended object) (some_identity : object.identity?.isSome) : objects stage object := by
  rcases there with held | there
  · exact ends.value object held some_identity
  · exact single_contained ends.world there some_identity

end

end Treewalk
