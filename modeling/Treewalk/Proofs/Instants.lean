import Mathlib.Order.Nat
import Treewalk.Proofs.KeptMoments

/-! The order in time of what happens during evaluation. A moment begins before it ends; its parts, and the bodies that its
calls enter, begin after it has begun and end before it has ended. Identities are handed out in this order. -/

namespace Treewalk

/-- Evaluation has come to the one world when it comes to the other, or has come to both at once. -/
inductive World.Precedes : World → World → Prop where
  | refl : Precedes world world
  | passing (moment : Moment) : Precedes moment.world moment.ending.2
  | beginning {inner outer : Moment} (step : Moment.Step inner outer) : Precedes outer.world inner.world
  | ending {inner outer : Moment} (step : Moment.Step inner outer) : Precedes inner.ending.2 outer.ending.2
  | entering {inner : Moment} (entered : Enters depth callee values world inner) : Precedes world inner.world
  | trans (first : Precedes world middle) (second : Precedes middle later) : Precedes world later

/-- The computation takes back no identity. -/
def Run.Advances {α : Type} (run : Run α) : Prop := ∀ world, world.nextIdentity ≤ (run world).2.nextIdentity

/-- A lower bound on the next identity, kept up from then on. -/
def clockUpkeep : Upkeep Identity := .single (· ≤ ·) (fun _ _ => True) fun _ _ => True

theorem clockUpkeep_lawful : clockUpkeep.Lawful := by
  refine Upkeep.single_lawful (fun _ _ _ _ _ => trivial) (fun _ => ?_) (fun {now} _ _ ticks _ => ?_)
    fun {now} _ _ _ _ ticks _ _ => ?_
  · exact Stmt.allConform_of_forall (fun _ => trivial) (fun _ _ => trivial) _
  · exact ⟨now, le_refl now, Nat.le_succ_of_le ticks, trivial⟩
  · exact ⟨now, le_refl now, Nat.le_succ_of_le ticks, trivial⟩

theorem clockUpkeep_world (world : World) : clockUpkeep.worlds world.nextIdentity world world :=
  ⟨rfl, fun _ _ _ _ _ _ _ => trivial, le_refl _⟩

theorem clockUpkeep_conforms (node : Node) : node.Conforms clockUpkeep.names clockUpkeep.functions :=
  node.conforms_of_forall (fun _ => trivial) fun _ _ => trivial

namespace Run.Advances

variable {α β : Type}

theorem of_keeps {run : Run α} {answers : Identity → α → Prop} (keeps : ∀ stage, run.Keeps clockUpkeep stage answers) :
    run.Advances := by
  intro world
  obtain ⟨-, later, further, ⟨-, -, ticks⟩, -⟩ := keeps world.nextIdentity _ _ _ (le_refl _) (clockUpkeep_world world)
  exact Nat.le_trans further ticks

theorem value (value : α) : (pure value : Run α).Advances := fun _ => Nat.le_refl _

theorem bind {first : Run α} {next : α → Run β} (head : first.Advances) (tail : ∀ value, (next value).Advances) :
    (first >>= next).Advances :=
  fun world => Nat.le_trans (head world) (tail _ _)

theorem skipping {signal : Bool} {skip : α} {next : Run α} (tail : next.Advances) :
    (if signal then pure skip else next : Run α).Advances := by
  split
  · exact .value _
  · exact tail

theorem define (scope : ScopeId) (name : String) (value : Value) : (Run.define scope name value).Advances :=
  fun _ => Nat.le_refl _

theorem assign (scope : ScopeId) (name : String) (value : Value) : (Run.assign scope name value).Advances :=
  .of_keeps fun _ => (Upkeep.Lawful.assign clockUpkeep_lawful trivial trivial) fun _ _ _ => trivial

theorem eval (depth : Nat) (scope : ScopeId) (node : Node) : (node.eval depth scope).Advances :=
  .of_keeps fun _ => node.eval_keeps clockUpkeep_lawful depth trivial (clockUpkeep_conforms node)

theorem exprs (depth : Nat) (scope : ScopeId) (exprs : List Expr) : (Expr.evalAll (invoke depth) scope exprs).Advances :=
  .of_keeps fun _ => Expr.evalAll_keeps clockUpkeep_lawful (invoke_keeps clockUpkeep_lawful depth) trivial exprs
    (Expr.allConform_of_forall (fun _ => trivial) (fun _ _ => trivial) exprs)

theorem stmts (depth : Nat) (scope : ScopeId) (result : Value) (stmts : List Stmt) :
    (Stmt.evalAll (invoke depth) scope result stmts).Advances :=
  .of_keeps fun _ => Stmt.evalAll_keeps clockUpkeep_lawful (invoke_keeps clockUpkeep_lawful depth) trivial stmts
    (Stmt.allConform_of_forall (fun _ => trivial) (fun _ _ => trivial) stmts) fun _ _ _ => trivial

theorem invoke (depth : Nat) (callee : Value) (values : List Value) : (Treewalk.invoke depth callee values).Advances :=
  .of_keeps fun _ => invoke_keeps clockUpkeep_lawful depth (fun _ _ _ => trivial) fun _ _ _ _ _ => trivial

theorem freshArray (values : List Value) : (Run.freshArray values).Advances := fun _ => Nat.le_succ _

/-- Whatever comes behind a step, it ends no earlier than the step does. -/
theorem behind {first : Run α} {next : α → Run β} (tail : ∀ value, (next value).Advances) {clock : Identity} {world : World}
    (head : clock ≤ (first world).2.nextIdentity) : clock ≤ ((first >>= next) world).2.nextIdentity :=
  Nat.le_trans head (tail _ _)

end Run.Advances

variable {depth : Nat} {scope : ScopeId} {clock : Identity}

/-- Arguments behind one that has been evaluated, and the call or the array that they are for. -/
theorem Expr.evalAll_behind {before behind : List Expr} {expr : Expr} {values : List Value} {start later : World}
    (earlier : Expr.evalAll (invoke depth) scope before start = (.ok values, later))
    (head : clock ≤ (expr.eval (invoke depth) scope later).2.nextIdentity) :
    clock ≤ (Expr.evalAll (invoke depth) scope (before ++ expr :: behind) start).2.nextIdentity := by
  induction before generalizing start values with
  | nil =>
    cases earlier
    rw [List.nil_append, Expr.evalAll]
    refine Run.Advances.behind (fun value => .skipping ?_) head
    refine (Run.Advances.exprs depth scope behind).bind fun outcome => ?_
    cases outcome <;> exact .value _
  | cons first rest ih =>
    obtain ⟨value, middle, others, passed, plain, tail, rfl⟩ := Expr.evalAll_cons_ok earlier
    rw [List.cons_append, Expr.evalAll, Run.unlessSignal_of_value passed plain]
    refine Run.Advances.behind (fun outcome => ?_) (ih tail)
    cases outcome <;> exact .value _

theorem Stmt.evalAll_behind {before behind : List Stmt} {stmt : Stmt} {result value : Value} {start later : World}
    (earlier : Stmt.evalAll (invoke depth) scope result before start = (value, later)) (plain : value.isSignal = false)
    (head : clock ≤ (stmt.eval (invoke depth) scope later).2.nextIdentity) :
    clock ≤ (Stmt.evalAll (invoke depth) scope result (before ++ stmt :: behind) start).2.nextIdentity := by
  induction before generalizing start result with
  | nil =>
    cases earlier
    rw [List.nil_append, Stmt.evalAll]
    exact Run.Advances.behind (fun value => .skipping (.stmts depth scope value behind)) head
  | cons first rest ih =>
    rw [Stmt.evalAll] at earlier
    rw [List.cons_append, Stmt.evalAll]
    obtain ⟨between, middle, passed⟩ : ∃ between middle, first.eval (invoke depth) scope start = (between, middle) := ⟨_, _, rfl⟩
    cases passing : between.isSignal with
    | true =>
      -- The signal would be what the statements before `stmt` end with.
      rw [Run.unlessSignal_of_signal passed passing] at earlier
      cases earlier
      rw [passing] at plain
      cases plain
    | false =>
      rw [Run.unlessSignal_of_value passed passing] at earlier ⊢
      exact ih earlier

/-- A part ends no later than what it is a part of. -/
theorem Reaches.ending_le {part whole : Node} {there start : World} (reached : Reaches depth scope part there whole start) :
    (part.eval depth scope there).2.nextIdentity ≤ (whole.eval depth scope start).2.nextIdentity := by
  induction reached with
  | here => exact Nat.le_refl _
  | operand _ ih =>
    rw [Node.eval, Expr.eval]
    exact Run.Advances.behind (fun _ => .skipping (.value _)) ih
  | left _ ih =>
    rw [Node.eval, Expr.eval]
    exact Run.Advances.behind (fun _ => .skipping ((Run.Advances.eval depth scope (.expr _)).bind fun _ => .skipping (.value _))) ih
  | right passed _ ih | position passed _ ih =>
    rw [Node.eval, Expr.eval, Run.unlessSignal_of_value passed.1 passed.2]
    exact Run.Advances.behind (fun _ => .skipping (.value _)) ih
  | assigned _ ih =>
    rw [Node.eval, Expr.eval]
    exact Run.Advances.behind (fun _ => .skipping (.assign _ _ _)) ih
  | onlyCondition _ ih =>
    rw [Node.eval, Expr.eval]
    refine Run.Advances.behind (fun _ => .skipping ?_) ih
    split
    · exact .stmts depth scope .null _
    · exact .value _
  | condition _ ih =>
    rw [Node.eval, Expr.eval]
    refine Run.Advances.behind (fun _ => .skipping ?_) ih
    split
    · exact .stmts depth scope .null _
    · exact .stmts depth scope .null _
  | onlyConsequence passed holds _ ih | consequence passed holds _ ih =>
    rw [Node.eval, Expr.eval, Run.unlessSignal_of_value passed.1 passed.2, if_pos holds]
    exact ih
  | alternative passed fails _ ih =>
    rw [Node.eval, Expr.eval, Run.unlessSignal_of_value passed.1 passed.2, if_neg (by simp [fails])]
    exact ih
  | callee _ ih =>
    rw [Node.eval, Expr.eval]
    refine Run.Advances.behind (fun callee => .skipping ((Run.Advances.exprs depth scope _).bind fun outcome => ?_)) ih
    cases outcome with
    | error signal => exact .value _
    | ok values => exact .invoke depth callee values
  | argument passed earlier _ ih =>
    rw [Node.eval, Expr.eval, Run.unlessSignal_of_value passed.1 passed.2]
    refine Run.Advances.behind (fun outcome => ?_) (Expr.evalAll_behind earlier ih)
    cases outcome with
    | error signal => exact .value _
    | ok values => exact .invoke depth _ values
  | element earlier _ ih =>
    rw [Node.eval, Expr.eval]
    refine Run.Advances.behind (fun outcome => ?_) (Expr.evalAll_behind earlier ih)
    cases outcome with
    | error signal => exact .value _
    | ok values => exact .freshArray values
  | collection _ ih =>
    rw [Node.eval, Expr.eval]
    exact Run.Advances.behind (fun _ => .skipping ((Run.Advances.eval depth scope (.expr _)).bind fun _ => .skipping (.value _))) ih
  | bound _ ih =>
    rw [Node.eval, Stmt.eval]
    exact Run.Advances.behind (fun _ => .skipping ((Run.Advances.define _ _ _).bind fun _ => .value _)) ih
  | leaving _ ih =>
    rw [Node.eval, Stmt.eval]
    exact Run.Advances.behind (fun _ => .skipping (.value _)) ih
  | expression _ ih =>
    rw [Node.eval, Stmt.eval]
    exact ih
  | statement earlier plain _ ih =>
    rw [Node.eval, Stmt.eval]
    exact Stmt.evalAll_behind earlier plain ih
  | program _ ih =>
    rw [Node.eval, Stmt.eval] at ih
    rw [Node.eval]
    exact Run.Advances.behind (fun _ => .value _) ih

theorem Moment.Step.ending_le {inner outer : Moment} (step : Step inner outer) :
    inner.ending.2.nextIdentity ≤ outer.ending.2.nextIdentity := by
  cases step with
  | part reached => exact reached.ending_le
  | body passed evaluated entered =>
    cases entered with
    | body enough =>
      rw [Moment.ending, Moment.ending, Node.eval, Node.eval, Expr.eval, Run.unlessSignal_of_value passed.1 passed.2,
        Run.bind_apply, evaluated, Stmt.eval]
      exact Nat.le_of_eq (congrArg (·.2.nextIdentity) (invoke_function enough _).symm)

theorem Moment.Step.world_le {inner outer : Moment} (step : Step inner outer) :
    outer.world.nextIdentity ≤ inner.world.nextIdentity := by
  have begins : outer.Begins clockUpkeep outer.world.nextIdentity :=
    ⟨trivial, clockUpkeep_conforms _, clockUpkeep_world outer.world⟩
  obtain ⟨later, further, -, -, -, -, ticks⟩ := step.comes clockUpkeep_lawful begins
  exact Nat.le_trans further ticks

/-- Identities are handed out in the order of time. -/
theorem World.Precedes.nextIdentity_le {world later : World} (precedes : world.Precedes later) :
    world.nextIdentity ≤ later.nextIdentity := by
  induction precedes with
  | refl => exact Nat.le_refl _
  | passing moment => exact Run.Advances.eval moment.depth moment.scope moment.node moment.world
  | beginning step => exact step.world_le
  | ending step => exact step.ending_le
  | @entering _ _ _ world _ entered =>
    cases entered with
    | body enough =>
      obtain ⟨later, further, -, -, -, ticks⟩ :=
        World.enter_keeps clockUpkeep_lawful (clockUpkeep_world world) trivial fun _ _ => ⟨trivial, fun _ _ _ => trivial⟩
      exact Nat.le_trans further ticks
  | trans _ _ first second => exact Nat.le_trans first second

end Treewalk
