import Treewalk.Proofs.Moments

/-! All moments of an evaluation, as a list that is computed along with it. The list has exactly the moments that evaluation
comes to, so what holds at all of them can be decided. -/

namespace Treewalk

/-- What comes behind a part that ends without a signal. -/
def Run.behind {α : Type} (ended : Value × World) (more : Value → World → List α) : List α :=
  if ended.1.isSignal then [] else more ended.1 ended.2

section

variable {α : Type} {ended : Value × World} {more : Value → World → List α}

theorem Run.behind_of_value {value : Value} {after : World} (ends : ended = (value, after)) (plain : value.isSignal = false) :
    Run.behind ended more = more value after := by
  subst ends
  exact if_neg (by simp [plain])

theorem Run.forall_mem_behind {holds : α → Prop}
    (all : ∀ value after, ended = (value, after) → value.isSignal = false → ∀ item ∈ more value after, holds item) :
    ∀ item ∈ Run.behind ended more, holds item := by
  cases signal : ended.1.isSignal with
  | true => simp [Run.behind, signal]
  | false =>
    rw [Run.behind_of_value rfl signal]
    exact all _ _ rfl signal

end

section

variable (depth : Nat) (bodies : Value → List Value → World → List Moment) (scope : ScopeId)

mutual

def Expr.moments (expr : Expr) (world : World) : List Moment :=
  ⟨depth, scope, .expr expr, world⟩ :: match expr with
    | .name _ | .integer _ | .string _ | .boolean _ | .function _ _ => []
    | .unary _ operand => operand.moments world
    | .binary left _ right =>
      left.moments world ++ Run.behind (left.eval (invoke depth) scope world) fun _ after => right.moments after
    | .assign _ value => value.moments world
    | .ifThen condition consequence =>
      condition.moments world ++ Run.behind (condition.eval (invoke depth) scope world) fun test after =>
        if test.isTruthy then ⟨depth, scope, .stmt (.block consequence), after⟩ :: Stmt.momentsAll consequence after else []
    | .ifElse condition consequence alternative =>
      condition.moments world ++ Run.behind (condition.eval (invoke depth) scope world) fun test after =>
        if test.isTruthy then ⟨depth, scope, .stmt (.block consequence), after⟩ :: Stmt.momentsAll consequence after
        else ⟨depth, scope, .stmt (.block alternative), after⟩ :: Stmt.momentsAll alternative after
    | .call function arguments =>
      function.moments world ++ Run.behind (function.eval (invoke depth) scope world) fun callee after =>
        Expr.momentsAll arguments after ++
          match Expr.evalAll (invoke depth) scope arguments after with
          | (.error _, _) => []
          | (.ok values, later) => bodies callee values later
    | .array elements => Expr.momentsAll elements world
    | .index collection position =>
      collection.moments world ++ Run.behind (collection.eval (invoke depth) scope world) fun _ after => position.moments after

def Expr.momentsAll (exprs : List Expr) (world : World) : List Moment :=
  match exprs with
  | [] => []
  | expr :: exprs =>
    expr.moments world ++ Run.behind (expr.eval (invoke depth) scope world) fun _ after => Expr.momentsAll exprs after

def Stmt.moments (stmt : Stmt) (world : World) : List Moment :=
  ⟨depth, scope, .stmt stmt, world⟩ :: match stmt with
    | .bind _ value | .leaveWith value | .expr value => value.moments world
    | .leave => []
    | .block statements => Stmt.momentsAll statements world

def Stmt.momentsAll (stmts : List Stmt) (world : World) : List Moment :=
  match stmts with
  | [] => []
  | stmt :: stmts =>
    stmt.moments world ++ Run.behind (stmt.eval (invoke depth) scope world) fun _ after => Stmt.momentsAll stmts after

end

def Node.moments (node : Node) (world : World) : List Moment :=
  match node with
  | .program whole => [⟨depth, scope, .program whole, world⟩] ++ (Stmt.block whole.statements).moments depth bodies scope world
  | .stmt part => part.moments depth bodies scope world
  | .expr part => part.moments depth bodies scope world

end

namespace Moment

/-- The moments of the body that a call enters. -/
def ofCall : (depth : Nat) → Value → List Value → World → List Moment
  | depth + 1, .function _ parameters body captured, values, world =>
    if values.length = parameters.length then
      (Stmt.block body).moments depth (ofCall depth) world.heap.scopes.size (world.enter captured (parameters.zip values))
    else []
  | _, _, _, _ => []

def moments : Moment → List Moment
  | ⟨depth, scope, node, world⟩ => node.moments depth (ofCall depth) scope world

end Moment

/-! ### The list is complete -/

section

variable {depth : Nat} {bodies : Value → List Value → World → List Moment} {scope : ScopeId} {start later : World}

theorem Expr.moments_subset_all {before behind : List Expr} {expr : Expr} {values : List Value}
    (earlier : Expr.evalAll (invoke depth) scope before start = (.ok values, later)) :
    expr.moments depth bodies scope later ⊆ Expr.momentsAll depth bodies scope (before ++ expr :: behind) start := by
  induction before generalizing start values with
  | nil =>
    cases earlier
    rw [List.nil_append, Expr.momentsAll]
    exact List.subset_append_left _ _
  | cons first rest ih =>
    obtain ⟨value, middle, others, head, plain, tail, rfl⟩ := Expr.evalAll_cons_ok earlier
    rw [List.cons_append, Expr.momentsAll, Run.behind_of_value head plain]
    exact List.subset_append_of_subset_right _ (ih tail)

theorem Stmt.moments_subset_all {before behind : List Stmt} {stmt : Stmt} {result value : Value}
    (earlier : Stmt.evalAll (invoke depth) scope result before start = (value, later)) (plain : value.isSignal = false) :
    stmt.moments depth bodies scope later ⊆ Stmt.momentsAll depth bodies scope (before ++ stmt :: behind) start := by
  induction before generalizing start result with
  | nil =>
    cases earlier
    rw [List.nil_append, Stmt.momentsAll]
    exact List.subset_append_left _ _
  | cons first rest ih =>
    obtain ⟨between, middle, head⟩ : ∃ between middle, first.eval (invoke depth) scope start = (between, middle) := ⟨_, _, rfl⟩
    rw [Stmt.evalAll] at earlier
    cases passing : between.isSignal with
    | true =>
      rw [Run.unlessSignal_of_signal head passing] at earlier
      cases earlier
      exact absurd (passing.symm.trans plain) (by decide)
    | false =>
      rw [Run.unlessSignal_of_value head passing] at earlier
      rw [List.cons_append, Stmt.momentsAll, Run.behind_of_value head passing]
      exact List.subset_append_of_subset_right _ (ih earlier)

/-- A part that evaluation comes to has its moments among those of the whole. -/
theorem Reaches.moments_subset {part whole : Node} {there : World} (reached : Reaches depth scope part there whole start) :
    part.moments depth bodies scope there ⊆ whole.moments depth bodies scope start := by
  induction reached with
  | here => exact List.Subset.refl _
  | operand _ ih | assigned _ ih =>
    rw [Node.moments, Expr.moments]
    exact List.subset_cons_of_subset _ ih
  | left _ ih | onlyCondition _ ih | condition _ ih | callee _ ih | collection _ ih =>
    rw [Node.moments, Expr.moments]
    exact List.subset_cons_of_subset _ (List.subset_append_of_subset_left _ ih)
  | right passed _ ih | position passed _ ih =>
    rw [Node.moments, Expr.moments, Run.behind_of_value passed.1 passed.2]
    exact List.subset_cons_of_subset _ (List.subset_append_of_subset_right _ ih)
  | onlyConsequence passed holds _ ih | consequence passed holds _ ih =>
    rw [Node.moments, Stmt.moments] at ih
    rw [Node.moments, Expr.moments, Run.behind_of_value passed.1 passed.2, if_pos holds]
    exact List.subset_cons_of_subset _ (List.subset_append_of_subset_right _ ih)
  | alternative passed fails _ ih =>
    rw [Node.moments, Stmt.moments] at ih
    rw [Node.moments, Expr.moments, Run.behind_of_value passed.1 passed.2, if_neg (by simp [fails])]
    exact List.subset_cons_of_subset _ (List.subset_append_of_subset_right _ ih)
  | argument passed earlier _ ih =>
    rw [Node.moments, Expr.moments, Run.behind_of_value passed.1 passed.2]
    refine List.subset_cons_of_subset _ (List.subset_append_of_subset_right _ (List.subset_append_of_subset_left _ ?_))
    exact List.Subset.trans ih (Expr.moments_subset_all earlier)
  | element earlier _ ih =>
    rw [Node.moments, Expr.moments]
    exact List.subset_cons_of_subset _ (List.Subset.trans ih (Expr.moments_subset_all earlier))
  | bound _ ih | leaving _ ih | expression _ ih =>
    rw [Node.moments, Stmt.moments]
    exact List.subset_cons_of_subset _ ih
  | statement earlier plain _ ih =>
    rw [Node.moments, Stmt.moments]
    exact List.subset_cons_of_subset _ (List.Subset.trans ih (Stmt.moments_subset_all earlier plain))
  | program _ ih =>
    rw [Node.moments]
    exact List.subset_append_of_subset_right _ ih

theorem Enters.moments_subset {callee : Value} {values : List Value} {world : World} {inner : Moment}
    (entered : Enters depth callee values world inner) : inner.moments ⊆ Moment.ofCall depth callee values world := by
  cases entered with
  | body enough =>
    rw [Moment.ofCall, if_pos enough]
    exact List.Subset.refl _

theorem Moment.Step.moments_subset {inner outer : Moment} (step : Step inner outer) : inner.moments ⊆ outer.moments := by
  cases step with
  | part reached => exact reached.moments_subset
  | body passed evaluated entered =>
    change inner.moments ⊆ Expr.moments _ _ _ _ _
    rw [Expr.moments, Run.behind_of_value passed.1 passed.2, evaluated]
    refine List.subset_cons_of_subset _ (List.subset_append_of_subset_right _ (List.subset_append_of_subset_right _ ?_))
    exact entered.moments_subset

theorem Moment.During.moments_subset {inner outer : Moment} (during : inner.During outer) : inner.moments ⊆ outer.moments := by
  induction during using Relation.ReflTransGen.head_induction_on with
  | refl => exact List.Subset.refl _
  | head step _ ih => exact List.Subset.trans step.moments_subset ih

theorem Moment.mem_moments_self (moment : Moment) : moment ∈ moment.moments := by
  obtain ⟨depth, scope, node, world⟩ := moment
  cases node with
  | program whole => exact List.mem_append_left _ (List.mem_singleton_self _)
  | stmt part =>
    change _ ∈ part.moments depth (ofCall depth) scope world
    rw [Stmt.moments.eq_def]
    exact List.mem_cons_self
  | expr part =>
    change _ ∈ part.moments depth (ofCall depth) scope world
    rw [Expr.moments.eq_def]
    exact List.mem_cons_self

end

/-! ### The list has nothing else -/

section

variable {among : Moment → Prop} {depth : Nat} {bodies : Value → List Value → World → List Moment} {scope : ScopeId}

mutual

theorem Expr.moments_among (closed : Moment.Closed among)
    (enters : ∀ callee values world, (∀ body, Enters depth callee values world body → among body) →
      ∀ moment ∈ bodies callee values world, among moment) :
    (expr : Expr) → (world : World) → among ⟨depth, scope, .expr expr, world⟩ →
      ∀ moment ∈ expr.moments depth bodies scope world, among moment
  | .name _, _, now | .integer _, _, now | .string _, _, now | .boolean _, _, now | .function _ _, _, now => by
    rw [Expr.moments]
    exact List.forall_mem_singleton.mpr now
  | .unary op operand, world, now => by
    rw [Expr.moments]
    exact List.forall_mem_cons.mpr ⟨now, operand.moments_among closed enters world (closed now (.part (.operand .itself_expr)))⟩
  | .binary left op right, world, now => by
    rw [Expr.moments]
    refine List.forall_mem_cons.mpr ⟨now, List.forall_mem_append.mpr ⟨?_, Run.forall_mem_behind fun value after passed plain => ?_⟩⟩
    · exact left.moments_among closed enters world (closed now (.part (.left .itself_expr)))
    · exact right.moments_among closed enters after (closed now (.part (.right ⟨passed, plain⟩ .itself_expr)))
  | .assign name value, world, now => by
    rw [Expr.moments]
    exact List.forall_mem_cons.mpr ⟨now, value.moments_among closed enters world (closed now (.part (.assigned .itself_expr)))⟩
  | .ifThen condition consequence, world, now => by
    rw [Expr.moments]
    refine List.forall_mem_cons.mpr ⟨now, List.forall_mem_append.mpr ⟨?_, Run.forall_mem_behind fun test after passed plain => ?_⟩⟩
    · exact condition.moments_among closed enters world (closed now (.part (.onlyCondition .itself_expr)))
    · split
      next holds =>
        have body := closed now (.part (.onlyConsequence ⟨passed, plain⟩ holds .itself_stmt))
        exact List.forall_mem_cons.mpr
          ⟨body, Stmt.momentsAll_among closed enters rfl consequence after (closed.block body)⟩
      next => exact List.forall_mem_nil _
  | .ifElse condition consequence alternative, world, now => by
    rw [Expr.moments]
    refine List.forall_mem_cons.mpr ⟨now, List.forall_mem_append.mpr ⟨?_, Run.forall_mem_behind fun test after passed plain => ?_⟩⟩
    · exact condition.moments_among closed enters world (closed now (.part (.condition .itself_expr)))
    · split
      next holds =>
        have body := closed now (.part (.consequence ⟨passed, plain⟩ holds .itself_stmt))
        exact List.forall_mem_cons.mpr
          ⟨body, Stmt.momentsAll_among closed enters rfl consequence after (closed.block body)⟩
      next fails =>
        have body := closed now (.part (.alternative ⟨passed, plain⟩ (Bool.eq_false_iff.mpr fails) .itself_stmt))
        exact List.forall_mem_cons.mpr
          ⟨body, Stmt.momentsAll_among closed enters rfl alternative after (closed.block body)⟩
  | .call function arguments, world, now => by
    rw [Expr.moments]
    refine List.forall_mem_cons.mpr ⟨now, List.forall_mem_append.mpr ⟨?_, Run.forall_mem_behind fun callee after passed plain => ?_⟩⟩
    · exact function.moments_among closed enters world (closed now (.part (.callee .itself_expr)))
    · refine List.forall_mem_append.mpr ⟨Expr.momentsAll_among closed enters arguments after (closed.arguments now ⟨passed, plain⟩), ?_⟩
      split
      next => exact List.forall_mem_nil _
      next values later evaluated =>
        exact enters callee values later fun body entered => closed now (.body ⟨passed, plain⟩ evaluated entered)
  | .array elements, world, now => by
    rw [Expr.moments]
    exact List.forall_mem_cons.mpr ⟨now, Expr.momentsAll_among closed enters elements world (closed.elements now)⟩
  | .index collection position, world, now => by
    rw [Expr.moments]
    refine List.forall_mem_cons.mpr ⟨now, List.forall_mem_append.mpr ⟨?_, Run.forall_mem_behind fun value after passed plain => ?_⟩⟩
    · exact collection.moments_among closed enters world (closed now (.part (.collection .itself_expr)))
    · exact position.moments_among closed enters after (closed now (.part (.position ⟨passed, plain⟩ .itself_expr)))

theorem Expr.momentsAll_among (closed : Moment.Closed among)
    (enters : ∀ callee values world, (∀ body, Enters depth callee values world body → among body) →
      ∀ moment ∈ bodies callee values world, among moment) :
    (exprs : List Expr) → (world : World) → Expr.AllAmong among depth scope exprs world →
      ∀ moment ∈ Expr.momentsAll depth bodies scope exprs world, among moment
  | [], _, _ => by
    rw [Expr.momentsAll]
    exact List.forall_mem_nil _
  | expr :: exprs, world, now => by
    rw [Expr.momentsAll]
    refine List.forall_mem_append.mpr ⟨?_, Run.forall_mem_behind fun value after passed plain => ?_⟩
    · exact expr.moments_among closed enters world (now [] expr exprs [] world rfl rfl)
    · exact Expr.momentsAll_among closed enters exprs after (now.tail passed plain)

theorem Stmt.moments_among (closed : Moment.Closed among)
    (enters : ∀ callee values world, (∀ body, Enters depth callee values world body → among body) →
      ∀ moment ∈ bodies callee values world, among moment) :
    (stmt : Stmt) → (world : World) → among ⟨depth, scope, .stmt stmt, world⟩ →
      ∀ moment ∈ stmt.moments depth bodies scope world, among moment
  | .bind name value, world, now => by
    rw [Stmt.moments]
    exact List.forall_mem_cons.mpr ⟨now, value.moments_among closed enters world (closed now (.part (.bound .itself_expr)))⟩
  | .leave, _, now => by
    rw [Stmt.moments]
    exact List.forall_mem_singleton.mpr now
  | .leaveWith value, world, now => by
    rw [Stmt.moments]
    exact List.forall_mem_cons.mpr ⟨now, value.moments_among closed enters world (closed now (.part (.leaving .itself_expr)))⟩
  | .expr value, world, now => by
    rw [Stmt.moments]
    exact List.forall_mem_cons.mpr ⟨now, value.moments_among closed enters world (closed now (.part (.expression .itself_expr)))⟩
  | .block statements, world, now => by
    rw [Stmt.moments]
    exact List.forall_mem_cons.mpr ⟨now, Stmt.momentsAll_among closed enters rfl statements world (closed.block now)⟩

theorem Stmt.momentsAll_among (closed : Moment.Closed among)
    (enters : ∀ callee values world, (∀ body, Enters depth callee values world body → among body) →
      ∀ moment ∈ bodies callee values world, among moment) {result : Value} (calm : result.isSignal = false) :
    (stmts : List Stmt) → (world : World) → Stmt.AllAmong among depth scope result stmts world →
      ∀ moment ∈ Stmt.momentsAll depth bodies scope stmts world, among moment
  | [], _, _ => by
    rw [Stmt.momentsAll]
    exact List.forall_mem_nil _
  | stmt :: stmts, world, now => by
    rw [Stmt.momentsAll]
    refine List.forall_mem_append.mpr ⟨?_, Run.forall_mem_behind fun value after passed plain => ?_⟩
    · exact stmt.moments_among closed enters world (now [] stmt stmts _ world rfl rfl calm)
    · exact Stmt.momentsAll_among closed enters plain stmts after (now.tail passed plain)

end

end

namespace Moment

theorem ofCall_among {among : Moment → Prop} (closed : Closed among) : (depth : Nat) → ∀ callee values world,
    (∀ body, Enters depth callee values world body → among body) → ∀ moment ∈ ofCall depth callee values world, among moment
  | 0, callee, _, _, _ => by cases callee <;> exact List.forall_mem_nil _
  | depth + 1, callee, values, world, entered => by
    cases callee with
    | function identity parameters body captured =>
      rw [ofCall]
      split
      next enough => exact Stmt.moments_among closed (ofCall_among closed depth) (.block body) _ (entered _ (.body enough))
      next => exact List.forall_mem_nil _
    | _ => exact List.forall_mem_nil _

/-- The moments of an evaluation are those that it comes to. -/
theorem mem_moments_iff {inner outer : Moment} : inner ∈ outer.moments ↔ inner.During outer := by
  refine ⟨fun member => ?_, fun during => during.moments_subset inner.mem_moments_self⟩
  obtain ⟨depth, scope, node, world⟩ := outer
  have enters := ofCall_among (closed_during ⟨depth, scope, node, world⟩) depth
  have closed := closed_during ⟨depth, scope, node, world⟩
  cases node with
  | program whole =>
    rcases List.mem_append.mp member with here | inside
    · exact List.mem_singleton.mp here ▸ .refl
    · have body := closed .refl (.part (.program .itself_stmt))
      exact Stmt.moments_among closed enters _ world body inner inside
  | stmt part => exact part.moments_among closed enters world .refl inner member
  | expr part => exact part.moments_among closed enters world .refl inner member

/-- The moments of programs that are evaluated one after another. -/
def ofPrograms (scope : ScopeId) : List (Program × Int) → World → List Moment
  | [], _ => []
  | (program, limit) :: rest, world =>
    match world.host.allowedCalls? limit with
    | none => ofPrograms scope rest world
    | some depth =>
      moments ⟨depth, scope, .program program, world⟩ ++ ofPrograms scope rest (program.eval depth scope world).2

theorem mem_ofPrograms_iff {moment : Moment} {scope : ScopeId} {programs : List (Program × Int)} {world : World} :
    moment ∈ ofPrograms scope programs world ↔ moment.DuringAll scope programs world := by
  induction programs generalizing world with
  | nil => simp [ofPrograms, DuringAll]
  | cons entry programs ih =>
    obtain ⟨program, limit⟩ := entry
    cases allowed : world.host.allowedCalls? limit with
    | none => simp only [ofPrograms, DuringAll, allowed, ih]
    | some depth => simp only [ofPrograms, DuringAll, allowed, List.mem_append, mem_moments_iff, ih]

end Moment

end Treewalk
