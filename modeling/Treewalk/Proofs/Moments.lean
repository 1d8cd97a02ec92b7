import Mathlib.Logic.Relation
import Treewalk.CallLimit
import Treewalk.Proofs.Interruption
import Treewalk.Proofs.ScopeFrame

/-! Everything that happens while something is evaluated. A moment is the beginning of the evaluation of a piece of syntax, in
a scope of some world. One moment comes during another if evaluation of the latter comes to it, in the same body or in the
bodies that calls enter. -/

namespace Treewalk

structure Moment where
  depth : Nat
  scope : ScopeId
  node : Node
  world : World

/-- How the evaluation ends that begins at a moment. -/
def Moment.ending (moment : Moment) : Value × World := moment.node.eval moment.depth moment.scope moment.world

/-- A call of this value with these arguments begins a body at this moment. -/
inductive Enters : (depth : Nat) → (callee : Value) → (values : List Value) → World → Moment → Prop where
  | body (enough : values.length = parameters.length) :
    Enters (depth + 1) (.function identity parameters body captured) values world
      ⟨depth, world.heap.scopes.size, .stmt (.block body), world.enter captured (parameters.zip values)⟩

namespace Moment

/-- Evaluation of the second moment comes to the first one, either in the same body or as the body of a call in it. -/
inductive Step : (inner outer : Moment) → Prop where
  | part {depth : Nat} {scope : ScopeId} {part whole : Node} {there start : World}
    (reached : Reaches depth scope part there whole start) : Step ⟨depth, scope, part, there⟩ ⟨depth, scope, whole, start⟩
  | body {depth : Nat} {scope : ScopeId} {function : Expr} {arguments : List Expr} {callee : Value} {values : List Value}
    {start middle later : World} {inner : Moment} (passed : Expr.Passes depth scope function start callee middle)
    (evaluated : Expr.evalAll (invoke depth) scope arguments middle = (.ok values, later))
    (entered : Enters depth callee values later inner) : Step inner ⟨depth, scope, .expr (.call function arguments), start⟩

def During (inner outer : Moment) : Prop := Relation.ReflTransGen Step inner outer

/-- Whatever evaluation comes to from one of the moments is among them as well. -/
def Closed (moments : Moment → Prop) : Prop := ∀ ⦃inner outer⦄, moments outer → Step inner outer → moments inner

theorem closed_during (outer : Moment) : Closed (·.During outer) :=
  fun _ _ during step => .head step during

/-- The moment comes while programs are evaluated one after another, each under a limit of its own. -/
def DuringAll (moment : Moment) (scope : ScopeId) : List (Program × Int) → World → Prop
  | [], _ => False
  | (program, limit) :: rest, world =>
    match world.host.allowedCalls? limit with
    | none => moment.DuringAll scope rest world
    | some depth =>
      moment.During ⟨depth, scope, .program program, world⟩ ∨ moment.DuringAll scope rest (program.eval depth scope world).2

theorem DuringAll.head {moment : Moment} {depth : Nat} {scope : ScopeId} {program : Program} {limit : Int}
    {rest : List (Program × Int)} {world : World} (allowed : world.host.allowedCalls? limit = some depth)
    (during : moment.During ⟨depth, scope, .program program, world⟩) : moment.DuringAll scope ((program, limit) :: rest) world := by
  simp only [DuringAll, allowed]
  exact .inl during

end Moment

section

variable {moments : Moment → Prop} {depth : Nat} {scope : ScopeId} {world after : World} {value result : Value}

theorem Reaches.itself_expr {expr : Expr} : Reaches depth scope (.expr expr) world (.expr expr) world :=
  .here fun _ same => by cases same

theorem Reaches.itself_stmt {stmt : Stmt} : Reaches depth scope (.stmt stmt) world (.stmt stmt) world :=
  .here fun _ same => by cases same

/-- Each of the expressions is begun at one of the moments, behind the values of those in front of it. -/
def Expr.AllAmong (moments : Moment → Prop) (depth : Nat) (scope : ScopeId) (exprs : List Expr) (world : World) : Prop :=
  ∀ before expr behind values later, exprs = before ++ expr :: behind →
    Expr.evalAll (invoke depth) scope before world = (.ok values, later) → moments ⟨depth, scope, .expr expr, later⟩

/-- So is each of the statements, behind those that end without a signal. -/
def Stmt.AllAmong (moments : Moment → Prop) (depth : Nat) (scope : ScopeId) (result : Value) (stmts : List Stmt)
    (world : World) : Prop :=
  ∀ before stmt behind value later, stmts = before ++ stmt :: behind →
    Stmt.evalAll (invoke depth) scope result before world = (value, later) → value.isSignal = false →
    moments ⟨depth, scope, .stmt stmt, later⟩

theorem Expr.AllAmong.tail {expr : Expr} {exprs : List Expr} (among : Expr.AllAmong moments depth scope (expr :: exprs) world)
    (ended : expr.eval (invoke depth) scope world = (value, after)) (plain : value.isSignal = false) :
    Expr.AllAmong moments depth scope exprs after := by
  rintro before next behind values later rfl earlier
  refine among (expr :: before) next behind (value :: values) later rfl ?_
  rw [Expr.evalAll, Run.unlessSignal_of_value ended plain, Run.bind_apply, earlier]
  rfl

theorem Stmt.AllAmong.tail {stmt : Stmt} {stmts : List Stmt}
    (among : Stmt.AllAmong moments depth scope result (stmt :: stmts) world)
    (ended : stmt.eval (invoke depth) scope world = (value, after)) (plain : value.isSignal = false) :
    Stmt.AllAmong moments depth scope value stmts after := by
  rintro before next behind last later rfl earlier passed
  refine among (stmt :: before) next behind last later rfl ?_ passed
  rw [Stmt.evalAll, Run.unlessSignal_of_value ended plain]
  exact earlier

namespace Moment.Closed

variable (closed : Closed moments)
include closed

theorem block {stmts : List Stmt} (now : moments ⟨depth, scope, .stmt (.block stmts), world⟩) :
    Stmt.AllAmong moments depth scope .null stmts world := by
  rintro before stmt behind value later rfl earlier plain
  exact closed now (.part (.statement earlier plain .itself_stmt))

theorem arguments {function : Expr} {exprs : List Expr} (now : moments ⟨depth, scope, .expr (.call function exprs), world⟩)
    (passed : Expr.Passes depth scope function world value after) : Expr.AllAmong moments depth scope exprs after := by
  rintro before argument behind values later rfl earlier
  exact closed now (.part (.argument passed earlier .itself_expr))

theorem elements {exprs : List Expr} (now : moments ⟨depth, scope, .expr (.array exprs), world⟩) :
    Expr.AllAmong moments depth scope exprs world := by
  rintro before element behind values later rfl earlier
  exact closed now (.part (.element earlier .itself_expr))

end Moment.Closed

end

end Treewalk
