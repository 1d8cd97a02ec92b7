import Treewalk.Evaluation

/-! What a signal interrupts. Evaluation reaches a part of a body when everything that comes before the part has ended
without a signal. When the part itself ends with one, everything around it in that body ends with the same signal and in
the same world, so nothing that stands behind the part takes effect. -/

namespace Treewalk

namespace Run

variable {α : Type} {first : Run Value} {next : Value → Run α} {skip : Value → α} {start after : World} {value : Value}

/-- A step that looks for a signal hands it up. -/
theorem unlessSignal_of_signal (ends : first start = (value, after)) (raised : value.isSignal = true) :
    (first >>= fun value => if value.isSignal then pure (skip value) else next value) start = (skip value, after) := by
  rw [bind_apply, ends]
  simp only [raised, if_true]
  rfl

theorem unlessSignal_of_value (ends : first start = (value, after)) (plain : value.isSignal = false) :
    (first >>= fun value => if value.isSignal then pure (skip value) else next value) start = next value after := by
  rw [bind_apply, ends]
  simp only [plain, Bool.false_eq_true, if_false]

end Run

/-- The expression ends with a value that is not a signal. -/
def Expr.Passes (depth : Nat) (scope : ScopeId) (expr : Expr) (start : World) (value : Value) (after : World) : Prop :=
  expr.eval (invoke depth) scope start = (value, after) ∧ value.isSignal = false

/-- What a node makes of a signal that reaches it. Only programs unwrap one. -/
def Node.receive (signal : Value) : Node → Value
  | .program _ => signal.unwrap
  | _ => signal

/-- Evaluation of a node in some world comes to `part` in the world `there`. Both are in the same body: calls are not
entered. -/
inductive Reaches (depth : Nat) (scope : ScopeId) (part : Node) (there : World) : Node → World → Prop where
  | here (inside : ∀ program, part ≠ .program program) : Reaches depth scope part there part there
  | operand (inner : Reaches depth scope part there (.expr operand) start) :
      Reaches depth scope part there (.expr (.unary op operand)) start
  | left (inner : Reaches depth scope part there (.expr left) start) :
      Reaches depth scope part there (.expr (.binary left op right)) start
  | right (passed : Expr.Passes depth scope left start value middle)
      (inner : Reaches depth scope part there (.expr right) middle) :
      Reaches depth scope part there (.expr (.binary left op right)) start
  | assigned (inner : Reaches depth scope part there (.expr value) start) :
      Reaches depth scope part there (.expr (.assign name value)) start
  | onlyCondition (inner : Reaches depth scope part there (.expr condition) start) :
      Reaches depth scope part there (.expr (.ifThen condition consequence)) start
  | onlyConsequence (passed : Expr.Passes depth scope condition start test middle)
      (holds : test.isTruthy = true) (inner : Reaches depth scope part there (.stmt (.block consequence)) middle) :
      Reaches depth scope part there (.expr (.ifThen condition consequence)) start
  | condition (inner : Reaches depth scope part there (.expr condition) start) :
      Reaches depth scope part there (.expr (.ifElse condition consequence alternative)) start
  | consequence (passed : Expr.Passes depth scope condition start test middle)
      (holds : test.isTruthy = true) (inner : Reaches depth scope part there (.stmt (.block consequence)) middle) :
      Reaches depth scope part there (.expr (.ifElse condition consequence alternative)) start
  | alternative (passed : Expr.Passes depth scope condition start test middle)
      (fails : test.isTruthy = false) (inner : Reaches depth scope part there (.stmt (.block alternative)) middle) :
      Reaches depth scope part there (.expr (.ifElse condition consequence alternative)) start
  | callee (inner : Reaches depth scope part there (.expr function) start) :
      Reaches depth scope part there (.expr (.call function arguments)) start
  | argument (passed : Expr.Passes depth scope function start value middle)
      (earlier : Expr.evalAll (invoke depth) scope before middle = (.ok values, later))
      (inner : Reaches depth scope part there (.expr argument) later) :
      Reaches depth scope part there (.expr (.call function (before ++ argument :: behind))) start
  | element (earlier : Expr.evalAll (invoke depth) scope before start = (.ok values, later))
      (inner : Reaches depth scope part there (.expr element) later) :
      Reaches depth scope part there (.expr (.array (before ++ element :: behind))) start
  | collection (inner : Reaches depth scope part there (.expr collection) start) :
      Reaches depth scope part there (.expr (.index collection position)) start
  | position (passed : Expr.Passes depth scope collection start value middle)
      (inner : Reaches depth scope part there (.expr position) middle) :
      Reaches depth scope part there (.expr (.index collection position)) start
  | bound (inner : Reaches depth scope part there (.expr value) start) :
      Reaches depth scope part there (.stmt (.bind name value)) start
  | leaving (inner : Reaches depth scope part there (.expr value) start) :
      Reaches depth scope part there (.stmt (.leaveWith value)) start
  | expression (inner : Reaches depth scope part there (.expr value) start) :
      Reaches depth scope part there (.stmt (.expr value)) start
  | statement (earlier : Stmt.evalAll (invoke depth) scope .null before start = (value, later))
      (plain : value.isSignal = false) (inner : Reaches depth scope part there (.stmt stmt) later) :
      Reaches depth scope part there (.stmt (.block (before ++ stmt :: behind))) start
  | program (inner : Reaches depth scope part there (.stmt (.block whole.statements)) start) :
      Reaches depth scope part there (.program whole) start

section

variable {invoke : Invoke} {scope : ScopeId} {start later after : World} {signal : Value}

/-- A list of expressions has values when each of them ends without a signal. -/
theorem Expr.evalAll_cons_ok {first : Expr} {rest : List Expr} {values : List Value}
    (ends : Expr.evalAll invoke scope (first :: rest) start = (.ok values, after)) :
    ∃ value middle others, first.eval invoke scope start = (value, middle) ∧ value.isSignal = false ∧
      Expr.evalAll invoke scope rest middle = (.ok others, after) ∧ values = value :: others := by
  rw [Expr.evalAll] at ends
  obtain ⟨value, middle, head⟩ : ∃ value middle, first.eval invoke scope start = (value, middle) := ⟨_, _, rfl⟩
  cases plain : value.isSignal with
  | true =>
    rw [Run.unlessSignal_of_signal head plain] at ends
    cases ends
  | false =>
    rw [Run.unlessSignal_of_value head plain, Run.bind_apply] at ends
    obtain ⟨outcome, last, tail⟩ : ∃ outcome last, Expr.evalAll invoke scope rest middle = (outcome, last) := ⟨_, _, rfl⟩
    rw [tail] at ends
    cases outcome with
    | error signal => cases ends
    | ok others =>
      cases ends
      exact ⟨value, middle, others, head, plain, tail, rfl⟩

theorem Expr.evalAll_of_signal {before behind : List Expr} {expr : Expr} {values : List Value}
    (earlier : Expr.evalAll invoke scope before start = (.ok values, later))
    (ends : expr.eval invoke scope later = (signal, after)) (raised : signal.isSignal = true) :
    Expr.evalAll invoke scope (before ++ expr :: behind) start = (.error signal, after) := by
  induction before generalizing start values with
  | nil =>
    cases earlier
    rw [List.nil_append, Expr.evalAll]
    exact Run.unlessSignal_of_signal ends raised
  | cons first rest ih =>
    obtain ⟨value, middle, others, head, plain, tail, rfl⟩ := Expr.evalAll_cons_ok earlier
    rw [List.cons_append, Expr.evalAll, Run.unlessSignal_of_value head plain, Run.bind_apply, ih tail]
    rfl

theorem Stmt.evalAll_of_signal {before behind : List Stmt} {stmt : Stmt} {result value : Value}
    (earlier : Stmt.evalAll invoke scope result before start = (value, later)) (plain : value.isSignal = false)
    (ends : stmt.eval invoke scope later = (signal, after)) (raised : signal.isSignal = true) :
    Stmt.evalAll invoke scope result (before ++ stmt :: behind) start = (signal, after) := by
  induction before generalizing start result with
  | nil =>
    cases earlier
    rw [List.nil_append, Stmt.evalAll]
    exact Run.unlessSignal_of_signal ends raised
  | cons first rest ih =>
    rw [Stmt.evalAll] at earlier
    rw [List.cons_append, Stmt.evalAll]
    obtain ⟨between, middle, head⟩ : ∃ between middle, first.eval invoke scope start = (between, middle) := ⟨_, _, rfl⟩
    cases passing : between.isSignal with
    | true =>
      -- The signal would be what the statements before `stmt` end with.
      rw [Run.unlessSignal_of_signal head passing] at earlier
      cases earlier
      rw [passing] at plain
      cases plain
    | false =>
      rw [Run.unlessSignal_of_value head passing] at earlier ⊢
      exact ih earlier

end

/-- A part that ends with a signal ends every node around it, in the world that the part leaves. -/
theorem Reaches.interrupts {depth : Nat} {scope : ScopeId} {part whole : Node} {there start after : World} {signal : Value}
    (reached : Reaches depth scope part there whole start) (ends : part.eval depth scope there = (signal, after))
    (raised : signal.isSignal = true) : whole.eval depth scope start = (whole.receive signal, after) := by
  induction reached with
  | here inside =>
    cases part with
    | program program => exact absurd rfl (inside program)
    | stmt | expr => exact ends
  | operand _ ih | left _ ih | assigned _ ih | onlyCondition _ ih | condition _ ih | callee _ ih | collection _ ih =>
    rw [Node.eval, Expr.eval]
    exact Run.unlessSignal_of_signal ih raised
  | right passed _ ih | position passed _ ih =>
    rw [Node.eval, Expr.eval, Run.unlessSignal_of_value passed.1 passed.2]
    exact Run.unlessSignal_of_signal ih raised
  | onlyConsequence passed holds _ ih | consequence passed holds _ ih =>
    rw [Node.eval, Expr.eval, Run.unlessSignal_of_value passed.1 passed.2, if_pos holds]
    exact ih
  | alternative passed fails _ ih =>
    rw [Node.eval, Expr.eval, Run.unlessSignal_of_value passed.1 passed.2, if_neg (by simp [fails])]
    exact ih
  | argument passed earlier _ ih =>
    rw [Node.eval, Expr.eval, Run.unlessSignal_of_value passed.1 passed.2, Run.bind_apply,
      Expr.evalAll_of_signal earlier ih raised]
    rfl
  | element earlier _ ih =>
    rw [Node.eval, Expr.eval, Run.bind_apply, Expr.evalAll_of_signal earlier ih raised]
    rfl
  | bound _ ih | leaving _ ih =>
    rw [Node.eval, Stmt.eval]
    exact Run.unlessSignal_of_signal ih raised
  | expression _ ih =>
    rw [Node.eval, Stmt.eval]
    exact ih
  | statement earlier plain _ ih =>
    rw [Node.eval, Stmt.eval]
    exact Stmt.evalAll_of_signal earlier plain ih raised
  | program _ ih =>
    rw [Node.eval, Stmt.eval] at ih
    rw [Node.eval, Run.bind_apply, ih]
    rfl

end Treewalk
