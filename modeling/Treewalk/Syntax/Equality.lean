import Treewalk.Syntax

/-! Two trees are equal when they have the same shape, names, operators and values. The test here is structural, and
it decides equality. -/

namespace Treewalk

mutual

def Expr.same : Expr → Expr → Bool
  | .name a, .name b => a == b
  | .integer a, .integer b => a == b
  | .string a, .string b => a == b
  | .boolean a, .boolean b => a == b
  | .unary p a, .unary q b => p == q && a.same b
  | .binary a p b, .binary c q d => p == q && a.same c && b.same d
  | .assign m a, .assign n b => m == n && a.same b
  | .ifThen a s, .ifThen b t => a.same b && Stmt.sameAll s t
  | .ifElse a s u, .ifElse b t v => a.same b && Stmt.sameAll s t && Stmt.sameAll u v
  | .function m s, .function n t => m == n && Stmt.sameAll s t
  | .call a s, .call b t => a.same b && Expr.sameAll s t
  | .array s, .array t => Expr.sameAll s t
  | .index a b, .index c d => a.same c && b.same d
  | _, _ => false

def Expr.sameAll : List Expr → List Expr → Bool
  | [], [] => true
  | a :: s, b :: t => a.same b && Expr.sameAll s t
  | _, _ => false

def Stmt.same : Stmt → Stmt → Bool
  | .bind m a, .bind n b => m == n && a.same b
  | .leave, .leave => true
  | .leaveWith a, .leaveWith b => a.same b
  | .expr a, .expr b => a.same b
  | .block s, .block t => Stmt.sameAll s t
  | _, _ => false

def Stmt.sameAll : List Stmt → List Stmt → Bool
  | [], [] => true
  | a :: s, b :: t => a.same b && Stmt.sameAll s t
  | _, _ => false

end

mutual

theorem Expr.same_iff : (a b : Expr) → (a.same b = true ↔ a = b)
  | .name _, b => by cases b <;> simp [Expr.same]
  | .integer _, b => by cases b <;> simp [Expr.same]
  | .string _, b => by cases b <;> simp [Expr.same]
  | .boolean _, b => by cases b <;> simp [Expr.same]
  | .unary _ a, b => by cases b <;> simp [Expr.same, a.same_iff]
  | .binary a _ c, b => by cases b <;> simp [Expr.same, a.same_iff, c.same_iff, and_left_comm, and_assoc]
  | .assign _ a, b => by cases b <;> simp [Expr.same, a.same_iff]
  | .ifThen a s, b => by cases b <;> simp [Expr.same, a.same_iff, Stmt.sameAll_iff s]
  | .ifElse a s u, b => by
      cases b <;> simp [Expr.same, a.same_iff, Stmt.sameAll_iff s, Stmt.sameAll_iff u, and_assoc]
  | .function _ s, b => by cases b <;> simp [Expr.same, Stmt.sameAll_iff s]
  | .call a s, b => by cases b <;> simp [Expr.same, a.same_iff, Expr.sameAll_iff s]
  | .array s, b => by cases b <;> simp [Expr.same, Expr.sameAll_iff s]
  | .index a c, b => by cases b <;> simp [Expr.same, a.same_iff, c.same_iff]

theorem Expr.sameAll_iff : (s t : List Expr) → (Expr.sameAll s t = true ↔ s = t)
  | [], t => by cases t <;> simp [Expr.sameAll]
  | a :: s, t => by cases t <;> simp [Expr.sameAll, a.same_iff, Expr.sameAll_iff s]

theorem Stmt.same_iff : (a b : Stmt) → (a.same b = true ↔ a = b)
  | .bind _ a, b => by cases b <;> simp [Stmt.same, a.same_iff]
  | .leave, b => by cases b <;> simp [Stmt.same]
  | .leaveWith a, b => by cases b <;> simp [Stmt.same, a.same_iff]
  | .expr a, b => by cases b <;> simp [Stmt.same, a.same_iff]
  | .block s, b => by cases b <;> simp [Stmt.same, Stmt.sameAll_iff s]

theorem Stmt.sameAll_iff : (s t : List Stmt) → (Stmt.sameAll s t = true ↔ s = t)
  | [], t => by cases t <;> simp [Stmt.sameAll]
  | a :: s, t => by cases t <;> simp [Stmt.sameAll, a.same_iff, Stmt.sameAll_iff s]

end

instance : DecidableEq Expr := fun a b => decidable_of_iff _ (a.same_iff b)

instance : DecidableEq Stmt := fun a b => decidable_of_iff _ (a.same_iff b)

deriving instance DecidableEq for Program

deriving instance DecidableEq for Node

end Treewalk
