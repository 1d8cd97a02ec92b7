import Treewalk.Operator
import Treewalk.Proofs.SignalFree
import Treewalk.Proofs.ValueParts

/-! What `==` and `!=` say. Integers, strings and booleans are the same when their contents are, everything else when it is one
and the same object. Values of one type can always be compared, and values of two types never. -/

namespace Treewalk

namespace Value

/-- Whether two values of one type are the same. -/
def same : Value → Value → Bool
  | .integer first, .integer second => first == second
  | .string first, .string second => first == second
  | .boolean first, .boolean second => first == second
  | first, second => first.identical second

variable {first second third : Value}

theorem same_refl (free : first.SignalFree) : first.same first = true := by
  cases free <;> simp [same, identical]

theorem same_comm (first second : Value) : first.same second = second.same first := by
  cases first <;> cases second <;> simp only [same, identical, BEq.comm]

theorem same_trans (head : first.same second = true) (tail : second.same third = true) : first.same third = true := by
  cases first <;> cases second <;> cases third <;> simp_all [same, identical]

/-- Values that are the same are equal, if no other object has the identity of the one. -/
theorem eq_of_same (alone : ∀ identity, first.identity? = some identity → second.identity? = some identity → first = second)
    (same : first.same second = true) : first = second := by
  cases first <;> cases second <;> simp_all [Value.same, identical, identity?]

end Value

namespace BinaryOp

variable {first second : Value}

theorem equal_of_kind_ne (different : first.kind ≠ second.kind) :
    equal.apply first second = .error (.typeMismatch first.kind .equal second.kind) ∧
      notEqual.apply first second = .error (.typeMismatch first.kind .notEqual second.kind) := by
  cases first <;> cases second <;> first | exact absurd rfl different | exact ⟨rfl, rfl⟩

theorem equal_of_kind_eq (alike : first.kind = second.kind) :
    equal.apply first second = .boolean (first.same second) ∧ notEqual.apply first second = .boolean !first.same second := by
  cases first <;> cases second <;> first | exact ⟨rfl, rfl⟩ | cases alike

theorem equal_eq_true_iff : equal.apply first second = .boolean true ↔ first.kind = second.kind ∧ first.same second = true := by
  by_cases alike : first.kind = second.kind
  · simp [(equal_of_kind_eq alike).1, alike]
  · simp [(equal_of_kind_ne alike).1, alike]

end BinaryOp

end Treewalk
