import Treewalk.Proofs.Answers
import Treewalk.Proofs.ScopeLaws

/-! The scopes that functions remember. A heap is complete when all of them are scopes of the heap; then a new scope always
has the scope to link to that its function was written in. -/

namespace Treewalk

/-- Every function in the value was written in one of the first `size` scopes. -/
inductive Value.Within (size : Nat) : Value → Prop where
  | integer : Within size (.integer value)
  | string : Within size (.string text)
  | boolean : Within size (.boolean value)
  | null : Within size .null
  | array (elements : ∀ value ∈ values, Within size value) : Within size (.array identity values)
  | function (captured : scope < size) : Within size (.function identity parameters body scope)
  | builtin : Within size (.builtin which)
  | returned (inside : Within size value) : Within size (.returned value)
  | error : Within size (.error fault)

/-- The functions that are bound anywhere remember scopes that are there. -/
def Heap.Complete (heap : Heap) : Prop := heap.Everywhere (Value.Within heap.scopes.size)

namespace Value

variable {size larger : Nat} {value : Value}

theorem Within.mono (inside : value.Within size) (more : size ≤ larger) : value.Within larger := by
  induction inside with
  | integer => exact .integer
  | string => exact .string
  | boolean => exact .boolean
  | null => exact .null
  | array _ ih => exact .array ih
  | function captured => exact .function (Nat.lt_of_lt_of_le captured more)
  | builtin => exact .builtin
  | returned _ ih => exact .returned ih
  | error => exact .error

theorem Within.elements {identity : Identity} {values : List Value} (inside : (Value.array identity values).Within size) :
    ∀ value ∈ values, value.Within size := by
  cases inside with
  | array elements => exact elements

theorem Within.unwrap (inside : value.Within size) : value.unwrap.Within size := by
  cases inside with
  | returned inside => exact inside
  | integer => exact .integer
  | string => exact .string
  | boolean => exact .boolean
  | null => exact .null
  | array elements => exact .array elements
  | function captured => exact .function captured
  | builtin => exact .builtin
  | error => exact .error

theorem within_hereditary (size : Nat) : Hereditary (fun _ => True) (Within size) where
  wraps _ := trivial
  integer _ := .integer
  string _ := .string
  boolean _ := .boolean
  null := .null
  array := ⟨Within.elements, .array⟩

theorem Answers.within (answer : value.Answers (Within size)) : value.Within size := by
  obtain inside | ⟨fault, rfl⟩ := answer
  · exact inside
  · exact .error

end Value

namespace Heap

variable {heap after : Heap} {id : ScopeId} {name : String} {value : Value}

theorem Complete.define (complete : heap.Complete) (id : ScopeId) (name : String) (inside : value.Within heap.scopes.size) :
    (heap.define id name value).Complete := by
  rw [Complete, size_define]
  exact Everywhere.define complete id name inside

theorem Complete.enclose (complete : heap.Complete) (outer : Option ScopeId) : (heap.enclose outer).Complete := by
  rw [Complete, size_enclose]
  exact (Everywhere.enclose complete outer).mono fun _ inside => inside.mono (Nat.le_succ _)

theorem Complete.assign? (complete : heap.Complete) (inside : value.Within heap.scopes.size)
    (assigned : heap.assign? id name value = some after) : after.Complete := by
  obtain ⟨owner, -, rfl⟩ := assign?_eq_some_iff.mp assigned
  exact complete.define owner name inside

end Heap

theorem World.initial_complete (host : Host) : (World.initial host).heap.Complete :=
  Heap.Complete.enclose (Heap.empty_everywhere _) none

end Treewalk
