import Treewalk.Evaluation

/-! What operators, indexing and builtins answer. They make integers, strings, booleans, null, and arrays of what they
were given, and nothing else but errors. So whatever is true of such data, and of an array when it is true of the elements,
is true of every answer that is no error. Integers need to have it only if they are of a certain kind, to which every wrapped
one belongs: the only others that are made are lengths. -/

namespace Treewalk

namespace Value

/-- A property of plain data that an array has when its elements have it. Of the integers, those have it that fit. -/
structure Hereditary (fits : Int → Prop) (holds : Value → Prop) : Prop where
  wraps : ∀ value, fits (wrap value)
  integer : ∀ {value}, fits value → holds (.integer value)
  string : ∀ text, holds (.string text)
  boolean : ∀ value, holds (.boolean value)
  null : holds .null
  array : ∀ {identity values}, holds (.array identity values) ↔ ∀ value ∈ values, holds value

/-- The number of bytes of a string, or of elements of an array. -/
def length? : Value → Option Nat
  | .string text => some text.utf8ByteSize
  | .array _ elements => some elements.length
  | _ => none

/-- The value has the property or is an error. -/
def Answers (holds : Value → Prop) (value : Value) : Prop := holds value ∨ ∃ fault, value = .error fault

variable {fits : Int → Prop} {holds : Value → Prop}

theorem answers_error (fault : Fault) : (error fault).Answers holds := Or.inr ⟨fault, rfl⟩

theorem Hereditary.getD_null (hereditary : Hereditary fits holds) {values : List Value} {found : Option Value}
    (given : ∀ value ∈ values, holds value) (inside : ∀ value, found = some value → value ∈ values) :
    holds (found.getD .null) := by
  cases found with
  | none => exact hereditary.null
  | some value => exact given value (inside value rfl)

theorem Hereditary.elementAt (hereditary : Hereditary fits holds) {collection : Value} (position : Value)
    (given : holds collection) : (collection.elementAt position).Answers holds := by
  unfold Value.elementAt
  split
  next identity elements index =>
    split
    · exact Or.inl (hereditary.getD_null (hereditary.array.mp given) fun value found => List.mem_of_getElem? found)
    · exact Or.inl hereditary.null
  · exact answers_error _

end Value

open Value

variable {fits : Int → Prop} {holds : Value → Prop}

theorem UnaryOp.apply_answers (hereditary : Hereditary fits holds) (op : UnaryOp) (operand : Value) :
    (op.apply operand).Answers holds := by
  unfold apply
  split
  · exact Or.inl (hereditary.boolean _)
  · exact Or.inl (hereditary.integer (hereditary.wraps _))
  · exact answers_error _

namespace BinaryOp

theorem applyIntegers_answers (hereditary : Hereditary fits holds) (op : BinaryOp) (left right : Int) :
    (op.applyIntegers left right).Answers holds := by
  cases op <;> simp only [applyIntegers]
  case divide | power => split <;> first | exact answers_error _ | exact Or.inl (hereditary.integer (hereditary.wraps _))
  case unknown => exact answers_error _
  all_goals first | exact Or.inl (hereditary.integer (hereditary.wraps _)) | exact Or.inl (hereditary.boolean _)

theorem apply_answers (hereditary : Hereditary fits holds) (op : BinaryOp) (left right : Value) :
    (op.apply left right).Answers holds := by
  unfold apply applyGiven
  split
  · exact applyIntegers_answers hereditary ..
  · split
    · exact answers_error _
    · split
      all_goals
        first
          | exact Or.inl (hereditary.string _)
          | exact Or.inl (hereditary.boolean _)
          | exact answers_error _

end BinaryOp

namespace Builtin

theorem onArray_answers (hereditary : Hereditary fits holds) (builtin : Builtin) {argument : Value} (given : holds argument)
    {answer : List Value → Run Value} {world : World}
    (answers : ∀ values, (∀ value ∈ values, holds value) → (answer values world).1.Answers holds) :
    (builtin.onArray argument answer world).1.Answers holds := by
  cases argument with
  | array identity elements => exact answers elements (hereditary.array.mp given)
  | _ => exact answers_error _

theorem applyTo_answers (hereditary : Hereditary fits holds) (builtin : Builtin) {arguments : List Value}
    (given : ∀ argument ∈ arguments, holds argument)
    (short : ∀ argument ∈ arguments, ∀ length, argument.length? = some length → fits length) (world : World) :
    (builtin.applyTo arguments world).1.Answers holds := by
  unfold applyTo
  split
  case h_1 text =>
    exact world.host.byteLength_rule (Or.inl (hereditary.integer (short (.string text) (by simp) _ rfl)))
      fun _ => answers_error _
  case h_2 identity elements => exact Or.inl (hereditary.integer (short (.array identity elements) (by simp) _ rfl))
  case h_3 => exact answers_error _
  case h_4 argument =>
    refine onArray_answers hereditary _ (given argument (by simp)) fun values data => Or.inl ?_
    exact hereditary.getD_null data fun value found => List.mem_of_mem_head? found
  case h_5 argument =>
    refine onArray_answers hereditary _ (given argument (by simp)) fun values data => Or.inl ?_
    exact hereditary.getD_null data fun value found => List.mem_of_getLast? found
  case h_6 argument =>
    refine onArray_answers hereditary _ (given argument (by simp)) fun values data => ?_
    cases values with
    | nil => exact Or.inl hereditary.null
    | cons first others => exact Or.inl (hereditary.array.mpr fun value member => data value (by simp [member]))
  case h_7 argument value =>
    refine onArray_answers hereditary _ (given argument (by simp)) fun values data => Or.inl (hereditary.array.mpr ?_)
    intro element member
    rcases List.mem_append.mp member with old | new
    · exact data element old
    · exact given element (by simp_all)
  case h_8 => exact Or.inl hereditary.null
  case h_9 => exact answers_error _

theorem apply_answers (hereditary : Hereditary fits holds) (builtin : Builtin) {arguments : List Value}
    (given : ∀ argument ∈ arguments, holds argument)
    (short : ∀ argument ∈ arguments, ∀ length, argument.length? = some length → fits length) (world : World) :
    (builtin.apply arguments world).1.Answers holds := by
  unfold apply
  cases builtin.arity with
  | none => exact applyTo_answers hereditary builtin given short world
  | some arity =>
    dsimp only
    split
    · exact applyTo_answers hereditary builtin given short world
    · exact answers_error _

end Builtin

end Treewalk
