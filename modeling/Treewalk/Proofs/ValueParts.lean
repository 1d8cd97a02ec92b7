import Treewalk.Proofs.Likeness

/-! What values are made of. Operators make plain data only. Besides plain data, indexing and builtins hand on what is
inside the values they were given, or make an array of it. -/

namespace Treewalk

/-- The part is the value itself, or is inside it: among the elements of an array, or under way out of a function. -/
inductive Value.Holds : (whole part : Value) → Prop where
  | here : Holds value value
  | element (member : value ∈ values) (inside : Holds value part) : Holds (.array identity values) part
  | returned (inside : Holds value part) : Holds (.returned value) part

/-- The identity of an object. Only arrays and functions have one. -/
def Value.identity? : Value → Option Identity
  | .array identity _ | .function identity _ _ _ => some identity
  | _ => none

/-- Every array and every function in the value, at any depth, has the property. -/
def Value.Throughout (objects : Value → Prop) (value : Value) : Prop :=
  ∀ part, value.Holds part → part.identity?.isSome → objects part

namespace Value

variable {objects : Value → Prop} {value : Value} {values : List Value}

theorem Holds.trans {whole part : Value} (outer : whole.Holds value) (inner : value.Holds part) : whole.Holds part := by
  induction outer with
  | here => exact inner
  | element member _ ih => exact .element member (ih inner)
  | returned _ ih => exact .returned (ih inner)

namespace Throughout

theorem part {part : Value} (given : value.Throughout objects) (held : value.Holds part) : part.Throughout objects :=
  fun inner inside object => given inner (held.trans inside) object

theorem mono {weaker : Value → Prop} (given : value.Throughout objects) (implies : ∀ object, objects object → weaker object) :
    value.Throughout weaker :=
  fun inner inside object => implies inner (given inner inside object)

theorem plain (plain : value.Plain) : value.Throughout objects := by
  intro inner inside object
  cases plain <;> cases inside <;> cases object

theorem array {identity : Identity} (itself : objects (.array identity values))
    (elements : ∀ value ∈ values, value.Throughout objects) : (Value.array identity values).Throughout objects := by
  intro inner inside object
  cases inside with
  | here => exact itself
  | element member inside => exact elements _ member inner inside object

theorem function {identity : Identity} {parameters : List String} {body : List Stmt} {scope : ScopeId}
    (itself : objects (.function identity parameters body scope)) :
    (Value.function identity parameters body scope).Throughout objects := by
  intro inner inside _
  cases inside
  exact itself

theorem returned (given : value.Throughout objects) : (Value.returned value).Throughout objects := by
  intro inner inside object
  cases inside with
  | here => cases object
  | returned inside => exact given inner inside object

theorem itself (given : value.Throughout objects) (object : value.identity?.isSome) : objects value :=
  given value .here object

theorem elements {identity : Identity} (given : (Value.array identity values).Throughout objects) :
    ∀ value ∈ values, value.Throughout objects :=
  fun _ member => given.part (.element member .here)

theorem unwrap (given : value.Throughout objects) : value.unwrap.Throughout objects := by
  cases value with
  | returned inner => exact given.part (.returned .here)
  | _ => exact given

theorem getD_null {found : Option Value} (given : ∀ value, found = some value → value.Throughout objects) :
    (found.getD .null).Throughout objects := by
  cases found with
  | none => exact plain .null
  | some value => exact given value rfl

theorem elementAt (given : value.Throughout objects) (position : Value) : (value.elementAt position).Throughout objects := by
  unfold Value.elementAt
  split
  · split
    · exact getD_null fun element found => given.elements element (List.mem_of_getElem? found)
    · exact plain .null
  · exact plain .error

end Throughout

end Value

namespace Builtin

/-- What a call of a builtin comes to. -/
inductive ComesTo (arguments : List Value) : Run Value → Prop where
  | plain (plain : value.Plain) : ComesTo arguments (pure value)
  | measured (text : String) : ComesTo arguments (Run.byteLength text)
  | printed (line : String) : ComesTo arguments (do Run.print line; return .null)
  | part (given : argument ∈ arguments) (held : argument.Holds value) : ComesTo arguments (pure value)
  | made (parts : ∀ element ∈ elements, ∃ argument ∈ arguments, argument.Holds element) :
    ComesTo arguments (Run.freshArray elements)

variable {arguments : List Value}

theorem onArray_comesTo (builtin : Builtin) {argument : Value} {answer : List Value → Run Value}
    (answers : ∀ identity values, argument = .array identity values → ComesTo arguments (answer values)) :
    ComesTo arguments (builtin.onArray argument answer) := by
  cases argument with
  | array identity values => exact answers identity values rfl
  | _ => exact .plain .error

/-- An element of an array among the arguments, or null in place of it. -/
theorem ComesTo.element {identity : Identity} {values : List Value} {found : Option Value}
    (given : Value.array identity values ∈ arguments) (inside : ∀ value, found = some value → value ∈ values) :
    ComesTo arguments (pure (found.getD .null)) := by
  cases found with
  | none => exact .plain .null
  | some value => exact .part given (.element (inside value rfl) .here)

theorem applyTo_comesTo (builtin : Builtin) (arguments : List Value) : ComesTo arguments (builtin.applyTo arguments) := by
  unfold applyTo
  split
  case h_1 text => exact .measured text
  case h_2 => exact .plain .integer
  case h_3 | h_9 => exact .plain .error
  case h_4 =>
    refine onArray_comesTo _ fun identity values same => ?_
    exact .element (List.mem_singleton.mpr same.symm) fun value found => List.mem_of_mem_head? found
  case h_5 =>
    refine onArray_comesTo _ fun identity values same => ?_
    exact .element (List.mem_singleton.mpr same.symm) fun value found => List.mem_of_getLast? found
  case h_6 argument =>
    refine onArray_comesTo _ fun identity values same => ?_
    cases values with
    | nil => exact .plain .null
    | cons first others =>
      refine .made fun element member => ⟨argument, by simp, ?_⟩
      exact same ▸ .element (List.mem_cons_of_mem first member) .here
  case h_7 argument value =>
    refine onArray_comesTo _ fun identity values same => .made fun element member => ?_
    rcases List.mem_append.mp member with old | new
    · exact ⟨argument, by simp, same ▸ .element old .here⟩
    · exact ⟨value, by simp, List.mem_singleton.mp new ▸ .here⟩
  case h_8 => exact .printed _

theorem apply_comesTo (builtin : Builtin) (arguments : List Value) : ComesTo arguments (builtin.apply arguments) := by
  unfold apply
  split
  · split
    · exact applyTo_comesTo builtin arguments
    · exact .plain .error
  · exact applyTo_comesTo builtin arguments

end Builtin

end Treewalk
