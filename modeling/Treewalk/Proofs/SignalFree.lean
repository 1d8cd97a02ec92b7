import Treewalk.Proofs.Answers
import Treewalk.Proofs.ScopeLaws

/-! Data is free of signals: neither a value on its way out of a function nor a failure, and no array that holds one at
any depth. Operators, indexing and builtins answer such data with such data or with an error. -/

namespace Treewalk

inductive Value.SignalFree : Value → Prop where
  | integer : SignalFree (.integer value)
  | string : SignalFree (.string text)
  | boolean : SignalFree (.boolean value)
  | null : SignalFree .null
  | array (elements : ∀ value ∈ values, SignalFree value) : SignalFree (.array identity values)
  | function : SignalFree (.function identity parameters body scope)
  | builtin : SignalFree (.builtin which)

/-- What a step may answer when nothing it was given held a signal: data, or an error. -/
def Value.DataOrError (value : Value) : Prop := value.SignalFree ∨ ∃ fault, value = .error fault

/-- No binding of any scope holds a signal. Closures need no condition of their own: the scopes they captured are
scopes of the heap. -/
def Heap.SignalFree (heap : Heap) : Prop :=
  ∀ id name value, heap.own? id name = some value → value.SignalFree

def World.SignalFree (world : World) : Prop := world.heap.SignalFree

namespace Value

theorem SignalFree.not_signal {value : Value} (free : value.SignalFree) : value.isSignal = false := by
  cases free <;> rfl

theorem SignalFree.unwrap {value : Value} (free : value.SignalFree) : value.unwrap = value := by
  cases free <;> rfl

theorem SignalFree.elements {identity : Identity} {values : List Value} (free : (Value.array identity values).SignalFree) :
    ∀ value ∈ values, value.SignalFree := by
  cases free with
  | array elements => exact elements

mutual

/-- The test for values free of signals. -/
def isSignalFree : Value → Bool
  | .returned _ | .error _ => false
  | .array _ values => areSignalFree values
  | _ => true

def areSignalFree : List Value → Bool
  | [] => true
  | value :: values => value.isSignalFree && areSignalFree values

end

mutual

theorem isSignalFree_iff : (value : Value) → (value.isSignalFree = true ↔ value.SignalFree)
  | .integer _ => iff_of_true rfl .integer
  | .string _ => iff_of_true rfl .string
  | .boolean _ => iff_of_true rfl .boolean
  | .null => iff_of_true rfl .null
  | .array _ values => by
    rw [isSignalFree, areSignalFree_iff values]
    exact ⟨.array, SignalFree.elements⟩
  | .function _ _ _ _ => iff_of_true rfl .function
  | .builtin _ => iff_of_true rfl .builtin
  | .returned _ => iff_of_false Bool.false_ne_true nofun
  | .error _ => iff_of_false Bool.false_ne_true nofun

theorem areSignalFree_iff : (values : List Value) → (areSignalFree values = true ↔ ∀ value ∈ values, value.SignalFree)
  | [] => by simp [areSignalFree]
  | value :: values => by simp [areSignalFree, isSignalFree_iff value, areSignalFree_iff values]

end

instance : DecidablePred SignalFree := fun value => decidable_of_iff _ (isSignalFree_iff value)

theorem dataOrError_error (fault : Fault) : (error fault).DataOrError := Or.inr ⟨fault, rfl⟩

theorem signalFree_hereditary : Hereditary (fun _ => True) SignalFree where
  wraps _ := trivial
  integer _ := .integer
  string _ := .string
  boolean _ := .boolean
  null := .null
  array := ⟨SignalFree.elements, .array⟩

theorem elementAt_dataOrError {collection : Value} (position : Value) (free : collection.SignalFree) :
    (collection.elementAt position).DataOrError :=
  signalFree_hereditary.elementAt position free

end Value

theorem UnaryOp.apply_dataOrError (op : UnaryOp) (operand : Value) : (op.apply operand).DataOrError :=
  op.apply_answers Value.signalFree_hereditary operand

theorem BinaryOp.apply_dataOrError (op : BinaryOp) (left right : Value) : (op.apply left right).DataOrError :=
  op.apply_answers Value.signalFree_hereditary left right

theorem World.initial_signalFree (host : Host) : (World.initial host).SignalFree := (Heap.empty_everywhere _).enclose none

/-- A computation that answers with data or an error and keeps signals out of the heap. -/
def Run.KeepsData (run : Run Value) : Prop :=
  ∀ world, world.SignalFree → (run world).1.DataOrError ∧ (run world).2.SignalFree

/-- Builtins leave all scopes alone, so only their answer has to be looked at. -/
theorem Builtin.apply_keepsData (builtin : Builtin) {arguments : List Value}
    (free : ∀ argument ∈ arguments, argument.SignalFree) : (builtin.apply arguments).KeepsData := by
  intro world kept
  refine ⟨builtin.apply_answers Value.signalFree_hereditary free (fun _ _ _ _ => trivial) world, ?_⟩
  obtain ⟨identity, lines, effect⟩ := builtin.apply_leavesScopes arguments world
  rw [effect]
  exact kept

end Treewalk
