import Treewalk.CallLimit
import Treewalk.Proofs.ScopeLaws
import Treewalk.Proofs.ValueParts

/-! Where every character stands for itself, every text can be encoded, and no evaluation fails for a text that cannot. Such a
failure could only come from a length that is asked for, or from a value that was there before. -/

namespace Treewalk

/-- There is no failure to encode a text in the value. -/
def Value.Encoded (value : Value) : Prop := ∀ halves, ¬ value.Holds (.error (.unencodable halves))

/-- The value is such a failure itself. -/
def Value.isUnencodable : Value → Bool
  | .error (.unencodable _) => true
  | _ => false

structure World.Encoded (world : World) : Prop where
  alphabet : world.host.alphabet = .plain
  bound : world.heap.Everywhere Value.Encoded

/-- From a world without failures to encode, the computation leads to such a world and has such an answer. -/
def Run.Encodes {α : Type} (answers : α → Prop) (run : Run α) : Prop :=
  ∀ world, world.Encoded → answers (run world).1 ∧ (run world).2.Encoded

namespace Value.Encoded

variable {value : Value}

theorem plain (plain : value.Plain) (other : value.isUnencodable = false) : value.Encoded := by
  intro halves held
  cases plain <;> cases held
  cases other

theorem function {identity : Identity} {parameters : List String} {body : List Stmt} {scope : ScopeId} :
    (Value.function identity parameters body scope).Encoded := by
  intro halves held
  cases held

theorem part {inner : Value} (encoded : value.Encoded) (held : value.Holds inner) : inner.Encoded :=
  fun halves inside => encoded halves (held.trans inside)

theorem array {identity : Identity} {elements : List Value} (encoded : ∀ element ∈ elements, element.Encoded) :
    (Value.array identity elements).Encoded := by
  intro halves held
  cases held with
  | element member inside => exact encoded _ member halves inside

theorem returned (encoded : value.Encoded) : (Value.returned value).Encoded := by
  intro halves held
  cases held with
  | returned inside => exact encoded halves inside

theorem unwrap (encoded : value.Encoded) : value.unwrap.Encoded := by
  cases value with
  | returned inner => exact encoded.part (.returned .here)
  | _ => exact encoded

theorem getD_null {found : Option Value} (encoded : ∀ value, found = some value → value.Encoded) :
    (found.getD .null).Encoded := by
  cases found with
  | none => exact plain .null rfl
  | some value => exact encoded value rfl

end Value.Encoded

theorem Value.elementAt_encoded {collection : Value} (encoded : collection.Encoded) (position : Value) :
    (collection.elementAt position).Encoded := by
  unfold elementAt
  split
  · split
    · exact .getD_null fun element found => encoded.part (.element (List.mem_of_getElem? found) .here)
    · exact .plain .null rfl
  · exact .plain .error rfl

theorem UnaryOp.apply_encoded (op : UnaryOp) (operand : Value) : (op.apply operand).Encoded := by
  refine .plain (op.apply_plain operand) ?_
  unfold apply
  split <;> rfl

theorem BinaryOp.apply_encoded (op : BinaryOp) (left right : Value) : (op.apply left right).Encoded := by
  refine .plain (op.apply_plain left right) ?_
  unfold apply applyGiven
  split
  · cases op <;> simp only [applyIntegers]
    case divide | power => split <;> rfl
    all_goals rfl
  · split
    · rfl
    · split <;> rfl

namespace Run.Encodes

variable {α β : Type} {between : α → Prop} {answers : β → Prop}

theorem value {value : β} (answer : answers value) : Encodes answers (pure value) := fun _ encoded => ⟨answer, encoded⟩

theorem bind {first : Run α} {next : α → Run β} (head : Encodes between first)
    (tail : ∀ value, between value → Encodes answers (next value)) : Encodes answers (first >>= next) := by
  intro world encoded
  obtain ⟨answer, encoded⟩ := head world encoded
  exact tail _ answer _ encoded

theorem unlessSignal {first : Run Value} {next : Value → Run β} {skip : Value → β} (head : Encodes Value.Encoded first)
    (skips : ∀ value, value.Encoded → answers (skip value)) (tail : ∀ value, value.Encoded → Encodes answers (next value)) :
    Encodes answers (first >>= fun value => if value.isSignal then pure (skip value) else next value) := by
  refine head.bind fun value encoded => ?_
  split
  · exact .value (skips value encoded)
  · exact tail value encoded

theorem unlessDone {first : Run Value} {next : Value → Run Value} (head : Encodes Value.Encoded first)
    (tail : ∀ value, value.Encoded → Encodes Value.Encoded (next value)) :
    Encodes Value.Encoded (first >>= fun value => if value.isSignal then pure value else next value) :=
  head.unlessSignal (fun _ encoded => encoded) tail

theorem unwrapped {run : Run Value} (body : Encodes Value.Encoded run) :
    Encodes Value.Encoded (do return (← run).unwrap) :=
  body.bind fun _ encoded => .value encoded.unwrap

theorem lookup (scope : ScopeId) (name : String) : Encodes Value.Encoded (Run.lookup scope name) := by
  intro world encoded
  refine ⟨?_, encoded⟩
  simp only [Run.lookup]
  split
  next found => exact encoded.bound.get? found
  next =>
    split
    · exact .plain .builtin rfl
    · exact .plain .error rfl

theorem define (scope : ScopeId) (name : String) {value : Value} (given : value.Encoded) :
    Encodes (fun _ => True) (Run.define scope name value) :=
  fun _ encoded => ⟨trivial, encoded.alphabet, encoded.bound.define scope name given⟩

theorem assign (scope : ScopeId) (name : String) {value : Value} (given : value.Encoded) :
    Encodes Value.Encoded (Run.assign scope name value) := by
  intro world encoded
  simp only [Run.assign]
  split
  next heap assigned => exact ⟨given, encoded.alphabet, encoded.bound.assign? given assigned⟩
  next => exact ⟨.plain .error rfl, encoded⟩

theorem freshArray {elements : List Value} (given : ∀ element ∈ elements, element.Encoded) :
    Encodes Value.Encoded (Run.freshArray elements) :=
  fun _ encoded => ⟨.array given, encoded.alphabet, encoded.bound⟩

theorem defineAll (scope : ScopeId) {bindings : List (String × Value)} (given : ∀ binding ∈ bindings, binding.2.Encoded) :
    Encodes (fun _ => True) (Run.defineAll scope bindings) := by
  induction bindings with
  | nil => exact .value trivial
  | cons binding bindings ih =>
    obtain ⟨first, others⟩ := List.forall_mem_cons.mp given
    exact (define scope binding.1 first).bind fun _ _ => ih others

end Run.Encodes

/-- A length is found where all characters stand for themselves. -/
theorem Host.byteLength_of_plain {host : Host} (plain : host.alphabet = .plain) (text : String) :
    host.byteLength text = .integer text.utf8ByteSize := by
  simp [byteLength, plain]

theorem Builtin.onArray_encodes (builtin : Builtin) {argument : Value} {answer : List Value → Run Value}
    (given : argument.Encoded)
    (answers : ∀ values, (∀ value ∈ values, value.Encoded) → (answer values).Encodes Value.Encoded) :
    (builtin.onArray argument answer).Encodes Value.Encoded := by
  cases argument with
  | array identity values => exact answers values fun value member => given.part (.element member .here)
  | _ => exact .value (.plain .error rfl)

theorem Builtin.applyTo_encodes (builtin : Builtin) {arguments : List Value} (given : ∀ argument ∈ arguments, argument.Encoded) :
    (builtin.applyTo arguments).Encodes Value.Encoded := by
  unfold applyTo
  split
  case h_1 text =>
    intro world encoded
    have counted : Run.byteLength text world = (.integer text.utf8ByteSize, world) := by
      rw [Run.byteLength, Host.byteLength_of_plain encoded.alphabet]
    rw [counted]
    exact ⟨.plain .integer rfl, encoded⟩
  case h_2 => exact .value (.plain .integer rfl)
  case h_3 | h_9 => exact .value (.plain .error rfl)
  case h_4 =>
    refine onArray_encodes _ (given _ (by simp)) fun values encoded => .value (.getD_null fun value found => ?_)
    exact encoded value (List.mem_of_mem_head? found)
  case h_5 =>
    refine onArray_encodes _ (given _ (by simp)) fun values encoded => .value (.getD_null fun value found => ?_)
    exact encoded value (List.mem_of_getLast? found)
  case h_6 =>
    refine onArray_encodes _ (given _ (by simp)) fun values encoded => ?_
    cases values with
    | nil => exact .value (.plain .null rfl)
    | cons first others => exact .freshArray (List.forall_mem_cons.mp encoded).2
  case h_7 argument value =>
    refine onArray_encodes _ (given _ (by simp)) fun values encoded => .freshArray ?_
    exact List.forall_mem_append.mpr ⟨encoded, List.forall_mem_singleton.mpr (given value (by simp))⟩
  case h_8 => exact fun _ encoded => ⟨.plain .null rfl, encoded.alphabet, encoded.bound⟩

theorem Builtin.apply_encodes (builtin : Builtin) {arguments : List Value} (given : ∀ argument ∈ arguments, argument.Encoded) :
    (builtin.apply arguments).Encodes Value.Encoded := by
  unfold apply
  split
  · split
    · exact applyTo_encodes builtin given
    · exact .value (.plain .error rfl)
  · exact applyTo_encodes builtin given

/-- There is no such failure in any of the values, or in the signal in place of them. -/
def Value.AllEncoded : Except Value (List Value) → Prop
  | .error signal => signal.Encoded
  | .ok values => ∀ value ∈ values, value.Encoded

def Invoke.Encodes (invoke : Invoke) : Prop :=
  ∀ {callee arguments}, callee.Encoded → (∀ argument ∈ arguments, argument.Encoded) →
    (invoke callee arguments).Encodes Value.Encoded

section

variable {invoke : Invoke}

mutual

theorem Expr.eval_encodes (calls : invoke.Encodes) (scope : ScopeId) :
    (expr : Expr) → (expr.eval invoke scope).Encodes Value.Encoded
  | .name name => by
    rw [Expr.eval]
    exact .lookup scope name
  | .integer _ => by
    rw [Expr.eval]
    exact .value (.plain .integer rfl)
  | .string _ => by
    rw [Expr.eval]
    exact .value (.plain .string rfl)
  | .boolean _ => by
    rw [Expr.eval]
    exact .value (.plain .boolean rfl)
  | .unary op operand => by
    rw [Expr.eval]
    exact .unlessDone (operand.eval_encodes calls scope) fun value _ => .value (op.apply_encoded value)
  | .binary left op right => by
    rw [Expr.eval]
    exact .unlessDone (left.eval_encodes calls scope) fun first _ =>
      .unlessDone (right.eval_encodes calls scope) fun second _ => .value (op.apply_encoded first second)
  | .assign name value => by
    rw [Expr.eval]
    exact .unlessDone (value.eval_encodes calls scope) fun _ given => .assign scope name given
  | .ifThen condition consequence => by
    rw [Expr.eval]
    refine .unlessDone (condition.eval_encodes calls scope) fun test _ => ?_
    split
    · exact Stmt.evalAll_encodes calls scope (.plain .null rfl) consequence
    · exact .value (.plain .null rfl)
  | .ifElse condition consequence alternative => by
    rw [Expr.eval]
    refine .unlessDone (condition.eval_encodes calls scope) fun test _ => ?_
    split
    · exact Stmt.evalAll_encodes calls scope (.plain .null rfl) consequence
    · exact Stmt.evalAll_encodes calls scope (.plain .null rfl) alternative
  | .function _ _ => by
    rw [Expr.eval]
    exact fun _ encoded => ⟨.function, encoded.alphabet, encoded.bound⟩
  | .call function arguments => by
    rw [Expr.eval]
    refine .unlessDone (function.eval_encodes calls scope) fun callee called => ?_
    refine (Expr.evalAll_encodes calls scope arguments).bind fun values given => ?_
    cases values with
    | error signal => exact .value given
    | ok values => exact calls called given
  | .array elements => by
    rw [Expr.eval]
    refine (Expr.evalAll_encodes calls scope elements).bind fun values given => ?_
    cases values with
    | error signal => exact .value given
    | ok values => exact .freshArray given
  | .index collection position => by
    rw [Expr.eval]
    exact .unlessDone (collection.eval_encodes calls scope) fun whole given =>
      .unlessDone (position.eval_encodes calls scope) fun place _ => .value (Value.elementAt_encoded given place)

theorem Expr.evalAll_encodes (calls : invoke.Encodes) (scope : ScopeId) :
    (exprs : List Expr) → (Expr.evalAll invoke scope exprs).Encodes Value.AllEncoded
  | [] => by
    rw [Expr.evalAll]
    exact .value (List.forall_mem_nil _)
  | expr :: exprs => by
    rw [Expr.evalAll]
    refine .unlessSignal (expr.eval_encodes calls scope) (fun _ encoded => encoded) fun value first => ?_
    refine (Expr.evalAll_encodes calls scope exprs).bind fun values others => ?_
    cases values with
    | error signal => exact .value others
    | ok values => exact .value (List.forall_mem_cons.mpr ⟨first, others⟩)

theorem Stmt.eval_encodes (calls : invoke.Encodes) (scope : ScopeId) :
    (stmt : Stmt) → (stmt.eval invoke scope).Encodes Value.Encoded
  | .bind name value => by
    rw [Stmt.eval]
    exact .unlessDone (value.eval_encodes calls scope) fun _ given =>
      (Run.Encodes.define scope name given).bind fun _ _ => .value (.plain .null rfl)
  | .leave => by
    rw [Stmt.eval]
    exact .value (.returned (.plain .null rfl))
  | .leaveWith value => by
    rw [Stmt.eval]
    exact .unlessDone (value.eval_encodes calls scope) fun _ given => .value given.returned
  | .expr value => by
    rw [Stmt.eval]
    exact value.eval_encodes calls scope
  | .block statements => by
    rw [Stmt.eval]
    exact Stmt.evalAll_encodes calls scope (.plain .null rfl) statements

theorem Stmt.evalAll_encodes (calls : invoke.Encodes) (scope : ScopeId) {result : Value} (given : result.Encoded) :
    (stmts : List Stmt) → (Stmt.evalAll invoke scope result stmts).Encodes Value.Encoded
  | [] => by
    rw [Stmt.evalAll]
    exact .value given
  | stmt :: stmts => by
    rw [Stmt.evalAll]
    exact .unlessDone (stmt.eval_encodes calls scope) fun _ last => Stmt.evalAll_encodes calls scope last stmts

end

end

theorem Value.call_encodes {runBody : ScopeId → List (String × Value) → List Stmt → Run Value}
    (bodies : ∀ captured {bindings} body, (∀ binding ∈ bindings, binding.2.Encoded) →
      (runBody captured bindings body).Encodes Value.Encoded) : Invoke.Encodes (Value.call runBody) := by
  intro callee arguments called given
  cases callee with
  | builtin which => exact which.apply_encodes given
  | function identity parameters body captured =>
    simp only [Value.call]
    split
    · exact bodies captured body fun binding member => given binding.2 (List.of_mem_zip member).2
    · exact .value (.plain .error rfl)
  | _ => exact .value (.plain .error rfl)

/-- The induction is on how many calls may be inside each other. -/
theorem invoke_encodes : (depth : Nat) → Invoke.Encodes (invoke depth)
  | 0 => Value.call_encodes fun _ _ _ _ => .value (.plain .error rfl)
  | depth + 1 => by
    refine Value.call_encodes fun captured bindings body given => ?_
    have opened : (Run.enclose captured).Encodes fun _ => True :=
      fun _ encoded => ⟨trivial, encoded.alphabet, encoded.bound.enclose (some captured)⟩
    refine opened.bind fun scope _ => (Run.Encodes.defineAll scope given).bind fun _ _ => ?_
    exact .unwrapped (Stmt.evalAll_encodes (invoke_encodes depth) scope (.plain .null rfl) body)

theorem Program.eval_encodes (program : Program) (depth : Nat) (scope : ScopeId) :
    (program.eval depth scope).Encodes Value.Encoded :=
  .unwrapped (Stmt.evalAll_encodes (invoke_encodes depth) scope (.plain .null rfl) program.statements)

theorem World.initial_encoded {host : Host} (plain : host.alphabet = .plain) : (World.initial host).Encoded :=
  ⟨plain, (Heap.empty_everywhere _).enclose none⟩

theorem World.Encoded.silenced {world : World} (encoded : world.Encoded) : world.silenced.Encoded :=
  ⟨encoded.alphabet, encoded.bound⟩

/-- Under every limit that is granted, the answer is none of a failure to encode. -/
theorem Program.evaluate?_encoded {program : Program} {limit : Int} {scope : ScopeId} {world after : World} {value : Value}
    (encoded : world.Encoded) (ran : program.evaluate? limit scope world = some (value, after)) :
    value.Encoded ∧ after.Encoded := by
  obtain ⟨depth, -, same⟩ := Option.map_eq_some_iff.mp ran
  have kept := program.eval_encodes depth scope world encoded
  change program.eval depth scope world = (value, after) at same
  rwa [same] at kept

end Treewalk
