import Treewalk.CallLimit
import Treewalk.Proofs.ClearSyntax
import Treewalk.Proofs.ScopeLaws

/-! Clear programs compute with clear values. Strings are only written in the program and put together, and what is printed is
the text of values. -/

namespace Treewalk

/-- The value is shown as clear text. -/
structure Value.IsClear (value : Value) : Prop where
  shown : ClearText value.inspect

namespace Value

variable {value : Value} {values : List Value} {identity : Identity}

theorem isClear_iff : value.IsClear ↔ ClearText value.inspect := ⟨IsClear.shown, IsClear.mk⟩

theorem inspectAll_eq_map (values : List Value) : inspectAll values = values.map inspect := by
  induction values with
  | nil => rfl
  | cons value values ih => simp [inspectAll, ih]

theorem isClear_inspectAll : (∀ text ∈ inspectAll values, ClearText text) ↔ ∀ value ∈ values, value.IsClear := by
  simp only [inspectAll_eq_map, List.forall_mem_map, isClear_iff]

theorem isClear_integer (value : Int) : (integer value).IsClear := ⟨clearText_int value⟩

theorem isClear_string {text : String} : (string text).IsClear ↔ ClearText text := isClear_iff

theorem isClear_boolean (value : Bool) : (boolean value).IsClear := by
  cases value <;> exact ⟨by decide⟩

theorem isClear_null : null.IsClear := ⟨by decide⟩

theorem isClear_builtin (which : Builtin) : (builtin which).IsClear := ⟨(by decide : ClearText "builtin function")⟩

theorem isClear_array : (array identity values).IsClear ↔ ∀ value ∈ values, value.IsClear := by
  simp +decide [@isClear_iff (array identity values), inspect, clearText_renderList, isClear_inspectAll]

theorem isClear_function {parameters : List String} {body : List Stmt} {scope : ScopeId} :
    (function identity parameters body scope).IsClear ↔
      (∀ name ∈ parameters, ClearText name) ∧ ∀ stmt ∈ body, stmt.IsClear := by
  simp +decide [isClear_iff, inspect, renderFunction, clearText_renderList, clearText_renderStatements, isClear_renderAllStatements]

theorem isClear_returned : (returned value).IsClear ↔ value.IsClear := by
  rw [isClear_iff, isClear_iff, inspect]

theorem isClear_error {fault : Fault} : (error fault).IsClear ↔ ClearText fault.message := by
  simp +decide [isClear_iff, inspect]

theorem clearText_kindName (kind : Kind) : ClearText kind.name := by
  cases kind <;> decide

theorem IsClear.unwrap (clear : value.IsClear) : value.unwrap.IsClear := by
  cases value with
  | returned value => exact isClear_returned.mp clear
  | _ => exact clear

theorem IsClear.getD_null {found : Option Value} (clear : ∀ value, found = some value → value.IsClear) :
    (found.getD .null).IsClear := by
  cases found with
  | none => exact isClear_null
  | some value => exact clear value rfl

end Value

/-- What a fault repeats of a program is clear. -/
def Fault.Quotes : Fault → Prop
  | .unknownName name => ClearText name
  | .unknownUnary op _ => ClearText op.symbol
  | .unknownBinary _ op _ | .typeMismatch _ op _ => ClearText op.symbol
  | .reported message => ClearText message
  | _ => True

theorem Alphabet.Halves.message_clear (halves : Halves) : ClearText halves.message := by
  unfold Halves.message
  dsimp only
  split <;> simp only [clearText_append, clearText_hexadecimal, clearText_nat, and_true] <;> decide

theorem Fault.Quotes.message {fault : Fault} (quotes : fault.Quotes) : ClearText fault.message := by
  cases fault with
  | unknownName name => exact clearText_append.mpr ⟨by decide, quotes⟩
  | reported message => exact quotes
  | unknownUnary op operand =>
    unfold Fault.message
    simp only [clearText_append, Value.clearText_kindName, and_true]
    exact ⟨by decide, quotes⟩
  | unknownBinary left op right | typeMismatch left op right =>
    unfold Fault.message
    simp only [clearText_append, Value.clearText_kindName, and_true]
    exact ⟨⟨⟨by decide, by decide⟩, quotes⟩, by decide⟩
  | divisionByZero | callsTooDeep => decide
  | unencodable halves => exact halves.message_clear
  | negativeExponent | notIndexable | notAFunction | wrongArguments | wrongBuiltinArguments | noLength =>
    unfold Fault.message
    simp only [clearText_append, clearText_nat, clearText_int, Value.clearText_kindName, and_true]
    decide
  | notAnArray builtin argument =>
    unfold Fault.message
    simp only [clearText_append, Value.clearText_kindName, and_true]
    cases builtin <;> decide

theorem Value.isClear_fault {fault : Fault} (quotes : fault.Quotes) : (error fault).IsClear :=
  isClear_error.mpr quotes.message

/-! ### Operators -/

theorem UnaryOp.apply_clear {op : UnaryOp} (sign : ClearText op.symbol) (operand : Value) : (op.apply operand).IsClear := by
  unfold apply
  split
  · exact Value.isClear_boolean _
  · exact Value.isClear_integer _
  · exact Value.isClear_fault sign

namespace BinaryOp

theorem applyIntegers_clear {op : BinaryOp} (sign : ClearText op.symbol) (left right : Int) :
    (op.applyIntegers left right).IsClear := by
  cases op <;> simp only [applyIntegers]
  case divide | power => split <;> first | exact Value.isClear_fault trivial | exact Value.isClear_integer _
  case unknown => exact Value.isClear_fault sign
  all_goals first | exact Value.isClear_integer _ | exact Value.isClear_boolean _

/-- Strings are put together from the given ones only. -/
theorem apply_clear {op : BinaryOp} (sign : ClearText op.symbol) {left right : Value} (first : left.IsClear)
    (second : right.IsClear) : (op.apply left right).IsClear := by
  unfold apply applyGiven
  split
  · exact applyIntegers_clear sign ..
  · split
    · exact Value.isClear_fault sign
    · split
      all_goals
        first
          | exact Value.isClear_string.mpr (clearText_append.mpr ⟨Value.isClear_string.mp first, Value.isClear_string.mp second⟩)
          | exact Value.isClear_boolean _
          | exact Value.isClear_fault sign

end BinaryOp

theorem Value.elementAt_clear {collection : Value} (clear : collection.IsClear) (position : Value) :
    (collection.elementAt position).IsClear := by
  unfold Value.elementAt
  split
  · split
    · exact .getD_null fun value found => Value.isClear_array.mp clear value (List.mem_of_getElem? found)
    · exact Value.isClear_null
  · exact Value.isClear_fault trivial

/-! ### Evaluation -/

/-- All bound values and all lines printed so far are clear. -/
structure World.IsClear (world : World) : Prop where
  bindings : world.heap.Everywhere Value.IsClear
  printed : ∀ line ∈ world.printed, ClearText line

/-- In a clear world the computation has such an answer, and leaves a clear world. -/
def Run.Clear {α : Type} (holds : α → Prop) (run : Run α) : Prop :=
  ∀ world, world.IsClear → holds (run world).1 ∧ (run world).2.IsClear

namespace Run.Clear

variable {α β : Type} {holds : β → Prop}

theorem value {value : β} (held : holds value) : (pure value : Run β).Clear holds := fun _ clear => ⟨held, clear⟩

theorem bind {between : α → Prop} {first : Run α} {next : α → Run β} (head : first.Clear between)
    (tail : ∀ value, between value → (next value).Clear holds) : (first >>= next).Clear holds := by
  intro world clear
  obtain ⟨held, after⟩ := head world clear
  exact tail _ held _ after

theorem unlessSignal {first : Run Value} {next : Value → Run β} {skip : Value → β} (head : first.Clear Value.IsClear)
    (skips : ∀ value, value.IsClear → holds (skip value)) (tail : ∀ value, value.IsClear → (next value).Clear holds) :
    (first >>= fun value => if value.isSignal then pure (skip value) else next value).Clear holds := by
  refine head.bind fun result clear => ?_
  split
  · exact value (skips result clear)
  · exact tail result clear

theorem unlessDone {first : Run Value} {next : Value → Run Value} (head : first.Clear Value.IsClear)
    (tail : ∀ value, value.IsClear → (next value).Clear Value.IsClear) :
    (first >>= fun value => if value.isSignal then pure value else next value).Clear Value.IsClear :=
  head.unlessSignal (fun _ clear => clear) tail

theorem freshIdentity : freshIdentity.Clear fun _ => True := fun _ clear => ⟨trivial, clear.bindings, clear.printed⟩

theorem freshArray {elements : List Value} (clear : ∀ element ∈ elements, element.IsClear) :
    (freshArray elements).Clear Value.IsClear :=
  freshIdentity.bind fun _ _ => value (Value.isClear_array.mpr clear)

theorem print {line : String} (clear : ClearText line) : (print line).Clear fun _ => True := by
  refine fun world given => ⟨trivial, given.bindings, fun other member => ?_⟩
  rcases Array.mem_push.mp member with earlier | rfl
  · exact given.printed other earlier
  · exact clear

theorem lookup {name : String} (named : ClearText name) (scope : ScopeId) : (lookup scope name).Clear Value.IsClear := by
  refine fun world clear => ⟨?_, clear⟩
  simp only [Run.lookup]
  split
  next found => exact clear.bindings.get? found
  next =>
    split
    · exact Value.isClear_builtin _
    · exact Value.isClear_fault named

theorem define (scope : ScopeId) (name : String) {given : Value} (clear : given.IsClear) :
    (define scope name given).Clear fun _ => True :=
  fun _ before => ⟨trivial, before.bindings.define scope name clear, before.printed⟩

theorem assign (scope : ScopeId) {name : String} (named : ClearText name) {given : Value} (clear : given.IsClear) :
    (assign scope name given).Clear Value.IsClear := by
  intro world before
  simp only [Run.assign]
  split
  next heap assigned => exact ⟨clear, before.bindings.assign? clear assigned, before.printed⟩
  next => exact ⟨Value.isClear_fault named, before⟩

theorem byteLength (text : String) : (byteLength text).Clear Value.IsClear := fun world clear =>
  ⟨world.host.byteLength_rule (Value.isClear_integer _) fun _ => Value.isClear_fault trivial, clear⟩

theorem enclose (outer : ScopeId) : (enclose outer).Clear fun _ => True :=
  fun _ clear => ⟨trivial, clear.bindings.enclose (some outer), clear.printed⟩

theorem defineAll (scope : ScopeId) {bindings : List (String × Value)} (clear : ∀ binding ∈ bindings, binding.2.IsClear) :
    (defineAll scope bindings).Clear fun _ => True := by
  induction bindings with
  | nil => exact value trivial
  | cons binding bindings ih =>
    obtain ⟨first, others⟩ := List.forall_mem_cons.mp clear
    exact (define scope binding.1 first).bind fun _ _ => ih others

end Run.Clear

namespace Builtin

theorem onArray_clear (builtin : Builtin) {argument : Value} (given : argument.IsClear) {answer : List Value → Run Value}
    (answers : ∀ values, (∀ value ∈ values, value.IsClear) → (answer values).Clear Value.IsClear) :
    (builtin.onArray argument answer).Clear Value.IsClear := by
  cases argument with
  | array identity elements => exact answers elements (Value.isClear_array.mp given)
  | _ => exact .value (Value.isClear_fault trivial)

theorem applyTo_clear (builtin : Builtin) {arguments : List Value} (given : ∀ argument ∈ arguments, argument.IsClear) :
    (builtin.applyTo arguments).Clear Value.IsClear := by
  unfold applyTo
  split
  case h_1 text => exact .byteLength text
  case h_2 => exact .value (Value.isClear_integer _)
  case h_3 | h_9 => exact .value (Value.isClear_fault trivial)
  case h_4 argument =>
    refine onArray_clear _ (given argument (by simp)) fun values clear => .value ?_
    exact .getD_null fun value found => clear value (List.mem_of_mem_head? found)
  case h_5 argument =>
    refine onArray_clear _ (given argument (by simp)) fun values clear => .value ?_
    exact .getD_null fun value found => clear value (List.mem_of_getLast? found)
  case h_6 argument =>
    refine onArray_clear _ (given argument (by simp)) fun values clear => ?_
    cases values with
    | nil => exact .value Value.isClear_null
    | cons first others => exact .freshArray (List.forall_mem_cons.mp clear).2
  case h_7 argument value =>
    refine onArray_clear _ (given argument (by simp)) fun values clear => .freshArray ?_
    exact List.forall_mem_append.mpr ⟨clear, List.forall_mem_singleton.mpr (given value (by simp))⟩
  case h_8 =>
    have line := (clearText_intercalate (by decide : ClearText " ")).mpr (Value.isClear_inspectAll.mpr given)
    exact (Run.Clear.print line).bind fun _ _ => .value Value.isClear_null

theorem apply_clear (builtin : Builtin) {arguments : List Value} (given : ∀ argument ∈ arguments, argument.IsClear) :
    (builtin.apply arguments).Clear Value.IsClear := by
  unfold apply
  split
  · split
    · exact applyTo_clear builtin given
    · exact .value (Value.isClear_fault trivial)
  · exact applyTo_clear builtin given

end Builtin

/-- Calls of clear values with clear arguments have clear answers. -/
def Invoke.Clear (invoke : Invoke) : Prop :=
  ∀ {callee arguments}, callee.IsClear → (∀ argument ∈ arguments, argument.IsClear) →
    (invoke callee arguments).Clear Value.IsClear

/-- What is known of evaluated arguments, or of the signal in place of them. -/
def AllValuesClear : Except Value (List Value) → Prop
  | .error signal => signal.IsClear
  | .ok values => ∀ value ∈ values, value.IsClear

section

variable {invoke : Invoke} {scope : ScopeId}

mutual

theorem Expr.eval_clear (calls : invoke.Clear) : (expr : Expr) → expr.IsClear → (expr.eval invoke scope).Clear Value.IsClear
  | .name name, clear => by
    rw [Expr.eval]
    exact .lookup clear scope
  | .integer _, _ => by
    rw [Expr.eval]
    exact .value (Value.isClear_integer _)
  | .string _, clear => by
    rw [Expr.eval]
    exact .value (Value.isClear_string.mpr (Expr.isClear_string.mp clear))
  | .boolean _, _ => by
    rw [Expr.eval]
    exact .value (Value.isClear_boolean _)
  | .unary op operand, clear => by
    obtain ⟨sign, inner⟩ := Expr.isClear_unary.mp clear
    rw [Expr.eval]
    exact .unlessDone (operand.eval_clear calls inner) fun value _ => .value (op.apply_clear sign value)
  | .binary left op right, clear => by
    obtain ⟨first, sign, second⟩ := Expr.isClear_binary.mp clear
    rw [Expr.eval]
    refine .unlessDone (left.eval_clear calls first) fun _ held => .unlessDone (right.eval_clear calls second) fun _ held' => ?_
    exact .value (op.apply_clear sign held held')
  | .assign name value, clear => by
    obtain ⟨named, inner⟩ := Expr.isClear_assign.mp clear
    rw [Expr.eval]
    exact .unlessDone (value.eval_clear calls inner) fun _ held => .assign scope named held
  | .ifThen condition consequence, clear => by
    obtain ⟨test, first⟩ := Expr.isClear_ifThen.mp clear
    rw [Expr.eval]
    refine .unlessDone (condition.eval_clear calls test) fun _ _ => ?_
    split
    · exact Stmt.evalAll_clear calls consequence first Value.isClear_null
    · exact .value Value.isClear_null
  | .ifElse condition consequence alternative, clear => by
    obtain ⟨test, first, second⟩ := Expr.isClear_ifElse.mp clear
    rw [Expr.eval]
    refine .unlessDone (condition.eval_clear calls test) fun _ _ => ?_
    split
    · exact Stmt.evalAll_clear calls consequence first Value.isClear_null
    · exact Stmt.evalAll_clear calls alternative second Value.isClear_null
  | .function _ _, clear => by
    rw [Expr.eval]
    exact .bind .freshIdentity fun _ _ => .value (Value.isClear_function.mpr (Expr.isClear_function.mp clear))
  | .call function arguments, clear => by
    obtain ⟨first, others⟩ := Expr.isClear_call.mp clear
    rw [Expr.eval]
    refine .unlessDone (function.eval_clear calls first) fun _ called => ?_
    refine (Expr.evalAll_clear calls arguments others).bind fun values given => ?_
    cases values with
    | error signal => exact .value given
    | ok values => exact calls called given
  | .array elements, clear => by
    rw [Expr.eval]
    refine (Expr.evalAll_clear calls elements (Expr.isClear_array.mp clear)).bind fun values given => ?_
    cases values with
    | error signal => exact .value given
    | ok values => exact .freshArray given
  | .index collection position, clear => by
    obtain ⟨first, second⟩ := Expr.isClear_index.mp clear
    rw [Expr.eval]
    refine .unlessDone (collection.eval_clear calls first) fun _ held => ?_
    exact .unlessDone (position.eval_clear calls second) fun place _ => .value (Value.elementAt_clear held place)

theorem Expr.evalAll_clear (calls : invoke.Clear) :
    (exprs : List Expr) → (∀ expr ∈ exprs, expr.IsClear) → (Expr.evalAll invoke scope exprs).Clear AllValuesClear
  | [], _ => by
    rw [Expr.evalAll]
    exact .value (List.forall_mem_nil _)
  | expr :: exprs, clear => by
    obtain ⟨first, others⟩ := List.forall_mem_cons.mp clear
    rw [Expr.evalAll]
    refine (expr.eval_clear calls first).unlessSignal (fun _ held => held) fun _ held => ?_
    refine (Expr.evalAll_clear calls exprs others).bind fun values given => ?_
    cases values with
    | error signal => exact .value given
    | ok values => exact .value (List.forall_mem_cons.mpr ⟨held, given⟩)

theorem Stmt.eval_clear (calls : invoke.Clear) : (stmt : Stmt) → stmt.IsClear → (stmt.eval invoke scope).Clear Value.IsClear
  | .bind name value, clear => by
    rw [Stmt.eval]
    refine .unlessDone (value.eval_clear calls (Stmt.isClear_bind.mp clear).2) fun _ held => ?_
    exact (Run.Clear.define scope name held).bind fun _ _ => .value Value.isClear_null
  | .leave, _ => by
    rw [Stmt.eval]
    exact .value (Value.isClear_returned.mpr Value.isClear_null)
  | .leaveWith value, clear => by
    rw [Stmt.eval]
    refine .unlessDone (value.eval_clear calls (Stmt.isClear_leaveWith.mp clear)) fun _ held => ?_
    exact .value (Value.isClear_returned.mpr held)
  | .expr value, clear => by
    rw [Stmt.eval]
    exact value.eval_clear calls clear
  | .block statements, clear => by
    rw [Stmt.eval]
    exact Stmt.evalAll_clear calls statements (Stmt.isClear_block.mp clear) Value.isClear_null

theorem Stmt.evalAll_clear (calls : invoke.Clear) : (stmts : List Stmt) → {result : Value} →
    (∀ stmt ∈ stmts, stmt.IsClear) → result.IsClear → (Stmt.evalAll invoke scope result stmts).Clear Value.IsClear
  | [], _, _, held => by
    rw [Stmt.evalAll]
    exact .value held
  | stmt :: stmts, _, clear, _ => by
    obtain ⟨first, others⟩ := List.forall_mem_cons.mp clear
    rw [Stmt.evalAll]
    exact .unlessDone (stmt.eval_clear calls first) fun _ held => Stmt.evalAll_clear calls stmts others held

end

end

theorem Value.call_clear {runBody : ScopeId → List (String × Value) → List Stmt → Run Value}
    (bodies : ∀ captured {bindings body}, (∀ binding ∈ bindings, binding.2.IsClear) → (∀ stmt ∈ body, stmt.IsClear) →
      (runBody captured bindings body).Clear Value.IsClear) : Invoke.Clear (Value.call runBody) := by
  intro callee arguments called given
  cases callee with
  | builtin which => exact which.apply_clear given
  | function identity parameters body captured =>
    simp only [Value.call]
    split
    · refine bodies captured (fun binding member => ?_) (Value.isClear_function.mp called).2
      exact given binding.2 (List.of_mem_zip member).2
    · exact .value (Value.isClear_fault trivial)
  | _ => exact .value (Value.isClear_fault trivial)

/-- The induction is on how many calls may be inside each other. -/
theorem invoke_clear : (depth : Nat) → Invoke.Clear (invoke depth)
  | 0 => Value.call_clear fun _ _ _ _ _ => .value (@Value.isClear_fault .callsTooDeep trivial)
  | depth + 1 => by
    refine Value.call_clear fun captured _ _ given clear => ?_
    refine (Run.Clear.enclose captured).bind fun scope _ => (Run.Clear.defineAll scope given).bind fun _ _ => ?_
    exact (Stmt.evalAll_clear (invoke_clear depth) _ clear Value.isClear_null).bind fun _ held => .value held.unwrap

theorem World.initial_clear (host : Host) : (World.initial host).IsClear :=
  ⟨(Heap.empty_everywhere _).enclose none, by simp [World.initial]⟩

/-- A clear program has a clear value and prints clear lines, whatever clear values the scopes hold. -/
theorem Program.evaluate?_clear {program : Program} (clear : ∀ stmt ∈ program.statements, stmt.IsClear) {limit : Int}
    {scope : ScopeId} {world after : World} {value : Value} (given : world.IsClear)
    (ran : program.evaluate? limit scope world = some (value, after)) : value.IsClear ∧ after.IsClear := by
  obtain ⟨depth, -, ended⟩ := Option.map_eq_some_iff.mp ran
  have kept : ((Node.program program).eval depth scope).Clear Value.IsClear :=
    (Stmt.evalAll_clear (invoke_clear depth) program.statements clear Value.isClear_null).bind fun _ held => .value held.unwrap
  obtain ⟨held, left⟩ := kept world given
  change ((Node.program program).eval depth scope) world = (value, after) at ended
  rw [ended] at held left
  exact ⟨held, left⟩

end Treewalk
