import Mathlib.Order.Basic
import Treewalk.Proofs.ScopeLaws
import Treewalk.Proofs.ValueParts

/-! What evaluation keeps up, in one world or in two worlds in which it goes the same way. What is known of objects may grow
as evaluation goes on; it grows in stages. If the primitive steps keep it up, then so does the evaluation of all code that
conforms, whichever calls it makes. -/

namespace Treewalk

section

variable (names : String → Prop) (functions : List String → List Stmt → Prop)

mutual

/-- Every name and every function that is written in the code is of the kind allowed. -/
def Expr.Conforms : Expr → Prop
  | .name name => names name
  | .integer _ | .string _ | .boolean _ => True
  | .unary _ operand => operand.Conforms
  | .binary left _ right => left.Conforms ∧ right.Conforms
  | .assign name value => names name ∧ value.Conforms
  | .ifThen condition consequence => condition.Conforms ∧ Stmt.AllConform consequence
  | .ifElse condition consequence alternative =>
    condition.Conforms ∧ Stmt.AllConform consequence ∧ Stmt.AllConform alternative
  | .function parameters body => functions parameters body ∧ (∀ name ∈ parameters, names name) ∧ Stmt.AllConform body
  | .call function arguments => function.Conforms ∧ Expr.AllConform arguments
  | .array elements => Expr.AllConform elements
  | .index collection position => collection.Conforms ∧ position.Conforms

def Expr.AllConform : List Expr → Prop
  | [] => True
  | expr :: exprs => expr.Conforms ∧ Expr.AllConform exprs

def Stmt.Conforms : Stmt → Prop
  | .bind name value => names name ∧ value.Conforms
  | .leave => True
  | .leaveWith value | .expr value => value.Conforms
  | .block statements => Stmt.AllConform statements

def Stmt.AllConform : List Stmt → Prop
  | [] => True
  | stmt :: stmts => stmt.Conforms ∧ Stmt.AllConform stmts

end

def Node.Conforms : Node → Prop
  | .program whole => Stmt.AllConform names functions whole.statements
  | .stmt part => part.Conforms names functions
  | .expr part => part.Conforms names functions

end

/-- The one stage of what is known once and for all. -/
inductive OneStage where
  | only

instance : Preorder OneStage where
  le _ _ := True
  le_refl _ := trivial
  le_trans _ _ _ _ _ := trivial

/-- The worlds that are kept side by side, what is known of the objects in reach, and the scopes and the code in reach. -/
structure Upkeep (Stage : Type) [Preorder Stage] where
  worlds : Stage → World → World → Prop
  objects : Stage → Value → Prop
  scopes : ScopeId → Prop
  names : String → Prop
  functions : List String → List Stmt → Prop

variable {Stage : Type} [Preorder Stage] {care : Upkeep Stage} {stage : Stage}

abbrev Upkeep.values (care : Upkeep Stage) (stage : Stage) : Value → Prop := Value.Throughout (care.objects stage)

/-- From this stage on the computation answers the same in worlds that are side by side, and leaves such worlds. -/
def Run.Keeps {α : Type} (care : Upkeep Stage) (stage : Stage) (answers : Stage → α → Prop) (run : Run α) : Prop :=
  ∀ now world other, stage ≤ now → care.worlds now world other →
    (run other).1 = (run world).1 ∧
      ∃ later, now ≤ later ∧ care.worlds later (run world).2 (run other).2 ∧ answers later (run world).1

/-- The primitive steps keep everything up, and functions in reach have everything in reach that calls of them need.
Worlds side by side have one host. -/
structure Upkeep.Lawful (care : Upkeep Stage) : Prop where
  host : ∀ {stage world other}, care.worlds stage world other → other.host = world.host
  mono : ∀ {stage later object}, stage ≤ later → care.objects stage object → care.objects later object
  opens : ∀ {stage identity parameters body scope}, care.objects stage (.function identity parameters body scope) →
    care.scopes scope ∧ (∀ name ∈ parameters, care.names name) ∧ Stmt.AllConform care.names care.functions body
  lookup : ∀ {stage scope name}, care.scopes scope → care.names name → (Run.lookup scope name).Keeps care stage care.values
  define : ∀ {stage scope name value}, care.scopes scope → care.names name → care.values stage value →
    (Run.define scope name value).Keeps care stage fun _ _ => True
  assign : ∀ {stage scope name value}, care.scopes scope → care.names name → care.values stage value →
    (Run.assign scope name value).Keeps care stage care.values
  enclose : ∀ {stage scope}, care.scopes scope → (Run.enclose scope).Keeps care stage fun _ => care.scopes
  print : ∀ {stage} line, (Run.print line).Keeps care stage fun _ _ => True
  array : ∀ {stage elements}, (∀ element ∈ elements, care.values stage element) →
    (Run.freshArray elements).Keeps care stage care.values
  function : ∀ {stage scope parameters body}, care.scopes scope →
    (Expr.function parameters body).Conforms care.names care.functions →
    (do return .function (← Run.freshIdentity) parameters body scope : Run Value).Keeps care stage care.values

namespace Run.Keeps

variable {α β : Type} {between : Stage → α → Prop} {answers : Stage → β → Prop}

theorem value {value : β} (answer : ∀ later, stage ≤ later → answers later value) :
    (pure value : Run β).Keeps care stage answers :=
  fun now _ _ since worlds => ⟨rfl, now, le_refl now, worlds, answer now since⟩

/-- What comes second comes at a stage that may be a later one. -/
theorem bind {first : Run α} {next : α → Run β} (head : first.Keeps care stage between)
    (tail : ∀ later value, stage ≤ later → between later value → (next value).Keeps care later answers) :
    (first >>= next).Keeps care stage answers := by
  intro now world other since worlds
  obtain ⟨same, later, further, kept, answer⟩ := head now world other since worlds
  obtain ⟨same', last, further', kept', answer'⟩ :=
    tail later _ (since.trans further) answer later _ _ (le_refl later) kept
  rw [Run.bind_apply, Run.bind_apply, same]
  exact ⟨same', last, further.trans further', kept', answer'⟩

theorem unlessSignal {first : Run Value} {next : Value → Run β} {skip : Value → β}
    (head : first.Keeps care stage care.values)
    (skips : ∀ later value, care.values later value → answers later (skip value))
    (tail : ∀ later value, stage ≤ later → care.values later value → (next value).Keeps care later answers)
    (laws : care.Lawful) :
    (first >>= fun value => if value.isSignal then pure (skip value) else next value).Keeps care stage answers := by
  refine head.bind fun later value further given => ?_
  split
  · exact .value fun last further => skips last value (given.mono fun _ => laws.mono further)
  · exact tail later value further given

end Run.Keeps

namespace Upkeep.Lawful

variable (laws : care.Lawful)

include laws

theorem values_mono {later : Stage} {value : Value} (further : stage ≤ later) (given : care.values stage value) :
    care.values later value :=
  given.mono fun _ => laws.mono further

theorem answer {value : Value} (given : care.values stage value) : (pure value : Run Value).Keeps care stage care.values :=
  .value fun _ further => laws.values_mono further given

theorem plain {value : Value} (plain : value.Plain) : (pure value : Run Value).Keeps care stage care.values :=
  laws.answer (.plain plain)

/-- Of most constructs a signal is the answer as it is. -/
theorem unlessDone {first : Run Value} {next : Value → Run Value} (head : first.Keeps care stage care.values)
    (tail : ∀ later value, stage ≤ later → care.values later value → (next value).Keeps care later care.values) :
    (first >>= fun value => if value.isSignal then pure value else next value).Keeps care stage care.values :=
  head.unlessSignal (fun _ _ given => given) tail laws

theorem unwrapped {run : Run Value} (body : run.Keeps care stage care.values) :
    (do return (← run).unwrap : Run Value).Keeps care stage care.values :=
  body.bind fun _ _ _ given => laws.answer given.unwrap

theorem defineAll {scope : ScopeId} (within : care.scopes scope) {bindings : List (String × Value)}
    (given : ∀ binding ∈ bindings, care.names binding.1 ∧ care.values stage binding.2) :
    (Run.defineAll scope bindings).Keeps care stage fun _ _ => True := by
  induction bindings generalizing stage with
  | nil => exact .value fun _ _ => trivial
  | cons binding bindings ih =>
    obtain ⟨first, others⟩ := List.forall_mem_cons.mp given
    refine (laws.define within first.1 first.2).bind fun later _ further _ => ih fun binding member => ?_
    exact (others binding member).imp_right (laws.values_mono further)

theorem byteLength (text : String) : (Run.byteLength text).Keeps care stage care.values := by
  refine fun now world other _ worlds => ⟨?_, now, le_refl now, worlds, .plain ?_⟩
  · rw [Run.byteLength, Run.byteLength, laws.host worlds]
  · exact world.host.byteLength_rule .integer fun _ => .error

theorem builtin (which : Builtin) {arguments : List Value} (given : ∀ argument ∈ arguments, care.values stage argument) :
    (which.apply arguments).Keeps care stage care.values := by
  have comes := which.apply_comesTo arguments
  generalize which.apply arguments = run at comes ⊢
  cases comes with
  | plain plain => exact laws.plain plain
  | measured text => exact laws.byteLength text
  | printed line => exact (laws.print line).bind fun _ _ _ _ => laws.plain .null
  | part member held => exact laws.answer ((given _ member).part held)
  | made parts =>
    refine laws.array fun element member => ?_
    obtain ⟨argument, member, held⟩ := parts element member
    exact (given argument member).part held

end Upkeep.Lawful

/-- What is known of evaluated arguments, or of the signal in place of them. -/
def Upkeep.allValues (care : Upkeep Stage) (stage : Stage) : Except Value (List Value) → Prop
  | .error signal => care.values stage signal
  | .ok values => ∀ value ∈ values, care.values stage value

def Invoke.Keeps (care : Upkeep Stage) (invoke : Invoke) : Prop :=
  ∀ {stage callee arguments}, care.values stage callee → (∀ argument ∈ arguments, care.values stage argument) →
    (invoke callee arguments).Keeps care stage care.values

section

variable {invoke : Invoke} {scope : ScopeId}

mutual

theorem Expr.eval_keeps (laws : care.Lawful) (calls : invoke.Keeps care) (within : care.scopes scope) :
    (expr : Expr) → {stage : Stage} → expr.Conforms care.names care.functions →
      (expr.eval invoke scope).Keeps care stage care.values
  | .name name, _, conforms => by
    rw [Expr.eval]
    exact laws.lookup within conforms
  | .integer _, _, _ => by
    rw [Expr.eval]
    exact laws.plain .integer
  | .string _, _, _ => by
    rw [Expr.eval]
    exact laws.plain .string
  | .boolean _, _, _ => by
    rw [Expr.eval]
    exact laws.plain .boolean
  | .unary op operand, _, conforms => by
    rw [Expr.eval]
    exact laws.unlessDone (operand.eval_keeps laws calls within conforms) fun _ value _ _ => laws.plain (op.apply_plain value)
  | .binary left op right, _, conforms => by
    rw [Expr.eval]
    refine laws.unlessDone (left.eval_keeps laws calls within conforms.1) fun _ first _ _ => ?_
    refine laws.unlessDone (right.eval_keeps laws calls within conforms.2) fun _ second _ _ => ?_
    exact laws.plain (op.apply_plain first second)
  | .assign name value, _, conforms => by
    rw [Expr.eval]
    exact laws.unlessDone (value.eval_keeps laws calls within conforms.2) fun _ _ _ given =>
      laws.assign within conforms.1 given
  | .ifThen condition consequence, _, conforms => by
    rw [Expr.eval]
    refine laws.unlessDone (condition.eval_keeps laws calls within conforms.1) fun _ test _ _ => ?_
    split
    · exact Stmt.evalAll_keeps laws calls within consequence conforms.2 (.plain .null)
    · exact laws.plain .null
  | .ifElse condition consequence alternative, _, conforms => by
    rw [Expr.eval]
    refine laws.unlessDone (condition.eval_keeps laws calls within conforms.1) fun _ test _ _ => ?_
    split
    · exact Stmt.evalAll_keeps laws calls within consequence conforms.2.1 (.plain .null)
    · exact Stmt.evalAll_keeps laws calls within alternative conforms.2.2 (.plain .null)
  | .function _ _, _, conforms => by
    rw [Expr.eval]
    exact laws.function within conforms
  | .call function arguments, _, conforms => by
    rw [Expr.eval]
    refine laws.unlessDone (function.eval_keeps laws calls within conforms.1) fun _ callee _ called => ?_
    refine (Expr.evalAll_keeps laws calls within arguments conforms.2).bind fun _ values further given => ?_
    cases values with
    | error signal => exact laws.answer given
    | ok values => exact calls (laws.values_mono further called) given
  | .array elements, _, conforms => by
    rw [Expr.eval]
    refine (Expr.evalAll_keeps laws calls within elements conforms).bind fun _ values _ given => ?_
    cases values with
    | error signal => exact laws.answer given
    | ok values => exact laws.array given
  | .index collection position, _, conforms => by
    rw [Expr.eval]
    refine laws.unlessDone (collection.eval_keeps laws calls within conforms.1) fun _ whole _ given => ?_
    refine laws.unlessDone (position.eval_keeps laws calls within conforms.2) fun _ place further _ => ?_
    exact laws.answer ((laws.values_mono further given).elementAt place)

theorem Expr.evalAll_keeps (laws : care.Lawful) (calls : invoke.Keeps care) (within : care.scopes scope) :
    (exprs : List Expr) → {stage : Stage} → Expr.AllConform care.names care.functions exprs →
      (Expr.evalAll invoke scope exprs).Keeps care stage care.allValues
  | [], _, _ => by
    rw [Expr.evalAll]
    exact .value fun _ _ => List.forall_mem_nil _
  | expr :: exprs, _, conforms => by
    rw [Expr.evalAll]
    refine (expr.eval_keeps laws calls within conforms.1).unlessSignal (fun _ _ given => given) (fun _ value _ first => ?_) laws
    refine (Expr.evalAll_keeps laws calls within exprs conforms.2).bind fun _ values further others => ?_
    cases values with
    | error signal => exact .value fun _ more => laws.values_mono more others
    | ok values =>
      refine .value fun _ more => List.forall_mem_cons.mpr ⟨laws.values_mono (further.trans more) first, ?_⟩
      exact fun value member => laws.values_mono more (others value member)

theorem Stmt.eval_keeps (laws : care.Lawful) (calls : invoke.Keeps care) (within : care.scopes scope) :
    (stmt : Stmt) → {stage : Stage} → stmt.Conforms care.names care.functions →
      (stmt.eval invoke scope).Keeps care stage care.values
  | .bind name value, _, conforms => by
    rw [Stmt.eval]
    refine laws.unlessDone (value.eval_keeps laws calls within conforms.2) fun _ _ _ given => ?_
    exact (laws.define within conforms.1 given).bind fun _ _ _ _ => laws.plain .null
  | .leave, _, _ => by
    rw [Stmt.eval]
    exact laws.answer (.returned (.plain .null))
  | .leaveWith value, _, conforms => by
    rw [Stmt.eval]
    exact laws.unlessDone (value.eval_keeps laws calls within conforms) fun _ _ _ given => laws.answer given.returned
  | .expr value, _, conforms => by
    rw [Stmt.eval]
    exact value.eval_keeps laws calls within conforms
  | .block statements, _, conforms => by
    rw [Stmt.eval]
    exact Stmt.evalAll_keeps laws calls within statements conforms (.plain .null)

theorem Stmt.evalAll_keeps (laws : care.Lawful) (calls : invoke.Keeps care) (within : care.scopes scope) :
    (stmts : List Stmt) → {stage : Stage} → {result : Value} → Stmt.AllConform care.names care.functions stmts →
      care.values stage result → (Stmt.evalAll invoke scope result stmts).Keeps care stage care.values
  | [], _, _, _, given => by
    rw [Stmt.evalAll]
    exact laws.answer given
  | stmt :: stmts, _, _, conforms, _ => by
    rw [Stmt.evalAll]
    exact laws.unlessDone (stmt.eval_keeps laws calls within conforms.1) fun _ _ _ last =>
      Stmt.evalAll_keeps laws calls within stmts conforms.2 last

end

end

theorem Value.call_keeps (laws : care.Lawful) {runBody : ScopeId → List (String × Value) → List Stmt → Run Value}
    (bodies : ∀ {stage captured bindings body}, care.scopes captured → Stmt.AllConform care.names care.functions body →
      (∀ binding ∈ bindings, care.names binding.1 ∧ care.values stage binding.2) →
      (runBody captured bindings body).Keeps care stage care.values) : Invoke.Keeps care (Value.call runBody) := by
  intro stage callee arguments called given
  cases callee with
  | builtin which => exact laws.builtin which given
  | function identity parameters body captured =>
    obtain ⟨within, named, conforms⟩ := laws.opens (called.itself rfl)
    simp only [Value.call]
    split
    · refine bodies within conforms fun binding member => ?_
      exact ⟨named binding.1 (List.of_mem_zip member).1, given binding.2 (List.of_mem_zip member).2⟩
    · exact laws.plain .error
  | _ => exact laws.plain .error

/-- The induction is on how many calls may be inside each other. -/
theorem invoke_keeps (laws : care.Lawful) : (depth : Nat) → Invoke.Keeps care (invoke depth)
  | 0 => Value.call_keeps laws fun _ _ _ => laws.plain .error
  | depth + 1 => by
    refine Value.call_keeps laws fun captured conforms given => ?_
    refine (laws.enclose captured).bind fun later scope further within => ?_
    refine (laws.defineAll within fun binding member => (given binding member).imp_right (laws.values_mono further)).bind
      fun last _ _ _ => ?_
    exact laws.unwrapped (Stmt.evalAll_keeps laws (invoke_keeps laws depth) within _ conforms (.plain .null))

theorem Node.eval_keeps (laws : care.Lawful) (depth : Nat) {scope : ScopeId} (within : care.scopes scope) :
    (node : Node) → node.Conforms care.names care.functions → (node.eval depth scope).Keeps care stage care.values
  | .program whole, conforms =>
    laws.unwrapped (Stmt.evalAll_keeps laws (invoke_keeps laws depth) within whole.statements conforms (.plain .null))
  | .stmt part, conforms => part.eval_keeps laws (invoke_keeps laws depth) within conforms
  | .expr part, conforms => part.eval_keeps laws (invoke_keeps laws depth) within conforms

/-! ### A single world -/

section

variable {names : String → Prop} {functions : List String → List Stmt → Prop}

mutual

theorem Expr.conforms_of_forall (allNames : ∀ name, names name) (allFunctions : ∀ parameters body, functions parameters body) :
    (expr : Expr) → expr.Conforms names functions
  | .name name => allNames name
  | .integer _ | .string _ | .boolean _ => trivial
  | .unary _ operand => operand.conforms_of_forall allNames allFunctions
  | .binary left _ right => ⟨left.conforms_of_forall allNames allFunctions, right.conforms_of_forall allNames allFunctions⟩
  | .assign name value => ⟨allNames name, value.conforms_of_forall allNames allFunctions⟩
  | .ifThen condition consequence =>
    ⟨condition.conforms_of_forall allNames allFunctions, Stmt.allConform_of_forall allNames allFunctions consequence⟩
  | .ifElse condition consequence alternative =>
    ⟨condition.conforms_of_forall allNames allFunctions, Stmt.allConform_of_forall allNames allFunctions consequence,
      Stmt.allConform_of_forall allNames allFunctions alternative⟩
  | .function parameters body =>
    ⟨allFunctions parameters body, fun name _ => allNames name, Stmt.allConform_of_forall allNames allFunctions body⟩
  | .call function arguments =>
    ⟨function.conforms_of_forall allNames allFunctions, Expr.allConform_of_forall allNames allFunctions arguments⟩
  | .array elements => Expr.allConform_of_forall allNames allFunctions elements
  | .index collection position =>
    ⟨collection.conforms_of_forall allNames allFunctions, position.conforms_of_forall allNames allFunctions⟩

theorem Expr.allConform_of_forall (allNames : ∀ name, names name) (allFunctions : ∀ parameters body, functions parameters body) :
    (exprs : List Expr) → Expr.AllConform names functions exprs
  | [] => trivial
  | expr :: exprs => ⟨expr.conforms_of_forall allNames allFunctions, Expr.allConform_of_forall allNames allFunctions exprs⟩

theorem Stmt.conforms_of_forall (allNames : ∀ name, names name) (allFunctions : ∀ parameters body, functions parameters body) :
    (stmt : Stmt) → stmt.Conforms names functions
  | .bind name value => ⟨allNames name, value.conforms_of_forall allNames allFunctions⟩
  | .leave => trivial
  | .leaveWith value | .expr value => value.conforms_of_forall allNames allFunctions
  | .block statements => Stmt.allConform_of_forall allNames allFunctions statements

theorem Stmt.allConform_of_forall (allNames : ∀ name, names name) (allFunctions : ∀ parameters body, functions parameters body) :
    (stmts : List Stmt) → Stmt.AllConform names functions stmts
  | [] => trivial
  | stmt :: stmts => ⟨stmt.conforms_of_forall allNames allFunctions, Stmt.allConform_of_forall allNames allFunctions stmts⟩

end

theorem Node.conforms_of_forall (allNames : ∀ name, names name) (allFunctions : ∀ parameters body, functions parameters body) :
    (node : Node) → node.Conforms names functions
  | .program whole => Stmt.allConform_of_forall allNames allFunctions whole.statements
  | .stmt part => part.conforms_of_forall allNames allFunctions
  | .expr part => part.conforms_of_forall allNames allFunctions

end

/-- What is kept up in one world alone: the objects that are bound in it are known of, and the stage is right for the identity
that it hands out next. -/
def Upkeep.single (clock : Stage → Identity → Prop) (objects : Stage → Value → Prop)
    (functions : List String → List Stmt → Prop) : Upkeep Stage where
  worlds stage world other :=
    world = other ∧ world.heap.Everywhere (Value.Throughout (objects stage)) ∧ clock stage world.nextIdentity
  objects := objects
  scopes _ := True
  names _ := True
  functions := functions

section

variable {clock : Stage → Identity → Prop} {objects : Stage → Value → Prop} {functions : List String → List Stmt → Prop}

/-- A step that makes an object moves on to a stage at which the object is known of. -/
theorem Upkeep.single_makes (mono : ∀ stage later object, stage ≤ later → objects stage object → objects later object)
    (make : Identity → Value) (makes : ∀ now, stage ≤ now → ∀ identity, clock now identity →
      ∃ later, now ≤ later ∧ clock later (identity + 1) ∧ (make identity).Throughout (objects later)) :
    (do return make (← Run.freshIdentity) : Run Value).Keeps (single clock objects functions) stage
      (single clock objects functions).values := by
  rintro now world _ since ⟨rfl, bound, ticks⟩
  obtain ⟨later, further, ticks, made⟩ := makes now since world.nextIdentity ticks
  exact ⟨rfl, later, further, ⟨rfl, bound.mono fun _ known => known.mono fun _ => mono _ _ _ further, ticks⟩, made⟩

theorem Upkeep.single_lawful (mono : ∀ stage later object, stage ≤ later → objects stage object → objects later object)
    (opens : ∀ {stage identity parameters body scope}, objects stage (.function identity parameters body scope) →
      Stmt.AllConform (fun _ => True) functions body)
    (array : ∀ {now identity elements}, clock now identity → (∀ element ∈ elements, element.Throughout (objects now)) →
      ∃ later, now ≤ later ∧ clock later (identity + 1) ∧ objects later (.array identity elements))
    (function : ∀ {now identity parameters body} scope, clock now identity → functions parameters body →
      Stmt.AllConform (fun _ => True) functions body →
      ∃ later, now ≤ later ∧ clock later (identity + 1) ∧ objects later (.function identity parameters body scope)) :
    (single clock objects functions).Lawful where
  host := by
    rintro stage world _ ⟨rfl, -⟩
    rfl
  mono := mono _ _ _
  opens known := ⟨trivial, fun _ _ => trivial, opens known⟩
  lookup {stage scope name} _ _ := by
    rintro now world _ - ⟨rfl, bound, ticks⟩
    refine ⟨rfl, now, le_refl now, ⟨rfl, bound, ticks⟩, ?_⟩
    simp only [Run.lookup]
    split
    next found => exact bound.get? found
    next =>
      split
      · exact .plain .builtin
      · exact .plain .error
  define {stage scope name value} _ _ known := by
    rintro now world _ since ⟨rfl, bound, ticks⟩
    have known := known.mono fun _ => mono _ _ _ since
    exact ⟨rfl, now, le_refl now, ⟨rfl, bound.define scope name known, ticks⟩, trivial⟩
  assign {stage scope name value} _ _ known := by
    rintro now world _ since ⟨rfl, bound, ticks⟩
    have known := known.mono fun _ => mono _ _ _ since
    refine ⟨rfl, now, le_refl now, ?_⟩
    simp only [Run.assign]
    split
    next heap assigned => exact ⟨⟨rfl, bound.assign? known assigned, ticks⟩, known⟩
    next => exact ⟨⟨rfl, bound, ticks⟩, .plain .error⟩
  enclose {stage outer} _ := by
    rintro now world _ - ⟨rfl, bound, ticks⟩
    exact ⟨rfl, now, le_refl now, ⟨rfl, bound.enclose (some outer), ticks⟩, trivial⟩
  print line := by
    rintro now world _ - ⟨rfl, bound, ticks⟩
    exact ⟨rfl, now, le_refl now, ⟨rfl, bound, ticks⟩, trivial⟩
  array {stage elements} known := by
    refine single_makes mono (Value.array · elements) fun now since identity ticks => ?_
    have known (element : Value) (member : element ∈ elements) := (known element member).mono fun _ => mono _ _ _ since
    obtain ⟨later, further, ticks, made⟩ := array ticks known
    exact ⟨later, further, ticks, .array made fun element member => (known element member).mono fun _ => mono _ _ _ further⟩
  function {stage scope parameters body} _ conforms := by
    refine single_makes mono (Value.function · parameters body scope) fun now _ identity ticks => ?_
    obtain ⟨later, further, ticks, made⟩ := function scope ticks conforms.1 conforms.2.2
    exact ⟨later, further, ticks, .function made⟩

end

end Treewalk
