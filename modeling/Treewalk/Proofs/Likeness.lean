import Mathlib.Data.List.Forall2
import Treewalk.Evaluation

/-! Two runs side by side. Worlds, scopes and identities of one are related to those of the other; values are alike when they
differ in identities and captured scopes only. If the primitive steps keep worlds alike and answer alike, then so do two
evaluations of the same syntax, whichever calls they make. -/

namespace Treewalk

/-- Which numbers of the one run stand for which of the other. -/
structure Matching where
  scopes : ScopeId → ScopeId → Prop
  identities : Identity → Identity → Prop

/-- Objects that stand for each other are one and the same in both runs or in none. -/
def Matching.Unmixed (matching : Matching) : Prop :=
  ∀ {first second first' second'}, matching.identities first first' → matching.identities second second' →
    (first = second ↔ first' = second')

/-- Values that hold nothing of the world they were made in. -/
inductive Value.Plain : Value → Prop where
  | integer : Plain (.integer value)
  | string : Plain (.string text)
  | boolean : Plain (.boolean value)
  | null : Plain .null
  | builtin : Plain (.builtin which)
  | error : Plain (.error fault)

inductive Value.Alike (matching : Matching) : Value → Value → Prop where
  | plain (plain : value.Plain) : Alike matching value value
  | array (same : matching.identities identity identity') (elements : List.Forall₂ (Alike matching) values values') :
    Alike matching (.array identity values) (.array identity' values')
  | function (same : matching.identities identity identity') (captured : matching.scopes scope scope') :
    Alike matching (.function identity parameters body scope) (.function identity' parameters body scope')
  | returned (inner : Alike matching value value') : Alike matching (.returned value) (.returned value')

/-- What of the one run belongs to what of the other. -/
structure Likeness extends Matching where
  worlds : World → World → Prop

abbrev Likeness.values (like : Likeness) : Value → Value → Prop := Value.Alike like.toMatching

/-- From worlds that are alike the runs end in worlds that are alike, with answers that are related. -/
def Run.Alike {α β : Type} (like : Likeness) (answers : α → β → Prop) (first : Run α) (second : Run β) : Prop :=
  ∀ world world', like.worlds world world' →
    answers (first world).1 (second world').1 ∧ like.worlds (first world).2 (second world').2

abbrev Run.AlikeValue (like : Likeness) : Run Value → Run Value → Prop := Run.Alike like like.values

/-- The runs have one host, and the primitive steps keep what belongs together together. -/
structure Likeness.Lawful (like : Likeness) : Prop where
  unmixed : like.Unmixed
  host : ∀ {world world'}, like.worlds world world' → world.host = world'.host
  fresh : Run.Alike like like.identities Run.freshIdentity Run.freshIdentity
  print : ∀ line, Run.Alike like (fun _ _ => True) (Run.print line) (Run.print line)
  lookup : ∀ {scope scope'} name, like.scopes scope scope' →
    Run.AlikeValue like (Run.lookup scope name) (Run.lookup scope' name)
  define : ∀ {scope scope' value value'} name, like.scopes scope scope' → like.values value value' →
    Run.Alike like (fun _ _ => True) (Run.define scope name value) (Run.define scope' name value')
  assign : ∀ {scope scope' value value'} name, like.scopes scope scope' → like.values value value' →
    Run.AlikeValue like (Run.assign scope name value) (Run.assign scope' name value')
  enclose : ∀ {scope scope'}, like.scopes scope scope' → Run.Alike like like.scopes (Run.enclose scope) (Run.enclose scope')

variable {matching : Matching} {like : Likeness}

/-! ### Values -/

theorem UnaryOp.apply_plain (op : UnaryOp) (operand : Value) : (op.apply operand).Plain := by
  unfold apply
  split <;> constructor

theorem BinaryOp.apply_plain (op : BinaryOp) (first second : Value) : (op.apply first second).Plain := by
  unfold apply applyGiven
  split
  · cases op <;> simp only [applyIntegers]
    case divide | power => split <;> constructor
    all_goals constructor
  · split
    · exact .error
    · split <;> constructor

namespace Value.Alike

variable {first second first' second' : Value}

theorem kind_eq (alike : first.Alike matching second) : first.kind = second.kind := by
  cases alike <;> rfl

theorem isSignal_eq (alike : first.Alike matching second) : first.isSignal = second.isSignal := by
  cases alike <;> rfl

theorem isTruthy_eq (alike : first.Alike matching second) : first.isTruthy = second.isTruthy := by
  cases alike <;> rfl

theorem unwrap (alike : first.Alike matching second) : first.unwrap.Alike matching second.unwrap := by
  cases alike with
  | plain plain => cases plain <;> exact .plain (by constructor)
  | array same elements => exact .array same elements
  | function same captured => exact .function same captured
  | returned inner => exact inner

theorem error_iff (alike : first.Alike matching second) (fault : Fault) : first = .error fault ↔ second = .error fault := by
  cases alike with
  | plain _ => exact Iff.rfl
  | _ => exact iff_of_false nofun nofun

theorem identical_eq (unmixed : matching.Unmixed) (alike : first.Alike matching first') (alike' : second.Alike matching second') :
    first.identical second = first'.identical second' := by
  cases alike with
  | plain plain => cases plain <;> cases alike' <;> rfl
  | returned _ => rfl
  | array same elements =>
    cases alike' with
    | array same' elements' => exact Bool.eq_iff_iff.mpr (by simpa [identical] using unmixed same same')
    | plain plain => cases plain <;> rfl
    | _ => rfl
  | function same captured =>
    cases alike' with
    | function same' captured' => exact Bool.eq_iff_iff.mpr (by simpa [identical] using unmixed same same')
    | plain plain => cases plain <;> rfl
    | _ => rfl

mutual

theorem inspect_eq : {first : Value} → {second : Value} → first.Alike matching second → first.inspect = second.inspect
  | .integer _, _, alike | .string _, _, alike | .boolean _, _, alike | .null, _, alike | .builtin _, _, alike
  | .error _, _, alike => by
    cases alike
    rfl
  | .array _ values, _, alike => by
    cases alike with
    | plain plain => cases plain
    | array _ elements => rw [inspect, inspect, inspectAll_eq elements]
  | .function _ _ _ _, _, alike => by
    cases alike with
    | plain plain => cases plain
    | function _ _ => rfl
  | .returned value, _, alike => by
    cases alike with
    | plain plain => cases plain
    | returned inner => rw [inspect, inspect, inspect_eq inner]

theorem inspectAll_eq : {values values' : List Value} → List.Forall₂ (Alike matching) values values' →
    inspectAll values = inspectAll values'
  | [], _, alike => by
    cases alike
    rfl
  | value :: values, _, alike => by
    cases alike with
    | cons first rest => rw [inspectAll, inspectAll, inspect_eq first, inspectAll_eq rest]

end

theorem unary (op : UnaryOp) (alike : first.Alike matching second) : (op.apply first).Alike matching (op.apply second) := by
  have same : op.apply first = op.apply second := by
    cases alike with
    | plain _ => rfl
    | _ => cases op <;> rfl
  rw [same]
  exact .plain (op.apply_plain second)

theorem binary (unmixed : matching.Unmixed) (op : BinaryOp) (alike : first.Alike matching first') (alike' : second.Alike matching second') :
    (op.apply first second).Alike matching (op.apply first' second') := by
  have same : op.apply first second = op.apply first' second' := by
    rw [BinaryOp.apply, BinaryOp.apply, alike.identical_eq unmixed alike']
    generalize first'.identical second' = identical
    cases alike with
    | plain plain => cases plain <;> cases alike' <;> rfl
    | _ =>
      cases alike' with
      | plain plain => cases plain <;> rfl
      | _ => first | rfl | cases op <;> rfl
  rw [same]
  exact .plain (op.apply_plain first' second')

end Value.Alike

/-- Elements at one place of lists that are alike. -/
theorem Value.getD_alike {found found' : Option Value} (alike : Option.Rel (Value.Alike matching) found found') :
    (found.getD .null).Alike matching (found'.getD .null) := by
  cases alike with
  | some alike => exact alike
  | none => exact .plain .null

theorem rel_getElem? {α β : Type} {related : α → β → Prop} {values : List α} {values' : List β}
    (all : List.Forall₂ related values values') (place : Nat) : Option.Rel related values[place]? values'[place]? := by
  induction all generalizing place with
  | nil => exact .none
  | cons first _ ih =>
    cases place with
    | zero => exact .some first
    | succ place => exact ih place

theorem rel_head? {α β : Type} {related : α → β → Prop} {values : List α} {values' : List β}
    (all : List.Forall₂ related values values') : Option.Rel related values.head? values'.head? := by
  rw [List.head?_eq_getElem?, List.head?_eq_getElem?]
  exact rel_getElem? all 0

theorem rel_getLast? {α β : Type} {related : α → β → Prop} {values : List α} {values' : List β}
    (all : List.Forall₂ related values values') : Option.Rel related values.getLast? values'.getLast? := by
  rw [List.getLast?_eq_getElem?, List.getLast?_eq_getElem?, all.length_eq]
  exact rel_getElem? all _

theorem Value.Alike.elementAt {first second first' second' : Value} (alike : first.Alike matching first')
    (alike' : second.Alike matching second') : (first.elementAt second).Alike matching (first'.elementAt second') := by
  cases alike with
  | array same elements =>
    cases alike' with
    | plain plain =>
      cases plain with
      | integer =>
        simp only [Value.elementAt]
        split
        · exact Value.getD_alike (rel_getElem? elements _)
        · exact .plain .null
      | _ => exact .plain .error
    | _ => exact .plain .error
  | plain plain =>
    have same : second.kind = second'.kind := alike'.kind_eq
    cases plain <;> simp only [Value.elementAt, same] <;> exact .plain .error
  | _ =>
    have same : second.kind = second'.kind := alike'.kind_eq
    simp only [Value.elementAt, same]
    exact .plain .error

/-! ### Runs -/

namespace Run.Alike

variable {α β γ δ : Type} {answers : α → β → Prop}

theorem value {value : α} {value' : β} (related : answers value value') : Run.Alike like answers (pure value) (pure value') :=
  fun _ _ worlds => ⟨related, worlds⟩

theorem bind {middle : γ → δ → Prop} {first : Run γ} {first' : Run δ} {next : γ → Run α} {next' : δ → Run β}
    (head : Run.Alike like middle first first')
    (tail : ∀ value value', middle value value' → Run.Alike like answers (next value) (next' value')) :
    Run.Alike like answers (first >>= next) (first' >>= next') := by
  intro world world' worlds
  obtain ⟨related, kept⟩ := head world world' worlds
  exact tail _ _ related _ _ kept

/-- The rule for every step that looks for a signal. `skip` and `skip'` are how it hands the signal up. -/
theorem unlessSignal {first first' : Run Value} {next : Value → Run α} {next' : Value → Run β} {skip : Value → α}
    {skip' : Value → β} (head : Run.AlikeValue like first first')
    (hands : ∀ value value', like.values value value' → answers (skip value) (skip' value'))
    (tail : ∀ value value', like.values value value' → Run.Alike like answers (next value) (next' value')) :
    Run.Alike like answers (first >>= fun value => if value.isSignal then pure (skip value) else next value)
      (first' >>= fun value => if value.isSignal then pure (skip' value) else next' value) := by
  refine head.bind fun value value' alike => ?_
  rw [alike.isSignal_eq]
  split
  · exact .value (hands value value' alike)
  · exact tail value value' alike

theorem unwrapped {run run' : Run Value} (body : Run.AlikeValue like run run') :
    Run.AlikeValue like (do return (← run).unwrap) (do return (← run').unwrap) :=
  body.bind fun _ _ alike => .value alike.unwrap

end Run.Alike

/-- Values of expressions in order, or the signal that ended them. -/
inductive EndsAlike (like : Likeness) : Except Value (List Value) → Except Value (List Value) → Prop where
  | error (signal : like.values value value') : EndsAlike like (.error value) (.error value')
  | ok (all : List.Forall₂ like.values values values') : EndsAlike like (.ok values) (.ok values')

namespace Likeness.Lawful

theorem freshArray (laws : like.Lawful) {values values' : List Value} (alike : List.Forall₂ like.values values values') :
    Run.AlikeValue like (Run.freshArray values) (Run.freshArray values') :=
  laws.fresh.bind fun _ _ same => .value (.array same alike)

theorem defineAll (laws : like.Lawful) {scope scope' : ScopeId} (within : like.scopes scope scope') (names : List String)
    {values values' : List Value} (alike : List.Forall₂ like.values values values') :
    Run.Alike like (fun _ _ => True) (Run.defineAll scope (names.zip values)) (Run.defineAll scope' (names.zip values')) := by
  induction alike generalizing names with
  | nil =>
    rw [List.zip_nil_right]
    exact .value trivial
  | cons first _ ih =>
    cases names with
    | nil => exact .value trivial
    | cons name names => exact (laws.define name within first).bind fun _ _ _ => ih names

end Likeness.Lawful

/-! ### Calls of builtins -/

namespace Builtin

theorem onArray_alike (builtin : Builtin) {argument argument' : Value} (alike : like.values argument argument')
    {answer answer' : List Value → Run Value}
    (answers : ∀ values values', List.Forall₂ like.values values values' →
      Run.AlikeValue like (answer values) (answer' values')) :
    Run.AlikeValue like (builtin.onArray argument answer) (builtin.onArray argument' answer') := by
  cases alike with
  | array _ elements => exact answers _ _ elements
  | plain plain => cases plain <;> exact .value (.plain .error)
  | _ => exact .value (.plain .error)

theorem byteLength_alike (laws : like.Lawful) (text : String) :
    Run.AlikeValue like (Run.byteLength text) (Run.byteLength text) := by
  intro world world' worlds
  refine ⟨?_, worlds⟩
  rw [Run.byteLength, Run.byteLength, laws.host worlds]
  exact .plain (world'.host.byteLength_rule .integer fun _ => .error)

theorem len_alike (laws : like.Lawful) {argument argument' : Value} (alike : like.values argument argument') :
    Run.AlikeValue like (len.applyTo [argument]) (len.applyTo [argument']) := by
  cases alike with
  | plain plain =>
    cases plain with
    | string => exact byteLength_alike laws _
    | _ => exact .value (.plain .error)
  | array _ elements =>
    simp only [applyTo, elements.length_eq]
    exact .value (.plain .integer)
  | _ => exact .value (.plain .error)

/-- Builtins of one argument, given one. -/
theorem applyTo_one_alike (laws : like.Lawful) {builtin : Builtin} (takes : builtin.arity = some 1) {argument argument' : Value}
    (alike : like.values argument argument') :
    Run.AlikeValue like (builtin.applyTo [argument]) (builtin.applyTo [argument']) := by
  cases builtin with
  | len => exact len_alike laws alike
  | first => exact onArray_alike _ alike fun _ _ elements => .value (Value.getD_alike (rel_head? elements))
  | last => exact onArray_alike _ alike fun _ _ elements => .value (Value.getD_alike (rel_getLast? elements))
  | rest =>
    refine onArray_alike _ alike fun values values' elements => ?_
    cases elements with
    | nil => exact .value (.plain .null)
    | cons _ others => exact laws.freshArray others
  | push => cases takes
  | print => cases takes

theorem apply_alike (laws : like.Lawful) (builtin : Builtin) {arguments arguments' : List Value}
    (alike : List.Forall₂ like.values arguments arguments') :
    Run.AlikeValue like (builtin.apply arguments) (builtin.apply arguments') := by
  unfold apply
  split
  next arity takes =>
    rw [alike.length_eq]
    split
    next right =>
      cases builtin with
      | push =>
        cases takes
        obtain ⟨argument, value, rfl⟩ := List.length_eq_two.mp right
        cases alike with
        | cons first rest =>
          cases rest with
          | cons second rest =>
            cases rest
            refine onArray_alike _ first fun values values' elements => laws.freshArray ?_
            exact List.rel_append elements (.cons second .nil)
      | print => cases takes
      | _ =>
        cases takes
        obtain ⟨argument, rfl⟩ := List.length_eq_one_iff.mp right
        cases alike with
        | cons first rest =>
          cases rest
          exact applyTo_one_alike laws rfl first
    next => exact .value (.plain .error)
  next takes =>
    cases builtin with
    | print =>
      simp only [applyTo]
      rw [Value.Alike.inspectAll_eq alike]
      exact (laws.print _).bind fun _ _ _ => .value (.plain .null)
    | _ => cases takes

end Builtin

/-! ### Evaluation -/

/-- Calls of what is alike, with arguments that are alike, run alike. -/
def Invoke.Alike (like : Likeness) (first second : Invoke) : Prop :=
  ∀ callee callee' arguments arguments', like.values callee callee' →
    List.Forall₂ like.values arguments arguments' →
      Run.AlikeValue like (first callee arguments) (second callee' arguments')

section

variable {first second : Invoke} {scope scope' : ScopeId}

mutual

theorem Expr.eval_alike (laws : like.Lawful) (calls : Invoke.Alike like first second) (within : like.scopes scope scope') :
    (expr : Expr) → Run.AlikeValue like (expr.eval first scope) (expr.eval second scope')
  | .name name => by
    rw [Expr.eval, Expr.eval]
    exact laws.lookup name within
  | .integer _ => by
    rw [Expr.eval, Expr.eval]
    exact .value (.plain .integer)
  | .string _ => by
    rw [Expr.eval, Expr.eval]
    exact .value (.plain .string)
  | .boolean _ => by
    rw [Expr.eval, Expr.eval]
    exact .value (.plain .boolean)
  | .unary op operand => by
    rw [Expr.eval, Expr.eval]
    exact .unlessSignal (operand.eval_alike laws calls within) (fun _ _ => id) fun _ _ alike => .value (alike.unary op)
  | .binary left op right => by
    rw [Expr.eval, Expr.eval]
    exact .unlessSignal (left.eval_alike laws calls within) (fun _ _ => id) fun _ _ alike =>
      .unlessSignal (right.eval_alike laws calls within) (fun _ _ => id) fun _ _ alike' =>
        .value (alike.binary laws.unmixed op alike')
  | .assign name value => by
    rw [Expr.eval, Expr.eval]
    exact .unlessSignal (value.eval_alike laws calls within) (fun _ _ => id) fun _ _ alike => laws.assign name within alike
  | .ifThen condition consequence => by
    rw [Expr.eval, Expr.eval]
    refine .unlessSignal (condition.eval_alike laws calls within) (fun _ _ => id) fun _ _ alike => ?_
    rw [alike.isTruthy_eq]
    split
    · exact Stmt.evalAll_alike laws calls within (.plain .null) consequence
    · exact .value (.plain .null)
  | .ifElse condition consequence alternative => by
    rw [Expr.eval, Expr.eval]
    refine .unlessSignal (condition.eval_alike laws calls within) (fun _ _ => id) fun _ _ alike => ?_
    rw [alike.isTruthy_eq]
    split
    · exact Stmt.evalAll_alike laws calls within (.plain .null) consequence
    · exact Stmt.evalAll_alike laws calls within (.plain .null) alternative
  | .function _ _ => by
    rw [Expr.eval, Expr.eval]
    exact laws.fresh.bind fun _ _ same => .value (.function same within)
  | .call function arguments => by
    rw [Expr.eval, Expr.eval]
    refine .unlessSignal (function.eval_alike laws calls within) (fun _ _ => id) fun callee callee' called => ?_
    refine (Expr.evalAll_alike laws calls within arguments).bind fun _ _ ends => ?_
    cases ends with
    | error signal => exact .value signal
    | ok all => exact calls callee callee' _ _ called all
  | .array elements => by
    rw [Expr.eval, Expr.eval]
    refine (Expr.evalAll_alike laws calls within elements).bind fun _ _ ends => ?_
    cases ends with
    | error signal => exact .value signal
    | ok all => exact laws.freshArray all
  | .index collection position => by
    rw [Expr.eval, Expr.eval]
    exact .unlessSignal (collection.eval_alike laws calls within) (fun _ _ => id) fun _ _ alike =>
      .unlessSignal (position.eval_alike laws calls within) (fun _ _ => id) fun _ _ alike' => .value (alike.elementAt alike')

theorem Expr.evalAll_alike (laws : like.Lawful) (calls : Invoke.Alike like first second) (within : like.scopes scope scope') :
    (exprs : List Expr) → Run.Alike like (EndsAlike like) (Expr.evalAll first scope exprs) (Expr.evalAll second scope' exprs)
  | [] => by
    rw [Expr.evalAll, Expr.evalAll]
    exact .value (.ok .nil)
  | expr :: exprs => by
    rw [Expr.evalAll, Expr.evalAll]
    refine .unlessSignal (expr.eval_alike laws calls within) (fun _ _ => .error) fun _ _ alike => ?_
    refine (Expr.evalAll_alike laws calls within exprs).bind fun _ _ ends => ?_
    cases ends with
    | error signal => exact .value (.error signal)
    | ok all => exact .value (.ok (.cons alike all))

theorem Stmt.eval_alike (laws : like.Lawful) (calls : Invoke.Alike like first second) (within : like.scopes scope scope') :
    (stmt : Stmt) → Run.AlikeValue like (stmt.eval first scope) (stmt.eval second scope')
  | .bind name value => by
    rw [Stmt.eval, Stmt.eval]
    refine .unlessSignal (value.eval_alike laws calls within) (fun _ _ => id) fun _ _ alike => ?_
    exact (laws.define name within alike).bind fun _ _ _ => .value (.plain .null)
  | .leave => by
    rw [Stmt.eval, Stmt.eval]
    exact .value (.returned (.plain .null))
  | .leaveWith value => by
    rw [Stmt.eval, Stmt.eval]
    exact .unlessSignal (value.eval_alike laws calls within) (fun _ _ => id) fun _ _ alike => .value (.returned alike)
  | .expr value => by
    rw [Stmt.eval, Stmt.eval]
    exact value.eval_alike laws calls within
  | .block statements => by
    rw [Stmt.eval, Stmt.eval]
    exact Stmt.evalAll_alike laws calls within (.plain .null) statements

theorem Stmt.evalAll_alike (laws : like.Lawful) (calls : Invoke.Alike like first second) (within : like.scopes scope scope')
    {result result' : Value} (start : like.values result result') :
    (stmts : List Stmt) →
      Run.AlikeValue like (Stmt.evalAll first scope result stmts) (Stmt.evalAll second scope' result' stmts)
  | [] => by
    rw [Stmt.evalAll, Stmt.evalAll]
    exact .value start
  | stmt :: stmts => by
    rw [Stmt.evalAll, Stmt.evalAll]
    exact .unlessSignal (stmt.eval_alike laws calls within) (fun _ _ => id) fun _ _ alike =>
      Stmt.evalAll_alike laws calls within alike stmts

end

end

theorem Value.call_alike (laws : like.Lawful) {runBody runBody' : ScopeId → List (String × Value) → List Stmt → Run Value}
    (bodies : ∀ scope scope' (names : List String) values values' body, like.scopes scope scope' →
      List.Forall₂ like.values values values' →
        Run.AlikeValue like (runBody scope (names.zip values) body) (runBody' scope' (names.zip values') body)) :
    Invoke.Alike like (Value.call runBody) (Value.call runBody') := by
  intro callee callee' arguments arguments' called handed
  cases called with
  | plain plain =>
    cases plain with
    | builtin => exact Builtin.apply_alike laws _ handed
    | _ => exact .value (.plain .error)
  | function _ captured =>
    simp only [Value.call, handed.length_eq]
    split
    · exact bodies _ _ _ _ _ _ captured handed
    · exact .value (.plain .error)
  | _ => exact .value (.plain .error)

/-- The induction is on how many calls may be inside each other; both runs may make equally many. -/
theorem invoke_alike (laws : like.Lawful) : (depth : Nat) → Invoke.Alike like (invoke depth) (invoke depth)
  | 0 => Value.call_alike laws fun _ _ _ _ _ _ _ _ => .value (.plain .error)
  | depth + 1 => by
    refine Value.call_alike laws fun _ _ names values values' body captured handed => ?_
    refine (laws.enclose captured).bind fun scope scope' within => ?_
    refine (laws.defineAll within names handed).bind fun _ _ _ => ?_
    exact .unwrapped (Stmt.evalAll_alike laws (invoke_alike laws depth) within (.plain .null) body)

/-! ### Runs with the same numbers -/

def Matching.same : Matching := ⟨Eq, Eq⟩

mutual

theorem Value.Alike.refl_of_same : (value : Value) → value.Alike .same value
  | .integer _ | .string _ | .boolean _ | .null | .builtin _ | .error _ => .plain (by constructor)
  | .array _ values => .array rfl (refl_all_of_same values)
  | .function _ _ _ _ => .function rfl rfl
  | .returned value => .returned (refl_of_same value)

theorem Value.Alike.refl_all_of_same : (values : List Value) → List.Forall₂ (Value.Alike .same) values values
  | [] => .nil
  | value :: values => .cons (refl_of_same value) (refl_all_of_same values)

end

mutual

theorem Value.Alike.eq_of_same : {first second : Value} → first.Alike .same second → first = second
  | _, _, .plain _ => rfl
  | _, _, .array same elements => by rw [same, eq_all_of_same elements]
  | _, _, .function same captured => by rw [same, captured]
  | _, _, .returned inner => by rw [eq_of_same inner]

theorem Value.Alike.eq_all_of_same : {values values' : List Value} → List.Forall₂ (Value.Alike .same) values values' →
    values = values'
  | [], _, .nil => rfl
  | _ :: _, _, .cons first rest => by rw [eq_of_same first, eq_all_of_same rest]

end

end Treewalk
