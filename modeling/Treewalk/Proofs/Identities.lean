import Treewalk.Proofs.Instants
import Treewalk.Proofs.ObjectTravel
import Treewalk.Proofs.SameValues

/-! Identities are fresh and stable. Every run keeps a register of the objects that it has made: the identity of an object is
its place there, so the next identity is that of no object yet, and two objects with one identity are one object. -/

namespace Treewalk

/-! ### The register of objects -/

/-- The objects made so far, in the order in which they were made. -/
structure Register where
  made : List Value

instance : Preorder Register where
  le first second := first.made <+: second.made
  le_refl _ := List.prefix_rfl
  le_trans _ _ _ first second := first.trans second

/-- The identity of the object is its place in the register. -/
def Register.Lists (register : Register) (object : Value) : Prop :=
  ∀ identity, object.identity? = some identity → register.made[identity]? = some object

theorem Register.Lists.mono {register later : Register} {object : Value} (listed : register.Lists object)
    (further : register ≤ later) : later.Lists object := by
  intro identity named
  obtain ⟨more, together⟩ := further
  have place := listed identity named
  rw [← together, List.getElem?_append_left (List.getElem?_eq_some_iff.mp place).1]
  exact place

/-- The next identity is the place of the next object. -/
theorem Register.lists_next {register : Register} {identity : Identity} (next : register.made.length = identity) {object : Value}
    (named : object.identity? = some identity) :
    ∃ later, register ≤ later ∧ later.made.length = identity + 1 ∧ later.Lists object := by
  refine ⟨⟨register.made ++ [object]⟩, List.prefix_append _ _, by simp [next], fun other same => ?_⟩
  obtain rfl : identity = other := Option.some.inj (named.symm.trans same)
  simp [← next]

def registerUpkeep : Upkeep Register :=
  .single (fun register identity => register.made.length = identity) Register.Lists fun _ _ => True

theorem registerUpkeep_lawful : registerUpkeep.Lawful := by
  refine Upkeep.single_lawful (fun _ _ _ further listed => listed.mono further) (fun _ => ?_) (fun next _ => ?_)
    fun _ next _ _ => ?_
  · exact Stmt.allConform_of_forall (fun _ => trivial) (fun _ _ => trivial) _
  · exact Register.lists_next next rfl
  · exact Register.lists_next next rfl

theorem registerUpkeep_conforms (node : Node) : node.Conforms registerUpkeep.names registerUpkeep.functions :=
  node.conforms_of_forall (fun _ => trivial) fun _ _ => trivial

/-! ### Settled worlds -/

/-- Every identity in the world has been handed out, and each is that of one object. -/
structure World.Settled (world : World) : Prop where
  older : ∀ {object identity}, world.Contains object → object.identity? = some identity → identity < world.nextIdentity
  one : ∀ {first second identity}, world.Contains first → world.Contains second → first.identity? = some identity →
    second.identity? = some identity → first = second

theorem World.initial_settled (host : Host) : (World.initial host).Settled :=
  ⟨fun there => absurd there (initial_contains host _), fun there => absurd there (initial_contains host _)⟩

/-- A settled world has a register. Places of objects that are bound nowhere any more are filled with null. -/
theorem World.Settled.register {world : World} (settled : world.Settled) :
    ∃ register, registerUpkeep.worlds register world world := by
  classical
  let at? (identity : Identity) : Value :=
    if there : ∃ object, world.Contains object ∧ object.identity? = some identity then there.choose else .null
  refine ⟨⟨(List.range world.nextIdentity).map at?⟩, rfl, fun id name whole found object held _ identity named => ?_, by simp⟩
  have there : world.Contains object := ⟨id, name, whole, found, held⟩
  have known : ∃ object, world.Contains object ∧ object.identity? = some identity := ⟨object, there, named⟩
  have same : at? identity = object := by
    simp only [at?, dif_pos known]
    exact settled.one known.choose_spec.1 there known.choose_spec.2 named
  simp [List.getElem?_map, List.getElem?_range (settled.older there named), same]

section

variable {register : Register} {world : World} {ended : Value × World} {object first second : Value} {identity : Identity}

/-- Two values that are the same are one, if their objects are in one register. -/
theorem Register.Lists.one (listed : register.Lists first) (listed' : register.Lists second) (same : first.same second = true) :
    first = second := by
  refine Value.eq_of_same (fun identity named named' => ?_) same
  exact Option.some.inj ((listed identity named).symm.trans (listed' identity named'))

theorem Register.lists_contained (worlds : registerUpkeep.worlds register world world) (there : world.Contains object) :
    register.Lists object :=
  fun identity named => Upkeep.single_contained worlds there (named ▸ rfl) identity named

theorem Register.lists_atHand (ends : registerUpkeep.Ends register ended) (there : AtHand ended object) :
    register.Lists object :=
  fun identity named => Upkeep.single_atHand ends there (named ▸ rfl) identity named

/-- Objects in the register have identities that have been handed out. -/
theorem Register.Lists.older (listed : register.Lists object) (worlds : registerUpkeep.worlds register world world)
    (named : object.identity? = some identity) : identity < world.nextIdentity := by
  obtain ⟨inside, -⟩ := List.getElem?_eq_some_iff.mp (listed identity named)
  exact worlds.2.2 ▸ inside

end

/-! ### Objects that are made -/

/-- At this moment an object is made, in this world, and it is the last that happens in the evaluation that begins there. -/
inductive Makes : Moment → World → Prop where
  | array (evaluated : Expr.evalAll (invoke depth) scope elements start = (.ok values, before)) :
    Makes ⟨depth, scope, .expr (.array elements), start⟩ before
  | function : Makes ⟨depth, scope, .expr (.function parameters body), before⟩ before
  | push (passed : Expr.Passes depth scope function start (.builtin .push) middle)
    (evaluated : Expr.evalAll (invoke depth) scope arguments middle = (.ok [.array identity values, value], before)) :
    Makes ⟨depth, scope, .expr (.call function arguments), start⟩ before
  | rest (passed : Expr.Passes depth scope function start (.builtin .rest) middle)
    (evaluated : Expr.evalAll (invoke depth) scope arguments middle = (.ok [.array identity (value :: values)], before)) :
    Makes ⟨depth, scope, .expr (.call function arguments), start⟩ before

theorem Makes.ending {moment : Moment} {before : World} (makes : Makes moment before) :
    moment.ending.1.identity? = some before.nextIdentity ∧
      moment.ending.2 = { before with nextIdentity := before.nextIdentity + 1 } := by
  cases makes with
  | array evaluated =>
    rw [Moment.ending, Node.eval, Expr.eval, Run.bind_apply, evaluated]
    exact ⟨rfl, rfl⟩
  | function => exact ⟨rfl, rfl⟩
  | @push depth _ _ _ _ _ _ _ _ _ passed evaluated | @rest depth _ _ _ _ _ _ _ _ _ passed evaluated =>
    rw [Moment.ending, Node.eval, Expr.eval, Run.unlessSignal_of_value passed.1 passed.2, Run.bind_apply, evaluated]
    cases depth <;> exact ⟨rfl, rfl⟩

/-- The value was there when evaluation came to this world, or earlier: at the beginning or at the end of something that has
happened. -/
inductive Existed (happens : Moment → Prop) (now : World) (value : Value) : Prop where
  | atBeginning (happened : happens moment) (earlier : moment.world.Precedes now) (there : moment.world.Contains value)
  | atEnd (happened : happens moment) (earlier : moment.ending.2.Precedes now) (there : AtHand moment.ending value)

/-- An object has come to be: its identity is that of no value of its kind that was there before, and it arrives unchanged
wherever it goes. -/
structure Value.FreshAndStable (object : Value) (existed : Value → Prop) : Prop where
  made : object.kind = .array ∨ object.kind = .function
  differs : ∀ old, existed old → old.kind = object.kind →
    BinaryOp.equal.apply object old = .boolean false ∧ BinaryOp.equal.apply old object = .boolean false
  itself : BinaryOp.equal.apply object object = .boolean true
  travels : object.Travels

/-- `==` and `!=` on two values of data: two errors if their types differ, and otherwise opposite answers. -/
inductive Compared (first second : Value) : Prop where
  | mismatch (different : first.kind ≠ second.kind)
    (equal : BinaryOp.equal.apply first second = .error (.typeMismatch first.kind .equal second.kind))
    (notEqual : BinaryOp.notEqual.apply first second = .error (.typeMismatch first.kind .notEqual second.kind))
  | opposite (alike : first.kind = second.kind) (answer : Bool) (equal : BinaryOp.equal.apply first second = .boolean answer)
    (notEqual : BinaryOp.notEqual.apply first second = .boolean !answer)

section

variable {scope : ScopeId} {programs : List (Program × Int)} {world : World}

/-- At every moment of a run from a settled world there is a register of all objects. -/
theorem Moment.DuringAll.registered {moment : Moment} (during : moment.DuringAll scope programs world) (settled : world.Settled) :
    ∃ register, moment.Begins registerUpkeep register := by
  obtain ⟨register, worlds⟩ := settled.register
  obtain ⟨later, -, begins⟩ :=
    during.comes registerUpkeep_lawful trivial (fun entry _ => registerUpkeep_conforms (.program entry.1)) worlds
  exact ⟨later, begins⟩

/-- Whatever was there by now has an identity that was handed out by now. -/
theorem Existed.older {now : World} {old : Value} {identity : Identity} (settled : world.Settled)
    (existed : Existed (fun moment => moment.DuringAll scope programs world) now old) (named : old.identity? = some identity) :
    identity < now.nextIdentity := by
  cases existed with
  | atBeginning happened earlier there =>
    obtain ⟨register, begins⟩ := Moment.DuringAll.registered happened settled
    have inside := (Register.lists_contained begins.world there).older begins.world named
    exact Nat.lt_of_lt_of_le inside earlier.nextIdentity_le
  | atEnd happened earlier there =>
    obtain ⟨register, begins⟩ := Moment.DuringAll.registered happened settled
    obtain ⟨later, -, ends⟩ := begins.ends registerUpkeep_lawful
    have inside := (Register.lists_atHand ends there).older ends.world named
    exact Nat.lt_of_lt_of_le inside earlier.nextIdentity_le

theorem Makes.freshAndStable {moment : Moment} {before : World} (makes : Makes moment before) (settled : world.Settled) :
    moment.ending.1.FreshAndStable (Existed (fun other => other.DuringAll scope programs world) before) := by
  have named := makes.ending.1
  generalize moment.ending.1 = object at named
  have made : object.kind = .array ∨ object.kind = .function := by cases object <;> simp_all [Value.identity?, Value.kind]
  have differs (old : Value) (existed : Existed (fun other => other.DuringAll scope programs world) before old) :
      object.same old = false := by
    refine Bool.eq_false_iff.mpr fun same => ?_
    have named' : old.identity? = some before.nextIdentity := by
      cases object <;> cases old <;> simp_all [Value.identity?, Value.same, Value.identical]
    exact Nat.lt_irrefl _ (existed.older settled named')
  refine ⟨made, fun old existed alike => ⟨?_, ?_⟩, ?_, Value.travels (named ▸ rfl)⟩
  · rw [(BinaryOp.equal_of_kind_eq alike.symm).1, differs old existed]
  · rw [(BinaryOp.equal_of_kind_eq alike).1, Value.same_comm, differs old existed]
  · rw [(BinaryOp.equal_of_kind_eq rfl).1]
    cases object <;> simp_all [Value.identity?, Value.same, Value.identical]

end

/-- Programs run one after another from a settled world. Whatever object an array literal, a function literal, `push` or
`rest` makes in the course of it, `==` tells it from everything of its kind that was there before, and it arrives as the very
same object wherever it goes. Two values that are at hand at one time, such as the operands of `==`, are one and the same when
`==` says so, and so look the same. On data of one type `==` and `!=` are opposite and `==` is an equivalence; on data of two
types both are errors. -/
theorem Program.identities_fresh_and_stable {scope : ScopeId} {programs : List (Program × Int)} {world : World}
    (settled : world.Settled) :
    (∀ (moment : Moment) before, moment.DuringAll scope programs world → Makes moment before →
      moment.ending.1.FreshAndStable (Existed (fun other => other.DuringAll scope programs world) before)) ∧
    (∀ (moment : Moment) first second, moment.DuringAll scope programs world →
      AtHand moment.ending first → AtHand moment.ending second →
      BinaryOp.equal.apply first second = .boolean true → first = second ∧ first.inspect = second.inspect) ∧
    (∀ depth here left right start middle after first second,
      (Moment.mk depth here (.expr (.binary left .equal right)) start).DuringAll scope programs world →
      Expr.Passes depth here left start first middle → Expr.Passes depth here right middle second after →
      BinaryOp.equal.apply first second = .boolean true → first = second ∧ first.inspect = second.inspect) ∧
    (∀ first second, first.SignalFree → second.SignalFree → Compared first second) ∧
    (∀ value, value.SignalFree → BinaryOp.equal.apply value value = .boolean true) ∧
    (∀ first second, first.kind = second.kind → BinaryOp.equal.apply first second = BinaryOp.equal.apply second first) ∧
    (∀ first second third, BinaryOp.equal.apply first second = .boolean true →
      BinaryOp.equal.apply second third = .boolean true → BinaryOp.equal.apply first third = .boolean true) := by
  refine ⟨fun moment before _ makes => makes.freshAndStable settled, ?_, ?_, fun first second _ _ => ?_, fun value free => ?_,
    fun first second alike => ?_, fun first second third head tail => ?_⟩
  · intro moment first second during there there' equal
    obtain ⟨register, begins⟩ := during.registered settled
    obtain ⟨later, -, ends⟩ := begins.ends registerUpkeep_lawful
    have one := (Register.lists_atHand ends there).one (Register.lists_atHand ends there') (BinaryOp.equal_eq_true_iff.mp equal).2
    exact ⟨one, congrArg Value.inspect one⟩
  · intro depth here left right start middle after first second during passed passed' equal
    obtain ⟨register, begins⟩ := during.registered settled
    obtain ⟨later, -, ends⟩ := passed.ends registerUpkeep_lawful ⟨trivial, begins.node.1, begins.world⟩
    obtain ⟨last, further, ends'⟩ := passed'.ends registerUpkeep_lawful ⟨trivial, begins.node.2, ends.world⟩
    have listed : last.Lists first := (Register.lists_atHand ends (Or.inl .here)).mono further
    have one := listed.one (Register.lists_atHand ends' (Or.inl .here)) (BinaryOp.equal_eq_true_iff.mp equal).2
    exact ⟨one, congrArg Value.inspect one⟩
  · by_cases alike : first.kind = second.kind
    · exact .opposite alike _ (BinaryOp.equal_of_kind_eq alike).1 (BinaryOp.equal_of_kind_eq alike).2
    · exact .mismatch alike (BinaryOp.equal_of_kind_ne alike).1 (BinaryOp.equal_of_kind_ne alike).2
  · rw [(BinaryOp.equal_of_kind_eq rfl).1, Value.same_refl free]
  · rw [(BinaryOp.equal_of_kind_eq alike).1, (BinaryOp.equal_of_kind_eq alike.symm).1, Value.same_comm]
  · obtain ⟨alike, same⟩ := BinaryOp.equal_eq_true_iff.mp head
    obtain ⟨alike', same'⟩ := BinaryOp.equal_eq_true_iff.mp tail
    exact BinaryOp.equal_eq_true_iff.mpr ⟨alike.trans alike', Value.same_trans same same'⟩

/-- Two literals with equal elements make two arrays: the second one is told from the first one, which was there before it. -/
theorem Program.equal_literals_make_two_arrays :
    let literal := Expr.array [.integer 1]
    let program : Program := ⟨[.expr (.binary literal .equal literal)]⟩
    let world := World.initial .usual
    let first : Moment := ⟨10, World.root, .expr literal, world⟩
    let second : Moment := ⟨10, World.root, .expr literal, first.ending.2⟩
    world.Settled ∧ first.ending.1.inspect = second.ending.1.inspect ∧
      BinaryOp.equal.apply second.ending.1 first.ending.1 = .boolean false ∧
      BinaryOp.equal.apply second.ending.1 second.ending.1 = .boolean true ∧
      ((program.evaluate? 10 World.root world).map fun ended => ended.1.inspect) = some "false" := by
  intro literal program world first second
  have settled := World.initial_settled .usual
  have nothing : Stmt.evalAll (invoke 10) World.root .null [] world = (.null, world) := rfl
  have during : first.DuringAll World.root [(program, 10)] world :=
    Moment.DuringAll.head (by decide +kernel) (.single (.part (.program (.statement nothing rfl (.expression (.left (.here fun _ same => by cases same)))))))
  have during' : second.DuringAll World.root [(program, 10)] world :=
    Moment.DuringAll.head (by decide +kernel) (.single (.part (.program (.statement nothing rfl
      (.expression (.right ⟨rfl, rfl⟩ (.here fun _ same => by cases same)))))))
  have fresh := (identities_fresh_and_stable settled).1 second _ during' (.array rfl)
  exact ⟨settled, by decide +kernel, (fresh.differs _ (.atEnd during .refl (Or.inl .here)) rfl).1, fresh.itself,
    by decide +kernel⟩

end Treewalk
