import Treewalk.Proofs.ShellUnits

/-! A session holds units back in a queue. Units come in at its end when they are added and leave it at its front when they
are run, each one before it is evaluated. So what a run that failed has not come to is still queued, and over any calls of the
session, failed ones among them, every accepted unit is evaluated at most once, in the order in which units were added. -/

namespace Treewalk

/-- A warning as it is shown, behind the place that it is about. -/
def Diagnostic.warningAt (location : String) (diagnostic : Diagnostic) : StyledText :=
  [.bold location, ⟨.boldMagenta, "warning: "⟩, .plain diagnostic.message, .plain "\n"]

theorem Value.error_or_fine (value : Value) : (∃ fault, value = .error fault) ∨ ∀ fault, value ≠ .error fault := by
  by_cases failed : ∃ fault, value = .error fault
  · exact Or.inl failed
  · exact Or.inr fun fault same => failed ⟨fault, same⟩

namespace Session

/-- What may be asked of a session. -/
inductive Request where
  | add (source : String) (number? : Option Int)
  | run
  | pop
  deriving Repr, Inhabited

def obey : Request → Action Session Unit
  | .add source number? => add source number?
  | .run => run
  | .pop => discard pop

/-- The unit that a request queues, if it asks for one that is read without a diagnostic. -/
def Request.accepted? : Request → Option QueuedUnit
  | .add source number? =>
    match Program.parse source with
    | (program, []) => some ⟨program, source, number?⟩
    | _ => none
  | .run | .pop => none

/-- A session after some requests. The caller goes on after requests that fail, and may use the console in between, as one
does that reports them. -/
inductive Driven (session : Session) : List Request → Session → Prop where
  | start : Driven session [] session
  | request {requests : List Request} {now : Session} (before : Driven session requests now) (request : Request) :
    Driven session (requests ++ [request]) (obey request now).2
  | report {requests : List Request} {now : Session} (before : Driven session requests now) (console : Console) :
    Driven session requests { now with console }

/-! ### Units that are evaluated -/

/-- Units evaluated one after another in the root scope, each in the world that the one before it has left: their values, the
world in the end, and what they have printed. -/
inductive Evaluated (depth : Nat) : World → List (QueuedUnit × Value) → World → StyledText → Prop where
  | nil {world : World} : Evaluated depth world [] world []
  | cons {world after last : World} {unit : QueuedUnit} {value : Value} {history : List (QueuedUnit × Value)} {said : StyledText}
    (ran : unit.program.eval depth World.root world = (value, after))
    (others : Evaluated depth after.silenced history last said) :
    Evaluated depth world ((unit, value) :: history) last (outputText after ++ said)

theorem Evaluated.append {depth : Nat} {world middle last : World} {front back : List (QueuedUnit × Value)}
    {said more : StyledText} (first : Evaluated depth world front middle said) (second : Evaluated depth middle back last more) :
    Evaluated depth world (front ++ back) last (said ++ more) := by
  induction first with
  | nil => exact second
  | cons ran others ih =>
    rw [List.append_assoc]
    exact .cons ran (ih second)

theorem Evaluated.same_host {depth : Nat} {world last : World} {history : List (QueuedUnit × Value)} {said : StyledText}
    (evaluated : Evaluated depth world history last said) : last.host = world.host := by
  induction evaluated with
  | nil => rfl
  | @cons world after last unit value history said ran others ih =>
    have kept := unit.program.eval_host depth World.root world
    rw [ran] at kept
    exact ih.trans kept

/-! ### What a call leaves -/

/-- What a session is after a call that leaves this queue, these results and this world and has said something. -/
structure Leaves (session : Session) (queue : List QueuedUnit) (results : List Value) (world : World) (said : StyledText)
    (done : Session) : Prop where
  queue : done.queue = queue
  results : done.results = results
  world : done.world = world
  printed : done.console.printed = session.console.printed ++ said
  limit : done.limit? = session.limit?
  path : done.path = session.path

/-- What a run of the queue comes to. Either all units are evaluated, and none of them fails, or the first one that does ends
the run and is gone itself. -/
inductive Runs (depth : Nat) (session : Session) : Except Failure Unit × Session → Prop where
  | emptied {history : List (QueuedUnit × Value)} {last : World} {said : StyledText} {done : Session}
    (order : session.queue = history.map Prod.fst)
    (fine : ∀ entry ∈ history, ∀ fault, entry.2 ≠ .error fault)
    (evaluated : Evaluated depth session.world history last said)
    (leaves : session.Leaves [] (session.results ++ history.map Prod.snd) last said done) :
    Runs depth session (.ok (), done)
  | stopped {history : List (QueuedUnit × Value)} {unit : QueuedUnit} {fault : Fault} {behind : List QueuedUnit} {last : World}
    {said : StyledText} {done : Session}
    (order : session.queue = history.map Prod.fst ++ unit :: behind)
    (fine : ∀ entry ∈ history, ∀ fault, entry.2 ≠ .error fault)
    (evaluated : Evaluated depth session.world (history ++ [(unit, .error fault)]) last said)
    (leaves : session.Leaves behind (session.results ++ history.map Prod.snd) last said done) :
    Runs depth session (.error (.ofFault fault), done)

/-- What every call of a session does to its queue, its results, its world and its output. -/
structure Disciplined (depth : Nat) (session : Session) : Prop where
  refuses : ∀ source number? program diagnostics, Program.parse source = (program, diagnostics) → diagnostics ≠ [] →
    ∃ done, add source number? session = (.error (.complaint (.syntaxErrors diagnostics.length)), done) ∧
      session.Leaves session.queue session.results session.world
        (diagnostics.flatMap (Diagnostic.warningAt (session.entered source number?).console.trace.location)) done
  accepts : ∀ source number? program, Program.parse source = (program, []) →
    ∃ done, add source number? session = (.ok (), done) ∧
      session.Leaves (session.queue ++ [⟨program, source, number?⟩]) session.results session.world [] done
  takes : ∀ unit behind, session.queue = unit :: behind →
    run session = (runUnit unit >>= fun _ => run) { session with queue := behind }
  runs : Runs depth session (run session)
  pops_nothing : session.results = [] → pop session = (.error (.unexpected .nothingLeft), session)
  pops_latest : ∀ front value, session.results = front ++ [value] →
    pop session = (session.world.host.compose value.levels value.inspect, { session with results := front })

variable {host : Host} {session done between : Session} {limit : Int} {unit : QueuedUnit} {value : Value} {fault : Fault} {after : World}

theorem leaves_of_refused (session : Session) {program : Program} {diagnostics : List Diagnostic} {source : String}
    (parsed : Program.parse source = (program, diagnostics)) (faulty : diagnostics ≠ []) (number? : Option Int) :
    ∃ done, add source number? session = (.error (.complaint (.syntaxErrors diagnostics.length)), done) ∧
      session.Leaves session.queue session.results session.world
        (diagnostics.flatMap (Diagnostic.warningAt (session.entered source number?).console.trace.location)) done := by
  refine ⟨_, add_refused parsed faulty number?, by simp, by simp, by simp, ?_, by simp, by cases number? <;> rfl⟩
  rw [Shell.warnAll_printed, List.flatMap_map]
  simp only [entered_printed]
  rfl

theorem leaves_of_accepted (session : Session) {program : Program} {source : String} (parsed : Program.parse source = (program, []))
    (number? : Option Int) :
    ∃ done, add source number? session = (.ok (), done) ∧
      session.Leaves (session.queue ++ [⟨program, source, number?⟩]) session.results session.world [] done := by
  refine ⟨_, add_accepted parsed number?, by simp, by simp, by simp, ?_, by simp, by cases number? <;> rfl⟩
  simp [Console.enter]

theorem leaves_of_failed (session : Session) (nonneg : 0 ≤ limit) (stated : session.limit? = some limit)
    (placed : session.world.host = host)
    (ran : unit.program.eval (min limit.toNat host.calls) World.root session.world = (.error fault, after)) :
    ∃ done, runUnit unit session = (.error (.ofFault fault), done) ∧
      session.Leaves session.queue session.results after.silenced (outputText after) done := by
  have evaluated := Program.evaluate?_of_nonneg nonneg unit.program World.root session.world
  rw [placed, ran] at evaluated
  refine ⟨_, runUnit_failed stated evaluated, ?_, ?_, rfl, ?_, ?_, by cases unit.number? <;> rfl⟩
  all_goals simp [Session.evaluated, Console.print]

theorem leaves_of_finished (session : Session) (nonneg : 0 ≤ limit) (stated : session.limit? = some limit)
    (placed : session.world.host = host)
    (ran : unit.program.eval (min limit.toNat host.calls) World.root session.world = (value, after))
    (fine : ∀ fault, value ≠ .error fault) :
    ∃ done, runUnit unit session = (.ok (), done) ∧
      session.Leaves session.queue (session.results ++ [value]) after.silenced (outputText after) done := by
  have evaluated := Program.evaluate?_of_nonneg nonneg unit.program World.root session.world
  rw [placed, ran] at evaluated
  refine ⟨_, runUnit_finished stated evaluated fine, ?_, ?_, rfl, ?_, ?_, by cases unit.number? <;> rfl⟩
  all_goals simp [Session.evaluated, Console.print, Console.enter]

theorem pop_nothing (empty : session.results = []) : pop session = (.error (.unexpected .nothingLeft), session) := by
  simp [pop, empty]

theorem pop_latest {front : List Value} (latest : session.results = front ++ [value]) :
    pop session = (session.world.host.compose value.levels value.inspect, { session with results := front }) := by
  simp [pop, latest]

theorem leaves_of_popped (session : Session) :
    ∃ results, session.Leaves session.queue results session.world [] (obey .pop session).2 := by
  have opened : (obey .pop session).2 = (pop session).2 := by
    change ((pop >>= fun _ => pure ()) session).2 = _
    rw [Action.bind_apply]
    cases pop session with
    | mk ended after => cases ended <;> rfl
  rw [opened]
  rcases List.eq_nil_or_concat session.results with empty | ⟨front, value, latest⟩
  · rw [pop_nothing empty]
    exact ⟨_, rfl, rfl, rfl, (List.append_nil _).symm, rfl, rfl⟩
  · rw [List.concat_eq_append] at latest
    rw [pop_latest latest]
    exact ⟨_, rfl, rfl, rfl, (List.append_nil _).symm, rfl, rfl⟩

/-! ### Runs of the queue -/

theorem run_empty (empty : session.queue = []) : run session = (.ok (), session) := by
  rw [run, Action.bind_apply]
  change runUnits session.queue session = _
  rw [empty]
  rfl

theorem runUnit_queue (session : Session) (unit : QueuedUnit) (nonneg : 0 ≤ limit) (stated : session.limit? = some limit) :
    (runUnit unit session).2.queue = session.queue := by
  cases ran : unit.program.eval (min limit.toNat session.world.host.calls) World.root session.world with
  | mk value after =>
    rcases value.error_or_fine with ⟨fault, rfl⟩ | fine
    · obtain ⟨done, same, leaves⟩ := leaves_of_failed session nonneg stated rfl ran
      rw [same, leaves.queue]
    · obtain ⟨done, same, leaves⟩ := leaves_of_finished session nonneg stated rfl ran fine
      rw [same, leaves.queue]

/-- While a unit is evaluated, only the ones behind it are queued. -/
theorem run_cons (nonneg : 0 ≤ limit) (stated : session.limit? = some limit) {behind : List QueuedUnit}
    (queued : session.queue = unit :: behind) :
    run session = (runUnit unit >>= fun _ => run) { session with queue := behind } := by
  have opened : run session = (runUnit unit >>= fun _ => runUnits behind) { session with queue := behind } := by
    rw [run, Action.bind_apply]
    change runUnits session.queue session = _
    rw [queued, runUnits, Action.bind_apply]
    rfl
  have kept := runUnit_queue { session with queue := behind } unit nonneg stated
  rw [opened, Action.bind_apply, Action.bind_apply]
  generalize runUnit unit { session with queue := behind } = ended at kept
  obtain ⟨_ | _, middle⟩ := ended
  · rfl
  · simp only [run, Action.bind_apply]
    change runUnits behind middle = runUnits middle.queue middle
    rw [show middle.queue = behind from kept]

theorem Leaves.trans {queue queue' : List QueuedUnit} {results results' : List Value} {world world' : World}
    {said more : StyledText} (first : session.Leaves queue results world said between)
    (second : between.Leaves queue' results' world' more done) : session.Leaves queue' results' world' (said ++ more) done where
  queue := second.queue
  results := second.results
  world := second.world
  printed := by rw [second.printed, first.printed, List.append_assoc]
  limit := second.limit.trans first.limit
  path := second.path.trans first.path

/-- A unit that finishes goes in front of what the others come to. -/
theorem Runs.cons {depth : Nat} {behind : List QueuedUnit} {ended : Except Failure Unit × Session}
    (queued : session.queue = unit :: behind) (ran : unit.program.eval depth World.root session.world = (value, after))
    (fine : ∀ fault, value ≠ .error fault)
    (leaves : session.Leaves behind (session.results ++ [value]) after.silenced (outputText after) between)
    (others : Runs depth between ended) : Runs depth session ended := by
  cases others with
  | @emptied history last said done order fine' evaluated leaves' =>
    rw [leaves.queue] at order
    rw [leaves.world] at evaluated
    refine .emptied (.trans queued (by rw [order]; rfl)) (List.forall_mem_cons.mpr ⟨fine, fine'⟩) (.cons ran evaluated) ?_
    have whole := leaves.trans leaves'
    rwa [leaves.results, List.append_assoc] at whole
  | @stopped history unit' fault behind' last said done order fine' evaluated leaves' =>
    rw [leaves.queue] at order
    rw [leaves.world] at evaluated
    refine .stopped (.trans queued (by rw [order]; rfl)) (List.forall_mem_cons.mpr ⟨fine, fine'⟩) (.cons ran evaluated) ?_
    have whole := leaves.trans leaves'
    rwa [leaves.results, List.append_assoc] at whole

/-- The induction is on the queue. -/
theorem run_runs (nonneg : 0 ≤ limit) (stated : session.limit? = some limit) (placed : session.world.host = host) :
    Runs (min limit.toNat host.calls) session (run session) := by
  generalize queued : session.queue = units
  induction units generalizing session with
  | nil =>
    rw [run_empty queued]
    have order : session.queue = ([] : List (QueuedUnit × Value)).map Prod.fst := queued
    exact .emptied order nofun .nil ⟨queued, by simp, rfl, by simp, rfl, rfl⟩
  | cons unit behind ih =>
    rw [run_cons nonneg stated queued, Action.bind_apply]
    cases ran : unit.program.eval (min limit.toNat host.calls) World.root session.world with
    | mk value after =>
      have kept := unit.program.eval_host (min limit.toNat host.calls) World.root session.world
      rw [ran] at kept
      rcases value.error_or_fine with ⟨fault, rfl⟩ | fine
      · obtain ⟨done, same, leaves⟩ := leaves_of_failed { session with queue := behind } nonneg stated placed ran
        rw [same]
        have evaluated := Evaluated.cons ran .nil
        rw [List.append_nil] at evaluated
        have order : session.queue = ([] : List (QueuedUnit × Value)).map Prod.fst ++ unit :: behind := queued
        exact .stopped order nofun evaluated
          ⟨leaves.queue, by simp [leaves.results], leaves.world, leaves.printed, leaves.limit, leaves.path⟩
      · obtain ⟨between, same, leaves⟩ := leaves_of_finished { session with queue := behind } nonneg stated placed ran fine
        rw [same]
        exact .cons queued ran fine ⟨leaves.queue, leaves.results, leaves.world, leaves.printed, leaves.limit, leaves.path⟩
          (ih (leaves.limit.trans stated) (leaves.world ▸ kept.trans placed) leaves.queue)

theorem disciplined (nonneg : 0 ≤ limit) (stated : session.limit? = some limit) (placed : session.world.host = host) :
    session.Disciplined (min limit.toNat host.calls) where
  refuses _ number? _ _ parsed faulty := leaves_of_refused session parsed faulty number?
  accepts _ number? _ parsed := leaves_of_accepted session parsed number?
  takes _ _ queued := run_cons nonneg stated queued
  runs := run_runs nonneg stated placed
  pops_nothing empty := pop_nothing empty
  pops_latest _ _ latest := pop_latest latest

/-! ### Sequences of calls -/

/-- What all calls so far come to: what was queued in the beginning or accepted since has been evaluated in this order, up to
the units that are still queued. -/
structure Accounted (depth : Nat) (session : Session) (requests : List Request) (history : List (QueuedUnit × Value))
    (now : Session) : Prop where
  order : session.queue ++ requests.filterMap Request.accepted? = history.map Prod.fst ++ now.queue
  evaluated : ∃ said, Evaluated depth session.world history now.world said
  limit : now.limit? = session.limit?

variable {depth : Nat} {requests : List Request} {history : List (QueuedUnit × Value)} {now : Session}

/-- A request that evaluates nothing may only queue the unit that it gives. -/
theorem Accounted.queued (accounted : Accounted depth session requests history now) {request : Request} {queue : List QueuedUnit}
    {results : List Value} {said : StyledText} (leaves : now.Leaves queue results now.world said done)
    (given : queue = now.queue ++ request.accepted?.toList) : Accounted depth session (requests ++ [request]) history done where
  order := by
    have singleton : [request].filterMap Request.accepted? = request.accepted?.toList := by
      cases accepted : request.accepted? <;> simp [accepted]
    rw [List.filterMap_append, ← List.append_assoc, accounted.order, leaves.queue, given, singleton, List.append_assoc]
  evaluated := leaves.world ▸ accounted.evaluated
  limit := leaves.limit.trans accounted.limit

/-- Units that are evaluated come behind those that were evaluated before. -/
theorem Accounted.ran (accounted : Accounted depth session requests history now) {more : List (QueuedUnit × Value)}
    {queue : List QueuedUnit} {results : List Value} {last : World} {said : StyledText}
    (leaves : now.Leaves queue results last said done) (taken : now.queue = more.map Prod.fst ++ queue)
    (evaluated : Evaluated depth now.world more last said) :
    Accounted depth session (requests ++ [.run]) (history ++ more) done where
  order := by
    have order := accounted.order
    rw [taken] at order
    have nothing : [Request.run].filterMap Request.accepted? = [] := rfl
    rw [List.filterMap_append, nothing, List.append_nil, order, leaves.queue, List.map_append, List.append_assoc]
  evaluated := by
    obtain ⟨before, earlier⟩ := accounted.evaluated
    exact ⟨_, leaves.world ▸ earlier.append evaluated⟩
  limit := leaves.limit.trans accounted.limit

theorem Accounted.same_host (accounted : Accounted depth session requests history now) :
    now.world.host = session.world.host := by
  obtain ⟨said, evaluated⟩ := accounted.evaluated
  exact evaluated.same_host

theorem Accounted.obey (nonneg : 0 ≤ limit) (stated : session.limit? = some limit)
    (accounted : Accounted (min limit.toNat session.world.host.calls) session requests history now) (request : Request) :
    ∃ more, Accounted (min limit.toNat session.world.host.calls) session (requests ++ [request]) (history ++ more)
      (obey request now).2 := by
  cases request with
  | add source number? =>
    refine ⟨[], ?_⟩
    rw [List.append_nil, Session.obey]
    cases parsed : Program.parse source with
    | mk program diagnostics =>
      by_cases faultless : diagnostics = []
      · subst faultless
        obtain ⟨done, same, leaves⟩ := leaves_of_accepted now parsed number?
        rw [same]
        exact accounted.queued leaves (by simp [Request.accepted?, parsed])
      · obtain ⟨done, same, leaves⟩ := leaves_of_refused now parsed faultless number?
        obtain ⟨first, others, rfl⟩ := List.exists_cons_of_ne_nil faultless
        rw [same]
        exact accounted.queued leaves (by simp [Request.accepted?, parsed])
  | run =>
    have runs := run_runs nonneg (accounted.limit.trans stated) accounted.same_host
    rw [Session.obey]
    generalize Session.run now = ended at runs ⊢
    cases runs with
    | emptied order fine evaluated leaves => exact ⟨_, accounted.ran leaves (by simpa using order) evaluated⟩
    | stopped order fine evaluated leaves => exact ⟨_, accounted.ran leaves (by simpa using order) evaluated⟩
  | pop =>
    refine ⟨[], ?_⟩
    rw [List.append_nil]
    obtain ⟨results, leaves⟩ := leaves_of_popped now
    exact accounted.queued leaves (by simp [Request.accepted?])

theorem Driven.accounted (nonneg : 0 ≤ limit) (stated : session.limit? = some limit) (driven : session.Driven requests now) :
    ∃ history, Accounted (min limit.toNat session.world.host.calls) session requests history now := by
  induction driven with
  | start => exact ⟨[], by simp, ⟨[], .nil⟩, rfl⟩
  | request before request ih =>
    obtain ⟨history, accounted⟩ := ih
    obtain ⟨more, accounted⟩ := accounted.obey nonneg stated request
    exact ⟨_, accounted⟩
  | report before console ih =>
    obtain ⟨history, accounted⟩ := ih
    exact ⟨history, accounted.order, accounted.evaluated, accounted.limit⟩

/-- However a session is used, units are evaluated in the order in which they were queued, each of them once, and none that
was refused; and the next call does to the queue, the results and the bindings just what it is for, also where it fails. -/
theorem keeps_discipline (nonneg : 0 ≤ limit) (stated : session.limit? = some limit) (driven : session.Driven requests now) :
    (∃ history, Accounted (min limit.toNat session.world.host.calls) session requests history now) ∧
      now.Disciplined (min limit.toNat session.world.host.calls) := by
  obtain ⟨history, accounted⟩ := driven.accounted nonneg stated
  exact ⟨⟨history, accounted⟩, disciplined nonneg (accounted.limit.trans stated) accounted.same_host⟩

/-- A source that is refused between units of which the second one fails and the third one is left. -/
theorem failing_unit_keeps_discipline :
    let session := Session.initial .usual (.initial false) "<in>" (some 5)
    let requests : List Request := [.add "let x = 1;" (some 1), .add "let 2" (some 2), .add "x = 3; y" none, .add "x" none, .run]
    let now := (obey .run (obey (.add "x" none) (obey (.add "x = 3; y" none) (obey (.add "let 2" (some 2))
      (obey (.add "let x = 1;" (some 1)) session).2).2).2).2).2
    ((∃ history, Accounted 5 session requests history now) ∧ now.Disciplined 5) ∧
      now.queue.map QueuedUnit.source = ["x"] ∧ Value.inspectAll now.results = ["null"] ∧
      (now.world.heap.get? World.root "x").map Value.inspect = some "3" := by
  intro session requests now
  have driven : session.Driven requests now :=
    (((((Driven.start).request (.add "let x = 1;" (some 1))).request (.add "let 2" (some 2))).request
      (.add "x = 3; y" none)).request (.add "x" none)).request .run
  exact ⟨keeps_discipline (by decide : (0 : Int) ≤ 5) rfl driven, by decide +kernel, by decide +kernel, by decide +kernel⟩

end Session

end Treewalk
