import Treewalk.Proofs.Likeness
import Treewalk.Proofs.ShellUnits
import Treewalk.Syntax.Equality

/-! Where a program is cut into units. Statements are evaluated one after another in one world, so that a list of them may be
cut anywhere at which no signal goes up: a second evaluation goes on from the world that the first one leaves. A session
besides takes away what was printed before it goes on, which no evaluation ever looks at. -/

namespace Treewalk

/-! ### What was printed before -/

/-- The world with these lines printed before its own. -/
def World.precededBy (lines : Array String) (world : World) : World := { world with printed := lines ++ world.printed }

/-- Two runs, the second of which has printed some lines before. -/
def Likeness.printedBefore (lines : Array String) : Likeness where
  toMatching := .same
  worlds world world' := world' = world.precededBy lines

theorem Likeness.printedBefore_lawful (lines : Array String) : (Likeness.printedBefore lines).Lawful where
  host := by
    intro world world' worlds
    cases worlds
    rfl
  unmixed := by
    intro first second first' second' same same'
    cases same
    cases same'
    exact Iff.rfl
  fresh := by
    intro world world' worlds
    cases worlds
    exact ⟨rfl, rfl⟩
  print line := by
    intro world world' worlds
    cases worlds
    exact ⟨trivial, by simp [Run.print, printedBefore, World.precededBy]⟩
  lookup name := by
    intro within world world' worlds
    cases within
    cases worlds
    exact ⟨.refl_of_same _, rfl⟩
  define name := by
    intro within alike world world' worlds
    cases within
    cases worlds
    rw [alike.eq_of_same]
    exact ⟨trivial, rfl⟩
  assign name := by
    intro within alike world world' worlds
    cases within
    cases worlds
    rw [alike.eq_of_same]
    simp only [Run.assign, World.precededBy]
    cases world.heap.assign? _ name _ with
    | some heap => exact ⟨.refl_of_same _, rfl⟩
    | none => exact ⟨.refl_of_same _, rfl⟩
  enclose {scope _} := by
    intro within world world' worlds
    cases within
    cases worlds
    exact ⟨rfl, rfl⟩

theorem World.silenced_precededBy (world : World) : world.silenced.precededBy world.printed = world := by
  simp [silenced, precededBy]

theorem Program.eval_precededBy (program : Program) (depth : Nat) (scope : ScopeId) (lines : Array String) (world : World) :
    program.eval depth scope (world.precededBy lines) =
      ((program.eval depth scope world).1, (program.eval depth scope world).2.precededBy lines) := by
  have laws := Likeness.printedBefore_lawful lines
  have body := Stmt.evalAll_alike laws (invoke_alike laws depth) (rfl : scope = scope) (.plain .null) program.statements
  obtain ⟨answers, worlds⟩ := body.unwrapped world (world.precededBy lines) rfl
  exact Prod.ext answers.eq_of_same.symm worlds

/-! ### One evaluation -/

/-- A list of statements may be cut wherever no signal goes up. -/
theorem Stmt.evalAll_append (invoke : Invoke) (scope : ScopeId) {result : Value} (fine : result.isSignal = false)
    (first second : List Stmt) (world : World) :
    Stmt.evalAll invoke scope result (first ++ second) world =
      let (ending, after) := Stmt.evalAll invoke scope result first world
      if ending.isSignal then (ending, after) else Stmt.evalAll invoke scope ending second after := by
  induction first generalizing result world with
  | nil =>
    have none : Stmt.evalAll invoke scope result [] world = (result, world) := rfl
    simp [none, fine]
  | cons stmt first ih =>
    have stepped (stmts : List Stmt) : Stmt.evalAll invoke scope result (stmt :: stmts) world =
        (if (stmt.eval invoke scope world).1.isSignal then pure (stmt.eval invoke scope world).1
          else Stmt.evalAll invoke scope (stmt.eval invoke scope world).1 stmts) (stmt.eval invoke scope world).2 := by
      rw [Stmt.evalAll, Run.bind_apply]
    rw [List.cons_append, stepped, stepped]
    rcases stmt.eval invoke scope world with ⟨value, middle⟩
    dsimp only
    by_cases signal : value.isSignal = true
    · rw [if_pos signal, if_pos signal, Run.pure_apply]
      exact (if_pos signal).symm
    · rw [if_neg signal, if_neg signal]
      exact ih (Bool.eq_false_iff.mpr signal) middle

/-- What a list of statements answers does not depend on the value before it, unless the list is empty. -/
theorem Stmt.evalAll_result (invoke : Invoke) (scope : ScopeId) (result result' : Value) {stmts : List Stmt}
    (some_left : stmts ≠ []) : Stmt.evalAll invoke scope result stmts = Stmt.evalAll invoke scope result' stmts := by
  cases stmts with
  | nil => exact absurd rfl some_left
  | cons stmt stmts => rw [Stmt.evalAll, Stmt.evalAll]

theorem Value.unwrap_of_not_signal {value : Value} (fine : value.isSignal = false) : value.unwrap = value := by
  cases value <;> first | rfl | cases fine

/-- A program unwraps what its statements hand up. -/
theorem Program.eval_statements (statements : List Stmt) (depth : Nat) (scope : ScopeId) (world : World) :
    (Program.mk statements).eval depth scope world =
      let (ending, after) := (Node.stmt (.block statements)).eval depth scope world
      (ending.unwrap, after) := by
  rw [Node.eval, Stmt.eval]
  rfl

theorem Program.eval_append (first second : List Stmt) (depth : Nat) (scope : ScopeId) (world : World) :
    (Program.mk (first ++ second)).eval depth scope world =
      let (ending, after) := (Node.stmt (.block first)).eval depth scope world
      if ending.isSignal ∨ second = [] then (ending.unwrap, after) else (Program.mk second).eval depth scope after := by
  rw [eval_statements, Node.eval, Stmt.eval, Stmt.evalAll_append _ _ rfl, Node.eval, Stmt.eval]
  rcases Stmt.evalAll (invoke depth) scope .null first world with ⟨ending, after⟩
  dsimp only
  rw [eval_statements, Node.eval, Stmt.eval]
  cases signal : ending.isSignal with
  | true => simp
  | false =>
    by_cases none_left : second = []
    · subst none_left
      simp [Stmt.evalAll, Run.pure_apply]
    · rw [Stmt.evalAll_result _ _ ending .null none_left]
      simp [none_left]

/-! ### Sessions -/

/-- No list of statements but the last is left by a `return` outside all functions. Each is evaluated in the root scope where
the one before it has left off, and only if that did not fail. -/
def RunsOn (depth : Nat) : World → List (List Stmt) → Prop
  | _, [] | _, [_] => True
  | world, first :: second :: rest =>
    let (ending, after) := (Node.stmt (.block first)).eval depth World.root world
    (∀ value, ending ≠ .returned value) ∧ (ending.isSignal = false → RunsOn depth after.silenced (second :: rest))

namespace Session

/-- A source, with its number if it has one. -/
abbrev Source := String × Option Int

def Source.statements (source : Source) : List Stmt := (Program.parse source.1).1.statements

/-- Adds sources and runs them, one after another, up to the first that fails. -/
def feed : List Source → Action Session Unit
  | [] => return ()
  | source :: sources => do
    add source.1 source.2
    run
    feed sources

/-- How the run of a source ends that answers with this value. -/
def outcome : Value → Except Failure Unit
  | .error fault => .error (.ofFault fault)
  | _ => .ok ()

theorem outcome_of_fine {value : Value} (fine : ∀ fault, value ≠ .error fault) : outcome value = .ok () := by
  cases value with
  | error fault => exact absurd rfl (fine fault)
  | _ => rfl

/-- What a session is after evaluations that end in a world: what they printed is told, their scopes are kept, and nothing
waits to be run. -/
structure Carries (session : Session) (after : World) (done : Session) : Prop where
  world : done.world = after.silenced
  printed : done.console.printed = session.console.printed ++ outputText after
  queue : done.queue = []
  limit : done.limit? = session.limit?

variable {host : Host} {session : Session} {limit : Int} {source : Source} {after : World}

/-- A source that is accepted is run as soon as it is added. -/
theorem feed_accepted (idle : session.queue = []) (accepted : (Program.parse source.1).2 = []) (sources : List Source) :
    feed (source :: sources) session =
      (runUnit ⟨⟨source.statements⟩, source.1, source.2⟩ >>= fun _ => feed sources)
        { session.entered source.1 source.2 with
          queue := [], console := (session.entered source.1 source.2).console.enter (session.entered source.1 source.2).path .absent } := by
  have parsed : Program.parse source.1 = (⟨source.statements⟩, []) := Prod.ext rfl accepted
  rw [feed, Action.bind_apply, add_accepted parsed]
  dsimp only
  rw [Action.bind_apply, run_single (by rw [entered_queue, idle]; rfl), Action.bind_apply]

theorem feed_failed (stated : session.limit? = some limit) (idle : session.queue = [])
    (accepted : (Program.parse source.1).2 = []) {fault : Fault}
    (ran : (Program.mk source.statements).evaluate? limit World.root session.world = some (.error fault, after))
    (sources : List Source) :
    ∃ done, session.Carries after done ∧ feed (source :: sources) session = (outcome (.error fault), done) := by
  rw [feed_accepted idle accepted, Action.bind_apply, runUnit_failed (by simpa using stated) (by simpa using ran)]
  exact ⟨_, ⟨rfl, by simp [evaluated, Console.print, Console.enter], by simp [evaluated], by simp [evaluated]⟩, rfl⟩

theorem feed_finished (stated : session.limit? = some limit) (idle : session.queue = [])
    (accepted : (Program.parse source.1).2 = []) {value : Value}
    (ran : (Program.mk source.statements).evaluate? limit World.root session.world = some (value, after))
    (fine : ∀ fault, value ≠ .error fault) (sources : List Source) :
    ∃ done, session.Carries after done ∧ done.results = session.results ++ [value] ∧
      feed (source :: sources) session = feed sources done := by
  rw [feed_accepted idle accepted, Action.bind_apply, runUnit_finished (by simpa using stated) (by simpa using ran) fine]
  exact ⟨_, ⟨rfl, by simp [evaluated, Console.print, Console.enter], by simp [evaluated], by simp [evaluated]⟩,
    by simp [evaluated], rfl⟩

/-- The value of the last source, or the error of the one that failed, and the world that is left. -/
structure Computes (session : Session) (answer : Value × World) (last : List Stmt) (ended : Except Failure Unit × Session) :
    Prop where
  ends : ended.1 = outcome answer.1
  carries : session.Carries answer.2 ended.2
  result : ended.1 = .ok () → last ≠ [] → ended.2.results.getLast? = some answer.1

theorem feed_single (nonneg : 0 ≤ limit) (stated : session.limit? = some limit) (placed : session.world.host = host)
    (idle : session.queue = []) (accepted : (Program.parse source.1).2 = []) :
    session.Computes ((Program.mk source.statements).eval (min limit.toNat host.calls) World.root session.world)
      source.statements (feed [source] session) := by
  have ran := Program.evaluate?_of_nonneg nonneg ⟨source.statements⟩ World.root session.world
  rw [placed] at ran
  generalize (Program.mk source.statements).eval (min limit.toNat host.calls) World.root session.world = answer at ran ⊢
  obtain ⟨value, after⟩ := answer
  by_cases failed : ∃ fault, value = .error fault
  · obtain ⟨fault, rfl⟩ := failed
    obtain ⟨done, carries, ended⟩ := feed_failed stated idle accepted ran []
    rw [ended]
    exact ⟨rfl, carries, nofun⟩
  · have fine (fault : Fault) : value ≠ .error fault := fun same => failed ⟨fault, same⟩
    obtain ⟨done, carries, results, ended⟩ := feed_finished stated idle accepted ran fine []
    rw [ended, feed]
    refine ⟨(outcome_of_fine fine).symm, carries, fun _ _ => ?_⟩
    change done.results.getLast? = some value
    rw [results, List.getLast?_concat]

theorem outputText_precededBy (lines : Array String) (world : World) :
    outputText (world.precededBy lines) = lines.toList.map (fun line => .plain (line ++ "\n")) ++ outputText world := by
  simp [outputText, World.precededBy]

theorem Carries.trans {middle : World} {between done : Session} (first : session.Carries middle between)
    (second : between.Carries after done) : session.Carries (after.precededBy middle.printed) done where
  world := second.world
  printed := by
    rw [second.printed, first.printed, outputText_precededBy, List.append_assoc]
    rfl
  queue := second.queue
  limit := second.limit.trans first.limit

/-- What the statements of further sources compute, for the session that has run a first one. The world that the first leaves
differs from the one that the session goes on with in what was printed. -/
theorem Computes.behind {middle : World} {between : Session} {ending : Value} {rest last : List Stmt} {depth : Nat}
    {ended : Except Failure Unit × Session} (carries : session.Carries middle between) (fine : ∀ fault, ending ≠ .error fault)
    (none_last : rest = [] → last = [])
    (later : between.Computes ((Program.mk rest).eval depth World.root middle.silenced) last ended) :
    session.Computes (if rest = [] then (ending, middle) else (Program.mk rest).eval depth World.root middle) last ended := by
  have moved := Program.eval_precededBy ⟨rest⟩ depth World.root middle.printed middle.silenced
  have kept := carries.trans later.carries
  rw [World.silenced_precededBy] at moved
  split
  next none_left =>
    subst none_left
    have blank : (Program.mk []).eval depth World.root middle.silenced = (.null, middle.silenced) := rfl
    rw [blank] at later kept
    rw [World.silenced_precededBy] at kept
    exact ⟨later.ends.trans (outcome_of_fine fine).symm, kept, fun _ some_left => absurd (none_last rfl) some_left⟩
  next =>
    rw [moved]
    exact ⟨later.ends, kept, later.result⟩

/-- The induction is on the sources behind the first. -/
theorem feed_computes (nonneg : 0 ≤ limit) (sources : List Source) {source : Source} (stated : session.limit? = some limit)
    (placed : session.world.host = host) (idle : session.queue = [])
    (accepted : ∀ unit ∈ source :: sources, (Program.parse unit.1).2 = [])
    (runsOn : RunsOn (min limit.toNat host.calls) session.world ((source :: sources).map Source.statements)) :
    session.Computes
      ((Program.mk ((source :: sources).flatMap Source.statements)).eval (min limit.toNat host.calls) World.root session.world)
      ((source :: sources).getLast (List.cons_ne_nil _ _)).statements (feed (source :: sources) session) := by
  induction sources generalizing source session with
  | nil =>
    rw [List.flatMap_singleton]
    exact feed_single nonneg stated placed idle (accepted source List.mem_cons_self)
  | cons next sources ih =>
    obtain ⟨first, others⟩ := List.forall_mem_cons.mp accepted
    have ran := Program.evaluate?_of_nonneg nonneg ⟨source.statements⟩ World.root session.world
    have kept := (Node.stmt (.block source.statements)).eval_host (min limit.toNat host.calls) World.root session.world
    rw [placed, Program.eval_statements] at ran
    rw [List.flatMap_cons, Program.eval_append]
    simp only [List.map_cons, RunsOn] at runsOn
    generalize (Node.stmt (.block source.statements)).eval _ _ session.world = ended at ran kept runsOn ⊢
    obtain ⟨ending, middle⟩ := ended
    obtain ⟨noReturn, runsOn⟩ := runsOn
    dsimp only at ran ⊢
    cases signal : ending.isSignal with
    | true =>
      cases ending with
      | error fault =>
        obtain ⟨done, carries, ended⟩ := feed_failed stated idle first ran (next :: sources)
        rw [ended]
        exact ⟨rfl, carries, nofun⟩
      | returned value => exact absurd rfl (noReturn value)
      | _ => cases signal
    | false =>
      have fine (fault : Fault) : ending ≠ .error fault := by
        intro same
        rw [same] at signal
        cases signal
      rw [Value.unwrap_of_not_signal signal] at ran ⊢
      obtain ⟨between, carries, -, ended⟩ := feed_finished stated idle first ran fine (next :: sources)
      have later := ih (carries.limit.trans stated) (carries.world ▸ kept.trans placed) carries.queue others
        (carries.world ▸ runsOn signal)
      rw [carries.world] at later
      rw [ended, List.getLast_cons_cons]
      simp only [Bool.false_eq_true, false_or]
      refine .behind carries fine (fun none_left => ?_) later
      exact List.flatMap_eq_nil_iff.mp none_left _ (List.getLast_mem _)

/-- Sources that have one after another the statements of a whole source, for a session in which nothing waits. -/
structure CutInto (session : Session) (limit : Int) (whole : Source) (units : List Source) : Prop where
  stated : session.limit? = some limit
  idle : session.queue = []
  some_units : units ≠ []
  accepted : ∀ unit ∈ units, (Program.parse unit.1).2 = []
  whole : Program.parse whole.1 = (⟨units.flatMap Source.statements⟩, [])
  runsOn : RunsOn (min limit.toNat session.world.host.calls) session.world (units.map Source.statements)

/-- The session does not tell a whole source from its units: it fails alike, keeps the same scopes, and prints the same. The
last value is that of the last unit, if it has a statement. -/
structure FedAlike (session : Session) (whole : Source) (units : List Source) : Prop where
  ends : (feed units session).1 = (feed [whole] session).1
  world : (feed units session).2.world = (feed [whole] session).2.world
  printed : (feed units session).2.console.printed = (feed [whole] session).2.console.printed
  result : (feed units session).1 = .ok () → (∀ last, units.getLast? = some last → last.statements ≠ []) →
    (feed units session).2.results.getLast? = (feed [whole] session).2.results.getLast?

theorem CutInto.fedAlike (nonneg : 0 ≤ limit) {whole : Source} {units : List Source} (cut : session.CutInto limit whole units) :
    session.FedAlike whole units := by
  obtain ⟨first, others, rfl⟩ := List.exists_cons_of_ne_nil cut.some_units
  have fed := feed_computes nonneg others cut.stated rfl cut.idle cut.accepted cut.runsOn
  have accepted : (Program.parse whole.1).2 = [] := by rw [cut.whole]
  have statements : whole.statements = (first :: others).flatMap Source.statements := by
    rw [Source.statements, cut.whole]
  have file := feed_single nonneg cut.stated rfl cut.idle accepted
  rw [statements] at file
  refine ⟨fed.ends.trans file.ends.symm, fed.carries.world.trans file.carries.world.symm,
    fed.carries.printed.trans file.carries.printed.symm, fun finished some_last => ?_⟩
  have some_left : ((first :: others).getLast (List.cons_ne_nil _ _)).statements ≠ [] :=
    some_last _ (List.getLast?_eq_getLast_of_ne_nil _)
  refine (fed.result finished some_left).trans (file.result ((file.ends.trans fed.ends.symm).trans finished) ?_).symm
  intro none_left
  exact some_left (List.flatMap_eq_nil_iff.mp none_left _ (List.getLast_mem _))

end Session

/-- Statements may be cut into units anywhere. Behind a unit that is left by no signal the next one goes on from the world
that it leaves, and behind any other one nothing happens any more. So a session that is fed the units one by one comes to what
it comes to for the whole source. -/
theorem Program.units_compute_whole {limit : Int} (nonneg : 0 ≤ limit) :
    (∀ (first second : List Stmt) (scope : ScopeId) (world : World), ∃ ending after,
      (Node.stmt (.block first)).evaluate? limit scope world = some (ending, after) ∧
      (Program.mk first).evaluate? limit scope world = some (ending.unwrap, after) ∧
      (Program.mk (first ++ second)).evaluate? limit scope world =
        if ending.isSignal ∨ second = [] then some (ending.unwrap, after)
        else (Program.mk second).evaluate? limit scope after) ∧
    ∀ (session : Session) (whole : Session.Source) (units : List Session.Source),
      session.CutInto limit whole units → session.FedAlike whole units := by
  refine ⟨fun first second scope world => ?_, fun session whole units cut => cut.fedAlike nonneg⟩
  have block := Node.evaluate?_of_nonneg nonneg (.stmt (.block first)) scope world
  have alone := evaluate?_of_nonneg nonneg ⟨first⟩ scope world
  have whole := evaluate?_of_nonneg nonneg ⟨first ++ second⟩ scope world
  rw [Program.eval_statements] at alone
  rw [Program.eval_append] at whole
  have kept := (Node.stmt (.block first)).eval_host (min limit.toNat world.host.calls) scope world
  generalize (Node.stmt (.block first)).eval _ scope world = ended at block alone whole kept
  obtain ⟨ending, after⟩ := ended
  refine ⟨ending, after, block, alone, ?_⟩
  rw [whole]
  dsimp only
  split
  · rfl
  · rw [← kept]
    exact (evaluate?_of_nonneg nonneg ⟨second⟩ scope after).symm

/-- A function reads a name that only the next unit binds. -/
theorem Program.closure_units_compute_whole :
    let whole : Session.Source := ("let f = fn() \x7b y \x7d; let y = 1; print(f()); f()", none)
    let units : List Session.Source := [("let f = fn() \x7b y \x7d", some 1), ("let y = 1;", some 2), ("print(f()); f()", some 3)]
    let session := Session.initial .usual (.initial true) "<in>" (some 5)
    session.CutInto 5 whole units ∧ session.FedAlike whole units ∧
      (Session.feed units session).2.console.printed = [.plain "1\n"] := by
  intro whole units session
  have cut : session.CutInto 5 whole units := by
    refine ⟨rfl, rfl, List.cons_ne_nil _ _, ?_, ?_, ?_⟩
    · have all : (units.all fun unit => (parse unit.1).2.isEmpty) = true := by decide +kernel
      intro unit member
      exact List.isEmpty_iff.mp (List.all_eq_true.mp all unit member)
    · have silent : (parse whole.1).2.isEmpty = true := by decide +kernel
      exact Prod.ext (by decide +kernel) (List.isEmpty_iff.mp silent)
    · have ends (world : World) (statements : List Stmt) (kind : Value.Kind) (other : kind ≠ .returned)
          (found : ((Node.stmt (.block statements)).eval 5 World.root world).1.kind = kind) :
          ∀ value, ((Node.stmt (.block statements)).eval 5 World.root world).1 ≠ .returned value := by
        intro value same
        rw [same] at found
        exact other found.symm
      refine ⟨ends _ _ .null (by decide) (by decide +kernel), fun _ => ?_⟩
      exact ⟨ends _ _ .null (by decide) (by decide +kernel), fun _ => trivial⟩
  have alike := (units_compute_whole (by decide : (0 : Int) ≤ 5)).2 session whole units cut
  refine ⟨cut, alike, ?_⟩
  rw [alike.printed]
  decide +kernel

end Treewalk
