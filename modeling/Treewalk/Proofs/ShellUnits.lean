import Treewalk.CommandLine
import Treewalk.Proofs.CallDepth

/-! What a shell does is what the evaluator does with its units. Between two lines a shell is idle: nothing is queued, no
value waits to be printed, and no unit is current, however the last unit ended. So only the root scope, the lines of an
entry that is not complete, and their number carry over. -/

namespace Treewalk

/-- Lines of an entry as one source. -/
def joined (lines : List String) : String := "\n".intercalate lines

theorem joined_append {front back : List String} (some_left : front ≠ []) (more : back ≠ []) :
    joined (front ++ back) = joined front ++ "\n" ++ joined back := String.intercalate_append_of_ne_nil some_left more

theorem joined_ne_empty {lines : List String} (some_left : lines ≠ []) (nonempty : ∀ line ∈ lines, line ≠ "") :
    joined lines ≠ "" := by
  obtain ⟨first, others, rfl⟩ := List.exists_cons_of_ne_nil some_left
  have front := nonempty first List.mem_cons_self
  cases others with
  | nil => simpa [joined] using front
  | cons second others =>
    intro empty
    simp only [joined, String.intercalate_cons_cons, String.append_eq_empty_iff] at empty
    exact front empty.1.1

/-! ### Units -/

/-- A complete entry, of which no beginning is complete. -/
structure IsUnit (lines : List String) : Prop where
  some_left : lines ≠ []
  complete : needsContinuation (joined lines) = false
  shortest : ∀ front back, lines = front ++ back → front ≠ [] → back ≠ [] → needsContinuation (joined front) = true

/-- Lines of which no beginning is a complete entry. -/
def Unfinished (lines : List String) : Prop :=
  ∀ front back, lines = front ++ back → front ≠ [] → needsContinuation (joined front) = true

theorem Unfinished.not_isUnit {lines front back : List String} (unfinished : Unfinished lines)
    (same : lines = front ++ back) : ¬ IsUnit front := by
  intro complete
  have more := unfinished front back same complete.some_left
  rw [complete.complete] at more
  cases more

theorem IsUnit.eq_nil_of_append {front back : List String} (whole : IsUnit (front ++ back)) (complete : IsUnit front) :
    back = [] := by
  refine Classical.byContradiction fun some_left => ?_
  have more := whole.shortest front back rfl complete.some_left some_left
  rw [complete.complete] at more
  cases more

theorem IsUnit.eq_of_append {first second back back' : List String} (unit : IsUnit first) (unit' : IsUnit second)
    (same : first ++ back = second ++ back') : first = second := by
  rcases List.append_eq_append_iff.mp same with ⟨more, rfl, -⟩ | ⟨more, rfl, -⟩
  · rw [unit'.eq_nil_of_append unit, List.append_nil]
  · rw [unit.eq_nil_of_append unit', List.append_nil]

/-- Lines cut from the left into units, and what is left of them in the end. -/
structure Cut (lines : List String) (units : List (List String)) (rest : List String) : Prop where
  whole : units.flatten ++ rest = lines
  units : ∀ unit ∈ units, IsUnit unit
  rest : Unfinished rest

namespace Cut

variable {lines rest : List String} {units : List (List String)} {line : String}

theorem nil : Cut [] [] [] := by
  refine ⟨rfl, by simp, fun front back same some_left => ?_⟩
  exact absurd (List.append_eq_nil_iff.mp same.symm).1 some_left

/-- The beginnings of lines with one more behind them. -/
theorem front_of_concat {front back : List String} (same : rest ++ [line] = front ++ back) :
    front = rest ++ [line] ∨ ∃ more, rest = front ++ more := by
  rcases List.append_eq_append_iff.mp same with ⟨more, rfl, last⟩ | ⟨more, rfl, -⟩
  · rcases List.append_eq_cons_iff.mp last.symm with ⟨rfl, -⟩ | ⟨_, rfl, none⟩
    · exact Or.inr ⟨[], by simp⟩
    · rw [(List.append_eq_nil_iff.mp none.symm).1]
      exact Or.inl rfl
  · exact Or.inr ⟨more, rfl⟩

theorem continued (cut : Cut lines units rest) (line : String) (more : needsContinuation (joined (rest ++ [line])) = true) :
    Cut (lines ++ [line]) units (rest ++ [line]) := by
  refine ⟨by rw [← cut.whole, List.append_assoc], cut.units, fun front back same some_left => ?_⟩
  rcases front_of_concat same with rfl | ⟨between, rfl⟩
  · exact more
  · exact cut.rest front between rfl some_left

theorem completed (cut : Cut lines units rest) (line : String)
    (complete : needsContinuation (joined (rest ++ [line])) = false) : Cut (lines ++ [line]) (units ++ [rest ++ [line]]) [] := by
  refine ⟨by simp [← cut.whole], ?_, nil.rest⟩
  rw [List.forall_mem_append]
  refine ⟨cut.units, List.forall_mem_singleton.mpr ⟨by simp, complete, fun front back same some_left more => ?_⟩⟩
  rcases front_of_concat same with rfl | ⟨between, rfl⟩
  · exact absurd (by simpa using same) more
  · exact cut.rest front between rfl some_left

/-- There is only one way to cut lines into units. -/
theorem unique {units' : List (List String)} {rest' : List String} (cut : Cut lines units rest)
    (cut' : Cut lines units' rest') : units = units' ∧ rest = rest' := by
  induction units generalizing lines units' with
  | nil =>
    cases units' with
    | nil => exact ⟨rfl, cut.whole.trans cut'.whole.symm⟩
    | cons unit others =>
      obtain ⟨first, -⟩ := List.forall_mem_cons.mp cut'.units
      exact absurd first (cut.rest.not_isUnit (by simpa using cut.whole.trans cut'.whole.symm))
  | cons unit others ih =>
    obtain ⟨first, more⟩ := List.forall_mem_cons.mp cut.units
    cases units' with
    | nil => exact absurd first (cut'.rest.not_isUnit (by simpa using cut'.whole.trans cut.whole.symm))
    | cons unit' others' =>
      obtain ⟨first', more'⟩ := List.forall_mem_cons.mp cut'.units
      have same : unit ++ (others.flatten ++ rest) = unit' ++ (others'.flatten ++ rest') := by
        simpa using cut.whole.trans cut'.whole.symm
      obtain rfl := first.eq_of_append first' same
      obtain ⟨rfl, rfl⟩ := ih ⟨List.append_cancel_left same, more, cut.rest⟩ ⟨rfl, more', cut'.rest⟩
      exact ⟨rfl, rfl⟩

end Cut

/-! ### Actions on sessions -/

theorem Action.bind_apply {σ α β : Type} (first : Action σ α) (next : α → Action σ β) (state : σ) :
    (first >>= next) state = match first state with
      | (.ok value, after) => next value after
      | (.error failure, after) => (.error failure, after) := by
  change (match (first state).1, (first state).2 with | r, s => ExceptT.bindCont next r s) = _
  rcases first state with ⟨_ | _, after⟩ <;> rfl

namespace Session

/-- The output of a program, line by line. -/
def outputText (world : World) : StyledText := world.printed.toList.map fun line => .plain (line ++ "\n")

def entered (source : String) (number? : Option Int) (session : Session) : Session :=
  match number? with
  | none => session
  | some number => { session with console := session.console.enter session.path ⟨some source, some number⟩ }

@[simp] theorem entered_limit? (source : String) (number? : Option Int) (session : Session) :
    (session.entered source number?).limit? = session.limit? := by
  cases number? <;> rfl

@[simp] theorem entered_world (source : String) (number? : Option Int) (session : Session) :
    (session.entered source number?).world = session.world := by
  cases number? <;> rfl

@[simp] theorem entered_queue (source : String) (number? : Option Int) (session : Session) :
    (session.entered source number?).queue = session.queue := by
  cases number? <;> rfl

@[simp] theorem entered_results (source : String) (number? : Option Int) (session : Session) :
    (session.entered source number?).results = session.results := by
  cases number? <;> rfl

@[simp] theorem entered_printed (source : String) (number? : Option Int) (session : Session) :
    (session.entered source number?).console.printed = session.console.printed := by
  cases number? <;> rfl

theorem enterNumbered_eq (source : String) (number? : Option Int) (session : Session) :
    enterNumbered source number? session = (.ok (), session.entered source number?) := by
  cases number? <;> rfl

/-- A session after it has evaluated a program. -/
def evaluated (after : World) (session : Session) : Session :=
  { session with world := after.silenced, console := session.console.print (outputText after) }

theorem evaluate_eq {session : Session} {limit : Int} {program : Program} {value : Value} {after : World}
    (stated : session.limit? = some limit) (ran : program.evaluate? limit World.root session.world = some (value, after)) :
    evaluate program session = (.ok value, session.evaluated after) := by
  simp only [evaluate, stated, ran, evaluated, outputText]

variable {session : Session} {limit : Int} {unit : QueuedUnit} {after : World}

theorem runUnit_failed {fault : Fault} (stated : session.limit? = some limit)
    (ran : unit.program.evaluate? limit World.root session.world = some (.error fault, after)) :
    runUnit unit session = (.error (.ofFault fault), (session.entered unit.source unit.number?).evaluated after) := by
  rw [runUnit, Action.bind_apply, enterNumbered_eq]
  dsimp only
  rw [Action.bind_apply, evaluate_eq (by simpa using stated) (by simpa using ran)]
  rfl

theorem runUnit_finished {value : Value} (stated : session.limit? = some limit)
    (ran : unit.program.evaluate? limit World.root session.world = some (value, after))
    (fine : ∀ fault, value ≠ .error fault) : runUnit unit session =
      let done := (session.entered unit.source unit.number?).evaluated after
      (.ok (), { done with results := done.results ++ [value], console := done.console.enter done.path .absent }) := by
  rw [runUnit, Action.bind_apply, enterNumbered_eq]
  dsimp only
  rw [Action.bind_apply, evaluate_eq (by simpa using stated) (by simpa using ran)]
  cases value with
  | error fault => exact absurd rfl (fine fault)
  | _ => rfl

theorem run_single (queued : session.queue = [unit]) : run session = runUnit unit { session with queue := [] } := by
  rw [run, Action.bind_apply]
  change runUnits session.queue session = _
  rw [queued, runUnits, Action.bind_apply]
  change (runUnit unit >>= fun _ => runUnits []) { session with queue := [] } = _
  rw [Action.bind_apply]
  rcases runUnit unit { session with queue := [] } with ⟨_ | _, after⟩ <;> rfl

theorem add_accepted {program : Program} {source : String} (parsed : Program.parse source = (program, []))
    (number? : Option Int) : add source number? session =
      let entered := session.entered source number?
      (.ok (), { entered with
        queue := entered.queue ++ [⟨program, source, number?⟩], console := entered.console.enter entered.path .absent }) := by
  rw [add, Action.bind_apply, enterNumbered_eq]
  simp only [parsed]
  rfl

theorem add_refused {program : Program} {source : String} {diagnostics : List Diagnostic}
    (parsed : Program.parse source = (program, diagnostics)) (faulty : diagnostics ≠ []) (number? : Option Int) :
    add source number? session =
      let entered := session.entered source number?
      (.error (.complaint (.syntaxErrors diagnostics.length)),
        { entered with console := entered.console.warnAll (diagnostics.map Diagnostic.message) }) := by
  obtain ⟨first, others, rfl⟩ := List.exists_cons_of_ne_nil faulty
  rw [add, Action.bind_apply, enterNumbered_eq]
  simp only [parsed]
  rfl

/-- A result is gone once it has been asked for, even when there is no room for its text. -/
theorem printResult_single {value : Value} (held : session.results = [value]) :
    printResult session =
      if value.levels ≤ session.world.host.levels then
        (.ok (), { session with results := [], console := session.console.printLine [.plain value.inspect] })
      else (.error .nestingTooDeep, { session with results := [] }) := by
  rw [printResult, Action.bind_apply]
  change (if session.results.isEmpty then pure () else pop >>= fun text => onConsole (·.printLine [.plain text]) :
    Action Session Unit) session = _
  rw [held, if_neg (by simp), Action.bind_apply]
  simp only [pop, held, List.getLast?_singleton, Host.compose]
  by_cases room : value.levels ≤ session.world.host.levels
  · simp only [if_pos room]
    rfl
  · simp only [if_neg room]
    rfl

end Session

/-! ### What a unit does and says -/

/-- The complaint that a fault is reported with. -/
def Fault.complaint : Fault → Complaint
  | .unencodable halves => .unexpected (.unencodable halves)
  | fault => .evaluationFailed fault

/-- How work ends that was guarded, after an evaluation with this answer. Only what nobody planned for gets past the console. -/
def Value.verdict : Value → Except Failure Unit
  | .error (.unencodable halves) => .error (.unexpected (.unencodable halves))
  | _ => .ok ()

/-- A source that is read without a diagnostic. -/
def Program.accepts (source : String) : Bool := (parse source).2.isEmpty

/-- What evaluating a source leaves behind. Under a limit that is refused nothing happens. -/
def Program.worldAfter (limit : Int) (world : World) (source : String) : World :=
  match (parse source).1.evaluate? limit World.root world with
  | some (_, after) => after.silenced
  | none => world

def Diagnostic.warningText (number : Int) (diagnostic : Diagnostic) : StyledText :=
  [.bold ("<in>:" ++ toString number ++ ": "), ⟨.boldMagenta, "warning: "⟩, .plain diagnostic.message, .plain "\n"]

def Complaint.errorText (number : Int) (source : String) (complaint : Complaint) : StyledText :=
  [.plain ("Traceback:\n  File '<in>', line " ++ toString number ++ ":\n    " ++ strip source ++ "\n")]
    ++ (if complaint.isInternal then [⟨.boldRed, "[internal] "⟩] else []) ++ [⟨.boldRed, "error: "⟩] ++ complaint.message
    ++ [.plain "\n"]

/-- What is printed in place of a text that there is no room for. The unit is over by then, so that no unit is named. -/
def tooDeepText : StyledText := [.plain "", ⟨.boldRed, "error: "⟩, .plain "maximum nesting depth exceeded", .plain "\n"]

/-- A value as it is printed where a text may have so many levels. -/
def Value.echo (levels : Nat) (value : Value) : StyledText :=
  if value.levels ≤ levels then [.plain value.inspect, .plain "\n"] else tooDeepText

/-- What is printed after the output of a program. -/
def Value.closingText (levels : Nat) (number : Int) (source : String) : Value → StyledText
  | .error fault => fault.complaint.errorText number source
  | value => value.echo levels

theorem Value.closingText_of_fine {value : Value} (fine : ∀ fault, value ≠ .error fault) (levels : Nat) (number : Int)
    (source : String) : value.closingText levels number source = value.echo levels := by
  cases value with
  | error fault => exact absurd rfl (fine fault)
  | _ => rfl

theorem Value.verdict_of_fine {value : Value} (fine : ∀ fault, value ≠ .error fault) : value.verdict = .ok () := by
  cases value with
  | error fault => exact absurd rfl (fine fault)
  | _ => rfl

/-- What is printed about a unit whose last line has this number. -/
def unitText (limit : Int) (world : World) (source : String) (number : Int) : StyledText :=
  match Program.parse source with
  | (program, []) =>
    match program.evaluate? limit World.root world with
    | none => []
    | some (value, after) => Session.outputText after ++ value.closingText after.host.levels number source
  | (_, diagnostics) =>
    diagnostics.flatMap (Diagnostic.warningText number) ++
      Complaint.errorText number source (.syntaxErrors diagnostics.length)

/-- How a unit ends for whoever runs it. A source with mistakes is dealt with by telling them. -/
def unitVerdict (limit : Int) (world : World) (source : String) : Except Failure Unit :=
  match Program.parse source with
  | (program, []) =>
    match program.evaluate? limit World.root world with
    | none => .ok ()
    | some (value, _) => value.verdict
  | _ => .ok ()

/-! ### The idle shell -/

/-- A session at a prompt. -/
def Session.idle (limit? : Option Int) (world : World) (printed : StyledText) : Session :=
  ⟨⟨false, [(promptPath, .absent)], printed⟩, promptPath, limit?, world, [], []⟩

namespace Shell

theorem warnAll_printed (console : Console) (messages : List String) :
    console.warnAll messages = { console with
      printed := console.printed ++ messages.flatMap fun message =>
        [.bold console.trace.location, ⟨.boldMagenta, "warning: "⟩, .plain message, .plain "\n"] } := by
  unfold Console.warnAll
  induction messages generalizing console with
  | nil => simp
  | cons message messages ih =>
    rw [List.foldl_cons, ih]
    simp [Console.warn, Console.printLine, Console.print]

variable {limit? : Option Int} {limit : Int} {world : World} {printed : StyledText} {source : String} {number : Int}

/-- A session while the unit of this source and number is current. -/
def working (source : String) (number : Int) (limit? : Option Int) (world : World) (printed : StyledText) : Session :=
  { Session.idle limit? world printed with console := ⟨false, [(Session.promptPath, ⟨some source, some number⟩)], printed⟩ }

/-- The report of a complaint about the current unit. -/
theorem complaintText_working (source : String) (number : Int) (complaint : Complaint) :
    Console.complaintText [(Session.promptPath, ⟨some source, some number⟩)] complaint ++ [.plain "\n"] =
      complaint.errorText number source := by
  have summary : Trace.summary [(Session.promptPath, ⟨some source, some number⟩)] =
      "Traceback:\n  File '<in>', line " ++ toString number ++ ":\n    " ++ strip source ++ "\n" := by
    simp [Trace.summary, Trace.entryText, SourceUnit.numberText, Session.promptPath, String.join, ← String.toList_inj]
  simp [Console.complaintText, summary, Complaint.errorText]

/-- A complaint about the current unit leaves no unit current. -/
theorem settle_complaint (complaint : Complaint) :
    Session.settle (.error (.complaint complaint)) (working source number limit? world printed) =
      (.ok (), .idle limit? world (printed ++ complaint.errorText number source)) := by
  rw [← complaintText_working]
  rfl

/-- Every fault of the current unit is told; one that nobody planned for goes on. -/
theorem settle_fault (fault : Fault) :
    Session.settle (.error (.ofFault fault)) (working source number limit? world printed) =
      ((Value.error fault).verdict, .idle limit? world (printed ++ fault.complaint.errorText number source)) := by
  rw [← complaintText_working]
  cases fault <;> rfl

theorem runEntry_refused {program : Program} {diagnostics : List Diagnostic}
    (parsed : Program.parse source = (program, diagnostics)) (faulty : diagnostics ≠ []) :
    runEntry source number (.idle limit? world printed) =
      (.error (.complaint (.syntaxErrors diagnostics.length)),
        working source number limit? world (printed ++ diagnostics.flatMap (Diagnostic.warningText number))) := by
  rw [runEntry, Action.bind_apply, Session.add_refused parsed faulty]
  have place : Trace.location [(Session.promptPath, ⟨some source, some number⟩)] = "<in>:" ++ toString number ++ ": " := by
    simp [Trace.location, SourceUnit.numberText, Session.promptPath]
  have warned : (Console.mk false [(Session.promptPath, ⟨some source, some number⟩)] printed).warnAll
      (diagnostics.map Diagnostic.message) = ⟨false, [(Session.promptPath, ⟨some source, some number⟩)],
        printed ++ diagnostics.flatMap (Diagnostic.warningText number)⟩ := by
    rw [warnAll_printed, List.flatMap_map, place]
    rfl
  rw [working, ← warned]
  rfl

theorem runEntry_accepted {program : Program} (parsed : Program.parse source = (program, [])) :
    runEntry source number (.idle limit? world printed) =
      (Session.runUnit ⟨program, source, some number⟩ >>= fun _ => Session.printResult) (.idle limit? world printed) := by
  rw [runEntry, Action.bind_apply, Session.add_accepted parsed]
  dsimp only
  rw [Action.bind_apply, Session.run_single (by rfl), Action.bind_apply]
  rfl

theorem runEntry_failed {program : Program} {fault : Fault} {after : World} (parsed : Program.parse source = (program, []))
    (ran : program.evaluate? limit World.root world = some (.error fault, after)) :
    runEntry source number (.idle limit world printed) =
      (.error (.ofFault fault), working source number limit after.silenced (printed ++ Session.outputText after)) := by
  rw [runEntry_accepted parsed, Action.bind_apply, Session.runUnit_failed (by rfl) ran]
  rfl

theorem runEntry_finished {program : Program} {value : Value} {after : World} (parsed : Program.parse source = (program, []))
    (ran : program.evaluate? limit World.root world = some (value, after)) (fine : ∀ fault, value ≠ .error fault) :
    runEntry source number (.idle limit world printed) =
      Session.printResult { Session.idle limit after.silenced (printed ++ Session.outputText after) with results := [value] } := by
  rw [runEntry_accepted parsed, Action.bind_apply, Session.runUnit_finished (by rfl) ran fine]
  rfl

/-- Room or no room, a result is shown in some way, and none is left. -/
theorem settle_printResult (limit? : Option Int) (world : World) (printed : StyledText) (value : Value) :
    Session.guarded Session.printResult { Session.idle limit? world printed with results := [value] } =
      (.ok (), .idle limit? world (printed ++ value.echo world.host.levels)) := by
  rw [Session.guarded, Session.printResult_single (by rfl), Value.echo]
  by_cases room : value.levels ≤ world.host.levels
  · rw [if_pos (by exact room), if_pos room]
    rfl
  · rw [if_neg (by exact room), if_neg room]
    rfl

theorem guarded_runEntry (nonneg : 0 ≤ limit) (world : World) (printed : StyledText) (source : String) (number : Int) :
    Session.guarded (runEntry source number) (.idle limit world printed) =
      (unitVerdict limit world source,
        .idle limit (if Program.accepts source then Program.worldAfter limit world source else world)
          (printed ++ unitText limit world source number)) := by
  cases parsed : Program.parse source with
  | mk program diagnostics =>
    by_cases faultless : diagnostics = []
    · subst faultless
      have ran := Program.evaluate?_of_nonneg nonneg program World.root world
      generalize program.eval _ World.root world = result at ran
      obtain ⟨value, after⟩ := result
      have accepted : Program.accepts source = true := by simp [Program.accepts, parsed]
      have left : Program.worldAfter limit world source = after.silenced := by simp [Program.worldAfter, parsed, ran]
      have verdict : unitVerdict limit world source = value.verdict := by simp [unitVerdict, parsed, ran]
      have text : unitText limit world source number =
          Session.outputText after ++ value.closingText after.host.levels number source := by
        simp [unitText, parsed, ran]
      rw [if_pos accepted, left, text, verdict, ← List.append_assoc]
      by_cases failed : ∃ fault, value = .error fault
      · obtain ⟨fault, rfl⟩ := failed
        rw [Session.guarded, runEntry_failed parsed ran]
        exact settle_fault fault
      · have fine (fault : Fault) : value ≠ .error fault := fun same => failed ⟨fault, same⟩
        rw [value.verdict_of_fine fine, value.closingText_of_fine fine, Session.guarded, runEntry_finished parsed ran fine]
        exact settle_printResult limit after.silenced _ value
    · have text : unitText limit world source number = diagnostics.flatMap (Diagnostic.warningText number) ++
          Complaint.errorText number source (.syntaxErrors diagnostics.length) := by
        simp [unitText, parsed]
      have verdict : unitVerdict limit world source = .ok () := by
        obtain ⟨first, others, rfl⟩ := List.exists_cons_of_ne_nil faultless
        simp [unitVerdict, parsed]
      have refused : Program.accepts source = false := by simpa [Program.accepts, parsed] using faultless
      rw [refused, text, verdict, ← List.append_assoc, Session.guarded, runEntry_refused parsed faultless]
      exact settle_complaint _

/-! ### Lines -/

/-- The line of an entry that a request holds, if it does. -/
def Request.line? : Request → Option String
  | .entry line => some line
  | _ => none

def Request.stops : Request → Bool
  | .exit | .endOfInput => true
  | _ => false

/-- The lines of entries among all lines, as they are taken. -/
def entries (lines : List String) : List String := lines.filterMap fun line => (Request.ofLine line).line?

theorem entries_concat (lines : List String) (line : String) :
    entries (lines ++ [line]) = entries lines ++ (Request.ofLine line).line?.toList := by
  rw [entries, List.filterMap_append]
  cases asked : (Request.ofLine line).line? <;> simp [entries, asked]

theorem Request.eq_of_entry {line entry : String} (asked : ofLine line = .entry entry) : entry = strip line ∧ entry ≠ "" := by
  simp only [ofLine] at asked
  split at asked
  next => cases asked
  next => cases asked
  next some_left _ =>
    split at asked
    next => cases asked
    next => cases asked
    next => cases asked
    next =>
      cases asked
      refine ⟨rfl, fun empty => some_left ?_⟩
      rw [empty]
      rfl

theorem nonempty_of_mem_entries (lines : List String) : ∀ line ∈ entries lines, line ≠ "" := by
  intro line inside
  obtain ⟨given, -, found⟩ := List.mem_filterMap.mp inside
  cases asked : Request.ofLine given with
  | entry entry =>
    rw [asked] at found
    obtain rfl := Option.some.inj found
    exact (Request.eq_of_entry asked).2
  | _ => simp [asked, Request.line?] at found

/-- The shell after it has been given some lines. -/
def after (shell : Shell) : List String → Shell
  | [] => shell
  | line :: lines => after (onLine line shell).2 lines

/-- What is left in the root scope by those units that are read without mistakes, each evaluated where the one before it
has left off. -/
def worldOf (host : Host) (limit : Int) (units : List (List String)) : World :=
  ((units.map joined).filter Program.accepts).foldl (Program.worldAfter limit) (.initial host)

theorem worldOf_concat (host : Host) (limit : Int) (units : List (List String)) (unit : List String) :
    worldOf host limit (units ++ [unit]) =
      if Program.accepts (joined unit) then Program.worldAfter limit (worldOf host limit units) (joined unit)
      else worldOf host limit units := by
  rw [worldOf, List.map_append, List.filter_append, List.foldl_append]
  cases accepted : Program.accepts (joined unit) <;> simp [accepted, worldOf]

/-- What is printed when a request comes with these lines before it. -/
def replyText (limit : Int) (world : World) (rest : List String) (number : Int) : Request → StyledText
  | .nothing | .exit => []
  | .help => [.plain help, .plain "\n"]
  | .endOfInput => [.plain "", .plain "\n"]
  | .entry line =>
    if needsContinuation (joined (rest ++ [line])) then [] else unitText limit world (joined (rest ++ [line])) number

/-- How a request ends that comes with these lines before it. -/
def replyVerdict (limit : Int) (world : World) (rest : List String) : Request → Except Failure Bool
  | .entry line =>
    if needsContinuation (joined (rest ++ [line])) then .ok false
    else (unitVerdict limit world (joined (rest ++ [line]))).map fun _ => false
  | request => .ok request.stops

/-- The prompt for the line behind these, which are no unit yet. -/
def promptBehind (rest : List String) : String := if rest.isEmpty then firstPrompt else continuationPrompt

variable {rest : List String} {count : Nat}

/-- A line of an entry is put behind what is pending. What they make is run once it is complete. -/
theorem takeEntry_eq (line : String) (shell : Shell) :
    takeEntry line shell =
      let source := if shell.pending.isEmpty then line else shell.pending ++ "\n" ++ line
      if needsContinuation source then (.ok (), ⟨shell.session, source, shell.lineNumber + 1, continuationPrompt⟩)
      else onSession (Session.guarded (runEntry source (shell.lineNumber + 1 : Nat)))
        ⟨shell.session, "", shell.lineNumber + 1, firstPrompt⟩ := by
  rw [takeEntry, Action.bind_apply]
  change (if needsContinuation (if shell.pending.isEmpty then line else shell.pending ++ "\n" ++ line) then _ else _ :
    Action Shell Unit) shell = _
  dsimp only
  generalize (if shell.pending.isEmpty then line else shell.pending ++ "\n" ++ line) = source
  split
  next => rfl
  next =>
    rw [Action.bind_apply]
    rfl

theorem takeEntry_apply (session : Session) (nonempty : ∀ line ∈ rest, line ≠ "") (count : Nat) (prompt line : String) :
    takeEntry line ⟨session, joined rest, count, prompt⟩ =
      if needsContinuation (joined (rest ++ [line])) then
        (.ok (), ⟨session, joined (rest ++ [line]), count + 1, promptBehind (rest ++ [line])⟩)
      else
        let (outcome, after) := Session.guarded (runEntry (joined (rest ++ [line])) (count + 1 : Nat)) session
        (outcome, ⟨after, "", count + 1, firstPrompt⟩) := by
  have source : (if (joined rest).isEmpty then line else joined rest ++ "\n" ++ line) = joined (rest ++ [line]) := by
    by_cases none_left : rest = []
    · subst none_left
      simp [joined]
    · have some_text := joined_ne_empty none_left nonempty
      rw [joined_append none_left (by simp), if_neg (by simpa using some_text), joined, joined, String.intercalate_singleton]
  have prompt : promptBehind (rest ++ [line]) = continuationPrompt := by simp [promptBehind]
  rw [takeEntry_eq, source, prompt]
  rfl

theorem takeEntry_idle (nonneg : 0 ≤ limit) (nonempty : ∀ line ∈ rest, line ≠ "") (line : String) :
    takeEntry line ⟨.idle limit world printed, joined rest, count, promptBehind rest⟩ =
      if needsContinuation (joined (rest ++ [line])) then
        (.ok (), ⟨.idle limit world printed, joined (rest ++ [line]), count + 1, promptBehind (rest ++ [line])⟩)
      else
        (unitVerdict limit world (joined (rest ++ [line])),
          ⟨.idle limit (if Program.accepts (joined (rest ++ [line])) then
              Program.worldAfter limit world (joined (rest ++ [line])) else world)
            (printed ++ unitText limit world (joined (rest ++ [line])) (count + 1 : Nat)), "", count + 1, firstPrompt⟩) := by
  rw [takeEntry_apply _ nonempty, guarded_runEntry nonneg]

/-- What a line does to an idle shell. -/
def idleAfter (limit : Int) (world : World) (printed : StyledText) (rest : List String) (count : Nat) (request : Request) :
    Shell :=
  let said := printed ++ replyText limit world rest (count + 1 : Nat) request
  match request with
  | .entry line =>
    if needsContinuation (joined (rest ++ [line])) then
      ⟨.idle limit world said, joined (rest ++ [line]), count + 1, promptBehind (rest ++ [line])⟩
    else
      ⟨.idle limit (if Program.accepts (joined (rest ++ [line])) then
        Program.worldAfter limit world (joined (rest ++ [line])) else world) said, "", count + 1, firstPrompt⟩
  | _ => ⟨.idle limit world said, joined rest, count, promptBehind rest⟩

theorem idleAfter_printed (limit : Int) (world : World) (printed : StyledText) (rest : List String) (count : Nat)
    (request : Request) :
    (idleAfter limit world printed rest count request).session.console.printed =
      printed ++ replyText limit world rest (count + 1 : Nat) request := by
  cases request with
  | entry line =>
    dsimp only [idleAfter]
    split <;> rfl
  | _ => rfl

theorem perform_idle (nonneg : 0 ≤ limit) (nonempty : ∀ line ∈ rest, line ≠ "") (request : Request) :
    perform request ⟨.idle limit world printed, joined rest, count, promptBehind rest⟩ =
      (replyVerdict limit world rest request, idleAfter limit world printed rest count request) := by
  cases request with
  | nothing => simp [perform, idleAfter, replyText, replyVerdict, Request.stops]; rfl
  | help => rfl
  | exit => simp [perform, idleAfter, replyText, replyVerdict, Request.stops]; rfl
  | endOfInput => rfl
  | entry line =>
    rw [perform, Action.bind_apply, takeEntry_idle nonneg nonempty]
    dsimp only [idleAfter, replyText, replyVerdict]
    by_cases more : needsContinuation (joined (rest ++ [line])) = true
    · simp only [if_pos more, List.append_nil]
      rfl
    · simp only [if_neg more]
      cases unitVerdict limit world (joined (rest ++ [line])) <;> rfl

theorem nonempty_of_cut {lines : List String} {units : List (List String)} (cut : Cut (entries lines) units rest) :
    ∀ line ∈ rest, line ≠ "" := fun line member =>
  nonempty_of_mem_entries lines line (cut.whole ▸ List.mem_append_right _ member)

/-- A line is taken from one idle shell to the next. -/
theorem onLine_idle (nonneg : 0 ≤ limit) (host : Host) {lines : List String} {units : List (List String)}
    (cut : Cut (entries lines) units rest) (printed : StyledText) (line : String) :
    ∃ units' rest' printed', Cut (entries (lines ++ [line])) units' rest' ∧
      (onLine line ⟨.idle limit (worldOf host limit units) printed, joined rest, (entries lines).length, promptBehind rest⟩).2 =
        ⟨.idle limit (worldOf host limit units') printed', joined rest', (entries (lines ++ [line])).length,
          promptBehind rest'⟩ := by
  rw [onLine, perform_idle nonneg (nonempty_of_cut cut)]
  let said := printed ++
    replyText limit (worldOf host limit units) rest ((entries lines).length + 1 : Nat) (Request.ofLine line)
  rw [entries_concat]
  cases asked : Request.ofLine line with
  | entry entry =>
    simp only [idleAfter, Request.line?, Option.toList_some, List.length_append, List.length_singleton]
    split
    next unfinished => exact ⟨_, _, _, cut.continued entry unfinished, rfl⟩
    next complete =>
      refine ⟨_, _, said, cut.completed entry (Bool.eq_false_iff.mpr complete), ?_⟩
      rw [worldOf_concat]
      simp only [said, asked]
      rfl
  | _ => exact ⟨units, rest, said, by simpa [Request.line?] using cut, by simp [idleAfter, Request.line?, said, asked]⟩

/-- The invariant of a conversation. -/
theorem after_idle (nonneg : 0 ≤ limit) (host : Host) (more : List String) {lines : List String} {units : List (List String)}
    (cut : Cut (entries lines) units rest) (printed : StyledText) :
    ∃ units' rest' printed', Cut (entries (lines ++ more)) units' rest' ∧
      after ⟨.idle limit (worldOf host limit units) printed, joined rest, (entries lines).length, promptBehind rest⟩ more =
        ⟨.idle limit (worldOf host limit units') printed', joined rest', (entries (lines ++ more)).length,
          promptBehind rest'⟩ := by
  induction more generalizing lines units rest printed with
  | nil => exact ⟨units, rest, printed, by simpa using cut, by simp [after]⟩
  | cons line more ih =>
    obtain ⟨units', rest', printed', cut', stepped⟩ := onLine_idle nonneg host cut printed line
    obtain ⟨units'', rest'', printed'', cut'', ended⟩ := ih cut' printed'
    refine ⟨units'', rest'', printed'', by simpa using cut'', ?_⟩
    rw [after, stepped, ended, List.append_assoc, List.singleton_append]

/-- A shell that has run these units and waits for more behind the rest. -/
structure HasRun (host : Host) (limit : Int) (units : List (List String)) (rest : List String) (shell : Shell) : Prop where
  world : shell.session.world = worldOf host limit units
  pending : shell.pending = joined rest
  prompt : shell.prompt = promptBehind rest
  lineNumber : shell.lineNumber = (units.flatten ++ rest).length
  queue : shell.session.queue = []
  results : shell.session.results = []
  answers : ∀ line, (onLine line shell).1 = replyVerdict limit (worldOf host limit units) rest (Request.ofLine line)
  prints : ∀ line, (onLine line shell).2.session.console.printed = shell.session.console.printed ++
    replyText limit (worldOf host limit units) rest (shell.lineNumber + 1 : Nat) (Request.ofLine line)

end Shell

end Treewalk
