import Treewalk.Proofs.EncodedTexts
import Treewalk.Proofs.QueueDiscipline

/-! A shell is ready for the next line after every line, whatever the line was. A source may be refused and an evaluation may fail
in the middle of an entry, when units are queued and the console knows what it is working on; the console's answer to the
complaint makes up for all that has not been finished. -/

namespace Treewalk

namespace Trace

/-- No unit is current under any path. -/
def Idle (trace : Trace) : Prop := ∀ entry ∈ trace, entry.2 = .absent

variable {trace : Trace}

theorem cleared_idle (trace : Trace) : trace.cleared.Idle := by
  intro entry member
  obtain ⟨old, -, rfl⟩ := List.mem_map.mp member
  rfl

theorem Idle.enter (idle : trace.Idle) (path : String) : Idle (enter path .absent trace) := by
  induction trace with
  | nil => exact List.forall_mem_singleton.mpr rfl
  | cons entry rest ih =>
    obtain ⟨here, others⟩ := List.forall_mem_cons.mp idle
    obtain ⟨other, old⟩ := entry
    simp only [Trace.enter]
    split
    · exact List.forall_mem_cons.mpr ⟨rfl, others⟩
    · exact List.forall_mem_cons.mpr ⟨here, ih others⟩

/-- A unit that comes after another one under the same path takes its place. -/
theorem enter_enter (path : String) (first second : SourceUnit) (trace : Trace) :
    enter path second (enter path first trace) = enter path second trace := by
  induction trace with
  | nil => simp [enter]
  | cons entry rest ih =>
    obtain ⟨other, old⟩ := entry
    by_cases here : other = path
    · simp [enter, here]
    · simp [enter, here, ih]

end Trace

/-- The complaint that a failure is told as. Requests to exit are not told. -/
def Failure.told? : Failure → Option Complaint
  | .complaint told => some told
  | .interrupted => some .interrupted
  | .nestingTooDeep => some .nestingTooDeep
  | .unexpected cause => some (.unexpected cause)
  | .exit _ => none

theorem Failure.ofFault_told (fault : Fault) : (ofFault fault).told? = some fault.complaint := by
  cases fault <;> rfl

/-- How guarded work ends that has failed in this way. What nobody planned for goes on. -/
def Failure.verdict : Failure → Except Failure Unit
  | .complaint _ | .interrupted | .nestingTooDeep => .ok ()
  | failure => .error failure

/-- Work ends with an answer, unless it had to encode a text in which characters stand for lone surrogates. -/
def EndsIn {α : Type} (host : Host) (answer : α) (outcome : Except Failure α) : Prop :=
  outcome = .ok answer ∨ host.alphabet ≠ .plain ∧ ∃ halves, outcome = .error (.unexpected (.unencodable halves))

theorem EndsIn.bind {σ α β : Type} {host : Host} {work : Action σ α} {next : α → Action σ β} {state after : σ}
    {outcome : Except Failure α} {middle : α} {answer : β} (worked : work state = (outcome, after))
    (ends : EndsIn host middle outcome) (goes : next middle after = (.ok answer, after)) :
    ∃ outcome', (work >>= next) state = (outcome', after) ∧ EndsIn host answer outcome' := by
  rw [Action.bind_apply, worked]
  rcases ends with rfl | ⟨odd, halves, rfl⟩
  · exact ⟨_, goes, Or.inl rfl⟩
  · exact ⟨_, rfl, Or.inr ⟨odd, halves, rfl⟩⟩

namespace Session

/-- A session that has nothing left over from what it did before, but for units that the console may take for current ones. -/
structure Emptied (host : Host) (limit : Int) (session : Session) : Prop where
  queue : session.queue = []
  results : session.results = []
  lenient : session.console.fatal = false
  limit : session.limit? = some limit
  placed : session.world.host = host
  encoded : host.alphabet = .plain → session.world.Encoded

/-- A session between two entries. -/
structure Clean (host : Host) (limit : Int) (session : Session) : Prop extends Emptied host limit session where
  idle : session.console.trace.Idle

/-- What work on an entry may come to. It ends cleanly, or fails in a way that is told, with nothing left over but units that the
console takes for current ones. -/
inductive Recoverable (host : Host) (limit : Int) : Except Failure Unit × Session → Prop where
  | finished {done : Session} (clean : Clean host limit done) : Recoverable host limit (.ok (), done)
  | failed {done : Session} {failure : Failure} {complaint : Complaint} (emptied : Emptied host limit done)
      (told : failure.told? = some complaint) (ends : EndsIn host () failure.verdict) :
      Recoverable host limit (.error failure, done)

variable {host : Host} {limit : Int} {session : Session} {source : String} {number : Int}

/-- A console that is not fatal tells a failure, and no unit is current any more. -/
theorem settle_lenient (lenient : session.console.fatal = false) {failure : Failure} {complaint : Complaint}
    (told : failure.told? = some complaint) :
    settle (.error failure) session =
      (failure.verdict, { session with console :=
        { (session.console.printLine (Console.complaintText session.console.trace complaint)) with
          trace := session.console.trace.cleared } }) := by
  have complained : Console.complain complaint session.console =
      (.ok (), { (session.console.printLine (Console.complaintText session.console.trace complaint)) with
        trace := session.console.trace.cleared }) := by
    simp only [Console.complain, Console.printLine, Console.print, lenient]
    rfl
  cases failure with
  | exit status => cases told
  | complaint | interrupted | nestingTooDeep =>
    obtain rfl := Option.some.inj told
    simp only [settle, Console.settle, complained]
    rfl
  | unexpected cause =>
    obtain rfl := Option.some.inj told
    simp only [settle, Console.settle, Action.bind_apply, complained]
    rfl

theorem Recoverable.settled {ended : Except Failure Unit × Session} (recoverable : Recoverable host limit ended) :
    ∃ outcome done, settle ended.1 ended.2 = (outcome, done) ∧ EndsIn host () outcome ∧ done.Clean host limit := by
  cases recoverable with
  | @finished done clean => exact ⟨_, done, rfl, Or.inl rfl, clean⟩
  | @failed done failure complaint emptied told ends =>
    refine ⟨_, _, settle_lenient emptied.lenient told, ends, ⟨?_, Trace.cleared_idle done.console.trace⟩⟩
    exact ⟨emptied.queue, emptied.results, emptied.lenient, emptied.limit, emptied.placed, emptied.encoded⟩

@[simp] theorem entered_fatal (source : String) (number? : Option Int) (session : Session) :
    (session.entered source number?).console.fatal = session.console.fatal := by
  cases number? <;> rfl

/-- A unit that is no longer the current one has left no mark. -/
theorem Clean.passed (clean : session.Clean host limit) (source : String) (number? : Option Int) :
    ((session.entered source number?).console.trace.enter (session.entered source number?).path .absent).Idle := by
  cases number? with
  | none => exact clean.idle.enter session.path
  | some number =>
    change Trace.Idle (Trace.enter session.path .absent (Trace.enter session.path ⟨some source, some number⟩ _))
    rw [Trace.enter_enter]
    exact clean.idle.enter session.path

/-- A fault that gets past the console is one of a text that was not plain. -/
theorem endsIn_ofFault {fault : Fault} (plain : host.alphabet = .plain → (Value.error fault).Encoded) :
    EndsIn host () (Failure.ofFault fault).verdict := by
  cases fault with
  | unencodable halves => exact Or.inr ⟨fun same => plain same halves .here, halves, rfl⟩
  | _ => exact Or.inl rfl

theorem printResult_recoverable {value : Value} (held : session.results = [value])
    (clean : { session with results := [] }.Clean host limit) : Recoverable host limit (printResult session) := by
  rw [printResult_single held]
  split
  · exact .finished ⟨⟨clean.queue, rfl, clean.lenient, clean.limit, clean.placed, clean.encoded⟩, clean.idle⟩
  · exact .failed clean.toEmptied rfl (Or.inl rfl)

theorem runUnit_recoverable (nonneg : 0 ≤ limit) (clean : session.Clean host limit) (unit : QueuedUnit) :
    Recoverable host limit ((runUnit unit >>= fun _ => printResult) session) := by
  have ran := Program.evaluate?_of_nonneg nonneg unit.program World.root session.world
  have kept := unit.program.eval_host (min limit.toNat session.world.host.calls) World.root session.world
  generalize unit.program.eval _ World.root session.world = result at ran kept
  obtain ⟨value, after⟩ := result
  have encoded (plain : host.alphabet = .plain) := Program.evaluate?_encoded (clean.encoded plain) ran
  have placed : after.silenced.host = host := kept.trans clean.placed
  rw [Action.bind_apply]
  rcases value.error_or_fine with ⟨fault, rfl⟩ | fine
  · rw [runUnit_failed clean.limit ran]
    refine .failed ⟨?_, ?_, ?_, ?_, placed, fun plain => (encoded plain).2.silenced⟩ (Failure.ofFault_told fault)
      (endsIn_ofFault fun plain => (encoded plain).1)
    all_goals simp [evaluated, Console.print, clean.queue, clean.results, clean.lenient, clean.limit]
  · rw [runUnit_finished clean.limit ran fine]
    refine printResult_recoverable (show _ = [value] by simp [evaluated, clean.results])
      ⟨⟨?_, rfl, ?_, ?_, placed, fun plain => (encoded plain).2.silenced⟩, clean.passed unit.source unit.number?⟩
    all_goals simp [evaluated, Console.print, Console.enter, clean.queue, clean.lenient, clean.limit]

end Session

namespace Shell

variable {host : Host} {limit : Int} {session : Session}

open Session

/-- The unit of an entry is the only one that is queued, so it is run at once, and its value is the only one to be shown. -/
theorem runEntry_recoverable (nonneg : 0 ≤ limit) (clean : session.Clean host limit) (source : String) (number : Int) :
    Recoverable host limit (runEntry source number session) := by
  rw [runEntry, Action.bind_apply]
  cases parsed : Program.parse source with
  | mk program diagnostics =>
    by_cases faultless : diagnostics = []
    · subst faultless
      rw [add_accepted parsed]
      dsimp only
      rw [Action.bind_apply, run_single (show _ = [⟨program, source, some number⟩] by simp [clean.queue]),
        ← Action.bind_apply]
      refine runUnit_recoverable nonneg ⟨⟨rfl, ?_, ?_, ?_, ?_, ?_⟩, clean.passed source (some number)⟩ _
      all_goals simp [Console.enter, clean.results, clean.lenient, clean.limit, clean.placed]
      exact clean.encoded
    · rw [add_refused parsed faultless]
      refine .failed ⟨?_, ?_, ?_, ?_, ?_, ?_⟩ rfl (Or.inl rfl)
      all_goals simp [warnAll_printed, clean.queue, clean.results, clean.lenient, clean.limit, clean.placed]
      exact clean.encoded

theorem guarded_clean (nonneg : 0 ≤ limit) (clean : session.Clean host limit) (source : String) (number : Int) :
    ∃ outcome done, guarded (runEntry source number) session = (outcome, done) ∧ EndsIn host () outcome ∧
      done.Clean host limit :=
  (runEntry_recoverable nonneg clean source number).settled

/-! ### Lines -/

/-- A shell that waits for a line. Its prompt tells whether an entry has been begun. -/
structure Clean (host : Host) (limit : Int) (shell : Shell) : Prop where
  session : shell.session.Clean host limit
  prompt : shell.prompt = continuationPrompt ↔ shell.pending ≠ ""
  firstPrompt : shell.pending = "" → shell.prompt = firstPrompt
  unfinished : shell.pending ≠ "" → needsContinuation shell.pending = true

variable {shell : Shell}

theorem needsContinuation_empty : needsContinuation "" = false := by decide +kernel

theorem Clean.begun (clean : session.Clean host limit) {source : String} (more : needsContinuation source = true) (count : Nat) :
    Clean host limit ⟨session, source, count, continuationPrompt⟩ := by
  have some_left : source ≠ "" := by
    rintro rfl
    rw [needsContinuation_empty] at more
    cases more
  exact ⟨clean, iff_of_true rfl some_left, fun none_left => absurd none_left some_left, fun _ => more⟩

theorem Clean.fresh (clean : session.Clean host limit) (count : Nat) : Clean host limit ⟨session, "", count, Shell.firstPrompt⟩ :=
  ⟨clean, iff_of_false (by decide : Shell.firstPrompt ≠ continuationPrompt) (not_not_intro rfl), fun _ => rfl, fun some_left => absurd rfl some_left⟩

/-- The prompt follows what is pending: both are set together, and nothing else sets them. -/
theorem takeEntry_clean (nonneg : 0 ≤ limit) (clean : shell.Clean host limit) (line : String) :
    ∃ outcome done, takeEntry line shell = (outcome, done) ∧ EndsIn host () outcome ∧ done.Clean host limit := by
  rw [takeEntry_eq]
  dsimp only
  generalize (if shell.pending.isEmpty then line else shell.pending ++ "\n" ++ line) = source
  split
  next unfinished => exact ⟨_, _, rfl, Or.inl rfl, .begun clean.session unfinished _⟩
  next =>
    obtain ⟨outcome, session, settled, ends, recovered⟩ :=
      guarded_clean nonneg clean.session source (shell.lineNumber + 1 : Nat)
    refine ⟨outcome, ⟨session, "", shell.lineNumber + 1, Shell.firstPrompt⟩, ?_, ends, .fresh recovered _⟩
    simp only [onSession, settled]

theorem print_clean (clean : shell.Clean host limit) (text : StyledText) :
    ∃ done, print text shell = (.ok (), done) ∧ done.Clean host limit := by
  have told := clean.session
  refine ⟨_, rfl, ⟨⟨?_, told.idle⟩, clean.prompt, clean.firstPrompt, clean.unfinished⟩⟩
  exact ⟨told.queue, told.results, told.lenient, told.limit, told.placed, told.encoded⟩

/-- Every request leaves a clean shell clean, and is answered unless a text cannot be encoded. -/
theorem perform_clean (nonneg : 0 ≤ limit) (clean : shell.Clean host limit) (request : Request) :
    ∃ outcome done, perform request shell = (outcome, done) ∧ EndsIn host request.stops outcome ∧ done.Clean host limit := by
  cases request with
  | nothing | exit => exact ⟨_, shell, rfl, Or.inl rfl, clean⟩
  | help | endOfInput =>
    obtain ⟨done, printed, kept⟩ := print_clean clean _
    refine ⟨_, done, ?_, Or.inl rfl, kept⟩
    rw [perform, Action.bind_apply, printLine, printed]
    rfl
  | entry line =>
    obtain ⟨outcome, done, taken, ends, kept⟩ := takeEntry_clean nonneg clean line
    obtain ⟨outcome', performed, ends'⟩ : ∃ outcome', perform (.entry line) shell = (outcome', done) ∧
      EndsIn host false outcome' := ends.bind taken rfl
    exact ⟨outcome', done, performed, ends', kept⟩

/-- The induction is on the lines: each of them is taken by a clean shell. -/
theorem after_clean (nonneg : 0 ≤ limit) (lines : List String) (clean : shell.Clean host limit) :
    (after shell lines).Clean host limit := by
  induction lines generalizing shell with
  | nil => exact clean
  | cons line lines ih =>
    obtain ⟨outcome, done, performed, -, kept⟩ := perform_clean nonneg clean (.ofLine line)
    rw [after, onLine, performed]
    exact ih kept

/-- The word that a line starts with, if it starts with one. -/
def commandWord (line : String) : String := String.ofList ((strip line).toList.takeWhile isCommandChar)

theorem Request.stops_iff (line : String) :
    (ofLine line).stops = true ↔ commandWord line = "exit" ∨ commandWord line = "EOF" := by
  simp only [ofLine, commandWord]
  split
  next blank => simp [blank, stops]
  next question =>
    have other : isCommandChar '?' = false := by decide
    simp [question, other, stops]
  next =>
    split
    next help => simp [help, stops]
    next exit => simp [exit, stops]
    next ended => simp [ended, stops]
    next => simp_all [stops]

/-- A shell whose console works on nothing else is clean from the start, and stays so whatever lines it is given. None makes it
stop but those that ask for it. None makes it fail where all characters stand for themselves; where some stand for lone surrogates,
the one failure that may get out is that of encoding them. -/
theorem stays_clean (host : Host) {limit : Int} (nonneg : 0 ≤ limit) {console : Console} (idle : console.trace.Idle)
    (contents? : Option (List UInt8)) :
    ∃ session, Session.start true contents? (.initial host console promptPath (some limit)) = (.ok (), session) ∧
      ∀ lines, (after (initial session) lines).Clean host limit ∧
        ∀ line,
          (∃ stop, (onLine line (after (initial session) lines)).1 = .ok stop ∧
            (stop = true ↔ commandWord line = "exit" ∨ commandWord line = "EOF")) ∨
          host.alphabet ≠ .plain ∧
            ∃ halves, (onLine line (after (initial session) lines)).1 = .error (.unexpected (.unencodable halves)) := by
  let session : Session := { Session.initial host console promptPath (some limit) with
    console := { (console.enter promptPath .absent) with fatal := false } }
  have opened : session.Clean host limit := ⟨⟨rfl, rfl, rfl, rfl, rfl, World.initial_encoded⟩, idle.enter promptPath⟩
  refine ⟨session, rfl, fun lines => ?_⟩
  have clean := after_clean nonneg lines (.fresh opened 0)
  refine ⟨clean, fun line => ?_⟩
  obtain ⟨outcome, done, performed, ends, -⟩ := perform_clean nonneg clean (.ofLine line)
  have answered : (onLine line (after (initial session) lines)).1 = outcome := congrArg Prod.fst performed
  rw [answered]
  rcases ends with rfl | failed
  · exact Or.inl ⟨_, rfl, Request.stops_iff line⟩
  · exact Or.inr failed

/-- A call that the limit forbids, an entry that cannot be read, and one that is not complete when the shell is told to stop. -/
theorem failing_lines_stay_clean :
    let shell := after (opening .usual (some 0)) ["fn(x) \x7b x", "\x7d(1)", "let 5", " push([", "?"]
    shell.Clean .usual 0 ∧ shell.pending = "push([" ∧ shell.prompt = continuationPrompt ∧
      (onLine " exit now" shell).1 = .ok true := by
  intro shell
  have idle : (Console.initial true).trace.Idle := nofun
  obtain ⟨session, started, kept⟩ := stays_clean .usual (by decide : (0 : Int) ≤ 0) idle none
  have opened : opening .usual (some 0) = initial session := by rw [opening, started]
  obtain ⟨clean, answers⟩ := kept ["fn(x) \x7b x", "\x7d(1)", "let 5", " push([", "?"]
  rw [← opened] at clean answers
  have pending : shell.pending = "push([" := by decide +kernel
  have some_left : shell.pending ≠ "" := pending ▸ (by decide : "push([" ≠ "")
  refine ⟨clean, pending, clean.prompt.mpr some_left, ?_⟩
  rcases answers " exit now" with ⟨stop, answered, stops⟩ | ⟨odd, -⟩
  · rw [answered, stops.mpr (Or.inl (by decide))]
  · exact absurd rfl odd

/-- The lone surrogates that work came upon where it had to encode a text, if this is how it failed. -/
def unencodable? {α : Type} : Except Failure α → Option Alphabet.Halves
  | .error (.unexpected (.unencodable halves)) => some halves
  | _ => none

theorem eq_of_unencodable? {α : Type} {outcome : Except Failure α} {halves : Alphabet.Halves}
    (found : unencodable? outcome = some halves) : outcome = .error (.unexpected (.unencodable halves)) := by
  unfold unencodable? at found
  split at found
  next => rw [Option.some.inj found]
  next => cases found

/-- A text with a lone surrogate in it, and its length: the failure gets out of the shell, which is clean all the same. -/
theorem lone_surrogate_gets_out :
    let host : Host := { Host.usual with alphabet := fun c => if c = '\uf8ff' then some 0xDCFF else none }
    let shell := after (opening host (some 500)) ["let s = \"\uf8ff\""]
    (onLine "len(s)" shell).1 = .error (.unexpected (.unencodable ⟨0, 0xDCFF, 0⟩)) ∧
      ((onLine "len(s)" shell).2.pending = "" ∧ (onLine "len(s)" shell).2.lineNumber = 2) := by
  intro host shell
  have failed : unencodable? (onLine "len(s)" shell).1 = some ⟨0, 0xDCFF, 0⟩ := by decide +kernel
  exact ⟨eq_of_unencodable? failed, by decide +kernel, by decide +kernel⟩

end Shell

end Treewalk
