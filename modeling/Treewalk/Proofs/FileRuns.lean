import Treewalk.Proofs.EncodedTexts
import Treewalk.Proofs.MessageTemplates
import Treewalk.Proofs.QueueDiscipline

/-! A run on a file ends in one of three ways: the source is refused before anything is evaluated, or its evaluation fails, or
it finishes. Each of them fixes what is printed, to the letter, and whether the program exits. -/

namespace Treewalk

/-- The text that a program has printed in this world. -/
def World.output (world : World) : String := String.join (world.printed.toList.map (· ++ "\n"))

/-- What is printed of the value of a whole file. -/
def Value.closingLine : Value → String
  | .null => ""
  | value => value.inspect ++ "\n"

def Diagnostic.fileWarning (path : String) (diagnostic : Diagnostic) : String :=
  path ++ ": warning: " ++ diagnostic.message ++ "\n"

def errorLine (wording : String) : String := "error: " ++ wording ++ "\n"

/-- The wording of the complaint about a source with so many mistakes. -/
def refusal (count : Nat) : String := toString count ++ " syntax error(s), nothing was evaluated"

/-- How the run of a file ends, what it has printed, and the world that it leaves. -/
inductive FileOutcome (host : Host) (path : String) (limit : Int) (source : String) : Except Failure Unit → String → World → Prop where
  | rejected {program : Program} {diagnostics : List Diagnostic} (parsed : Program.parse source = (program, diagnostics))
    (faulty : diagnostics ≠ []) :
    FileOutcome host path limit source (.error (.exit (.code 1)))
      (String.join (diagnostics.map (Diagnostic.fileWarning path)) ++ errorLine (refusal diagnostics.length))
      (.initial host)
  | failed {program : Program} {fault : Fault} {after : World} (parsed : Program.parse source = (program, []))
    (ran : program.evaluate? limit World.root (.initial host) = some (.error fault, after)) :
    FileOutcome host path limit source (.error (.exit (.code 1)))
      (after.output ++ errorLine fault.message) after.silenced
  | finished {program : Program} {value : Value} {after : World} (parsed : Program.parse source = (program, []))
    (ran : program.evaluate? limit World.root (.initial host) = some (value, after)) (fine : ∀ fault, value ≠ .error fault) :
    FileOutcome host path limit source (.ok ()) (after.output ++ value.closingLine) after.silenced

namespace StyledText

theorem plain_append (front back : StyledText) : plain (front ++ back) = plain front ++ plain back := by
  simp [plain, render, String.join_append]

theorem plain_outputText (world : World) : (Session.outputText world).plain = world.output := by
  simp only [plain, render, Session.outputText, World.output, List.map_map]
  rfl

theorem plain_warnings (path : String) (diagnostics : List Diagnostic) :
    plain (diagnostics.flatMap (Diagnostic.warningAt (path ++ ": "))) =
      String.join (diagnostics.map (Diagnostic.fileWarning path)) := by
  induction diagnostics with
  | nil => rfl
  | cons diagnostic diagnostics ih =>
    rw [List.flatMap_cons, plain_append, ih, List.map_cons, String.join_cons]
    simp [Diagnostic.warningAt, Diagnostic.fileWarning, plain, render, Span.render, Span.bold, Span.plain, String.join,
      String.append_assoc]

/-- Where no unit is current, a complaint comes without a trace. -/
theorem plain_complaint (path : String) {complaint : Complaint} (planned : complaint.isInternal = false) :
    plain (Console.complaintText [(path, .absent)] complaint ++ [.plain "\n"]) = errorLine complaint.message.plain := by
  have told : Console.complaintText [(path, .absent)] complaint ++ [.plain "\n"] =
      [.plain "", ⟨.boldRed, "error: "⟩] ++ complaint.message ++ [.plain "\n"] := by
    simp [Console.complaintText, Trace.summary, SourceUnit.absent, planned]
  rw [told, plain_append, plain_append, errorLine]
  congr 1

end StyledText

theorem Complaint.plain_syntaxErrors (count : Nat) : (syntaxErrors count).message.plain = refusal count := by
  simp [message, refusal, StyledText.plain, StyledText.render, Span.render, Span.plain, Span.bold, String.join]

theorem Complaint.plain_evaluationFailed (fault : Fault) : (evaluationFailed fault).message.plain = fault.message := by
  simp [message, StyledText.plain, StyledText.render, Span.render, Span.bold, String.join]

namespace Session

/-- A session that has opened its file and said something. -/
def opened (path : String) (limit : Int) (world : World) (queue : List QueuedUnit) (printed : StyledText) : Session :=
  ⟨⟨true, [(path, .absent)], printed⟩, path, some limit, world, queue, []⟩

variable {host : Host} {path : String} {limit : Int} {bytes : List UInt8} {source : String} {program : Program}

theorem start_file (named : path ≠ promptPath) (clean : '\x00' ∉ path.toList) (decoded : Utf8.readText bytes = .ok source) :
    start false (some bytes) (.initial host (.initial true) path (some limit)) =
      add source none (opened path limit (.initial host) [] []) := by
  have file : addFile (some bytes) (opened path limit (.initial host) [] []) = add source none (opened path limit (.initial host) [] []) := by
    rw [addFile, Action.bind_apply]
    change (if path.toList.contains '\x00' then _ else _ : Action Session Unit) _ = _
    rw [if_neg (by simpa using clean)]
    simp only [decoded]
  rw [← file]
  change (if path ≠ promptPath then addFile (some bytes) else _ : Action Session Unit) (opened path limit (.initial host) [] []) = _
  rw [if_pos named]

/-- A fatal console tells a complaint and exits. -/
theorem settle_fatal (complaint : Complaint) (world : World) (queue : List QueuedUnit) (printed : StyledText) :
    settle (.error (.complaint complaint)) (opened path limit world queue printed) =
      (.error (.exit (.code 1)),
        opened path limit world queue (printed ++ (Console.complaintText [(path, .absent)] complaint ++ [.plain "\n"]))) := rfl

theorem runFile_rejected (named : path ≠ promptPath) (clean : '\x00' ∉ path.toList) (decoded : Utf8.readText bytes = .ok source)
    {diagnostics : List Diagnostic} (parsed : Program.parse source = (program, diagnostics)) (faulty : diagnostics ≠ []) :
    runFile false (some bytes) (.initial host (.initial true) path (some limit)) =
      (.error (.complaint (.syntaxErrors diagnostics.length)),
        opened path limit (.initial host) [] (diagnostics.flatMap (Diagnostic.warningAt (path ++ ": ")))) := by
  have warned : (Console.mk true [(path, .absent)] []).warnAll (diagnostics.map Diagnostic.message) =
      ⟨true, [(path, .absent)], diagnostics.flatMap (Diagnostic.warningAt (path ++ ": "))⟩ := by
    rw [Shell.warnAll_printed, List.flatMap_map]
    rfl
  have refused : add source none (opened path limit (.initial host) [] []) =
      (.error (.complaint (.syntaxErrors diagnostics.length)),
        opened path limit (.initial host) [] (diagnostics.flatMap (Diagnostic.warningAt (path ++ ": ")))) := by
    rw [add_refused parsed faulty]
    simp only [opened, entered, warned]
  rw [runFile, Action.bind_apply, start_file named clean decoded, refused]

/-- Prints the latest result unless it is null. -/
def showResult : Action Session Unit := do
  match (← get).results.getLast? with
  | none | some .null => return ()
  | some _ => printResult

theorem runFile_accepted (named : path ≠ promptPath) (clean : '\x00' ∉ path.toList) (decoded : Utf8.readText bytes = .ok source)
    (parsed : Program.parse source = (program, [])) :
    runFile false (some bytes) (.initial host (.initial true) path (some limit)) =
      (runUnit ⟨program, source, none⟩ >>= fun _ => showResult) (opened path limit (.initial host) [] []) := by
  have added : add source none (opened path limit (.initial host) [] []) =
      (.ok (), opened path limit (.initial host) [⟨program, source, none⟩] []) := by
    rw [add_accepted parsed]
    simp [opened, entered, Console.enter, Trace.enter]
  rw [runFile, Action.bind_apply, start_file named clean decoded, added]
  change (run >>= fun _ => showResult) (opened path limit (.initial host) [⟨program, source, none⟩] []) = _
  rw [Action.bind_apply, run_single rfl, Action.bind_apply]
  rfl

theorem runUnit_opened {value : Value} {after : World}
    (ran : program.evaluate? limit World.root (.initial host) = some (value, after)) (fine : ∀ fault, value ≠ .error fault) :
    runUnit ⟨program, source, none⟩ (opened path limit (.initial host) [] []) =
      (.ok (), { opened path limit after.silenced [] (outputText after) with results := [value] }) := by
  rw [runUnit_finished rfl ran fine]
  simp [opened, entered, evaluated, Console.enter, Console.print, Trace.enter]

theorem showResult_apply (path : String) (limit : Int) (world : World) (printed : StyledText) {value : Value}
    (room : value.levels ≤ world.host.levels) :
    ∃ done said, showResult { opened path limit world [] printed with results := [value] } = (.ok (), done) ∧
      done.world = world ∧ done.console.printed = printed ++ said ∧ said.plain = value.closingLine := by
  have shown : ∃ done, printResult { opened path limit world [] printed with results := [value] } = (.ok (), done) ∧
      done.world = world ∧ done.console.printed = printed ++ [.plain value.inspect, .plain "\n"] := by
    rw [printResult_single (by rfl), if_pos (by exact room)]
    exact ⟨_, rfl, rfl, rfl⟩
  have line : StyledText.plain [.plain value.inspect, .plain "\n"] = value.inspect ++ "\n" := by
    simp [StyledText.plain, StyledText.render, Span.render, Span.plain, String.join]
  cases value with
  | null => exact ⟨_, [], rfl, rfl, (List.append_nil _).symm, rfl⟩
  | _ =>
    obtain ⟨done, same, world, printed⟩ := shown
    exact ⟨done, _, same, world, printed, line⟩

/-- A fault that is no failure to encode a text is a complaint. -/
theorem ofFault_of_encoded {fault : Fault} (encoded : (Value.error fault).Encoded) :
    Failure.ofFault fault = .complaint (.evaluationFailed fault) := by
  cases fault with
  | unencodable halves => exact absurd .here (encoded halves)
  | _ => rfl

theorem guarded_rejected (named : path ≠ promptPath) (clean : '\x00' ∉ path.toList) (decoded : Utf8.readText bytes = .ok source)
    {diagnostics : List Diagnostic} (parsed : Program.parse source = (program, diagnostics)) (faulty : diagnostics ≠ []) :
    let ended := guarded (runFile false (some bytes)) (.initial host (.initial true) path (some limit))
    FileOutcome host path limit source ended.1 ended.2.console.printed.plain ended.2.world := by
  rw [guarded, runFile_rejected named clean decoded parsed faulty]
  dsimp only
  rw [settle_fatal]
  have planned : (Complaint.syntaxErrors diagnostics.length).isInternal = false := rfl
  have text := StyledText.plain_complaint path planned
  rw [Complaint.plain_syntaxErrors] at text
  have outcome : FileOutcome host path limit source _ _ _ := .rejected parsed faulty
  rwa [← text, ← StyledText.plain_warnings, ← StyledText.plain_append] at outcome

theorem guarded_failed (named : path ≠ promptPath) (clean : '\x00' ∉ path.toList) (decoded : Utf8.readText bytes = .ok source)
    (parsed : Program.parse source = (program, [])) {fault : Fault} {after : World}
    (ran : program.evaluate? limit World.root (.initial host) = some (.error fault, after))
    (encoded : (Value.error fault).Encoded) :
    let ended := guarded (runFile false (some bytes)) (.initial host (.initial true) path (some limit))
    FileOutcome host path limit source ended.1 ended.2.console.printed.plain ended.2.world := by
  have left : (entered source none (opened path limit (.initial host) [] [])).evaluated after =
      opened path limit after.silenced [] (outputText after) := rfl
  rw [guarded, runFile_accepted named clean decoded parsed, Action.bind_apply, runUnit_failed rfl ran, left,
    ofFault_of_encoded encoded]
  dsimp only
  rw [settle_fatal]
  have planned : (Complaint.evaluationFailed fault).isInternal = false := rfl
  have text := StyledText.plain_complaint path planned
  rw [Complaint.plain_evaluationFailed] at text
  have outcome : FileOutcome host path limit source _ _ _ := .failed parsed ran
  rwa [← text, ← StyledText.plain_outputText, ← StyledText.plain_append] at outcome

theorem guarded_finished (named : path ≠ promptPath) (clean : '\x00' ∉ path.toList) (decoded : Utf8.readText bytes = .ok source)
    (parsed : Program.parse source = (program, [])) {value : Value} {after : World}
    (ran : program.evaluate? limit World.root (.initial host) = some (value, after)) (fine : ∀ fault, value ≠ .error fault)
    (room : value.levels ≤ after.host.levels) :
    let ended := guarded (runFile false (some bytes)) (.initial host (.initial true) path (some limit))
    FileOutcome host path limit source ended.1 ended.2.console.printed.plain ended.2.world := by
  obtain ⟨done, said, shown, world, printed, text⟩ :=
    showResult_apply path limit after.silenced (outputText after) room
  rw [guarded, runFile_accepted named clean decoded parsed, Action.bind_apply, runUnit_opened ran fine]
  dsimp only
  rw [shown]
  change FileOutcome host path limit source (.ok ()) done.console.printed.plain done.world
  rw [printed, world, StyledText.plain_append, text, StyledText.plain_outputText]
  exact .finished parsed ran fine

theorem guarded_runFile (plain : host.alphabet = .plain) (nonneg : 0 ≤ limit) (named : path ≠ promptPath)
    (clean : '\x00' ∉ path.toList) (decoded : Utf8.readText bytes = .ok source)
    (room : ∀ value after, (Program.parse source).1.evaluate? limit World.root (.initial host) = some (value, after) →
      value.levels ≤ host.levels) :
    let ended := guarded (runFile false (some bytes)) (.initial host (.initial true) path (some limit))
    FileOutcome host path limit source ended.1 ended.2.console.printed.plain ended.2.world := by
  cases parsed : Program.parse source with
  | mk program diagnostics =>
    by_cases faultless : diagnostics = []
    · subst faultless
      have ran := Program.evaluate?_of_nonneg nonneg program World.root (.initial host)
      have kept := program.eval_host (min limit.toNat host.calls) World.root (.initial host)
      rw [World.initial_host] at ran kept
      generalize program.eval (min limit.toNat host.calls) World.root (.initial host) = ended at ran kept
      obtain ⟨value, after⟩ := ended
      have encoded := (Program.evaluate?_encoded (World.initial_encoded plain) ran).1
      rcases value.error_or_fine with ⟨fault, rfl⟩ | fine
      · exact guarded_failed named clean decoded parsed ran encoded
      · rw [parsed] at room
        have same : after.host.levels = host.levels := congrArg Host.levels kept
        exact guarded_finished named clean decoded parsed ran fine (same ▸ room value after ran)
    · exact guarded_rejected named clean decoded parsed faultless

end Session

/-- The run of a file that can be read has one of its three outcomes, on a host that has room for the text of the value and on
which all characters stand for themselves, as those of a decoded file do. The complaints in them are worded by templates, which
say word for word what they are given. -/
theorem CommandLine.run_file {host : Host} (plain : host.alphabet = .plain) {arguments : List String} {path : String}
    {limit : Int} {read? : String → Option (List UInt8)} {bytes : List UInt8} {source : String}
    (asked : Command.ofArguments arguments = .run ⟨some path, some limit, false⟩)
    (nonneg : 0 ≤ limit) (named : path ≠ Session.promptPath) (clean : '\x00' ∉ path.toList) (readable : read? path = some bytes)
    (decoded : Utf8.readText bytes = .ok source)
    (room : ∀ value after, (Program.parse source).1.evaluate? limit World.root (.initial host) = some (value, after) →
      value.levels ≤ host.levels) (input : String) :
    let ended := Session.guarded (Session.runFile false (some bytes)) (.initial host (.initial true) path (some limit))
    run host arguments read? input = (ended.1, ended.2.console.printed) ∧
      FileOutcome host path limit source ended.1 ended.2.console.printed.plain ended.2.world ∧
      (∀ count : Nat, Template.fill "\x7b\x7d syntax error(s), nothing was evaluated" [.integer count] = .ok (refusal count)) ∧
      ∀ text, Template.fill "\x7b\x7d" [.text text] = .ok text := by
  intro ended
  refine ⟨?_, Session.guarded_runFile plain nonneg named clean decoded room, fun count => ?_, fun text => ?_⟩
  · rw [run, asked]
    dsimp only
    rw [readable, runFile]
    split
    next outcome session ran =>
      have ran : ended = (outcome, session) := ran
      rw [ran]
  · have numeral : (count : Int).repr = count.repr := rfl
    have plain : Template.Literal " syntax error(s), nothing was evaluated" := by decide
    have filled := Template.fill_spell "" [(.integer count, " syntax error(s), nothing was evaluated")] Template.literal_empty
      (List.forall_mem_singleton.mpr plain)
    simpa [Template.spell, Template.tell, Template.Argument.shown, refusal, numeral] using filled
  · have filled := Template.fill_spell "" [(.text text, "")] Template.literal_empty
      (List.forall_mem_singleton.mpr Template.literal_empty)
    simpa [Template.spell, Template.tell, Template.Argument.shown] using filled

/-- A program that prints braces and then fails. -/
theorem CommandLine.run_failing_file :
    let source := "print(\"\x7b0\x7d\");\nx"
    let bytes := source.toList.map fun c => UInt8.ofNat c.toNat
    let read? := fun path => if path = "prog" then some bytes else none
    let ended := Session.guarded (Session.runFile false (some bytes)) (.initial .usual (.initial true) "prog" (some 3))
    run .usual ["--max-depth", "3", "prog"] read? "" = (ended.1, ended.2.console.printed) ∧
      FileOutcome .usual "prog" 3 source ended.1 ended.2.console.printed.plain ended.2.world ∧
      ended.2.console.printed.plain = "\x7b0\x7d\nerror: identifier not found: x\n" := by
  intro source bytes read? ended
  have asked : Command.ofArguments ["--max-depth", "3", "prog"] = .run ⟨some "prog", some 3, false⟩ := by decide
  have decoded : Utf8.readText bytes = .ok source := by
    have found : (Utf8.readText bytes).toOption = some source := by decide +kernel
    cases decoded : Utf8.readText bytes with
    | error fault =>
      rw [decoded] at found
      cases found
    | ok text =>
      rw [decoded] at found
      exact congrArg Except.ok (Option.some.inj found)
  have readable : read? "prog" = some bytes := rfl
  have room : ∀ value after, (Program.parse source).1.evaluate? 3 World.root (.initial .usual) = some (value, after) →
      value.levels ≤ Host.usual.levels := by
    intro value after ran
    have levels : ((Program.parse source).1.evaluate? 3 World.root (.initial .usual)).map (fun ended => ended.1.levels) =
        some 1 := by decide +kernel
    rw [ran] at levels
    have flat : value.levels = 1 := Option.some.inj levels
    rw [flat]
    decide
  have outcome := run_file (rfl : Host.usual.alphabet = .plain) asked (by decide) (by decide) (by decide) readable decoded room ""
  exact ⟨outcome.1, outcome.2.1, by decide +kernel⟩

end Treewalk
