import Treewalk.Proofs.ClearSessions
import Treewalk.Proofs.StyledTemplates

/-! Colour is only decoration. Whatever the program is asked to run, all that it prints is clear if it was given nothing else, so
taking the control sequences out of what it prints leaves what it prints without colours. -/

namespace Treewalk

/-! ### The file to run -/

namespace Options

theorem longOption_not_plain {option : String × (Option String → Argument)} (listed : option ∈ longOptions)
    (value? : Option String) {path : String} : option.2 value? ≠ .plain path := by
  simp only [longOptions, List.mem_cons, List.not_mem_nil, or_false] at listed
  rcases listed with rfl | rfl | rfl
  · cases value? <;> nofun
  · nofun
  · cases value? <;> nofun

theorem helpTail_not_plain (tail : List Char) {path : String} : Argument.ofHelpTail tail ≠ .plain path := by
  unfold Argument.ofHelpTail
  dsimp only
  generalize List.all _ _ = repeated
  cases repeated <;> nofun

theorem mem_of_ofText? {text path : String} (classified : Argument.ofText? text = some (.plain path)) : path = text := by
  have stranger {argument : Argument} (same : Argument.ofStranger text = argument) (plain : argument = .plain path) :
      path = text := by
    subst same
    unfold Argument.ofStranger at plain
    split at plain
    · exact (Argument.plain.inj plain).symm
    · cases plain
  unfold Argument.ofText? at classified
  split at classified
  · split at classified
    · exact stranger rfl (Option.some.inj classified)
    next option chosen =>
      have listed : option ∈ longOptions := (List.mem_filter.mp (chosen ▸ List.mem_singleton_self option)).1
      exact absurd (Option.some.inj classified) (longOption_not_plain listed _)
    · cases classified
  · exact absurd (Option.some.inj classified) (helpTail_not_plain _)
  · exact stranger rfl (Option.some.inj classified)
  · exact (Argument.plain.inj (Option.some.inj classified)).symm

theorem mem_of_ofTexts? {texts : List String} {arguments : List Argument} (classified : Argument.ofTexts? texts = some arguments)
    {path : String} (plain : .plain path ∈ arguments) : path ∈ texts := by
  induction texts generalizing arguments with
  | nil =>
    cases classified
    cases plain
  | cons text texts ih =>
    rw [Argument.ofTexts?] at classified
    split at classified
    · cases classified
      exact List.mem_cons_of_mem _ (by simpa using plain)
    · simp only [Option.bind_eq_bind, Option.bind_eq_some_iff, Option.pure_def, Option.some.injEq] at classified
      obtain ⟨argument, first, others, further, rfl⟩ := classified
      rcases List.mem_cons.mp plain with rfl | later
      · exact mem_of_ofText? first ▸ List.mem_cons_self
      · exact List.mem_cons_of_mem _ (ih further later)

/-- The file to run was named before, or it is one of the plain arguments. -/
theorem mem_of_obey {options asked : Options} {surplus : Bool} {arguments : List Argument}
    (obeyed : options.obey surplus arguments = .run asked) {path : String} (named : asked.file? = some path) :
    options.file? = some path ∨ .plain path ∈ arguments := by
  fun_induction obey options surplus arguments with
  | case2 =>
    cases obeyed
    exact .inl named
  | case1 | case3 | case4 | case8 | case10 | case11 | case13 | case15 => cases obeyed
  | case5 _ _ _ ih | case6 _ _ _ ih | case7 _ _ _ _ _ _ ih | case9 _ _ _ _ _ _ ih | case12 _ _ _ _ ih | case17 _ _ _ _ _ _ ih =>
    exact (ih obeyed).imp_right fun later => by simp [later]
  | case14 _ _ text rest _ ih | case16 _ _ text rest _ _ ih =>
    rcases ih obeyed with same | later
    · cases same
      exact .inr List.mem_cons_self
    · exact .inr (by simp [later])

/-- Checked piece by piece, since the whole text is long. -/
theorem usage_clear : ClearText usage := by
  unfold usage
  simp only [clearText_append]
  and_intros <;> exact clearText_ofList.mpr (by decide)

end Options

theorem Command.file_mem {arguments : List String} {options : Options} (asked : Command.ofArguments arguments = .run options)
    {path : String} (named : options.file? = some path) : path ∈ arguments := by
  unfold Command.ofArguments at asked
  split at asked
  · cases asked
  next classified found =>
    rcases Options.mem_of_obey asked named with before | plain
    · cases before
    · exact Options.mem_of_ofTexts? found plain

/-! ### Lines typed in -/

theorem unifyLineBreaks_clear {chars : List Char} (clear : '\x1b' ∉ chars) : '\x1b' ∉ Utf8.unifyLineBreaks chars := by
  fun_induction Utf8.unifyLineBreaks chars <;> simp_all

namespace CommandLine

theorem linesFrom_clear {line chars : List Char} (begun : '\x1b' ∉ line) (clear : '\x1b' ∉ chars) :
    ∀ text ∈ linesFrom line chars, ClearText text := by
  fun_induction linesFrom line chars with
  | case1 => exact List.forall_mem_nil _
  | case2 => simpa using begun
  | case3 line rest ih =>
    refine List.forall_mem_cons.mpr ⟨by simpa using begun, ih List.not_mem_nil ?_⟩
    exact fun inside => clear (List.mem_cons_of_mem _ inside)
  | case4 line c rest other ih =>
    simp only [List.mem_cons, not_or] at clear
    exact ih (by simpa using ⟨clear.1, begun⟩) clear.2

theorem inputLines_clear {input : String} (clear : ClearText input) : ∀ line ∈ inputLines input, ClearText line :=
  linesFrom_clear List.not_mem_nil (unifyLineBreaks_clear clear)

/-! ### Whole runs -/

end CommandLine

theorem Session.initial_clear (host : Host) {path : String} (clear : ClearText path) (fatal : Bool) (limit? : Option Int) :
    (Session.initial host (.initial fatal) path limit?).IsClear where
  console := ⟨List.forall_mem_nil _, List.forall_mem_nil _⟩
  path := clear
  world := World.initial_clear host
  queue := List.forall_mem_nil _
  results := List.forall_mem_nil _

theorem Shell.opening_clear (host : Host) (limit? : Option Int) : (Shell.opening host limit?).IsClear where
  session := (Session.start_clear true clearContents_none _ (Session.initial_clear host (by decide) true limit?)).after
  pending := (by decide : ClearText "")
  prompt := (by decide : ClearText firstPrompt)

namespace CommandLine

theorem runFile_clear (host : Host) {path : String} (named : ClearText path) {contents? : Option (List UInt8)}
    (clear : ClearContents contents?) (options : Options) : (runFile host options path contents?).2.IsClear := by
  have begun := Session.initial_clear host named true options.limit?
  exact (Session.guarded_clear (Session.runFile_clear options.showsTree clear) _ begun).after.console.printed

theorem runShell_clear (host : Host) {lines : List String} (clear : ∀ line ∈ lines, ClearText line) (options : Options) :
    (runShell host options lines).2.IsClear := by
  have conversed : Shell.Clear (fun _ => True) (do Shell.printLine Shell.intro; Shell.converse lines) :=
    .bind (Shell.printLine_clear Shell.intro_clear) fun _ _ => Shell.converse_clear clear
  obtain ⟨after, -, failure⟩ := conversed _ (Shell.opening_clear host options.limit?)
  exact (Shell.onSession_clear (Session.settle_clear failure) _ after).after.session.console.printed

theorem run_clear (host : Host) {arguments : List String} {read? : String → Option (List UInt8)} {input : String}
    (given : ∀ argument ∈ arguments, ClearText argument) (contents : ∀ path ∈ arguments, ClearContents (read? path))
    (typed : ClearText input) : (run host arguments read? input).2.IsClear := by
  unfold run
  split
  next => exact List.forall_mem_singleton.mpr Options.usage_clear
  next => exact List.forall_mem_nil _
  next options asked =>
    split
    next path named =>
      have member := Command.file_mem asked named
      exact runFile_clear host (given path member) (contents path member) options
    next => exact runShell_clear host (inputLines_clear typed) options

/-- How a run ends, and what it prints with these marks. -/
def shown (mark : Marking) (host : Host) (arguments : List String) (read? : String → Option (List UInt8)) (input : String) :
    Except Failure Unit × String :=
  let (outcome, printed) := run host arguments read? input
  (outcome, printed.markedBy mark)

end CommandLine

open Template in
/-- Without its marks a message is the plain one, and there is none, marked or not, exactly if a hole has no argument. A whole run
ends the same with and without colours, since how it ends is settled before anything is marked, and without the marks it prints the
same. -/
theorem colour_is_decoration {mark : Marking} (decorates : mark.Decorates) :
    (∀ (parts : List Part) (arguments : List Argument) (internal : Bool), ClearText (ofParts parts) →
      (∀ argument ∈ arguments, ClearText argument.shown) →
      (parts.count .hole ≤ arguments.length → ∃ shown plain,
        Complaint.ofTemplateMarked mark (ofParts parts) arguments internal = .ok (.worded shown plain internal) ∧
        Complaint.ofTemplate false (ofParts parts) arguments internal = .ok (.worded plain plain internal) ∧
        withoutRenditions shown.toList = plain.toList) ∧
      (arguments.length < parts.count .hole →
        Complaint.ofTemplateMarked mark (ofParts parts) arguments internal = .error (.missingArgument arguments.length) ∧
        Complaint.ofTemplate false (ofParts parts) arguments internal = .error (.missingArgument arguments.length))) ∧
    ∀ (host : Host) (arguments : List String) (read? : String → Option (List UInt8)) (input : String),
      (∀ argument ∈ arguments, ClearText argument) → (∀ path ∈ arguments, ClearContents (read? path)) → ClearText input →
      let coloured := CommandLine.shown mark host arguments read? input
      let plain := CommandLine.shown (.terminal false) host arguments read? input
      coloured.1 = plain.1 ∧ withoutRenditions coloured.2.toList = plain.2.toList := by
  refine ⟨fun parts arguments internal template given => Complaint.ofTemplate_styled decorates template given internal, ?_⟩
  intro host arguments read? input given contents typed coloured plain
  have printed := CommandLine.run_clear host given contents typed
  refine ⟨rfl, ?_⟩
  calc withoutRenditions coloured.2.toList
    _ = ((CommandLine.run host arguments read? input).2.render false).toList := StyledText.withoutRenditions_markedBy decorates printed
    _ = plain.2.toList := congrArg String.toList (StyledText.markedBy_terminal false _).symm

open Template in
/-- A message between braces, and a shell in which something is looked up that is not there, as a terminal shows them. -/
theorem decorated_lookup :
    (∃ shown plain,
      Complaint.ofTemplate true "\x7b\x7b\x7b\x7d\x7d\x7d" [.text "x"] false = .ok (.worded shown plain false) ∧
      Complaint.ofTemplate false "\x7b\x7b\x7b\x7d\x7d\x7d" [.text "x"] false = .ok (.worded plain plain false) ∧
      withoutRenditions shown.toList = plain.toList) ∧
    let coloured := CommandLine.shown (.terminal true) .usual [] (fun _ => none) "x\n"
    let plain := CommandLine.shown (.terminal false) .usual [] (fun _ => none) "x\n"
    coloured.1 = plain.1 ∧ withoutRenditions coloured.2.toList = plain.2.toList ∧ coloured.2 ≠ plain.2 ∧
      plain.2 = Shell.intro ++ "\n>> Traceback:\n  File '<in>', line 1:\n    x\nerror: identifier not found: x\n>> \n" := by
  obtain ⟨messages, runs⟩ := colour_is_decoration (Marking.terminal_decorates true)
  refine ⟨?_, ?_⟩
  · exact (messages [.char '\x7b', .hole, .char '\x7d'] [.text "x"] false (by decide)
      (List.forall_mem_singleton.mpr (by decide))).1 (by decide)
  · intro coloured plain
    obtain ⟨outcome, printed⟩ := runs .usual [] (fun _ => none) "x\n" (List.forall_mem_nil _) (List.forall_mem_nil _) (by decide)
    exact ⟨outcome, printed, by decide +kernel, by decide +kernel⟩

end Treewalk
