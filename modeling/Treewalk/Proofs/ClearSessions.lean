import Treewalk.CommandLine
import Treewalk.Proofs.ClearReports
import Treewalk.Proofs.ClearValues

/-! Sessions and shells stay clear. Whatever they are given to do, all that they hold, and so all that they print, is clear as long
as the file, the path and the lines typed in are. -/

namespace Treewalk

/-- If there are contents and they are text at all, then that is clear. -/
def ClearContents (contents? : Option (List UInt8)) : Prop :=
  ∀ bytes text, contents? = some bytes → Utf8.readText bytes = .ok text → ClearText text

theorem clearContents_none : ClearContents none := nofun

theorem isClear_undecodable (fault : Utf8.Fault) : (Failure.unexpected (.undecodable fault)).IsClear := by
  refine ⟨(by decide : ClearText "UnicodeDecodeError"), ?_⟩
  change ClearText fault.message
  have reason : ClearText fault.reason.text := by
    cases fault.reason <;> decide
  unfold Utf8.Fault.message
  dsimp only
  split <;> simp only [clearText_append, clearText_hexadecimal, clearText_nat, reason, and_true] <;> decide

/-! ### Sessions -/

/-- The unit was read from a clear source. -/
structure QueuedUnit.IsClear (unit : QueuedUnit) : Prop where
  source : ClearText unit.source
  statements : ∀ stmt ∈ unit.program.statements, stmt.IsClear

structure Session.IsClear (session : Session) : Prop where
  console : session.console.IsClear
  path : ClearText session.path
  world : session.world.IsClear
  queue : ∀ unit ∈ session.queue, unit.IsClear
  results : ∀ value ∈ session.results, value.IsClear

namespace Session

/-- Work that keeps a session clear. -/
abbrev Clear {α : Type} (holds : α → Prop) (work : Action Session α) : Prop := Action.Clear IsClear holds work

open Action.Clear

theorem onConsole_clear {change : Console → Console} (keeps : ∀ console : Console, console.IsClear → (change console).IsClear) :
    Clear (fun _ => True) (onConsole change) :=
  modify fun _ clear => { clear with console := keeps _ clear.console }

theorem enter_clear {unit : SourceUnit} (written : ∀ text, unit.text? = some text → ClearText text) :
    Clear (fun _ => True) (enter unit) :=
  get.bind fun _ clear => onConsole_clear fun _ before => before.enter clear.path written

theorem enterAbsent_clear : Clear (fun _ => True) (enter .absent) := enter_clear nofun

theorem enterNumbered_clear {source : String} (clear : ClearText source) (number? : Option Int) :
    Clear (fun _ => True) (enterNumbered source number?) := by
  cases number? with
  | none => exact .done trivial
  | some number => exact enter_clear fun _ same => Option.some.inj same ▸ clear

theorem add_clear {source : String} (clear : ClearText source) (number? : Option Int) :
    Clear (fun _ => True) (add source number?) := by
  obtain ⟨statements, messages⟩ := Program.parse_clear clear
  refine .bind (enterNumbered_clear clear number?) fun _ _ => ?_
  split
  next program read =>
    rw [read] at statements
    refine .bind (.modify fun session before => ?_) fun _ _ => enterAbsent_clear
    exact { before with
      queue := List.forall_mem_append.mpr ⟨before.queue, List.forall_mem_singleton.mpr ⟨clear, statements⟩⟩ }
  next read =>
    rw [read] at messages
    refine .bind (onConsole_clear fun _ before => before.warnAll (List.forall_mem_map.mpr messages)) fun _ _ => ?_
    exact .fail (isClear_syntaxErrors _)

theorem isClear_refusal (limit : Int) : (Host.refusal limit).IsClear := by
  unfold Host.refusal
  split
  · exact ⟨by decide, by decide⟩
  · trivial

theorem isClear_ofFault {fault : Fault} (clear : ClearText fault.message) : (Failure.ofFault fault).IsClear := by
  cases fault with
  | unencodable halves => exact ⟨(by decide : ClearText "UnicodeEncodeError"), clear⟩
  | _ => exact isClear_evaluationFailed clear

theorem evaluate_clear {program : Program} (clear : ∀ stmt ∈ program.statements, stmt.IsClear) :
    Clear Value.IsClear (evaluate program) := by
  intro session before
  unfold evaluate
  split
  · exact .error ⟨by decide, by decide⟩ before
  · split
    · exact .error (isClear_refusal _) before
    next value after ran =>
      obtain ⟨held, left⟩ := Program.evaluate?_clear clear before.world ran
      refine .ok held { before with world := ⟨left.bindings, by simp [World.silenced]⟩, console := before.console.print ?_ }
      refine List.forall_mem_map.mpr fun line member => clearText_append.mpr ⟨?_, by decide⟩
      exact left.printed line (Array.mem_def.mpr member)

theorem runUnit_clear {unit : QueuedUnit} (clear : unit.IsClear) : Clear (fun _ => True) (runUnit unit) := by
  refine .bind (enterNumbered_clear clear.source unit.number?) fun _ _ => ?_
  refine .bind (evaluate_clear clear.statements) fun value held => ?_
  split
  · exact .fail (isClear_ofFault (Value.isClear_error.mp held))
  · refine .bind (.modify fun session before => ?_) fun _ _ => enterAbsent_clear
    exact { before with results := List.forall_mem_append.mpr ⟨before.results, List.forall_mem_singleton.mpr held⟩ }

theorem runUnits_clear {units : List QueuedUnit} (clear : ∀ unit ∈ units, unit.IsClear) :
    Clear (fun _ => True) (runUnits units) := by
  induction units with
  | nil => exact .done trivial
  | cons unit units ih =>
    obtain ⟨first, others⟩ := List.forall_mem_cons.mp clear
    refine .bind (.modify fun session before => { before with queue := others }) fun _ _ => ?_
    exact .bind (runUnit_clear first) fun _ _ => ih others

theorem run_clear : Clear (fun _ => True) run := get.bind fun _ before => runUnits_clear before.queue

/-- A text that there is room for is the one that was to be put together. -/
theorem compose_clear {host : Host} {levels : Nat} {text : String} (clear : ClearText text) {session : Session}
    (before : session.IsClear) : Action.EndsClear IsClear ClearText (host.compose levels text, session) := by
  unfold Host.compose
  split
  · exact .ok clear before
  · exact .error trivial before

theorem outlines_clear {programs : List Program} (clear : ∀ program ∈ programs, ∀ stmt ∈ program.statements, stmt.IsClear) :
    ClearText (outlines programs) := by
  refine (clearText_intercalate (by decide)).mpr (List.forall_mem_map.mpr fun program member => ?_)
  exact Program.outline_clear (clear program member) 0

theorem display_clear : Clear ClearText display := by
  intro session before
  refine compose_clear (outlines_clear (List.forall_mem_map.mpr fun unit member => ?_)) before
  exact (before.queue unit member).statements

theorem pop_clear : Clear ClearText pop := by
  intro session before
  unfold pop
  split
  next => exact .error ⟨by decide, by decide⟩ before
  next value last =>
    refine compose_clear (before.results value (List.mem_of_getLast? last)).shown { before with results := fun value member => ?_ }
    exact before.results value (List.dropLast_subset _ member)

theorem printResult_clear : Clear (fun _ => True) printResult := by
  refine get.bind fun session _ => ?_
  split
  · exact .done trivial
  · exact .bind pop_clear fun text held => onConsole_clear fun _ before => before.printLine (List.forall_mem_singleton.mpr held)

theorem settle_clear {outcome : Except Failure Unit} (worded : ∀ failure, outcome = .error failure → failure.IsClear) :
    Clear (fun _ => True) (settle outcome) := by
  intro session before
  obtain ⟨after, value, failure⟩ := Console.settle_clear worded session.console before.console
  exact ⟨{ before with console := after }, value, failure⟩

/-- No complaint gets past the console, and what does get past it has been told. -/
theorem guarded_clear {work : Action Session Unit} (clear : Clear (fun _ => True) work) : Clear (fun _ => True) (guarded work) := by
  intro session before
  obtain ⟨after, -, failure⟩ := clear session before
  exact settle_clear failure (work session).2 after

theorem addFile_clear {contents? : Option (List UInt8)} (clear : ClearContents contents?) :
    Clear (fun _ => True) (addFile contents?) := by
  refine get.bind fun session before => ?_
  dsimp only
  split
  · exact .bind (show Clear (fun _ => False) _ from .fail ⟨by decide, by decide⟩) fun _ => False.elim
  · split
    next => exact .fail (isClear_cannotOpen before.path)
    next bytes =>
      split
      next fault _ => exact .fail (isClear_undecodable fault)
      next source read => exact add_clear (clear bytes source rfl read) none

theorem start_clear {contents? : Option (List UInt8)} (interactive : Bool) (clear : ClearContents contents?) :
    Clear (fun _ => True) (start interactive contents?) := by
  have opened : Clear (fun _ => True) (do
      let path := (← MonadState.get).path
      if path ≠ promptPath then addFile contents?
      else if !interactive then throw (.complaint .reservedName) : Action Session Unit) := by
    refine get.bind fun session _ => ?_
    dsimp only
    split
    · exact addFile_clear clear
    · split
      · exact .fail (List.forall_mem_singleton.mpr (by decide))
      · exact .done trivial
  refine .bind enterAbsent_clear fun _ _ => ?_
  dsimp only
  split
  · exact .bind (onConsole_clear fun _ before => ⟨before.trace, before.printed⟩) fun _ _ => opened
  · exact opened

theorem runFile_clear {contents? : Option (List UInt8)} (showsTree : Bool) (clear : ClearContents contents?) :
    Clear (fun _ => True) (runFile showsTree contents?) := by
  refine .bind (start_clear false clear) fun _ _ => ?_
  split
  · refine .bind display_clear fun text held => onConsole_clear fun _ before => ?_
    exact before.printLine (List.forall_mem_singleton.mpr held)
  · refine .bind run_clear fun _ _ => get.bind fun session _ => ?_
    split
    · exact .done trivial
    · exact .done trivial
    · exact printResult_clear

end Session

/-! ### Shells -/

namespace Shell

structure IsClear (shell : Shell) : Prop where
  session : shell.session.IsClear
  pending : ClearText shell.pending
  prompt : ClearText shell.prompt

/-- Work that keeps a shell clear. -/
abbrev Clear {α : Type} (holds : α → Prop) (work : Action Shell α) : Prop := Action.Clear IsClear holds work

open Action.Clear

theorem onSession_clear {α : Type} {holds : α → Prop} {work : Action Session α} (clear : Session.Clear holds work) :
    Clear holds (onSession work) := by
  intro shell before
  obtain ⟨after, value, failure⟩ := clear shell.session before.session
  exact ⟨{ before with session := after }, value, failure⟩

theorem print_clear {text : StyledText} (clear : text.IsClear) : Clear (fun _ => True) (print text) :=
  onSession_clear (Session.onConsole_clear fun _ before => before.print clear)

theorem printLine_clear {text : String} (clear : ClearText text) : Clear (fun _ => True) (printLine text) :=
  print_clear (List.forall_mem_cons.mpr ⟨clear, List.forall_mem_singleton.mpr (by decide)⟩)

theorem intro_clear : ClearText intro := clearText_ofList.mpr (by decide)

theorem help_clear : ClearText help := by
  unfold help
  simp only [clearText_append]
  and_intros <;> exact clearText_ofList.mpr (by decide)

theorem runEntry_clear {source : String} (clear : ClearText source) (number : Int) :
    Session.Clear (fun _ => True) (runEntry source number) :=
  .bind (Session.add_clear clear (some number)) fun _ _ => .bind Session.run_clear fun _ _ => Session.printResult_clear

theorem takeEntry_clear {line : String} (clear : ClearText line) : Clear (fun _ => True) (takeEntry line) := by
  refine get.bind fun shell before => ?_
  dsimp only
  generalize entered : (if shell.pending.isEmpty then line else shell.pending ++ "\n" ++ line) = source
  have whole : ClearText source := by
    rw [← entered]
    split
    · exact clear
    · simp only [clearText_append, before.pending, clear, and_true, true_and]
      decide
  split
  · exact .set ⟨before.session, whole, (by decide : ClearText continuationPrompt)⟩
  · refine .bind (.set ⟨before.session, (by decide : ClearText ""), (by decide : ClearText firstPrompt)⟩)
      fun _ _ => ?_
    exact onSession_clear (Session.guarded_clear (runEntry_clear whole _))

theorem ofLine_clear {line entered : String} (clear : ClearText line) (asked : Request.ofLine line = .entry entered) :
    ClearText entered := by
  unfold Request.ofLine at asked
  dsimp only at asked
  split at asked
  · cases asked
  · cases asked
  · split at asked
    · cases asked
    · cases asked
    · cases asked
    · exact Request.entry.inj asked ▸ clearText_strip clear

theorem perform_clear {request : Request} (clear : ∀ line, request = .entry line → ClearText line) :
    Clear (fun _ => True) (perform request) := by
  cases request with
  | nothing | exit => exact .done trivial
  | help => exact .bind (printLine_clear help_clear) fun _ _ => .done trivial
  | endOfInput => exact .bind (printLine_clear (by decide)) fun _ _ => .done trivial
  | entry line => exact .bind (takeEntry_clear (clear line rfl)) fun _ _ => .done trivial

theorem converse_clear {lines : List String} (clear : ∀ line ∈ lines, ClearText line) : Clear (fun _ => True) (converse lines) := by
  induction lines with
  | nil =>
    refine get.bind fun shell before => .bind (print_clear (List.forall_mem_singleton.mpr before.prompt)) fun _ _ => ?_
    exact .bind (perform_clear nofun) fun _ _ => .done trivial
  | cons line lines ih =>
    obtain ⟨first, others⟩ := List.forall_mem_cons.mp clear
    refine get.bind fun shell before => .bind (print_clear (List.forall_mem_singleton.mpr before.prompt)) fun _ _ => ?_
    refine .bind (perform_clear fun _ asked => ofLine_clear first asked) fun stopped _ => ?_
    split
    · exact .done trivial
    · exact ih others

end Shell

end Treewalk
