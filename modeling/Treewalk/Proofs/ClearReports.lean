import Treewalk.Report.Console
import Treewalk.Proofs.ClearText
import Treewalk.Proofs.ShellUnits

/-! Reports stay clear. What a console prints is put together from paths, units, messages and the wording of complaints; where
these are clear, all that it prints is. -/

namespace Treewalk

/-! ### Pieces of a text -/

theorem trimmed_subset (test : Char → Bool) (chars : List Char) : trimmed test chars ⊆ chars := by
  intro c member
  have inner := (List.dropWhile_sublist test).subset (List.mem_reverse.mp member)
  exact (List.dropWhile_sublist test).subset (List.mem_reverse.mp inner)

theorem clearText_strip {text : String} (clear : ClearText text) : ClearText (strip text) :=
  clearText_ofList.mpr fun inside => clear (trimmed_subset isSpace text.toList inside)

/-! ### Traces and complaints -/

/-- Paths and current units are clear. -/
def Trace.IsClear (trace : Trace) : Prop := ∀ entry ∈ trace, ClearText entry.1 ∧ ∀ text, entry.2.text? = some text → ClearText text

namespace Trace

variable {trace : Trace}

theorem IsClear.enter (clear : trace.IsClear) {path : String} (named : ClearText path) {unit : SourceUnit}
    (written : ∀ text, unit.text? = some text → ClearText text) : (trace.enter path unit).IsClear := by
  induction trace with
  | nil => exact List.forall_mem_singleton.mpr ⟨named, written⟩
  | cons entry trace ih =>
    obtain ⟨⟨first, old⟩, others⟩ := List.forall_mem_cons.mp clear
    rw [Trace.enter]
    split
    · exact List.forall_mem_cons.mpr ⟨⟨first, written⟩, others⟩
    · exact List.forall_mem_cons.mpr ⟨⟨first, old⟩, ih others⟩

theorem IsClear.cleared (clear : trace.IsClear) : trace.cleared.IsClear :=
  List.forall_mem_map.mpr fun entry member => ⟨(clear entry member).1, fun _ found => nomatch found⟩

theorem clearText_numberText (unit : SourceUnit) : ClearText unit.numberText := by
  unfold SourceUnit.numberText
  split
  · decide
  · exact clearText_int _

theorem IsClear.location (clear : trace.IsClear) : ClearText trace.location := by
  unfold Trace.location
  split
  next => decide
  next path unit last =>
    have named : ClearText path := (clear (path, unit) (List.mem_of_getLast? last)).1
    split
    · simp only [clearText_append, named, clearText_numberText, true_and, and_true]
      decide
    · exact clearText_append.mpr ⟨named, by decide⟩

theorem IsClear.summary (clear : trace.IsClear) : ClearText trace.summary := by
  unfold Trace.summary
  split
  · refine clearText_append.mpr ⟨by decide, clearText_join.mpr (List.forall_mem_map.mpr fun entry member => ?_)⟩
    obtain ⟨named, written⟩ := clear entry member
    obtain ⟨path, unit⟩ := entry
    simp only [entryText]
    split
    next => decide
    next text found =>
      simp only [clearText_append, named, clearText_numberText, clearText_strip (written text found), and_true]
      decide
  · decide

end Trace

/-- The wording of the failure, and whatever it hands on, is clear. -/
def Failure.IsClear : Failure → Prop
  | .complaint told => told.message.IsClear
  | .unexpected cause => ClearText cause.kind ∧ ClearText cause.message
  | .interrupted | .nestingTooDeep | .exit _ => True

theorem StyledText.isClear_append {front back : StyledText} :
    StyledText.IsClear (front ++ back) ↔ front.IsClear ∧ back.IsClear := List.forall_mem_append

theorem isClear_cannotOpen {path : String} (clear : ClearText path) : (Failure.complaint (.cannotOpen path)).IsClear := by
  simp +decide [Failure.IsClear, Complaint.message, StyledText.IsClear, clear, Span.plain, Span.bold]

theorem isClear_syntaxErrors (count : Nat) : (Failure.complaint (.syntaxErrors count)).IsClear := by
  simpa +decide [Failure.IsClear, Complaint.message, StyledText.IsClear, Span.plain, Span.bold] using clearText_nat count

theorem isClear_evaluationFailed {fault : Fault} (clear : ClearText fault.message) :
    (Failure.complaint (.evaluationFailed fault)).IsClear := by
  simpa [Failure.IsClear, Complaint.message, StyledText.IsClear, Span.bold] using clear

theorem Failure.IsClear.unexpectedComplaint {cause : Unexpected} (clear : (Failure.unexpected cause).IsClear) :
    (Complaint.unexpected cause).message.IsClear := by
  obtain ⟨kind, message⟩ := clear
  simp +decide [Complaint.message, StyledText.IsClear, kind, message, Span.plain, Span.bold]

/-! ### The console -/

structure Console.IsClear (console : Console) : Prop where
  trace : console.trace.IsClear
  printed : console.printed.IsClear

namespace Console

variable {console : Console}

theorem IsClear.print (clear : console.IsClear) {text : StyledText} (more : text.IsClear) : (console.print text).IsClear :=
  ⟨clear.trace, StyledText.isClear_append.mpr ⟨clear.printed, more⟩⟩

theorem IsClear.printLine (clear : console.IsClear) {text : StyledText} (more : text.IsClear) :
    (console.printLine text).IsClear :=
  clear.print (StyledText.isClear_append.mpr ⟨more, List.forall_mem_singleton.mpr (by decide)⟩)

theorem IsClear.enter (clear : console.IsClear) {path : String} (named : ClearText path) {unit : SourceUnit}
    (written : ∀ text, unit.text? = some text → ClearText text) : (console.enter path unit).IsClear :=
  ⟨clear.trace.enter named written, clear.printed⟩

theorem IsClear.warnAll (clear : console.IsClear) {messages : List String} (given : ∀ message ∈ messages, ClearText message) :
    (console.warnAll messages).IsClear := by
  induction messages generalizing console with
  | nil => exact clear
  | cons message messages ih =>
    obtain ⟨first, others⟩ := List.forall_mem_cons.mp given
    have warned : (console.warn message).IsClear := by
      refine clear.printLine (List.forall_mem_cons.mpr ⟨clear.trace.location, ?_⟩)
      exact List.forall_mem_cons.mpr ⟨by decide, List.forall_mem_singleton.mpr first⟩
    exact ih warned others

theorem complaintText_clear {trace : Trace} (clear : trace.IsClear) {complaint : Complaint} (worded : complaint.message.IsClear) :
    (complaintText trace complaint).IsClear := by
  have label : StyledText.IsClear [⟨.boldRed, "error: "⟩] := List.forall_mem_singleton.mpr (by decide)
  have internal : StyledText.IsClear (if complaint.isInternal then [⟨.boldRed, "[internal] "⟩] else []) := by
    split
    · exact List.forall_mem_singleton.mpr (by decide)
    · exact List.forall_mem_nil _
  unfold complaintText
  simp only [StyledText.isClear_append, worded, label, internal, and_true]
  exact List.forall_mem_singleton.mpr clear.summary

end Console

/-! ### Actions -/

namespace Action

variable {σ α β : Type} {state : σ → Prop}

/-- What the work has come to is clear: the state, and either the value or the failure. -/
structure EndsClear (state : σ → Prop) (holds : α → Prop) (ended : Except Failure α × σ) : Prop where
  after : state ended.2
  value : ∀ value, ended.1 = .ok value → holds value
  failure : ∀ failure, ended.1 = .error failure → failure.IsClear

/-- From a clear state the work comes to something clear. -/
def Clear (state : σ → Prop) (holds : α → Prop) (work : Action σ α) : Prop :=
  ∀ before, state before → EndsClear state holds (work before)

theorem EndsClear.ok {holds : α → Prop} {value : α} {after : σ} (held : holds value) (clear : state after) :
    EndsClear state holds (.ok value, after) := by
  refine ⟨clear, fun _ same => Except.ok.inj same ▸ held, fun failure same => ?_⟩
  cases same

theorem EndsClear.error {holds : α → Prop} {failure : Failure} {after : σ} (worded : failure.IsClear) (clear : state after) :
    EndsClear state holds (.error failure, after) := by
  refine ⟨clear, fun value same => ?_, fun _ same => Except.error.inj same ▸ worded⟩
  cases same

namespace Clear

variable {holds : α → Prop}

theorem done {value : α} (held : holds value) : Clear state holds (pure value) := fun _ clear => .ok held clear

theorem fail {failure : Failure} (worded : failure.IsClear) : Clear state holds (throw failure) :=
  fun _ clear => .error worded clear

theorem get : Clear state state get := fun _ clear => .ok clear clear

theorem modify {change : σ → σ} (keeps : ∀ before, state before → state (change before)) :
    Clear state (fun _ => True) (modify change) :=
  fun before clear => .ok trivial (keeps before clear)

theorem set {after : σ} (clear : state after) : Clear state (fun _ => True) (set after) := fun _ _ => .ok trivial clear

theorem bind {between : α → Prop} {holds : β → Prop} {first : Action σ α} {next : α → Action σ β}
    (head : Clear state between first) (tail : ∀ value, between value → Clear state holds (next value)) :
    Clear state holds (first >>= next) := by
  intro before clear
  have begun := head before clear
  rw [bind_apply]
  split
  next value after ended =>
    rw [ended] at begun
    exact tail value (begun.value value rfl) after begun.after
  next failure after ended =>
    rw [ended] at begun
    exact .error (begun.failure failure rfl) begun.after

end Clear

end Action

namespace Console

theorem complain_clear {complaint : Complaint} (worded : complaint.message.IsClear) :
    Action.Clear IsClear (fun _ => True) (complain complaint) := by
  intro console clear
  have told := clear.printLine (complaintText_clear clear.trace worded)
  unfold complain
  dsimp only
  split
  · exact .error trivial told
  · exact .ok trivial ⟨told.trace.cleared, told.printed⟩

theorem settle_clear {outcome : Except Failure Unit} (worded : ∀ failure, outcome = .error failure → failure.IsClear) :
    Action.Clear IsClear (fun _ => True) (settle outcome) := by
  cases outcome with
  | ok => exact .done trivial
  | error failure =>
    have worded := worded failure rfl
    cases failure with
    | complaint complaint => exact complain_clear worded
    | interrupted | nestingTooDeep => exact complain_clear (List.forall_mem_singleton.mpr (by decide))
    | exit status => exact .fail worded
    | unexpected cause => exact .bind (complain_clear worded.unexpectedComplaint) fun _ _ => .fail worded

end Console

end Treewalk
