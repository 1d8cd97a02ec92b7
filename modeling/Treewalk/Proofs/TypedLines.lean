import Treewalk.Proofs.LineEnds
import Treewalk.Proofs.Relocation
import Treewalk.Proofs.ShellUnits

/-! An entry that is typed over several lines means what it means when it is submitted as a whole. The shell strips every
line and leaves out the blank ones, so this holds where no string has white space beside a line break in it. The lines
before the last one are kept, since none of them completes the entry. -/

namespace Treewalk

/-! ### Entries that are read alike -/

theorem bracketBalance_of_map_symbol {first second : List Token} (same : first.map Token.symbol = second.map Token.symbol) :
    bracketBalance first = bracketBalance second := by
  induction first generalizing second with
  | nil => rw [List.map_eq_nil_iff.mp same.symm]
  | cons token first ih =>
    obtain ⟨token', second, rfl, head, tail⟩ := List.map_eq_cons_iff.mp same.symm
    have step : token'.bracketStep = token.bracketStep :=
      congrArg (fun symbol : Symbol => Token.bracketStep ⟨symbol.kind, "", 0⟩) head
    rw [bracketBalance, bracketBalance, ih tail.symm, step]

theorem Token.map_symbol_scan (source : String) : (scan source).map symbol = symbolsOf source.toList := by
  rw [scan_eq_placed, List.map_map]
  rfl

theorem Token.map_symbol_scan_congr {first second : String} (same : symbolsOf first.toList = symbolsOf second.toList) :
    (scan first).map symbol = (scan second).map symbol := by
  rw [map_symbol_scan, map_symbol_scan, same]

theorem needsContinuation_congr {first second : String} (same : symbolsOf first.toList = symbolsOf second.toList) :
    needsContinuation first = needsContinuation second := by
  have opened (source : String) :
      (Cursor.ofString source).placed.any (·.lexeme.isOpen) = (symbolsOf source.toList).any Symbol.isOpen := by
    rw [symbolsOf, List.any_map]
    rfl
  rw [needsContinuation_eq, needsContinuation_eq, opened, opened, same,
    bracketBalance_of_map_symbol (Token.map_symbol_scan_congr same)]

theorem Program.parse_of_symbolsOf_eq {first second : String} (same : symbolsOf first.toList = symbolsOf second.toList)
    (silent : (parse first).2 = []) : parse second = ((parse first).1, []) := by
  obtain ⟨programs, silences⟩ := ofTokens_of_map_symbol (Token.map_symbol_scan_congr same) nestingLimit
  exact Prod.ext programs.symm (silences.mp silent)

theorem Program.legible_of_silent {room : Nat} {source : String} (silent : (parseWithin room source).2 = []) :
    Legible source.toList := by
  rw [Legible, ← Token.map_symbol_scan]
  exact List.forall_mem_map.mpr (scan_not_illegal silent)

/-! ### Lines of a source -/

/-- The lines of a source, without the breaks between them. -/
def linesOf (source : String) : List String := (source.toList.splitOn '\n').map String.ofList

theorem joined_linesOf (source : String) : joined (linesOf source) = source := by
  have texts : (linesOf source).map String.toList = source.toList.splitOn '\n' := by
    simp [linesOf, List.map_map, Function.comp_def]
  rw [joined, ← String.toList_inj, String.toList_intercalate, texts]
  exact List.intercalate_splitOn '\n'

theorem broken_eq_cons {lines : List String} (some_left : lines ≠ []) : broken lines = '\n' :: (joined lines).toList := by
  induction lines with
  | nil => exact absurd rfl some_left
  | cons line lines ih =>
    by_cases last : lines = []
    · simp [last, broken, joined]
    · have parts := congrArg String.toList (joined_append (List.cons_ne_nil line []) last)
      rw [List.singleton_append] at parts
      rw [parts, broken, List.flatMap_cons, ← broken, ih last]
      simp [joined]

theorem symbolsOf_broken (lines : List String) : symbolsOf (broken lines) = symbolsOf (joined lines).toList := by
  by_cases none_left : lines = []
  · simp [none_left, broken, joined]
  · rw [broken_eq_cons none_left, symbolsOf_of_blank (by rfl)]

/-- Every line break is inside a string or between a bracket and its partner. -/
def BreaksInside (source : String) : Prop :=
  ∀ before after, source = before ++ "\n" ++ after → InsideString source before.length ∨ InsideBrackets source before.length

/-- No line break inside a string has white space beside it. -/
def BreaksTight (source : String) : Prop :=
  ∀ before after, source = before ++ "\n" ++ after → InsideString source before.length →
    (∀ c, before.toList.getLast? = some c → isSpace c = false) ∧ ∀ c, after.toList.head? = some c → isSpace c = false

instance (source : String) (position : Nat) : Decidable (InsideString source position) :=
  inferInstanceAs (Decidable (∃ placed ∈ _, _))

theorem parts_of_break {source before after : String} (same : source = before ++ "\n" ++ after) :
    source.toList[before.length]? = some '\n' ∧ before.toList = source.toList.take before.length ∧
      after.toList = source.toList.drop (before.length + 1) := by
  subst same
  simp [← String.length_toList, List.drop_append]

theorem BreaksInside.of_positions {source : String}
    (inside : ∀ n < source.toList.length, source.toList[n]? = some '\n' → InsideString source n ∨ InsideBrackets source n) :
    BreaksInside source := by
  intro before after same
  have found := (parts_of_break same).1
  exact inside _ (List.getElem?_eq_some_iff.mp found).1 found

theorem BreaksTight.of_positions {source : String}
    (tight : ∀ n < source.toList.length, source.toList[n]? = some '\n' → InsideString source n →
      (source.toList.take n).getLast?.all (!isSpace ·) ∧ (source.toList.drop (n + 1)).head?.all (!isSpace ·)) :
    BreaksTight source := by
  intro before after same inside
  obtain ⟨found, front, back⟩ := parts_of_break same
  obtain ⟨last, first⟩ := tight _ (List.getElem?_eq_some_iff.mp found).1 found inside
  rw [← front] at last
  rw [← back] at first
  exact ⟨fun c at_end => by simpa [at_end] using last, fun c at_start => by simpa [at_start] using first⟩

/-- A line break that finds a string open is inside of that string, since the string is closed later. -/
theorem insideString_of_not_closed {source : String} {before after : List Char}
    (text : source.toList = before ++ '\n' :: after) (legible : Legible source.toList)
    (unclosed : ¬ (Cursor.mk 0 before).Closed) : InsideString source before.length := by
  obtain ⟨placed, member, still | ⟨string, starts, ends⟩⟩ :=
    Cursor.exists_string_of_not_closed (by decide : isSpace '\n' = true) after unclosed
  · rw [text] at legible
    exact absurd still (Bool.eq_false_iff.mp (legible.closed placed member))
  · rw [← text] at member
    simp only [Nat.zero_add] at starts ends
    exact ⟨placed, member, string, starts, by omega⟩

theorem BreaksTight.broken {lines : List String} (tight : BreaksTight (joined lines))
    (legible : Legible (joined lines).toList) : Tight (broken lines) := by
  intro before after same unclosed
  by_cases none_left : lines = []
  · simp [none_left, Treewalk.broken] at same
  rw [broken_eq_cons none_left] at same
  cases before with
  | nil => exact absurd Cursor.closed_nil unclosed
  | cons c before =>
    obtain rfl : '\n' = c := (List.cons.inj same).1
    have text : (joined lines).toList = before ++ '\n' :: after := (List.cons.inj same).2
    rw [Cursor.closed_congr (symbolsOf_of_blank (by rfl) before)] at unclosed
    have inside := insideString_of_not_closed text legible unclosed
    rw [← String.length_ofList] at inside
    obtain ⟨last, first⟩ := tight (String.ofList before) (String.ofList after) (by simp [← String.toList_inj, text]) inside
    rw [String.toList_ofList] at last first
    refine ⟨fun c behind => last c ?_, first⟩
    cases before with
    | nil => exact absurd Cursor.closed_nil unclosed
    | cons d before => rwa [List.getLast?_cons_cons] at behind

/-! ### The same unit, typed and submitted -/

namespace Shell

/-- What becomes of a source that a new session is given as a whole. -/
def submitted (host : Host) (limit : Int) (source : String) : Except Failure Unit × Session :=
  (do Session.add source none; Session.run) (opening host (some limit)).session

/-- What a shell says in the end about an entry with this number: the value that its session has got, or how it has failed. A
value is not shown where the host has no room for its text. -/
inductive Said (host : Host) (entry : String) (number : Int) : Except Failure Unit → List Value → StyledText → Prop where
  | value (value : Value) (room : value.levels ≤ host.levels) :
    Said host entry number (.ok ()) [value] [.plain value.inspect, .plain "\n"]
  | tooDeep (value : Value) (deep : host.levels < value.levels) : Said host entry number (.ok ()) [value] tooDeepText
  | fault (fault : Fault) :
    Said host entry number (.error (.ofFault fault)) [] (fault.complaint.errorText number entry)

/-- The lines of a source leave a new shell where the whole of it leaves a session, and with the same to say. -/
structure TypedAsSubmitted (host : Host) (limit : Int) (source : String) : Prop where
  world : (after (opening host (some limit)) (linesOf source)).session.world = (submitted host limit source).2.world
  pending : (after (opening host (some limit)) (linesOf source)).pending = ""
  said : ∃ text, Said host (joined (entries (linesOf source))) (entries (linesOf source)).length
      (submitted host limit source).1 (submitted host limit source).2.results text ∧
    (after (opening host (some limit)) (linesOf source)).session.console.printed =
      (submitted host limit source).2.console.printed ++ text

variable {host : Host} {limit : Int} {program : Program} {source entry : String}

theorem opening_session (host : Host) (limit? : Option Int) :
    (opening host limit?).session = .idle limit? (.initial host) [] := rfl

theorem submitted_eq (parsed : Program.parse source = (program, [])) :
    submitted host limit source = Session.runUnit ⟨program, source, none⟩ (.idle limit (.initial host) []) := by
  rw [submitted, opening_session, Action.bind_apply, Session.add_accepted parsed]
  dsimp only
  rw [Session.run_single (by rfl)]
  rfl

theorem said_of_value (host : Host) (entry : String) (number : Int) (value : Value) :
    Said host entry number (.ok ()) [value] (value.echo host.levels) := by
  unfold Value.echo
  split
  next room => exact .value value room
  next deep => exact .tooDeep value (Nat.lt_of_not_le deep)

theorem guarded_as_submitted (host : Host) (nonneg : 0 ≤ limit) (parsed : Program.parse source = (program, []))
    (parsed' : Program.parse entry = (program, [])) (number : Int) :
    let typed := (Session.guarded (runEntry entry number) (opening host (some limit)).session).2
    typed.world = (submitted host limit source).2.world ∧ ∃ text,
      Said host entry number (submitted host limit source).1 (submitted host limit source).2.results text ∧
        typed.console.printed = (submitted host limit source).2.console.printed ++ text := by
  have ran := Program.evaluate?_of_nonneg nonneg program World.root (.initial host)
  have kept := program.eval_host (min limit.toNat host.calls) World.root (.initial host)
  rw [World.initial_host] at ran kept
  generalize program.eval _ World.root (.initial host) = result at ran kept
  obtain ⟨value, world⟩ := result
  rw [submitted_eq parsed, opening_session, Session.guarded]
  by_cases failed : ∃ fault, value = .error fault
  · obtain ⟨fault, rfl⟩ := failed
    rw [runEntry_failed parsed' ran, Session.runUnit_failed (by rfl) ran]
    dsimp only
    rw [settle_fault]
    exact ⟨rfl, _, .fault fault, rfl⟩
  · have fine (fault : Fault) : value ≠ .error fault := fun same => failed ⟨fault, same⟩
    have shown := settle_printResult (some limit) world.silenced ([] ++ Session.outputText world) value
    have levels : world.silenced.host.levels = host.levels := congrArg Host.levels kept
    rw [levels] at shown
    rw [Session.guarded] at shown
    rw [runEntry_finished parsed' ran fine, Session.runUnit_finished (by rfl) ran fine, shown]
    exact ⟨rfl, _, said_of_value host entry number value, rfl⟩

/-! ### Feeding the lines -/

def Request.isCommand : Request → Bool
  | .help | .exit | .endOfInput => true
  | .nothing | .entry _ => false

theorem Request.line?_ofLine {line : String} (plain : (ofLine line).isCommand = false) :
    (ofLine line).line? = content? line := by
  cases asked : ofLine line with
  | entry entry =>
    obtain ⟨rfl, some_left⟩ := eq_of_entry asked
    rw [content?, if_neg some_left]
    rfl
  | nothing =>
    simp only [ofLine] at asked
    split at asked
    next none_left =>
      rw [content?, if_pos (String.toList_eq_nil_iff.mp none_left)]
      rfl
    next => cases asked
    next => split at asked <;> cases asked
  | _ => simp [asked, isCommand] at plain

theorem entries_eq_stripped {lines : List String} (plain : ∀ line ∈ lines, (Request.ofLine line).isCommand = false) :
    entries lines = stripped lines := by
  rw [entries, stripped]
  induction lines with
  | nil => rw [List.filterMap_nil, List.filterMap_nil]
  | cons line lines ih =>
    obtain ⟨first, others⟩ := List.forall_mem_cons.mp plain
    rw [List.filterMap_cons, List.filterMap_cons, Request.line?_ofLine first, ih others]

/-- A line that completes an entry has it run. -/
theorem onLine_complete (session : Session) {lines : List String} {line entry : String}
    (asked : Request.ofLine line = .entry entry) (complete : needsContinuation (joined (entries lines ++ [entry])) = false) :
    (onLine line ⟨session, joined (entries lines), (entries lines).length, promptBehind (entries lines)⟩).2 =
      ⟨(Session.guarded (runEntry (joined (entries lines ++ [entry])) ((entries lines).length + 1 : Nat)) session).2, "",
        (entries lines).length + 1, firstPrompt⟩ := by
  rw [onLine, asked, perform, Action.bind_apply, takeEntry_apply _ (nonempty_of_mem_entries lines), if_neg (by simp [complete])]
  generalize Session.guarded (runEntry _ _) session = ended
  rcases ended with ⟨_ | _, after⟩ <;> rfl

section Lines

variable {source : String} (silent : (Program.parse source).2 = []) (tight : BreaksTight source)
  (plain : ∀ line ∈ linesOf source, (Request.ofLine line).isCommand = false)

include silent tight plain

/-- The lines so far have the symbols of the entry that the shell has made of them. -/
theorem symbolsOf_entries {front back : List String} (lines : linesOf source = front ++ back) :
    symbolsOf (joined front).toList = symbolsOf (joined (entries front)).toList := by
  rw [lines, List.forall_mem_append] at plain
  have legible := Program.legible_of_silent silent
  rw [← joined_linesOf source, lines] at legible tight
  have apart : broken (front ++ back) = broken front ++ broken back := List.flatMap_append
  have ends : EndsLine (broken back) := by simpa using EndsLine.nil.broken_append back
  have tight := tight.broken legible
  rw [Legible, ← symbolsOf_broken, apart] at legible
  rw [apart] at tight
  rw [← symbolsOf_broken, ← symbolsOf_broken, entries_eq_stripped plain.1]
  exact (readAlike_stripped (fun _ _ => rfl : ReadAlike [] []) ends legible tight).symbolsOf_eq

theorem entries_unfinished (inside : BreaksInside source) {front back : List String} (lines : linesOf source = front ++ back)
    (some_left : front ≠ []) (more : back ≠ []) : needsContinuation (joined (entries front)) = true := by
  have parts : source = joined front ++ "\n" ++ joined back := by
    rw [← joined_append some_left more, ← lines, joined_linesOf]
  rw [← needsContinuation_congr (symbolsOf_entries silent tight plain lines)]
  have breaks := inside _ _ parts
  rw [parts] at silent breaks
  exact Program.continues_at_line_break silent breaks

theorem entries_complete : needsContinuation (joined (entries (linesOf source))) = false := by
  rw [← needsContinuation_congr (symbolsOf_entries silent tight plain (List.append_nil _).symm), joined_linesOf]
  exact Program.complete_of_silent silent

/-- The last line of a source is the last line of the entry. -/
theorem exists_last_entry (solid : strip source ≠ "") (inside : BreaksInside source) :
    ∃ front last entry, linesOf source = front ++ [last] ∧ Request.ofLine last = .entry entry := by
  have some_left : linesOf source ≠ [] := by
    intro none
    have empty := joined_linesOf source
    rw [none] at empty
    exact solid (empty ▸ rfl)
  obtain ⟨front, last, lines⟩ : ∃ front last, linesOf source = front ++ [last] :=
    ⟨_, _, (List.dropLast_concat_getLast some_left).symm⟩
  have plain_last : (Request.ofLine last).isCommand = false := plain last (by simp [lines])
  cases asked : Request.ofLine last with
  | entry entry => exact ⟨front, last, entry, lines, asked⟩
  | nothing =>
    have blank : strip last = "" := by
      simpa [asked, Request.line?, content?] using Request.line?_ofLine plain_last
    have none : entries (linesOf source) = entries front := by
      rw [lines, entries_concat, asked]
      exact List.append_nil _
    by_cases only : front = []
    · have whole := joined_linesOf source
      rw [lines, only, List.nil_append, joined, String.intercalate_singleton] at whole
      exact absurd (whole ▸ blank) solid
    · have more := entries_unfinished silent tight plain inside lines only (by simp)
      have complete := entries_complete silent tight plain
      rw [none, more] at complete
      cases complete
  | _ => simp [asked, Request.isCommand] at plain_last

end Lines

theorem after_append (shell : Shell) (front back : List String) :
    after shell (front ++ back) = after (after shell front) back := by
  induction front generalizing shell with
  | nil => rfl
  | cons line front ih => rw [List.cons_append, after, after, ih]

/-- Lines that complete nothing are kept, and that is all. -/
theorem after_unfinished (session : Session) (lines : List String) {more : List String}
    (plain : ∀ line ∈ more, (Request.ofLine line).isCommand = false)
    (unfinished : ∀ front back, more = front ++ back → front ≠ [] →
      needsContinuation (joined (entries (lines ++ front))) = true) :
    after ⟨session, joined (entries lines), (entries lines).length, promptBehind (entries lines)⟩ more =
      ⟨session, joined (entries (lines ++ more)), (entries (lines ++ more)).length, promptBehind (entries (lines ++ more))⟩ := by
  induction more generalizing lines with
  | nil => simp [after]
  | cons line more ih =>
    obtain ⟨first, others⟩ := List.forall_mem_cons.mp plain
    have next := unfinished [line] more rfl (by simp)
    have stepped : (onLine line ⟨session, joined (entries lines), (entries lines).length, promptBehind (entries lines)⟩).2 =
        ⟨session, joined (entries (lines ++ [line])), (entries (lines ++ [line])).length,
          promptBehind (entries (lines ++ [line]))⟩ := by
      rw [entries_concat] at next ⊢
      cases asked : Request.ofLine line with
      | entry entry =>
        simp only [asked, Request.line?, Option.toList_some] at next ⊢
        rw [onLine, asked, perform, Action.bind_apply, takeEntry_apply _ (nonempty_of_mem_entries lines), if_pos next]
        simp
        rfl
      | nothing => simp [onLine, asked, perform, Request.line?]; rfl
      | _ => simp [asked, Request.isCommand] at first
    have later (front back : List String) (same : more = front ++ back) (_ : front ≠ []) :
        needsContinuation (joined (entries (lines ++ [line] ++ front))) = true := by
      have longer := unfinished (line :: front) back (by simp [same]) (by simp)
      simpa using longer
    rw [after, stepped, ih _ others later]
    simp

theorem Said.text_eq {number : Int} {outcome : Except Failure Unit} {values : List Value} {text : StyledText} {shown : String}
    (said : Said host entry number outcome values text)
    (got : values.map (fun value => (value.inspect, decide (value.levels ≤ host.levels))) = [(shown, true)]) :
    text = [.plain shown, .plain "\n"] := by
  cases said with
  | value => rw [(Prod.mk.inj (List.singleton_inj.mp got)).1]
  | tooDeep value deep =>
    have room := of_decide_eq_true (Prod.mk.inj (List.singleton_inj.mp got)).2
    exact absurd deep (Nat.not_lt.mpr room)
  | fault => cases got

end Shell

end Treewalk
