import Treewalk.Proofs.CallDepth
import Treewalk.Proofs.Likeness
import Treewalk.Proofs.SignalContainment

/-! A program and a function with the program as its body. The call of that function runs the body one scope further in, with
one identity spent, which changes no more than the numbers of scopes and identities. So the two runs are compared side by side,
every number of the one being larger by a fixed offset. -/

namespace Treewalk

/-- By how much the numbers of scopes and identities in one run are larger than those in another. -/
structure Offset where
  scopes : Nat
  identities : Nat

namespace Offset

def matching (offset : Offset) : Matching where
  scopes scope scope' := scope' = scope + offset.scopes
  identities identity identity' := identity' = identity + offset.identities

theorem unmixed (offset : Offset) : offset.matching.Unmixed := by
  intro first second first' second' same same'
  cases same
  cases same'
  exact Nat.add_right_cancel_iff.symm

end Offset

/-- The scopes of the first heap in the same order, behind some scopes that bind nothing. -/
structure Heap.Shifted (offset : Offset) (heap heap' : Heap) : Prop where
  size : heap'.scopes.size = heap.scopes.size + offset.scopes
  own : ∀ id name, Option.Rel (Value.Alike offset.matching) (heap.own? id name) (heap'.own? (id + offset.scopes) name)
  linked : ∀ {id outer}, heap.outer? id = some outer → heap'.outer? (id + offset.scopes) = some (outer + offset.scopes)
  /-- Outside the outermost scopes there is nothing but the scopes in front. -/
  rooted : ∀ {id outer}, heap.outer? id = none → heap'.outer? (id + offset.scopes) = some outer → outer < offset.scopes
  front : ∀ {id name}, heap'.Binds id name → offset.scopes ≤ id

structure World.Shifted (offset : Offset) (world world' : World) : Prop where
  heap : world.heap.Shifted offset world'.heap
  identity : world'.nextIdentity = world.nextIdentity + offset.identities
  printed : world'.printed = world.printed
  host : world'.host = world.host

def Offset.likeness (offset : Offset) : Likeness where
  toMatching := offset.matching
  worlds := World.Shifted offset

/-! ### Heaps -/

namespace Heap

namespace Shifted

variable {offset : Offset} {heap heap' : Heap}

theorem binds_iff (shifted : heap.Shifted offset heap') (id : ScopeId) (name : String) :
    heap'.Binds (id + offset.scopes) name ↔ heap.Binds id name := by
  have related := shifted.own id name
  rw [Binds, Binds]
  generalize heap.own? id name = found at related ⊢
  generalize heap'.own? (id + offset.scopes) name = found' at related ⊢
  cases related <;> exact Iff.rfl

/-- The induction goes outward in the first heap. Where that ends the other one goes on among scopes that bind nothing. -/
theorem owner? (shifted : heap.Shifted offset heap') (id : ScopeId) (name : String) :
    heap'.owner? (id + offset.scopes) name = (heap.owner? id name).map (· + offset.scopes) := by
  induction id using Nat.strongRecOn with
  | ind id ih =>
    rw [heap.owner?_eq, heap'.owner?_eq]
    by_cases bound : heap.Binds id name
    · rw [if_pos bound, if_pos ((shifted.binds_iff id name).mpr bound)]
      rfl
    · rw [if_neg bound, if_neg fun bound' => bound ((shifted.binds_iff id name).mp bound')]
      cases link : heap.outer? id with
      | some outer =>
        rw [shifted.linked link]
        exact ih outer (outer?_lt link)
      | none =>
        cases link' : heap'.outer? (id + offset.scopes) with
        | none => rfl
        | some outer =>
          refine Option.eq_none_iff_forall_ne_some.mpr fun owner found => ?_
          have inFront : owner < offset.scopes := Nat.lt_of_le_of_lt (owner?_le found) (shifted.rooted link link')
          exact absurd (shifted.front (binds_of_owner? found)) (Nat.not_le.mpr inFront)

theorem get? (shifted : heap.Shifted offset heap') (id : ScopeId) (name : String) :
    Option.Rel (Value.Alike offset.matching) (heap.get? id name) (heap'.get? (id + offset.scopes) name) := by
  rw [Heap.get?, Heap.get?, shifted.owner?]
  cases heap.owner? id name with
  | none => exact .none
  | some owner => exact shifted.own owner name

theorem define (shifted : heap.Shifted offset heap') (id : ScopeId) (name : String) {value value' : Value}
    (alike : value.Alike offset.matching value') :
    (heap.define id name value).Shifted offset (heap'.define (id + offset.scopes) name value') where
  size := by rw [size_define, size_define, shifted.size]
  own other inner := by
    rw [own?_define, own?_define, shifted.size]
    simp only [Nat.add_right_cancel_iff, Nat.add_lt_add_iff_right]
    split
    · exact .some alike
    · exact shifted.own other inner
  linked link := by
    rw [outer?_define] at link ⊢
    exact shifted.linked link
  rooted link link' := by
    rw [outer?_define] at link link'
    exact shifted.rooted link link'
  front bound := by
    rcases binds_define.mp bound with before | ⟨rfl, -, -⟩
    · exact shifted.front before
    · exact Nat.le_add_left _ _

/-- The last scope is the last of both heaps, and no other link is changed. -/
theorem enclose (shifted : heap.Shifted offset heap') (outer : ScopeId) :
    (heap.enclose (some outer)).Shifted offset (heap'.enclose (some (outer + offset.scopes))) where
  size := by
    rw [size_enclose, size_enclose, shifted.size, Nat.add_right_comm]
  own id name := by
    rw [own?_enclose, own?_enclose]
    exact shifted.own id name
  linked {id inner} link := by
    rw [outer?_enclose] at link ⊢
    simp only [shifted.size, Nat.add_right_cancel_iff]
    by_cases last : id = heap.scopes.size
    · rw [if_pos last] at link ⊢
      obtain ⟨same, earlier⟩ := Option.filter_eq_some_iff.mp link
      cases same
      exact Option.filter_eq_some_iff.mpr ⟨rfl, by simpa using earlier⟩
    · rw [if_neg last] at link ⊢
      exact shifted.linked link
  rooted {id inner} link link' := by
    rw [outer?_enclose] at link link'
    simp only [shifted.size, Nat.add_right_cancel_iff] at link'
    by_cases last : id = heap.scopes.size
    · rw [if_pos last] at link link'
      obtain ⟨same, earlier⟩ := Option.filter_eq_some_iff.mp link'
      cases same
      exact absurd (by simpa using earlier) (Option.filter_eq_none_iff.mp link outer rfl)
    · rw [if_neg last] at link link'
      exact shifted.rooted link link'
  front bound := shifted.front (binds_enclose.mp bound)

end Shifted

end Heap

/-! ### Worlds -/

theorem Offset.lawful (offset : Offset) : offset.likeness.Lawful where
  unmixed := offset.unmixed
  host worlds := worlds.host.symm
  fresh := by
    intro world world' worlds
    refine ⟨worlds.identity, worlds.heap, ?_, worlds.printed, worlds.host⟩
    simp only [Run.freshIdentity, worlds.identity, Nat.add_right_comm]
  print line world world' worlds := ⟨trivial, worlds.heap, worlds.identity, congrArg (·.push line) worlds.printed, worlds.host⟩
  lookup {scope _} name := by
    intro within world world' worlds
    cases within
    refine ⟨?_, worlds⟩
    have related := worlds.heap.get? scope name
    simp only [Run.lookup]
    generalize world.heap.get? scope name = found at related ⊢
    generalize world'.heap.get? (scope + offset.scopes) name = found' at related ⊢
    cases related with
    | some alike => exact alike
    | none => cases Builtin.ofName? name <;> exact .plain (by constructor)
  define {scope _ value value'} name := by
    intro within alike world world' worlds
    cases within
    exact ⟨trivial, worlds.heap.define scope name alike, worlds.identity, worlds.printed, worlds.host⟩
  assign {scope _ value value'} name := by
    intro within alike world world' worlds
    cases within
    simp only [Run.assign, Heap.assign?]
    rw [worlds.heap.owner?]
    cases world.heap.owner? scope name with
    | some owner => exact ⟨alike, worlds.heap.define owner name alike, worlds.identity, worlds.printed, worlds.host⟩
    | none => exact ⟨.plain .error, worlds⟩
  enclose {scope _} := by
    intro within world world' worlds
    cases within
    exact ⟨worlds.heap.size, worlds.heap.enclose scope, worlds.identity, worlds.printed, worlds.host⟩

theorem World.initial_own? (host : Host) (id : ScopeId) (name : String) : (World.initial host).heap.own? id name = none := by
  rw [World.initial, Heap.own?_enclose]
  rfl

theorem World.initial_outer? (host : Host) (id : ScopeId) : (World.initial host).heap.outer? id = none := by
  rw [World.initial, Heap.outer?_enclose]
  split <;> rfl

/-- What is seen of a run: what it prints, the text of its answer, and which errors are its answer. -/
structure SeenAlike (first second : Value × World) : Prop where
  printed : first.2.printed = second.2.printed
  inspect : first.1.inspect = second.1.inspect
  failed : ∀ fault, first.1 = .error fault ↔ second.1 = .error fault

/-- The answer of a called body is no value under way any more, so that the program around it unwraps nothing. -/
theorem Value.Ending.unwrap_unwrap {value : Value} (ends : value.Ending) : value.unwrap.unwrap = value.unwrap := by
  have answer := ends.unwrap
  cases unwrapped : value.unwrap with
  | returned payload => exact absurd unwrapped (answer.ne_returned payload)
  | _ => rfl

namespace Program

variable (host : Host)

/-- The program that calls a function with the given body. -/
def calling (body : List Stmt) : Program := ⟨[.expr (.call (.function [] body) [])]⟩

/-- The world in which the body of a function starts that is called at the start of a program. -/
def entered : World := ⟨(World.initial host).heap.enclose (some World.root), 1, #[], host⟩

theorem eval_calling (body : List Stmt) (depth : Nat) :
    (calling body).eval (depth + 1) World.root (.initial host) =
      let ending := Stmt.evalAll (invoke depth) 1 .null body (entered host)
      (ending.1.unwrap.unwrap, ending.2) := by
  have called : invoke (depth + 1) (.function 0 [] body World.root) [] ⟨(World.initial host).heap, 1, #[], host⟩ =
      let ending := Stmt.evalAll (invoke depth) 1 .null body (entered host)
      (ending.1.unwrap, ending.2) := rfl
  have single : Stmt.eval (invoke (depth + 1)) World.root (.expr (.call (.function [] body) [])) (.initial host) =
      invoke (depth + 1) (.function 0 [] body World.root) [] ⟨(World.initial host).heap, 1, #[], host⟩ := by
    simp only [Stmt.eval, Expr.eval, Expr.evalAll]
    rfl
  rw [called] at single
  simp only [calling, Program.eval, Node.eval, Stmt.evalAll]
  simp only [Run.bind_apply, single]
  split <;> rfl

theorem entered_shifted : (World.initial host).Shifted ⟨1, 1⟩ (entered host) where
  heap := by
    have own?_entered (id : ScopeId) (name : String) : (entered host).heap.own? id name = none := by
      rw [entered, Heap.own?_enclose, World.initial_own?]
    refine ⟨rfl, fun id name => ?_, fun {id outer} link => ?_, fun {id outer} _ link => ?_, fun {id name} bound => ?_⟩
    · rw [World.initial_own?, own?_entered]
      exact .none
    · rw [World.initial_outer?] at link
      cases link
    · rw [entered, Heap.outer?_enclose, World.initial_outer?] at link
      split at link
      · cases link
        exact Nat.zero_lt_one
      · cases link
    · rw [Heap.Binds, own?_entered] at bound
      cases bound
  identity := rfl
  printed := rfl
  host := rfl

theorem eval_calling_alike (body : List Stmt) (depth : Nat) :
    SeenAlike ((calling body).eval (depth + 1) World.root (.initial host))
      ((Program.mk body).eval depth World.root (.initial host)) := by
  let offset : Offset := ⟨1, 1⟩
  have alike := Stmt.evalAll_alike offset.lawful (invoke_alike offset.lawful depth) (rfl : 1 = World.root + 1) (.plain .null) body
  obtain ⟨answers, worlds⟩ := alike (.initial host) (entered host) (entered_shifted host)
  have data : World.SignalFree (entered host) := Heap.Everywhere.enclose (World.initial_signalFree host) _
  have ends : (Stmt.evalAll (invoke depth) 1 .null body (entered host)).1.Ending :=
    (SimulatesValue.ending (Stmt.evalAll_simulates (invoke_simulates depth) 1 .null body) data).1
  have unwrapped := answers.unwrap
  rw [eval_calling]
  dsimp only
  rw [ends.unwrap_unwrap]
  exact ⟨worlds.printed, unwrapped.inspect_eq.symm, fun fault => (unwrapped.error_iff fault).symm⟩

/-- A program and a call of a function with the same body are seen alike when the call may be made on top of the calls that
the program may make. Where the host has no room for that, the call takes the place of one of the others, so that
the program may be cut short by the limit. -/
theorem calling_agrees (body : List Stmt) :
    (∀ depth, SeenAlike ((calling body).eval (depth + 1) World.root (.initial host))
      ((Program.mk body).eval depth World.root (.initial host))) ∧
    ∀ limit : Int, 0 ≤ limit → ∃ called direct,
      (calling body).evaluate? (limit + 1) World.root (.initial host) = some called ∧
      (Program.mk body).evaluate? limit World.root (.initial host) = some direct ∧
      (limit < host.calls → SeenAlike called direct) ∧
      (host.calls ≤ limit → ∃ short, SeenAlike called short ∧ OnlyCut (.initial host) short direct) := by
  refine ⟨eval_calling_alike host body, fun limit nonneg => ?_⟩
  have called := evaluate?_of_nonneg (by omega : 0 ≤ limit + 1) (calling body) World.root (.initial host)
  have direct := evaluate?_of_nonneg nonneg ⟨body⟩ World.root (.initial host)
  simp only [World.initial_host] at called direct
  refine ⟨_, _, called, direct, fun below => ?_, fun above => ?_⟩
  · have allowed : min limit.toNat host.calls = limit.toNat := by omega
    have allowed' : min (limit + 1).toNat host.calls = limit.toNat + 1 := by omega
    rw [allowed, allowed']
    exact eval_calling_alike host body limit.toNat
  · have some_room := host.calls_pos
    have allowed : min limit.toNat host.calls = host.calls := by omega
    have allowed' : min (limit + 1).toNat host.calls = (host.calls - 1) + 1 := by omega
    rw [allowed, allowed']
    exact ⟨_, eval_calling_alike host body (host.calls - 1), Node.eval_onlyCut (Nat.sub_le _ _) World.root (.program ⟨body⟩) _⟩

/-- A function that prints its argument and calls itself with the argument below it, down to zero, where it returns itself.
One call is too few for it. -/
theorem calling_countdown_agrees :
    let body : List Stmt := [
      .bind "f" (.function ["n"] [.expr (.call (.name "print") [.name "n"]),
        .expr (.ifThen (.binary (.name "n") .equal (.integer 0)) [.leaveWith (.array [.name "f"])]),
        .expr (.call (.name "f") [.binary (.name "n") .subtract (.integer 1)])]),
      .leaveWith (.call (.name "f") [.integer 1])]
    let world := World.initial .usual
    (∃ called direct, (calling body).evaluate? 2 World.root world = some called ∧
      (Program.mk body).evaluate? 1 World.root world = some direct ∧ SeenAlike called direct ∧
      called.1.inspect = "ERROR: maximum recursion depth exceeded") ∧
    ∃ called direct, (calling body).evaluate? 3 World.root world = some called ∧
      (Program.mk body).evaluate? 2 World.root world = some direct ∧ SeenAlike called direct ∧
      direct.2.printed = #["1", "0"] := by
  intro body world
  obtain ⟨called, direct, same, same', alike, -⟩ := (calling_agrees .usual body).2 1 (by decide)
  obtain ⟨called₂, direct₂, same₂, same₂', alike₂, -⟩ := (calling_agrees .usual body).2 2 (by decide)
  refine ⟨⟨called, direct, same, same', alike (by decide), ?_⟩, called₂, direct₂, same₂, same₂', alike₂ (by decide), ?_⟩
  · have text : ((calling body).evaluate? (1 + 1) World.root world).map (·.1.inspect) =
        some "ERROR: maximum recursion depth exceeded" := by decide +kernel
    rw [same] at text
    exact Option.some.inj text
  · have lines : ((Program.mk body).evaluate? 2 World.root world).map (·.2.printed) = some #["1", "0"] := by
      decide +kernel
    rw [same₂'] at lines
    exact Option.some.inj lines

end Program

end Treewalk
