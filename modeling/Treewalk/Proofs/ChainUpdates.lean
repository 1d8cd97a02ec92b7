import Treewalk.Evaluation.World
import Treewalk.Proofs.ScopeLaws

/-! Updates as they are seen along chains of scopes. Chains share their outer ends, so one binding is seen from all scopes
whose chain comes to it, except where a nearer scope binds the same name. A look-up goes through one chain only; so what it
sees of an update is followed by induction on that chain, wherever the update itself started from. -/

namespace Treewalk.Heap

/-- Going outward from a scope, one comes to the other scope before any scope that binds the name. -/
def ReachesFirst (heap : Heap) (id : ScopeId) (name : String) (target : ScopeId) : Prop :=
  ∃ nearer further, heap.chain id = nearer ++ target :: further ∧ ∀ scope ∈ nearer, ¬ heap.Binds scope name

/-- The first scope to bind a name on the way outward. -/
structure Nearest (heap : Heap) (id : ScopeId) (name : String) (owner : ScopeId) : Prop where
  reached : heap.ReachesFirst id name owner
  bound : heap.Binds owner name

/-- One scope binds one name to a value, whatever it was bound to before. Nothing else is different. -/
structure ChangedAt (before : Heap) (id : ScopeId) (name : String) (value : Value) (after : Heap) : Prop where
  size : after.scopes.size = before.scopes.size
  links : ∀ other, after.outer? other = before.outer? other
  changed : after.own? id name = some value
  others : ∀ other inner, ¬ (other = id ∧ inner = name) → after.own? other inner = before.own? other inner

section

variable {heap after : Heap} {id target owner : ScopeId} {name : String} {value : Value}

theorem chain_eq (heap : Heap) (id : ScopeId) : heap.chain id = id :: (heap.outer? id).elim [] heap.chain := by
  rw [chain]
  split
  next none => simp only [none, Option.elim_none]
  next outer linked => simp only [linked, Option.elim_some]

theorem reachesFirst_self (heap : Heap) (id : ScopeId) (name : String) : heap.ReachesFirst id name id :=
  ⟨[], _, heap.chain_eq id, fun _ none => absurd none List.not_mem_nil⟩

theorem reachesFirst_iff : heap.ReachesFirst id name target ↔
    id = target ∨ ¬ heap.Binds id name ∧ ∃ outer, heap.outer? id = some outer ∧ heap.ReachesFirst outer name target := by
  constructor
  · rintro ⟨nearer, further, split, free⟩
    rw [chain_eq] at split
    cases nearer with
    | nil => exact Or.inl (List.cons.inj split).1
    | cons first nearer =>
      obtain ⟨rfl, behind⟩ := List.cons.inj split
      refine Or.inr ⟨free id List.mem_cons_self, ?_⟩
      cases linked : heap.outer? id with
      | none => simp [linked] at behind
      | some outer =>
        rw [linked, Option.elim_some] at behind
        exact ⟨outer, rfl, nearer, further, behind, fun scope member => free scope (List.mem_cons_of_mem _ member)⟩
  · rintro (rfl | ⟨here, outer, linked, nearer, further, split, free⟩)
    · exact heap.reachesFirst_self id name
    · refine ⟨id :: nearer, further, ?_, fun scope member => ?_⟩
      · rw [chain_eq, linked, Option.elim_some, split, List.cons_append]
      · rcases List.mem_cons.mp member with rfl | member
        · exact here
        · exact free scope member

/-- The owner that a look-up walks to is the nearest one on the chain. -/
theorem owner?_eq_some_iff : heap.owner? id name = some owner ↔ heap.Nearest id name owner := by
  induction id using Nat.strongRecOn with
  | ind id ih =>
    rw [owner?_eq]
    by_cases here : heap.Binds id name
    · rw [if_pos here, Option.some_inj]
      refine ⟨fun same => ⟨same ▸ heap.reachesFirst_self id name, same ▸ here⟩, fun nearest => ?_⟩
      exact (reachesFirst_iff.mp nearest.reached).resolve_right fun further => further.1 here
    · rw [if_neg here, Option.bind_eq_some_iff]
      constructor
      · rintro ⟨outer, linked, found⟩
        have nearest := (ih outer (outer?_lt linked)).mp found
        exact ⟨reachesFirst_iff.mpr (Or.inr ⟨here, outer, linked, nearest.reached⟩), nearest.bound⟩
      · rintro ⟨reached, bound⟩
        rcases reachesFirst_iff.mp reached with rfl | ⟨_, outer, linked, further⟩
        · exact absurd bound here
        · exact ⟨outer, linked, (ih outer (outer?_lt linked)).mpr ⟨further, bound⟩⟩

/-- A look-up goes on outward where a scope does not bind the name itself. -/
theorem get?_eq (heap : Heap) (id : ScopeId) (name : String) :
    heap.get? id name = (heap.own? id name).or ((heap.outer? id).bind fun outer => heap.get? outer name) := by
  rw [get?, owner?_eq]
  by_cases here : heap.Binds id name
  · rw [if_pos here, Option.bind_some, Option.or_of_isSome here]
  · have missing : heap.own? id name = none := Option.not_isSome_iff_eq_none.mp here
    rw [if_neg here, missing, Option.none_or, Option.bind_assoc]
    rfl

/-- A look-up succeeds where assignment does. -/
theorem isSome_get? (heap : Heap) (id : ScopeId) (name : String) : (heap.get? id name).isSome = (heap.owner? id name).isSome := by
  cases found : heap.owner? id name with
  | none => rw [get?, found, Option.bind_none]; rfl
  | some owner =>
    rw [get?, found, Option.bind_some]
    exact binds_of_owner? found

/-! ### What is seen of a definition -/

theorem define_changedAt (inside : id < heap.scopes.size) (name : String) (value : Value) :
    heap.ChangedAt id name value (heap.define id name value) where
  size := heap.size_define id name value
  links other := heap.outer?_define id other name value
  changed := by rw [own?_define, if_pos ⟨rfl, rfl, inside⟩]
  others other inner different := by
    rw [own?_define, if_neg]
    rintro ⟨rfl, rfl, -⟩
    exact different ⟨rfl, rfl⟩

/-- Where one comes to the changed scope first, its new value is seen. -/
theorem ChangedAt.get?_of_reachesFirst (change : heap.ChangedAt target name value after)
    (reached : heap.ReachesFirst id name target) : after.get? id name = some value := by
  induction id using Nat.strongRecOn with
  | ind id ih =>
    rw [get?_eq, change.links]
    by_cases here : id = target
    · rw [here, change.changed, Option.some_or]
    · obtain ⟨free, outer, linked, further⟩ := (reachesFirst_iff.mp reached).resolve_left here
      have missing : heap.own? id name = none := Option.not_isSome_iff_eq_none.mp free
      rw [change.others id name (fun same => here same.1), missing, Option.none_or, linked, Option.bind_some]
      exact ih outer (outer?_lt linked) further

/-- Everywhere else, and for all other names, nothing new is seen. -/
theorem ChangedAt.get?_of_not_reachesFirst {inner : String} (change : heap.ChangedAt target name value after)
    (hidden : ¬ (inner = name ∧ heap.ReachesFirst id name target)) : after.get? id inner = heap.get? id inner := by
  induction id using Nat.strongRecOn with
  | ind id ih =>
    have untouched : ¬ (id = target ∧ inner = name) := by
      rintro ⟨rfl, rfl⟩
      exact hidden ⟨rfl, heap.reachesFirst_self id inner⟩
    rw [after.get?_eq, heap.get?_eq, change.links, change.others id inner untouched]
    cases found : heap.own? id inner with
    | some held => rw [Option.some_or, Option.some_or]
    | none =>
      rw [Option.none_or, Option.none_or]
      cases linked : heap.outer? id with
      | none => rfl
      | some outer =>
        refine ih outer (outer?_lt linked) fun seen => hidden ⟨seen.1, reachesFirst_iff.mpr (Or.inr ⟨?_, outer, linked, seen.2⟩)⟩
        rw [← seen.1, Binds, found]
        exact Bool.false_ne_true

end

/-- What is different when one binding has changed: who looks the name up and finds it in the changed scope sees the new value,
and whatever else is looked up, from wherever, is what it was. -/
structure SeenFrom (before : Heap) (name : String) (value : Value) (observers : ScopeId → Prop) (after : Heap) : Prop where
  fresh : ∀ other, observers other → after.get? other name = some value
  stale : ∀ other inner, ¬ (inner = name ∧ observers other) → after.get? other inner = before.get? other inner

theorem ChangedAt.seenFrom {before after : Heap} {id : ScopeId} {name : String} {value : Value}
    (change : before.ChangedAt id name value after) :
    before.SeenFrom name value (fun other => before.ReachesFirst other name id) after where
  fresh _ reached := change.get?_of_reachesFirst reached
  stale _ _ hidden := change.get?_of_not_reachesFirst hidden

/-- Assignment succeeds exactly where the name is bound, and leaves everything alone where it is not. It changes one binding,
in the nearest scope to bind the name, which is seen from all scopes that have their nearest binding of the name in there. A
definition changes one binding of its own scope, which is seen from where this scope comes before all others that bind the
name. Nothing else is ever seen of either. -/
theorem updates_seen_along_chains (heap : Heap) (id : ScopeId) (name : String) (value : Value) :
    ((heap.assign? id name value).isSome = (heap.get? id name).isSome) ∧
    (heap.assign? id name value = none → ∀ identity printed host,
      Run.assign id name value ⟨heap, identity, printed, host⟩ =
        (.error (.unknownName name), ⟨heap, identity, printed, host⟩)) ∧
    (∀ after, heap.assign? id name value = some after → ∃ owner, heap.Nearest id name owner ∧
      heap.ChangedAt owner name value after ∧ heap.SeenFrom name value (fun other => heap.Nearest other name owner) after ∧
      ∀ identity printed host,
        Run.assign id name value ⟨heap, identity, printed, host⟩ = (value, ⟨after, identity, printed, host⟩)) ∧
    (id < heap.scopes.size →
      heap.ChangedAt id name value (heap.define id name value) ∧
      heap.SeenFrom name value (fun other => heap.ReachesFirst other name id) (heap.define id name value)) := by
  refine ⟨?_, fun missing identity printed host => ?_, fun after assigned => ?_, fun inside => ?_⟩
  · rw [assign?, Option.isSome_map, isSome_get?]
  · simp only [Run.assign, missing]
  · obtain ⟨owner, found, rfl⟩ := assign?_eq_some_iff.mp assigned
    have nearest := owner?_eq_some_iff.mp found
    have change := define_changedAt (lt_of_binds nearest.bound) name value
    have observers : (fun other => heap.ReachesFirst other name owner) = fun other => heap.Nearest other name owner :=
      funext fun other => propext ⟨fun reached => ⟨reached, nearest.bound⟩, Nearest.reached⟩
    refine ⟨owner, nearest, change, observers ▸ change.seenFrom, fun identity printed host => ?_⟩
    simp only [Run.assign, assigned]
  · have change := define_changedAt inside name value
    exact ⟨change, change.seenFrom⟩

/-- Two scopes inside one that hides the outermost `x`, and one scope beside them that does not. -/
theorem shadowed_updates_seen_along_chains :
    let within (outer : ScopeId) (heap : Heap) := heap.enclose (some outer)
    let outermost := (empty.enclose none).define 0 "x" (.integer 1)
    let heap := within 0 (within 1 (within 1 ((within 0 outermost).define 1 "x" (.integer 2))))
    let shown (heap : Heap) := [0, 1, 2, 3, 4].map fun id => (heap.get? id "x").map Value.inspect
    (∃ after owner, heap.assign? 2 "x" (.integer 3) = some after ∧ heap.Nearest 2 "x" owner ∧
      heap.SeenFrom "x" (.integer 3) (fun other => heap.Nearest other "x" owner) after ∧ owner = 1 ∧
      shown after = [some "1", some "3", some "3", some "3", some "1"]) ∧
    heap.assign? 4 "y" .null = none ∧
    Run.assign 4 "y" .null ⟨heap, 7, #[], .usual⟩ = (.error (.unknownName "y"), ⟨heap, 7, #[], .usual⟩) ∧
    0 < heap.scopes.size ∧
    heap.SeenFrom "x" (.integer 5) (fun other => heap.ReachesFirst other "x" 0) (heap.define 0 "x" (.integer 5)) ∧
    shown (heap.define 0 "x" (.integer 5)) = [some "5", some "2", some "2", some "2", some "5"] := by
  intro within outermost heap shown
  obtain ⟨-, -, assigns, -⟩ := updates_seen_along_chains heap 2 "x" (.integer 3)
  obtain ⟨-, refuses, -, -⟩ := updates_seen_along_chains heap 4 "y" .null
  obtain ⟨-, -, -, defines⟩ := updates_seen_along_chains heap 0 "x" (.integer 5)
  have assigned : heap.assign? 2 "x" (.integer 3) = some (heap.define 1 "x" (.integer 3)) := by
    have found : heap.owner? 2 "x" = some 1 := by decide +kernel
    rw [assign?, found, Option.map_some]
  have missing : heap.assign? 4 "y" .null = none := by
    have found : heap.owner? 4 "y" = none := by decide +kernel
    rw [assign?, found, Option.map_none]
  have inside : 0 < heap.scopes.size := by decide
  obtain ⟨owner, nearest, -, seen, -⟩ := assigns _ assigned
  have same : owner = 1 := Option.some.inj ((owner?_eq_some_iff.mpr nearest).symm.trans (by decide +kernel))
  exact ⟨⟨_, owner, assigned, nearest, seen, same, by decide +kernel⟩, missing, refuses missing 7 #[] .usual, inside, (defines inside).2,
    by decide +kernel⟩

end Treewalk.Heap
