import Treewalk.Scope

/-! What each change of the heap does to the bindings of single scopes. Chains of scopes are not looked at here: a
change concerns one scope only, whichever chains run through it. -/

namespace Treewalk.Heap

theorem own?_eq_some_iff {heap : Heap} {id : ScopeId} {name : String} {value : Value} :
    heap.own? id name = some value ↔ ∃ scope, heap.scopes[id]? = some scope ∧ scope.bindings.get? name = some value := by
  simp only [own?, Option.bind_eq_some_iff]

/-- A definition reaches one name of one scope, and nothing at all if there is no such scope. -/
theorem own?_define (heap : Heap) (id other : ScopeId) (name inner : String) (value : Value) :
    (heap.define id name value).own? other inner =
      if id = other ∧ name = inner ∧ id < heap.scopes.size then some value else heap.own? other inner := by
  simp only [own?, define, Array.getElem?_modify]
  by_cases here : id = other
  · subst other
    cases found : heap.scopes[id]? with
    | none =>
      have outside : heap.scopes.size ≤ id := Array.getElem?_eq_none_iff.mp found
      simp [Nat.not_lt.mpr outside]
    | some scope =>
      have inside : id < heap.scopes.size := (Array.getElem?_eq_some_iff.mp found).1
      simp [Bindings.get?_set, inside]
  · simp [here]

theorem own?_define_of_ne {heap : Heap} {id other : ScopeId} (different : id ≠ other) (name : String) (value : Value)
    (inner : String) : (heap.define id name value).own? other inner = heap.own? other inner := by
  rw [own?_define, if_neg fun hit => different hit.1]

theorem own?_enclose (heap : Heap) (outer : Option ScopeId) (id : ScopeId) (name : String) :
    (heap.enclose outer).own? id name = heap.own? id name := by
  simp only [own?, enclose, Array.getElem?_push]
  by_cases fresh : id = heap.scopes.size
  · subst id
    simp [Bindings.get?]
  · simp [fresh]

/-- Assignment is a definition in the scope that binds the name already. -/
theorem assign?_eq_some_iff {heap after : Heap} {id : ScopeId} {name : String} {value : Value} :
    heap.assign? id name value = some after ↔
      ∃ owner, heap.owner? id name = some owner ∧ heap.define owner name value = after := by
  simp only [assign?, Option.map_eq_some_iff]

theorem get?_eq_some_iff {heap : Heap} {id : ScopeId} {name : String} {value : Value} :
    heap.get? id name = some value ↔ ∃ owner, heap.owner? id name = some owner ∧ heap.own? owner name = some value := by
  simp only [get?, Option.bind_eq_some_iff]

/-! ### Bound values -/

/-- Every value that a scope binds a name to has the property. -/
def Everywhere (heap : Heap) (holds : Value → Prop) : Prop := ∀ id name value, heap.own? id name = some value → holds value

section

variable {heap after : Heap} {id : ScopeId} {name : String} {value : Value} {holds : Value → Prop}

theorem empty_everywhere (holds : Value → Prop) : empty.Everywhere holds := by
  intro id name value found
  simp [own?, empty] at found

theorem Everywhere.mono (all : heap.Everywhere holds) {weaker : Value → Prop} (implies : ∀ value, holds value → weaker value) :
    heap.Everywhere weaker :=
  fun id name value found => implies value (all id name value found)

theorem Everywhere.define (all : heap.Everywhere holds) (id : ScopeId) (name : String) (given : holds value) :
    (heap.define id name value).Everywhere holds := by
  intro other inner held found
  rw [own?_define] at found
  split at found
  · cases found
    exact given
  · exact all other inner held found

theorem Everywhere.enclose (all : heap.Everywhere holds) (outer : Option ScopeId) : (heap.enclose outer).Everywhere holds := by
  intro id name value found
  rw [own?_enclose] at found
  exact all id name value found

theorem Everywhere.assign? (all : heap.Everywhere holds) (given : holds value)
    (assigned : heap.assign? id name value = some after) : after.Everywhere holds := by
  obtain ⟨owner, -, rfl⟩ := assign?_eq_some_iff.mp assigned
  exact all.define owner name given

theorem Everywhere.get? (all : heap.Everywhere holds) (found : heap.get? id name = some value) : holds value := by
  obtain ⟨owner, -, held⟩ := get?_eq_some_iff.mp found
  exact all owner name value held

end

/-! ### Links and names -/

/-- The scope that a scope is linked to. -/
def outer? (heap : Heap) (id : ScopeId) : Option ScopeId := heap.scopes[id]?.bind Scope.outer

/-- A scope itself binds the name, to whatever value. -/
def Binds (heap : Heap) (id : ScopeId) (name : String) : Prop := (heap.own? id name).isSome = true

instance (heap : Heap) (id : ScopeId) (name : String) : Decidable (heap.Binds id name) :=
  inferInstanceAs (Decidable (_ = true))

theorem outer?_lt {heap : Heap} {id outer : ScopeId} (linked : heap.outer? id = some outer) : outer < id := by
  obtain ⟨scope, found, link⟩ := Option.bind_eq_some_iff.mp linked
  exact heap.outer_lt found link

/-- A scope and all scopes outside it, the nearest first. -/
def chain (heap : Heap) (id : ScopeId) : List ScopeId :=
  match linked : heap.outer? id with
  | none => [id]
  | some outer =>
    have := outer?_lt linked
    id :: heap.chain outer
termination_by id

theorem le_of_mem_chain {heap : Heap} {id member : ScopeId} (inside : member ∈ heap.chain id) : member ≤ id := by
  induction id using Nat.strongRecOn with
  | ind id ih =>
    rw [chain] at inside
    split at inside
    next => exact Nat.le_of_eq (List.mem_singleton.mp inside)
    next outer linked =>
      rcases List.mem_cons.mp inside with rfl | further
      · exact Nat.le_refl _
      · exact Nat.le_of_lt (Nat.lt_of_le_of_lt (ih outer (outer?_lt linked) further) (outer?_lt linked))

/-- Going outward, every scope is older than the one before it. -/
theorem chain_descends (heap : Heap) (id : ScopeId) : (heap.chain id).Pairwise (· > ·) := by
  induction id using Nat.strongRecOn with
  | ind id ih =>
    rw [chain]
    split
    next => exact List.pairwise_singleton _ _
    next outer linked =>
      refine List.pairwise_cons.mpr ⟨fun member inside => ?_, ih outer (outer?_lt linked)⟩
      exact Nat.lt_of_le_of_lt (le_of_mem_chain inside) (outer?_lt linked)

/-- A chain depends on nothing but the links of scopes that are no newer than its first. -/
theorem chain_congr {heap other : Heap} {id : ScopeId} (links : ∀ older, older ≤ id → heap.outer? older = other.outer? older) :
    heap.chain id = other.chain id := by
  induction id using Nat.strongRecOn with
  | ind id ih =>
    rw [chain, chain]
    have here := links id (Nat.le_refl id)
    split
    next none =>
      split
      next => rfl
      next outer linked => simp [← here, none] at linked
    next outer linked =>
      split
      next none => simp [here, none] at linked
      next outer' linked' =>
        obtain rfl : outer = outer' := Option.some.inj (linked.symm.trans (here.trans linked'))
        have earlier := outer?_lt linked
        exact congrArg (id :: ·) (ih outer earlier fun older le => links older (Nat.le_trans le (Nat.le_of_lt earlier)))

@[simp] theorem size_define (heap : Heap) (id : ScopeId) (name : String) (value : Value) :
    (heap.define id name value).scopes.size = heap.scopes.size := by
  simp [define]

@[simp] theorem size_enclose (heap : Heap) (outer : Option ScopeId) :
    (heap.enclose outer).scopes.size = heap.scopes.size + 1 := by
  simp [enclose]

theorem scopes_define_of_ne {heap : Heap} {id other : ScopeId} (different : id ≠ other) (name : String) (value : Value) :
    (heap.define id name value).scopes[other]? = heap.scopes[other]? := by
  simp [define, Array.getElem?_modify, different]

theorem scopes_enclose_of_lt {heap : Heap} {id : ScopeId} (inside : id < heap.scopes.size) (outer : Option ScopeId) :
    (heap.enclose outer).scopes[id]? = heap.scopes[id]? := by
  simp [enclose, Array.getElem?_push, Nat.ne_of_lt inside]

/-- No link is ever changed by a definition. -/
@[simp] theorem outer?_define (heap : Heap) (id other : ScopeId) (name : String) (value : Value) :
    (heap.define id name value).outer? other = heap.outer? other := by
  simp only [outer?, define, Array.getElem?_modify]
  split
  · cases heap.scopes[other]? <;> rfl
  · rfl

theorem outer?_enclose (heap : Heap) (outer : Option ScopeId) (id : ScopeId) :
    (heap.enclose outer).outer? id =
      if id = heap.scopes.size then outer.filter (· < heap.scopes.size) else heap.outer? id := by
  simp only [outer?, enclose, Array.getElem?_push]
  split <;> rfl

theorem outer?_enclose_of_lt {heap : Heap} {id : ScopeId} (inside : id < heap.scopes.size) (outer : Option ScopeId) :
    (heap.enclose outer).outer? id = heap.outer? id := by
  rw [outer?, outer?, scopes_enclose_of_lt inside]

theorem outer?_enclose_size {heap : Heap} {outer : ScopeId} (inside : outer < heap.scopes.size) :
    (heap.enclose (some outer)).outer? heap.scopes.size = some outer := by
  simp [outer?, enclose, inside]

theorem binds_define {heap : Heap} {id other : ScopeId} {name inner : String} {value : Value} :
    (heap.define id name value).Binds other inner ↔
      heap.Binds other inner ∨ id = other ∧ name = inner ∧ id < heap.scopes.size := by
  rw [Binds, own?_define]
  split
  next here => exact iff_of_true rfl (Or.inr here)
  next away => exact (or_iff_left away).symm

theorem binds_enclose {heap : Heap} {outer : Option ScopeId} {id : ScopeId} {name : String} :
    (heap.enclose outer).Binds id name ↔ heap.Binds id name := by
  rw [Binds, Binds, own?_enclose]

/-- The owner of a name is a scope that binds it. -/
theorem binds_of_owner? {heap : Heap} {id owner : ScopeId} {name : String} (found : heap.owner? id name = some owner) :
    heap.Binds owner name := by
  induction id using Nat.strongRecOn with
  | ind id ih =>
    rw [owner?] at found
    split at found
    next => cases found
    next scope held =>
      split at found
      next bound =>
        obtain rfl := Option.some.inj found
        simpa [Binds, own?, held] using bound
      next =>
        split at found
        next => cases found
        next outer linked => exact ih outer (heap.outer_lt held linked) found

/-- The owner of a name, by way of what single scopes bind and what they are linked to. -/
theorem owner?_eq (heap : Heap) (id : ScopeId) (name : String) :
    heap.owner? id name = if heap.Binds id name then some id else (heap.outer? id).bind fun outer => heap.owner? outer name := by
  rw [owner?]
  split
  next missing => simp [Binds, own?, outer?, missing]
  next scope found =>
    simp only [Binds, own?, outer?, found, Option.bind_some]
    split
    · rfl
    · split
      next none => simp [none]
      next outer linked => simp [linked]

theorem owner?_le {heap : Heap} {id owner : ScopeId} {name : String} (found : heap.owner? id name = some owner) : owner ≤ id := by
  induction id using Nat.strongRecOn with
  | ind id ih =>
    rw [owner?_eq] at found
    split at found
    · cases found
      exact Nat.le_refl _
    · obtain ⟨outer, linked, further⟩ := Option.bind_eq_some_iff.mp found
      have earlier := outer?_lt linked
      exact Nat.le_of_lt (Nat.lt_of_le_of_lt (ih outer earlier further) earlier)

theorem lt_of_binds {heap : Heap} {id : ScopeId} {name : String} (bound : heap.Binds id name) : id < heap.scopes.size := by
  obtain ⟨value, held⟩ := Option.isSome_iff_exists.mp bound
  obtain ⟨scope, found, -⟩ := own?_eq_some_iff.mp held
  exact (Array.getElem?_eq_some_iff.mp found).1

/-- Assignment binds no name that was not bound. -/
theorem binds_assign? {heap after : Heap} {id other : ScopeId} {name inner : String} {value : Value}
    (assigned : heap.assign? id name value = some after) : after.Binds other inner ↔ heap.Binds other inner := by
  obtain ⟨owner, found, rfl⟩ := assign?_eq_some_iff.mp assigned
  rw [binds_define]
  refine or_iff_left_of_imp ?_
  rintro ⟨rfl, rfl, -⟩
  exact binds_of_owner? found

end Treewalk.Heap
