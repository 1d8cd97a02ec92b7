import Treewalk.Value

/-! Lexical scopes. A scope binds names to values and links to at most one scope outside it, which was created
earlier; a name means what the nearest scope on this chain says that binds it. Scopes are never removed, so functions
keep alive whatever they refer to. -/

namespace Treewalk

abbrev Bindings := List (String × Value)

namespace Bindings

def get? (name : String) : Bindings → Option Value
  | [] => none
  | (other, value) :: rest => if other = name then some value else get? name rest

/-- Binds a name, in place of what it was bound to before if it was. -/
def set (name : String) (value : Value) : Bindings → Bindings
  | [] => [(name, value)]
  | (other, old) :: rest => if other = name then (other, value) :: rest else (other, old) :: set name value rest

theorem get?_set (bindings : Bindings) (name other : String) (value : Value) :
    (bindings.set name value).get? other = if name = other then some value else bindings.get? other := by
  induction bindings with
  | nil => rfl
  | cons binding rest ih =>
    obtain ⟨first, old⟩ := binding
    by_cases hit : first = name
    · subst hit
      simp only [set, if_true, get?]
      split <;> rfl
    · simp only [set, hit, if_false, get?, ih]
      by_cases here : first = other
      · subst here
        simp [Ne.symm hit]
      · simp [here]

end Bindings

structure Scope where
  bindings : Bindings
  outer : Option ScopeId
  deriving Inhabited

/-- All scopes there are. Every scope outside another was created before it, so every chain of scopes ends. -/
structure Heap where
  scopes : Array Scope
  outer_lt : ∀ {id outer : ScopeId} {scope : Scope}, scopes[id]? = some scope → scope.outer = some outer → outer < id

namespace Heap

def empty : Heap := ⟨#[], by simp⟩

/-- A new scope inside another one. Its number is the number of scopes so far. -/
def enclose (heap : Heap) (outer : Option ScopeId) : Heap where
  scopes := heap.scopes.push ⟨[], outer.filter (· < heap.scopes.size)⟩
  outer_lt := by
    intro id link scope found linked
    rw [Array.getElem?_push] at found
    split at found
    next last =>
      cases found
      have earlier := (Option.filter_eq_some_iff.mp linked).2
      exact last ▸ of_decide_eq_true earlier
    next => exact heap.outer_lt found linked

/-- Binds a name in one scope, whatever the scopes outside it say. -/
def define (heap : Heap) (id : ScopeId) (name : String) (value : Value) : Heap where
  scopes := heap.scopes.modify id fun scope => { scope with bindings := scope.bindings.set name value }
  outer_lt := by
    intro other link scope found linked
    rw [Array.getElem?_modify] at found
    split at found
    next =>
      obtain ⟨before, held, rfl⟩ := Option.map_eq_some_iff.mp found
      exact heap.outer_lt held linked
    next => exact heap.outer_lt found linked

/-- The nearest scope that binds a name, going outward. -/
def owner? (heap : Heap) (id : ScopeId) (name : String) : Option ScopeId :=
  match found : heap.scopes[id]? with
  | none => none
  | some scope =>
    if (scope.bindings.get? name).isSome then some id
    else
      match linked : scope.outer with
      | none => none
      | some outer =>
        have := heap.outer_lt found linked
        heap.owner? outer name
termination_by id

/-- What a scope itself binds a name to. -/
def own? (heap : Heap) (id : ScopeId) (name : String) : Option Value :=
  heap.scopes[id]?.bind fun scope => scope.bindings.get? name

/-- What a name means in a scope. -/
def get? (heap : Heap) (id : ScopeId) (name : String) : Option Value :=
  (heap.owner? id name).bind fun owner => heap.own? owner name

/-- Gives a bound name another value, in the scope that binds it. There is no result if no scope does. -/
def assign? (heap : Heap) (id : ScopeId) (name : String) (value : Value) : Option Heap :=
  (heap.owner? id name).map fun owner => heap.define owner name value

/-- The bindings of one scope. -/
def bindings (heap : Heap) (id : ScopeId) : Bindings := (heap.scopes[id]?.map Scope.bindings).getD []

end Heap

end Treewalk
