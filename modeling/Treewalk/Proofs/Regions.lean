import Treewalk.Proofs.ScopeLaws
import Treewalk.Proofs.ValueParts

/-! Regions of a heap. A region is a set of scopes that no link leads out of, and it has every scope that is yet to come. What
is known of the values that are bound in it stays known as long as only such values are bound there. -/

namespace Treewalk.Heap

structure Region (reach : ScopeId → Prop) (holds : Value → Prop) (heap : Heap) : Prop where
  bindings : ∀ {id name value}, reach id → heap.own? id name = some value → holds value
  links : ∀ {id outer}, reach id → heap.outer? id = some outer → reach outer
  fresh : ∀ {id}, heap.scopes.size ≤ id → reach id

namespace Region

variable {reach : ScopeId → Prop} {holds : Value → Prop} {heap : Heap} {id owner : ScopeId} {name : String} {value : Value}

theorem mono {weaker : Value → Prop} (region : heap.Region reach holds) (implies : ∀ value, holds value → weaker value) :
    heap.Region reach weaker where
  bindings reached found := implies _ (region.bindings reached found)
  links := region.links
  fresh := region.fresh

/-- The owner of a name is found along links. -/
theorem owner? (region : heap.Region reach holds) (reached : reach id) (found : heap.owner? id name = some owner) :
    reach owner := by
  induction id using Nat.strongRecOn with
  | ind id ih =>
    rw [owner?_eq] at found
    split at found
    · cases found
      exact reached
    · obtain ⟨outer, linked, further⟩ := Option.bind_eq_some_iff.mp found
      exact ih outer (outer?_lt linked) (region.links reached linked) further

theorem get? (region : heap.Region reach holds) (reached : reach id) (found : heap.get? id name = some value) : holds value := by
  obtain ⟨owner, owned, held⟩ := get?_eq_some_iff.mp found
  exact region.bindings (region.owner? reached owned) held

theorem define (region : heap.Region reach holds) (id : ScopeId) (name : String) (given : holds value) :
    (heap.define id name value).Region reach holds where
  bindings {other inner held} reached found := by
    rw [own?_define] at found
    split at found
    · cases found
      exact given
    · exact region.bindings reached found
  links reached linked := region.links reached (by rwa [outer?_define] at linked)
  fresh outside := region.fresh (by rwa [size_define] at outside)

theorem enclose (region : heap.Region reach holds) {outer : ScopeId} (reached : reach outer) :
    (heap.enclose (some outer)).Region reach holds where
  bindings reached found := region.bindings reached (by rwa [own?_enclose] at found)
  links {id link} reached linked := by
    rw [outer?_enclose] at linked
    split at linked
    · obtain ⟨same, -⟩ := Option.filter_eq_some_iff.mp linked
      cases same
      assumption
    · exact region.links reached linked
  fresh outside := region.fresh (Nat.le_of_succ_le (by rwa [size_enclose] at outside))

end Region

/-- The scopes that evaluation in a scope can come to: outward along links, and into the scopes that functions remember which
are bound in scopes it comes to. -/
inductive LeadsTo (heap : Heap) (start : ScopeId) : ScopeId → Prop where
  | here : LeadsTo heap start start
  | outward {inner outer : ScopeId} (earlier : LeadsTo heap start inner) (linked : heap.outer? inner = some outer) :
    LeadsTo heap start outer
  | captured (earlier : LeadsTo heap start binder) (found : heap.own? binder name = some value)
    (held : value.Holds (.function identity parameters body scope)) : LeadsTo heap start scope

/-- The object can be got at from a scope: some scope that evaluation in it can come to binds a name to the object, or to a
value that holds it. -/
def Offers (heap : Heap) (start : ScopeId) (object : Value) : Prop :=
  ∃ id name value, heap.LeadsTo start id ∧ heap.own? id name = some value ∧ value.Holds object

/-- The scopes within reach make a region, together with those that are yet to come. -/
theorem leadsTo_region (heap : Heap) (start : ScopeId) :
    heap.Region (fun id => heap.LeadsTo start id ∨ heap.scopes.size ≤ id) (Value.Throughout (heap.Offers start)) where
  bindings {id name value} reached found object held _ := by
    rcases reached with reached | outside
    · exact ⟨id, name, value, reached, found, held⟩
    · obtain ⟨scope, there, -⟩ := own?_eq_some_iff.mp found
      exact absurd (Array.getElem?_eq_some_iff.mp there).1 (Nat.not_lt.mpr outside)
  links reached linked := by
    rcases reached with reached | outside
    · exact Or.inl (.outward reached linked)
    · obtain ⟨scope, there, -⟩ := Option.bind_eq_some_iff.mp linked
      exact absurd (Array.getElem?_eq_some_iff.mp there).1 (Nat.not_lt.mpr outside)
  fresh := Or.inr

end Treewalk.Heap
