import Treewalk.Scope
import Treewalk.Text.Quoted

/-! One-line descriptions, for those who debug the interpreter rather than use it. -/

namespace Treewalk

/-- The description of the values that have one of their own. -/
def Value.describe? : Value → Option String
  | .null => some "NULL"
  | .function _ parameters body _ => some ("Function(" ++ quote (renderFunction parameters body) ++ ")")
  | _ => none

/-- The names a scope binds in order, and whether there is a scope outside it. -/
def Heap.describe (heap : Heap) (id : ScopeId) : String :=
  let names := ((heap.bindings id).map Prod.fst).mergeSort fun a b => decide (a ≤ b)
  let outer := heap.scopes[id]?.bind Scope.outer
  "Environment(names=[" ++ ", ".intercalate (names.map quote) ++ "], outer="
    ++ (if outer.isSome then "yes" else "no") ++ ")"

end Treewalk
