import Treewalk.Proofs.Answers
import Treewalk.Proofs.RoundTrip
import Treewalk.Proofs.ScopeLaws

/-! Integers of 64 bits. Wrapping leads back among them, the grammar reads none but them, and a length is one of them as long as
nothing is longer than they can tell. Values are followed into arrays and into the bodies of functions. The scopes that
functions remember are followed as a set that is closed under links, and that every new scope belongs to. -/

namespace Treewalk

/-- A signed integer of 64 bits. The greatest one is the greatest literal. -/
def InWord (value : Int) : Prop := -maxInteger - 1 ≤ value ∧ value ≤ maxInteger

theorem wrap_inWord (value : Int) : InWord (wrap value) := by
  have low := Int.le_bmod (x := value) (m := wordModulus) (by decide)
  have high := Int.bmod_lt (x := value) (m := wordModulus) (by decide)
  simp only [InWord, wrap, wordModulus, maxInteger] at *
  omega

theorem inWord_of_le {length : Nat} (short : length ≤ maxInteger) : InWord length := by
  simp only [InWord, maxInteger] at *
  omega

/-! ### Literals -/

mutual

/-- All integers that are written in an expression are signed ones of 64 bits. -/
def Expr.Fits : Expr → Prop
  | .name _ | .string _ | .boolean _ => True
  | .integer value => InWord value
  | .unary _ operand => operand.Fits
  | .binary left _ right => left.Fits ∧ right.Fits
  | .assign _ value => value.Fits
  | .ifThen condition consequence => condition.Fits ∧ Stmt.AllFit consequence
  | .ifElse condition consequence alternative => condition.Fits ∧ Stmt.AllFit consequence ∧ Stmt.AllFit alternative
  | .function _ body => Stmt.AllFit body
  | .call function arguments => function.Fits ∧ Expr.AllFit arguments
  | .array elements => Expr.AllFit elements
  | .index collection position => collection.Fits ∧ position.Fits

def Expr.AllFit : List Expr → Prop
  | [] => True
  | expr :: exprs => expr.Fits ∧ Expr.AllFit exprs

def Stmt.Fits : Stmt → Prop
  | .bind _ value | .leaveWith value | .expr value => value.Fits
  | .leave => True
  | .block statements => Stmt.AllFit statements

def Stmt.AllFit : List Stmt → Prop
  | [] => True
  | stmt :: stmts => stmt.Fits ∧ Stmt.AllFit stmts

end

def Node.Fits : Node → Prop
  | .program whole => Stmt.AllFit whole.statements
  | .stmt part => part.Fits
  | .expr part => part.Fits

theorem Expr.allFit_append {front back : List Expr} : AllFit (front ++ back) ↔ AllFit front ∧ AllFit back := by
  induction front with
  | nil => simp [AllFit]
  | cons expr front ih => simp only [List.cons_append, AllFit, ih, and_assoc]

theorem Stmt.allFit_append {front back : List Stmt} : AllFit (front ++ back) ↔ AllFit front ∧ AllFit back := by
  induction front with
  | nil => simp [AllFit]
  | cons stmt front ih => simp only [List.cons_append, AllFit, ih, and_assoc]

theorem inWord_of_literal {value : Int} (read : 0 ≤ value ∧ value ≤ maxInteger) : InWord value := by
  obtain ⟨positive, small⟩ := read
  simp only [InWord, maxInteger] at *
  omega

mutual

theorem Expr.fits_of_wellFormed : (expr : Expr) → expr.WellFormed → expr.Fits
  | .name _, _ | .string _, _ | .boolean _, _ => trivial
  | .integer _, well => inWord_of_literal well
  | .unary _ operand, well => operand.fits_of_wellFormed well.2
  | .binary left _ right, well => ⟨left.fits_of_wellFormed well.1, right.fits_of_wellFormed well.2.2⟩
  | .assign _ value, well => value.fits_of_wellFormed well.2
  | .ifThen condition consequence, well =>
    ⟨condition.fits_of_wellFormed well.1, Stmt.allFit_of_wellFormed consequence well.2⟩
  | .ifElse condition consequence alternative, well =>
    ⟨condition.fits_of_wellFormed well.1, Stmt.allFit_of_wellFormed consequence well.2.1,
      Stmt.allFit_of_wellFormed alternative well.2.2⟩
  | .function _ body, well => Stmt.allFit_of_wellFormed body well.2
  | .call function arguments, well => ⟨function.fits_of_wellFormed well.1, Expr.allFit_of_wellFormed arguments well.2⟩
  | .array elements, well => Expr.allFit_of_wellFormed elements well
  | .index collection position, well => ⟨collection.fits_of_wellFormed well.1, position.fits_of_wellFormed well.2⟩

theorem Expr.allFit_of_wellFormed : (exprs : List Expr) → Expr.AllWellFormed exprs → Expr.AllFit exprs
  | [], _ => trivial
  | expr :: exprs, well => ⟨expr.fits_of_wellFormed well.1, Expr.allFit_of_wellFormed exprs well.2⟩

theorem Stmt.fits_of_wellFormed : (stmt : Stmt) → stmt.WellFormed → stmt.Fits
  | .bind _ value, well => value.fits_of_wellFormed well.2
  | .leave, _ => trivial
  | .leaveWith value, well | .expr value, well => value.fits_of_wellFormed well

theorem Stmt.allFit_of_wellFormed : (stmts : List Stmt) → Stmt.AllWellFormed stmts → Stmt.AllFit stmts
  | [], _ => trivial
  | stmt :: stmts, well => ⟨stmt.fits_of_wellFormed well.1, Stmt.allFit_of_wellFormed stmts well.2⟩

end

/-! ### Values and scopes -/

/-- All integers in the value are signed ones of 64 bits, and all functions in it were written in one of these scopes. -/
inductive Value.InRange (reach : ScopeId → Prop) : Value → Prop where
  | integer (inside : InWord value) : InRange reach (.integer value)
  | string : InRange reach (.string text)
  | boolean : InRange reach (.boolean value)
  | null : InRange reach .null
  | array (elements : ∀ value ∈ values, InRange reach value) : InRange reach (.array identity values)
  | function (body : Stmt.AllFit statements) (captured : reach scope) :
    InRange reach (.function identity parameters statements scope)
  | builtin : InRange reach (.builtin which)
  | returned (inside : InRange reach value) : InRange reach (.returned value)
  | error : InRange reach (.error fault)

/-- Scopes that lead to no others hold nothing but values in range. Scopes that are not there yet are among them. -/
structure Heap.InRange (reach : ScopeId → Prop) (heap : Heap) : Prop where
  bindings : ∀ {id name value}, reach id → heap.own? id name = some value → value.InRange reach
  links : ∀ {id outer}, reach id → heap.outer? id = some outer → reach outer
  fresh : ∀ {id}, heap.scopes.size ≤ id → reach id

/-- The other scopes are as they were at the start. -/
structure Heap.StaysInRange (reach : ScopeId → Prop) (start heap : Heap) : Prop extends heap.InRange reach where
  others : ∀ id name, ¬ reach id → heap.own? id name = start.own? id name

variable {reach : ScopeId → Prop} {value : Value}

namespace Value

theorem InRange.elements {identity : Identity} {values : List Value} (inside : (Value.array identity values).InRange reach) :
    ∀ value ∈ values, value.InRange reach := by
  cases inside with
  | array elements => exact elements

theorem InRange.unwrap (inside : value.InRange reach) : value.unwrap.InRange reach := by
  cases inside with
  | returned inside => exact inside
  | integer inside => exact .integer inside
  | array elements => exact .array elements
  | function body captured => exact .function body captured
  | string | boolean | null | builtin | error => constructor

theorem inRange_hereditary (reach : ScopeId → Prop) : Hereditary InWord (InRange reach) where
  wraps := wrap_inWord
  integer := .integer
  string _ := .string
  boolean _ := .boolean
  null := .null
  array := ⟨InRange.elements, .array⟩

theorem Answers.inRange (answer : value.Answers (InRange reach)) : value.InRange reach := by
  obtain inside | ⟨fault, rfl⟩ := answer
  · exact inside
  · exact .error

end Value

namespace Heap

variable {start heap after : Heap} {id owner : ScopeId} {name : String}

/-- The owner of a name is found along links. -/
theorem InRange.owner? (inside : heap.InRange reach) (reached : reach id) (found : heap.owner? id name = some owner) :
    reach owner := by
  induction id using Nat.strongRecOn with
  | ind id ih =>
    rw [owner?_eq] at found
    split at found
    · cases found
      exact reached
    · obtain ⟨outer, linked, further⟩ := Option.bind_eq_some_iff.mp found
      exact ih outer (outer?_lt linked) (inside.links reached linked) further

theorem InRange.get? (inside : heap.InRange reach) (reached : reach id) (found : heap.get? id name = some value) :
    value.InRange reach := by
  obtain ⟨owner, owned, held⟩ := get?_eq_some_iff.mp found
  exact inside.bindings (inside.owner? reached owned) held

theorem StaysInRange.define (stays : StaysInRange reach start heap) (reached : reach id) (name : String)
    (given : value.InRange reach) : StaysInRange reach start (heap.define id name value) where
  bindings {other inner held} known found := by
    rw [own?_define] at found
    split at found
    · cases found
      exact given
    · exact stays.bindings known found
  links known linked := stays.links known (by rwa [outer?_define] at linked)
  fresh outside := stays.fresh (by rwa [size_define] at outside)
  others other inner unknown := by
    have different : id ≠ other := fun same => unknown (same ▸ reached)
    rw [own?_define_of_ne different]
    exact stays.others other inner unknown

theorem StaysInRange.assign? (stays : StaysInRange reach start heap) (reached : reach id) (given : value.InRange reach)
    (assigned : heap.assign? id name value = some after) : StaysInRange reach start after := by
  obtain ⟨owner, owned, rfl⟩ := assign?_eq_some_iff.mp assigned
  exact stays.define (stays.owner? reached owned) name given

theorem StaysInRange.enclose (stays : StaysInRange reach start heap) {outer : ScopeId} (reached : reach outer) :
    StaysInRange reach start (heap.enclose (some outer)) where
  bindings known found := stays.bindings known (by rwa [own?_enclose] at found)
  links {id link} known linked := by
    rw [outer?_enclose] at linked
    split at linked
    · obtain ⟨same, -⟩ := Option.filter_eq_some_iff.mp linked
      exact Option.some.inj same ▸ reached
    · exact stays.links known linked
  fresh outside := stays.fresh (Nat.le_of_succ_le (by rwa [size_enclose] at outside))
  others id name unknown := by
    rw [own?_enclose]
    exact stays.others id name unknown

end Heap

end Treewalk
