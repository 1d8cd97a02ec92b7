import Treewalk.Evaluation

/-! The limit on calls inside each other, as callers state it. Any integer may be asked for. It decides how many frames
the host may use meanwhile, and is refused where these are not more than are in use already; what is left of the negative
limits allows no call at all, and no request allows more calls than the host has room for. -/

namespace Treewalk

def defaultCallLimit : Int := 500

/-- The most frames that a limit adds, however many calls it allows. -/
def mostExtraFrames : Int := 20000

/-- How many frames there may be under a limit. -/
@[irreducible] def framesAllowed (limit : Int) : Int := frameLimit + min (32 * limit) mostExtraFrames

namespace Host

/-- Under the limit there are more frames than are in use. -/
def Grants (host : Host) (limit : Int) : Prop := host.inUse < framesAllowed limit

instance (host : Host) (limit : Int) : Decidable (host.Grants limit) := inferInstanceAs (Decidable (_ < _))

theorem grants_of_nonneg (host : Host) {limit : Int} (counted : 0 ≤ limit) : host.Grants limit := by
  have room := host.inUse_lt
  simp only [Grants, framesAllowed, mostExtraFrames]
  omega

/-- How many calls a request allows inside each other, unless it is refused. -/
def allowedCalls? (host : Host) (limit : Int) : Option Nat :=
  if host.Grants limit then some (min limit.toNat host.calls) else none

end Host

/-- Evaluates a piece of syntax in a scope under a call limit. There is no result when the limit is refused; nothing
has happened then. -/
def Node.evaluate? (node : Node) (limit : Int) (scope : ScopeId) (world : World) : Option (Value × World) :=
  (world.host.allowedCalls? limit).map fun depth => (node.eval depth scope).run world

def Program.evaluate? (program : Program) (limit : Int) (scope : ScopeId) (world : World) : Option (Value × World) :=
  (Node.program program).evaluate? limit scope world

end Treewalk
