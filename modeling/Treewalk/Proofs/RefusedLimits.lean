import Treewalk.CommandLine.Options
import Treewalk.Proofs.CallDepth
import Treewalk.Proofs.EncodedTexts
import Treewalk.Proofs.SignalContainment
import Treewalk.Session

/-! Limits on calls that are refused. Whatever a program does wrong is a value of its evaluation; there is no other answer to a
limit that is granted. But a command line may state any integer, and one that leaves no more frames than are in use already is
refused before anything is evaluated, with a failure that nobody planned for. -/

namespace Treewalk

/-- Where so few frames are allowed, no more could have been added. -/
theorem framesAllowed_le_zero_iff {limit : Int} : framesAllowed limit ≤ 0 ↔ 1000 + 32 * limit ≤ 0 := by
  simp only [framesAllowed, frameLimit, mostExtraFrames]
  omega

theorem Host.grants_iff {host : Host} {limit : Int} : host.Grants limit ↔ (host.inUse : Int) < 1000 + 32 * limit := by
  have room := host.inUse_lt
  simp only [Grants, framesAllowed, frameLimit, mostExtraFrames] at room ⊢
  omega

theorem Node.evaluate?_eq_none_iff {node : Node} {limit : Int} {scope : ScopeId} {world : World} :
    node.evaluate? limit scope world = none ↔ 1000 + 32 * limit ≤ world.host.inUse := by
  rw [evaluate?, Option.map_eq_none_iff, Host.allowedCalls?, ← Int.not_lt, ← Host.grants_iff]
  split <;> simp_all

/-- There are no failures in data, those to encode a text included. -/
theorem Value.SignalFree.encoded {value : Value} (free : value.SignalFree) : value.Encoded := by
  induction free with
  | integer => exact .plain .integer rfl
  | string => exact .plain .string rfl
  | boolean => exact .plain .boolean rfl
  | null => exact .plain .null rfl
  | builtin => exact .plain .builtin rfl
  | function => exact .function
  | array _ ih => exact .array ih

/-- How the refusal of a limit leaves a session. -/
theorem Session.evaluate_refused {session : Session} {program : Program} {limit : Int} (stated : session.limit? = some limit)
    (refused : program.evaluate? limit World.root session.world = none) :
    evaluate program session = (.error (Host.refusal limit), session) := by
  simp only [evaluate, stated, refused]

end Treewalk
