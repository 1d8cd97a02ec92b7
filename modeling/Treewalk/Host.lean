import Treewalk.Text.Surrogate

/-! The machine that a program runs on. It has room for so many frames: calls take some of them, and so does putting the
text of a nested value together. How much room there is, is not for the language to say, so every run has its host as a
parameter. -/

namespace Treewalk

/-- How many frames there may be while no limit on calls is in force. -/
def frameLimit : Nat := 1000

structure Host where
  /-- The most calls of functions inside each other that there is ever room for. -/
  calls : Nat
  /-- How many frames are in use where a limit on calls is set. -/
  inUse : Nat
  /-- The most levels of a text that is put together while nothing is evaluated. -/
  levels : Nat
  alphabet : Alphabet
  calls_pos : 0 < calls
  inUse_lt : inUse < frameLimit

namespace Host

def usual : Host := ⟨1200, 8, 480, .plain, by decide, by decide⟩

instance : Inhabited Host := ⟨usual⟩

end Host

end Treewalk
