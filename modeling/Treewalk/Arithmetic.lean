/-! Signed 64-bit arithmetic. Operations compute exactly and wrap the result once; wrapping takes an integer to the
representative of its residue class modulo 2⁶⁴ that lies from -2⁶³ up to 2⁶³ - 1. -/

namespace Treewalk

/-- Two to the power 64. -/
def wordModulus : Nat := 18446744073709551616

def wrap (value : Int) : Int := value.bmod wordModulus

/-- A power modulo a number, by repeated squaring. -/
def powerMod (base modulus exponent : Nat) : Nat :=
  if exponent = 0 then 1 % modulus
  else
    let half := powerMod base modulus (exponent / 2)
    if exponent % 2 = 0 then half * half % modulus else half * half * base % modulus
termination_by exponent

theorem powerMod_eq (base modulus exponent : Nat) :
    powerMod base modulus exponent = Nat.pow base exponent % modulus := by
  change powerMod base modulus exponent = base ^ exponent % modulus
  fun_induction powerMod base modulus exponent with
  | case1 => simp
  | case2 exponent positive half even ih =>
    have known : half = base ^ (exponent / 2) % modulus := ih
    have split : exponent = exponent / 2 + exponent / 2 := by omega
    rw [known, ← Nat.mul_mod, ← Nat.pow_add, ← split]
  | case3 exponent positive half odd ih =>
    have known : half = base ^ (exponent / 2) % modulus := ih
    have split : exponent = (exponent / 2 + exponent / 2).succ := by omega
    rw [known, Nat.mul_mod, ← Nat.mul_mod (base ^ _), ← Nat.pow_add, ← Nat.mul_mod, ← Nat.pow_succ, ← split]

/-- The wrapped power of an integer. Reducing the base first keeps the work small however large the exponent is. -/
def wrappedPower (base : Int) (exponent : Nat) : Int :=
  wrap (powerMod (base % wordModulus).toNat wordModulus exponent)

end Treewalk
