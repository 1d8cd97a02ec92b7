import Mathlib.Data.Int.ModEq
import Mathlib.Data.Rat.Floor
import Treewalk.Proofs.IntegerRange

/-! Integers of 64 bits calculate as unbounded integers do, modulo 2⁶⁴. Wrapping keeps the residue, and nothing but the
residue matters to sums, differences, products and powers; so an expression of these can be calculated exactly and wrapped
once at the end. Division goes by the numbers themselves: it is exact apart from one quotient that is no integer of 64 bits. -/

namespace Treewalk

/-! ### Residues -/

theorem wordModulus_eq : (wordModulus : Int) = 2 ^ 64 := by norm_num [wordModulus]

theorem inWord_iff {value : Int} : InWord value ↔ -2 ^ 63 ≤ value ∧ value ≤ 2 ^ 63 - 1 := by
  simp only [InWord, maxInteger]
  norm_num

/-- Of the integers of 64 bits, the wrapped one is the only one with the same residue. -/
theorem wrap_eq_iff {value wrapped : Int} : wrap value = wrapped ↔ InWord wrapped ∧ wrapped ≡ value [ZMOD 2 ^ 64] := by
  rw [wrap, Int.bmod_eq_iff (by decide), ← and_assoc, ← wordModulus_eq]
  refine and_congr ?_ (Int.modEq_iff_dvd.symm.trans Int.modEq_comm)
  simp only [InWord, wordModulus, maxInteger]
  omega

theorem wrap_modEq (value : Int) : wrap value ≡ value [ZMOD 2 ^ 64] := (wrap_eq_iff.mp rfl).2

theorem wrap_of_inWord {value : Int} (inside : InWord value) : wrap value = value := wrap_eq_iff.mpr ⟨inside, .rfl⟩

theorem wrap_congr {value other : Int} (same : value ≡ other [ZMOD 2 ^ 64]) : wrap value = wrap other :=
  wrap_eq_iff.mpr ⟨wrap_inWord other, (wrap_modEq other).trans same.symm⟩

theorem wrappedPower_modEq (base : Int) (exponent : Nat) : wrappedPower base exponent ≡ base ^ exponent [ZMOD 2 ^ 64] := by
  have positive : 0 ≤ base % wordModulus := Int.emod_nonneg base (by decide)
  have residue : ((base % wordModulus).toNat : Int) ≡ base [ZMOD wordModulus] := by
    rw [Int.toNat_of_nonneg positive]
    exact Int.mod_modEq base wordModulus
  have reduced : (powerMod (base % wordModulus).toNat wordModulus exponent : Int) ≡ base ^ exponent [ZMOD wordModulus] := by
    rw [powerMod_eq, Nat.pow_eq, Int.natCast_emod, Int.natCast_pow]
    exact (Int.mod_modEq _ _).trans (residue.pow exponent)
  rw [wordModulus_eq] at reduced
  exact (wrap_modEq _).trans reduced

theorem wrappedPower_eq (base : Int) (exponent : Nat) : wrappedPower base exponent = wrap (base ^ exponent) :=
  (wrap_eq_iff.mpr ⟨wrap_inWord _, wrappedPower_modEq base exponent⟩).symm

/-! ### Calculations -/

/-- The expression calculates with literals, and in the unbounded integers it comes to this one. Exponents are literals
themselves. -/
inductive Expr.ComesTo : Expr → Int → Prop where
  | literal {value : Int} (read : 0 ≤ value ∧ value ≤ maxInteger) : ComesTo (.integer value) value
  | negate (inner : ComesTo operand value) : ComesTo (.unary .negate operand) (-value)
  | add (first : ComesTo left value) (second : ComesTo right other) : ComesTo (.binary left .add right) (value + other)
  | subtract (first : ComesTo left value) (second : ComesTo right other) :
      ComesTo (.binary left .subtract right) (value - other)
  | multiply (first : ComesTo left value) (second : ComesTo right other) :
      ComesTo (.binary left .multiply right) (value * other)
  | power {exponent : Nat} (first : ComesTo base value) (read : exponent ≤ maxInteger) :
      ComesTo (.binary base .power (.integer exponent)) (value ^ exponent)

section

variable {invoke : Invoke} {scope : ScopeId} {world : World} {operand left right : Expr} {value other : Int}

theorem Expr.eval_negate (inner : operand.eval invoke scope world = (.integer value, world)) :
    (Expr.unary .negate operand).eval invoke scope world = (.integer (wrap (-value)), world) := by
  rw [Expr.eval, Run.bind_apply, inner]
  rfl

theorem Expr.eval_binary {op : BinaryOp} (first : left.eval invoke scope world = (.integer value, world))
    (second : right.eval invoke scope world = (.integer other, world)) :
    (Expr.binary left op right).eval invoke scope world = (op.applyIntegers value other, world) := by
  rw [Expr.eval, Run.bind_apply, first]
  change (right.eval invoke scope >>= _) world = _
  rw [Run.bind_apply, second]
  rfl

/-- The induction is on the calculation: each operator gets wrapped operands, which have the residues of the exact ones. -/
theorem Expr.ComesTo.eval {expr : Expr} (comes : expr.ComesTo value) (invoke : Invoke) (scope : ScopeId) (world : World) :
    expr.eval invoke scope world = (.integer (wrap value), world) := by
  induction comes with
  | literal read =>
    rw [wrap_of_inWord (inWord_of_literal read), Expr.eval]
    rfl
  | @negate operand value _ ih =>
    rw [eval_negate ih, wrap_congr (wrap_modEq value).neg]
  | @add _ value _ other _ _ ih ih' =>
    rw [eval_binary ih ih', BinaryOp.applyIntegers, wrap_congr ((wrap_modEq value).add (wrap_modEq other))]
  | @subtract _ value _ other _ _ ih ih' =>
    rw [eval_binary ih ih', BinaryOp.applyIntegers, wrap_congr ((wrap_modEq value).sub (wrap_modEq other))]
  | @multiply _ value _ other _ _ ih ih' =>
    rw [eval_binary ih ih', BinaryOp.applyIntegers, wrap_congr ((wrap_modEq value).mul (wrap_modEq other))]
  | @power _ value exponent _ read ih =>
    have literal : (Expr.integer exponent).eval invoke scope world = (.integer exponent, world) := by
      rw [Expr.eval]
      rfl
    rw [eval_binary ih literal, BinaryOp.applyIntegers, if_neg (Int.not_lt.mpr (Int.natCast_nonneg exponent)), Int.toNat_natCast,
      wrappedPower_eq, wrap_congr ((wrap_modEq value).pow exponent)]

end

/-- A rational number without its fractional part. -/
def truncated (value : Rat) : Int := if 0 ≤ value then ⌊value⌋ else ⌈value⌉

/-- A quotient and what it leaves of the dividend: less than the divisor, and nothing on the other side of zero. -/
structure Divides (left right quotient rest : Int) : Prop where
  whole : left = quotient * right + rest
  less : |rest| < |right|
  side : rest = 0 ∨ rest.sign = left.sign

theorem tdiv_divides (left : Int) {right : Int} (nonzero : right ≠ 0) :
    Divides left right (left.tdiv right) (left.tmod right) where
  whole := (Int.tdiv_mul_add_tmod left right).symm
  less := by
    rw [Int.abs_eq_natAbs, Int.abs_eq_natAbs, Int.natAbs_tmod]
    exact_mod_cast Nat.mod_lt _ (Int.natAbs_pos.mpr nonzero)
  side := by
    have sign := Int.sign_tmod left right
    split at sign
    · exact Or.inl (Int.sign_eq_zero_iff_zero.mp sign)
    · exact Or.inr sign

namespace Divides

variable {left right quotient rest : Int}

theorem neg (divides : Divides left right quotient rest) : Divides (-left) (-right) quotient (-rest) where
  whole := by rw [divides.whole, Int.neg_add, Int.mul_neg]
  less := by rw [abs_neg, abs_neg]; exact divides.less
  side := by
    rw [Int.sign_neg, Int.sign_neg, neg_inj, neg_eq_zero]
    exact divides.side

theorem rest_nonneg (divides : Divides left right quotient rest) (nonneg : 0 ≤ left) : 0 ≤ rest := by
  rcases divides.side with none | side
  · exact none.ge
  · exact Int.sign_nonneg_iff.mp (side ▸ Int.sign_nonneg_iff.mpr nonneg)

/-- The quotient by a positive divisor: below the rational one where that is positive, and above it where it is not. -/
theorem truncated_of_pos (divides : Divides left right quotient rest) (positive : 0 < right) :
    truncated (left / right) = quotient := by
  have positive' : (0 : Rat) < right := by exact_mod_cast positive
  have less : |rest| < right := abs_of_pos positive ▸ divides.less
  obtain ⟨above, below⟩ := abs_lt.mp less
  have whole := divides.whole
  have next : (quotient + 1) * right = quotient * right + right := by ring
  have last : (quotient - 1) * right = quotient * right - right := by ring
  rcases le_or_gt 0 left with nonneg | negative
  · have rest_nonneg := divides.rest_nonneg nonneg
    have low : quotient * right ≤ left := by omega
    have high : left < (quotient + 1) * right := by omega
    rw [truncated, if_pos (div_nonneg (by exact_mod_cast nonneg) positive'.le), Int.floor_eq_iff, le_div_iff₀ positive',
      div_lt_iff₀ positive']
    exact_mod_cast And.intro low high
  · have rest_nonpos := divides.neg.rest_nonneg (by omega)
    have low : (quotient - 1) * right < left := by omega
    have high : left ≤ quotient * right := by omega
    have negative' : (left : Rat) / right < 0 := div_neg_of_neg_of_pos (by exact_mod_cast negative) positive'
    rw [truncated, if_neg (not_le.mpr negative'), Int.ceil_eq_iff, lt_div_iff₀ positive', div_le_iff₀ positive']
    exact_mod_cast And.intro low high

/-- Such a quotient is the rational one cut off. -/
theorem truncated_eq (divides : Divides left right quotient rest) (nonzero : right ≠ 0) :
    truncated (left / right) = quotient := by
  rcases lt_or_gt_of_ne nonzero with negative | positive
  · have flipped := divides.neg.truncated_of_pos (Int.neg_pos.mpr negative)
    rwa [Int.cast_neg, Int.cast_neg, neg_div_neg_eq] at flipped
  · exact divides.truncated_of_pos positive

end Divides

/-- The one quotient that is no integer of 64 bits is that of the least of them by minus one. -/
theorem tdiv_inWord {left right : Int} (inside : InWord left) (nonzero : right ≠ 0)
    (other : ¬ (left = -2 ^ 63 ∧ right = -1)) : InWord (left.tdiv right) := by
  have smaller := Int.natAbs_tdiv_le_natAbs left right
  have whole := Int.tdiv_mul_add_tmod left right
  have less : (left.tmod right).natAbs < right.natAbs := by
    rw [Int.natAbs_tmod]
    exact Nat.mod_lt _ (Int.natAbs_pos.mpr nonzero)
  rw [inWord_iff] at inside ⊢
  by_cases greatest : left.tdiv right = 2 ^ 63
  · rw [greatest] at whole smaller
    omega
  · omega

namespace BinaryOp

theorem applyIntegers_divide {left right : Int} (nonzero : right ≠ 0) :
    divide.applyIntegers left right = .integer (wrap (left.tdiv right)) := by
  rw [applyIntegers, if_neg nonzero]

theorem applyIntegers_power {left right : Int} (nonneg : 0 ≤ right) :
    power.applyIntegers left right = .integer (wrappedPower left right.toNat) := by
  rw [applyIntegers, if_neg (not_lt.mpr nonneg)]

/-- Integers of 64 bits are divided exactly, toward zero, by everything but zero, with one quotient that wraps around; and they
are raised to every power that is not negative, modulo 2⁶⁴. -/
theorem divides_and_raises {left right : Int} (inside : InWord left) :
    (divide.applyIntegers left right = .error .divisionByZero ↔ right = 0) ∧
      (right ≠ 0 → ∃ quotient, divide.applyIntegers left right = .integer quotient ∧ InWord quotient ∧
        if left = -2 ^ 63 ∧ right = -1 then quotient = -2 ^ 63
        else quotient = truncated (left / right) ∧ ∃ rest, Divides left right quotient rest) ∧
      (power.applyIntegers left right = .error (.negativeExponent right) ↔ right < 0) ∧
      (0 ≤ right → ∃ result, power.applyIntegers left right = .integer result ∧ InWord result ∧
        result ≡ left ^ right.toNat [ZMOD 2 ^ 64]) ∧
      power.applyIntegers 0 0 = .integer 1 ∧ Fault.divisionByZero.message = "division by zero" ∧
      (Fault.negativeExponent right).message = "negative exponent: " ++ toString right := by
  refine ⟨?_, fun nonzero => ⟨_, applyIntegers_divide nonzero, wrap_inWord _, ?_⟩, ?_, fun nonneg => ?_, ?_, rfl, rfl⟩
  · by_cases zero : right = 0
    · simp [applyIntegers, zero]
    · simp [applyIntegers_divide zero, zero]
  · split
    next least =>
      obtain ⟨rfl, rfl⟩ := least
      decide
    next other =>
      have divides := tdiv_divides left nonzero
      rw [wrap_of_inWord (tdiv_inWord inside nonzero other)]
      exact ⟨(divides.truncated_eq nonzero).symm, _, divides⟩
  · by_cases negative : right < 0
    · simp [applyIntegers, negative]
    · simp [applyIntegers_power (not_lt.mp negative), negative]
  · exact ⟨_, applyIntegers_power nonneg, wrap_inWord _, wrappedPower_modEq left right.toNat⟩
  · rw [applyIntegers_power le_rfl, wrappedPower_eq]
    exact congrArg Value.integer (by decide)

/-- The least integer by minus one, and to the greatest exponent there is. -/
theorem least_divided_and_raised :
    divide.applyIntegers (-9223372036854775808) (-1) = .integer (-9223372036854775808) ∧
      ∃ result, power.applyIntegers (-9223372036854775808) 9223372036854775807 = .integer result ∧ InWord result ∧
        result ≡ (-9223372036854775808) ^ (9223372036854775807 : Int).toNat [ZMOD 2 ^ 64] := by
  have inside : InWord (-9223372036854775808) := ⟨by decide, by decide⟩
  obtain ⟨quotient, divided, -, least⟩ := (@divides_and_raises _ (-1) inside).2.1 (by decide)
  rw [if_pos (by decide)] at least
  exact ⟨divided.trans (congrArg Value.integer least), (divides_and_raises inside).2.2.2.1 (by decide)⟩

end BinaryOp

end Treewalk
