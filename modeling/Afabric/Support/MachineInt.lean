import Mathlib.Data.Rat.Floor

/-!
# Support — machine integers

The `int`s and `short`s of a program as `Int32` and `Int16`, read back as integers: shifts, and the
values that a bound from below leaves.  `truncate` is the conversion of a `double`, which is a
rational number here.
-/

namespace Afabric

/-! ### Shifts -/

theorem int32_shiftRight (a k : Int32) {n : ℕ} (hk : (k.toBitVec.smod 32).toNat = n) :
    (a >>> k).toInt = a.toInt / 2 ^ n := by
  rw [← Int32.toInt_toBitVec, Int32.toBitVec_shiftRight, BitVec.sshiftRight', hk,
    BitVec.toInt_sshiftRight, Int.shiftRight_eq_div_pow, Int32.toInt_toBitVec]
  push_cast
  rfl

theorem int32_shiftLeft (a k : Int32) {n : ℕ} (hk : (k.toBitVec.smod 32).toNat = n) :
    (a <<< k).toInt = (a.toInt * 2 ^ n).bmod (2 ^ 32) := by
  rw [← Int32.toInt_toBitVec, Int32.toBitVec_shiftLeft, BitVec.shiftLeft_eq', hk,
    BitVec.toInt_shiftLeft, ← Int32.toInt_toBitVec, BitVec.toInt_eq_toNat_bmod, Nat.shiftLeft_eq]
  push_cast
  rw [Int.bmod_mul_bmod]

theorem not_shiftRight (i n : ℕ) : ~~~((i : ℤ) >>> n) = -((i : ℤ) / 2 ^ n) - 1 := by
  have hcast : (i : ℤ) >>> n = ((i / 2 ^ n : ℕ) : ℤ) := by
    rw [Int.shiftRight_eq_div_pow]
    push_cast
    rfl
  have hnot : ~~~((i / 2 ^ n : ℕ) : ℤ) = Int.negSucc (i / 2 ^ n) := rfl
  rw [hcast, hnot, Int.negSucc_eq]
  push_cast
  omega

/-! ### Bounds from below -/

/-- `if (x <= 0) x = 1`. -/
theorem ite_le_zero_toInt (x : Int32) :
    (if x ≤ 0 then (1 : Int32) else x).toInt = max 1 x.toInt := by
  have h1 : (1 : Int32).toInt = 1 := rfl
  have h0 : (0 : Int32).toInt = 0 := rfl
  simp only [Int32.le_iff_toInt_le, h0]
  split
  · rw [h1]; omega
  · omega

/-- `if (x < 1) x = 1`. -/
theorem ite_lt_one_toInt (x : Int32) :
    (if x < 1 then (1 : Int32) else x).toInt = max 1 x.toInt := by
  have h1 : (1 : Int32).toInt = 1 := rfl
  simp only [Int32.lt_iff_toInt_lt, h1]
  split
  · rw [h1]; omega
  · omega

/-- `if (x < 0) x = 0`. -/
theorem ite_neg_toInt (x : Int32) : (if x < 0 then (0 : Int32) else x).toInt = max 0 x.toInt := by
  have h0 : (0 : Int32).toInt = 0 := rfl
  simp only [Int32.lt_iff_toInt_lt, h0]
  split
  · rw [h0]; omega
  · omega

/-- The absolute value of a `short`, which is one again. -/
theorem ite_neg_toInt16 (d : Int16) :
    (if d < 0 then -d else d).toInt = |d.toInt|.bmod (2 ^ 16) := by
  have h0 : (0 : Int16).toInt = 0 := rfl
  simp only [Int16.lt_iff_toInt_lt, h0]
  split
  next h => rw [Int16.toInt_neg, abs_of_neg h]
  next h =>
    rw [abs_of_nonneg (by omega)]
    exact (Int.bmod_eq_of_le d.le_toInt d.toInt_lt).symm

/-! ### Doubles -/

/-- The conversion of a `double` to an integer. -/
def truncate (x : ℚ) : ℤ := if 0 ≤ x then ⌊x⌋ else ⌈x⌉

/-- `fmod`. -/
def fmod (x y : ℚ) : ℚ := x - y * truncate (x / y)

end Afabric
