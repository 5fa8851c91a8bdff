import Afabric.Support.MachineInt
import Mathlib.Data.ZMod.Basic
import Mathlib.LinearAlgebra.Matrix.Notation

/-!
# Tools — matrices modulo a number, in doubles

The 3 × 3 matrix arithmetic of `tools/rng.cc`.  A `double` is an exact rational and the cast to a
`long` cuts its fraction off.  A double *holds* a residue modulo `m` when it is an integer of that
class (`Holds`); from arguments that hold residues every operation makes the least non-negative
number that holds the result (`Reduced`), whether or not `MultModM` has to split a product.

The functions copy before they write, so an argument may also be the result.
-/

namespace Afabric

namespace Rng

/-- One proof for the indices of every definition. -/
theorem neZero_three : NeZero 3 := ⟨by decide⟩

attribute [local instance] neZero_three

abbrev Vec := Fin 3 → ℚ

abbrev Mat := Fin 3 → Fin 3 → ℚ

def two17 : ℚ := 131072

def two53 : ℚ := 9007199254740992

/-- `a1 = (long) (v / m); if ((v -= a1 * m) < 0.0) v += m`. -/
def residue (v m : ℚ) : ℚ :=
  let a1 := truncate (v / m)
  let v := v - a1 * m
  if v < 0 then v + m else v

/-- A product that could lose bits is split at `two17`. -/
def multModM (a s c m : ℚ) : ℚ :=
  let v := a * s + c
  if two53 ≤ v ∨ v ≤ -two53 then
    let a1 := truncate (a / two17)
    let a := a - a1 * two17
    let v := a1 * s
    let a1 := truncate (v / m)
    let v := v - a1 * m
    residue (v * two17 + a * s + c) m
  else residue v m

def matVecModM (A : Mat) (s : Vec) (m : ℚ) : Vec := fun i =>
  multModM (A i 2) (s 2) (multModM (A i 1) (s 1) (multModM (A i 0) (s 0) 0 m) m) m

def matMatModM (A B : Mat) (m : ℚ) : Mat := fun j i => matVecModM A (fun j => B j i) m j

def INT_MAX : ℕ := 2147483647

/-- The counter of the loop is an `int` and the exponent a `long`, so with a larger exponent the
counter overflows. -/
def matTwoPowModM (A : Mat) (m : ℚ) (e : ℕ) : Option Mat :=
  if INT_MAX < e then none else some ((fun B => matMatModM B B m)^[e] A)

/-- The loop of `MatPowModM`, with the powers of the matrix in `W` and the product so far in `B`. -/
def powLoop (m : ℚ) (W B : Mat) (n : ℕ) : Mat :=
  if n = 0 then B
  else powLoop m (matMatModM W W m) (if n % 2 = 1 then matMatModM W B m else B) (n / 2)

def matPowModM (A : Mat) (m : ℚ) (n : ℕ) : Mat := powLoop m A (fun i j => if i = j then 1 else 0) n

/-! ### Doubles that hold residues -/

variable {m : ℕ}

/-- The double is an integer of the class. -/
def Holds (x : ℚ) (u : ZMod m) : Prop := ∃ z : ℤ, x = z ∧ (z : ZMod m) = u

/-- The double is the least non-negative integer of the class. -/
def Reduced (x : ℚ) (u : ZMod m) : Prop := x = (u.val : ℚ)

variable {x a s c : ℚ} {u v w : ZMod m}

theorem Reduced.holds [NeZero m] (h : Reduced x u) : Holds x u :=
  ⟨u.val, by rw [h]; norm_cast, by simp⟩

theorem Holds.mul_add (ha : Holds a u) (hs : Holds s v) (hc : Holds c w) :
    Holds (a * s + c) (u * v + w) := by
  obtain ⟨a, rfl, rfl⟩ := ha
  obtain ⟨s, rfl, rfl⟩ := hs
  obtain ⟨c, rfl, rfl⟩ := hc
  exact ⟨a * s + c, by push_cast; rfl, by push_cast; rfl⟩

theorem Holds.mul_sub_mul (k l : ℤ) (hx : Holds x u) (hs : Holds s v) :
    Holds (k * x - l * s) ((k : ZMod m) * u - (l : ZMod m) * v) := by
  obtain ⟨x, rfl, rfl⟩ := hx
  obtain ⟨s, rfl, rfl⟩ := hs
  exact ⟨k * x - l * s, by push_cast; rfl, by push_cast; rfl⟩

theorem abs_sub_truncate_lt (q : ℚ) : |q - truncate q| < 1 := by
  rw [truncate, abs_lt]
  split
  · have h1 := Int.floor_le q
    have h2 := Int.lt_floor_add_one q
    constructor <;> linarith
  · have h1 := Int.le_ceil q
    have h2 := Int.ceil_lt_add_one q
    constructor <;> linarith

/-- Taking a multiple of the modulus away leaves the class. -/
theorem Holds.sub_mul (h : Holds x u) (k : ℤ) : Holds (x - k * m) u := by
  obtain ⟨z, rfl, rfl⟩ := h
  exact ⟨z - k * m, by push_cast; rfl, by push_cast; simp⟩

theorem reduced_of_range [NeZero m] (h : Holds x u) (h0 : 0 ≤ x) (h1 : x < m) : Reduced x u := by
  obtain ⟨z, rfl, rfl⟩ := h
  have hz0 : 0 ≤ z := by exact_mod_cast h0
  have hz1 : z < m := by exact_mod_cast h1
  have hval : (((z : ZMod m).val : ℤ)) = z := by
    rw [ZMod.val_intCast, Int.emod_eq_of_lt hz0 hz1]
  rw [Reduced]
  exact_mod_cast hval.symm

theorem residue_reduced [NeZero m] (h : Holds x u) : Reduced (residue x m) u := by
  have hm : (0 : ℚ) < m := by exact_mod_cast Nat.pos_of_ne_zero (NeZero.ne m)
  obtain ⟨k, hk⟩ : ∃ k, k = truncate (x / m) := ⟨_, rfl⟩
  have hrem : |x - k * m| < m := by
    have hlt := abs_sub_truncate_lt (x / m)
    rw [← hk] at hlt
    have hx : x - k * m = (x / m - k) * m := by
      rw [sub_mul, div_mul_cancel₀ x hm.ne']
    rw [hx, abs_mul, abs_of_pos hm]
    exact mul_lt_of_lt_one_left hm hlt
  rw [abs_lt] at hrem
  rw [residue]
  simp only [← hk]
  split
  next hneg =>
    have hadd : x - k * m + m = x - (k - 1 : ℤ) * m := by
      push_cast
      ring
    refine reduced_of_range (hadd ▸ h.sub_mul (k - 1)) ?_ ?_ <;> linarith
  next hnonneg => exact reduced_of_range (h.sub_mul k) (not_lt.mp hnonneg) hrem.2

/-- **`MultModM`**: what the split takes away is a multiple of the modulus. -/
theorem multModM_reduced [NeZero m] (ha : Holds a u) (hs : Holds s v) (hc : Holds c w) :
    Reduced (multModM a s c m) (u * v + w) := by
  have h := ha.mul_add hs hc
  rw [multModM]
  split
  · refine residue_reduced ?_
    have hsplit : ∀ a1 k : ℚ, (a1 * s - k * m) * two17 + (a - a1 * two17) * s + c
        = a * s + c - k * two17 * m := fun a1 k => by ring
    rw [hsplit]
    have hk := h.sub_mul (truncate (truncate (a / two17) * s / m) * 131072)
    push_cast at hk
    exact hk
  · exact residue_reduced h

theorem holds_zero : Holds 0 (0 : ZMod m) := ⟨0, by simp, by simp⟩

theorem holds_one : Holds 1 (1 : ZMod m) := ⟨1, by simp, by simp⟩

open Matrix

/-- The class of a matrix, entry by entry. -/
def HoldsMat (A : Mat) (M : Matrix (Fin 3) (Fin 3) (ZMod m)) : Prop := ∀ i j, Holds (A i j) (M i j)

variable {A B : Mat} {t : Vec} {M N : Matrix (Fin 3) (Fin 3) (ZMod m)} {r : Fin 3 → ZMod m}

theorem matVecModM_reduced [NeZero m] (hA : HoldsMat A M) (ht : ∀ i, Holds (t i) (r i))
    (i : Fin 3) : Reduced (matVecModM A t m i) ((M *ᵥ r) i) := by
  have h0 := multModM_reduced (hA i 0) (ht 0) holds_zero
  have h1 := multModM_reduced (hA i 1) (ht 1) h0.holds
  have h2 := multModM_reduced (hA i 2) (ht 2) h1.holds
  have hsum : (M *ᵥ r) i = M i 2 * r 2 + (M i 1 * r 1 + (M i 0 * r 0 + 0)) := by
    rw [mulVec, dotProduct, Fin.sum_univ_three]
    ring
  rw [hsum]
  exact h2

theorem matMatModM_holds [NeZero m] (hA : HoldsMat A M) (hB : HoldsMat B N) :
    HoldsMat (matMatModM A B m) (M * N) := by
  intro j i
  have hcol := matVecModM_reduced hA (t := fun j => B j i) (r := fun j => N j i)
    (fun j => hB j i) j
  exact hcol.holds

theorem matTwoPowModM_holds [NeZero m] (hA : HoldsMat A M) {e : ℕ} (he : e ≤ INT_MAX) :
    ∃ B, matTwoPowModM A m e = some B ∧ HoldsMat B (M ^ 2 ^ e) := by
  refine ⟨_, if_neg (Nat.not_lt.mpr he), ?_⟩
  clear he
  induction e with
  | zero => simpa using hA
  | succ e ih =>
    rw [Function.iterate_succ_apply', pow_succ, mul_two, pow_add]
    exact matMatModM_holds ih ih

theorem powLoop_holds [NeZero m] {W B : Mat} (n : ℕ) (hW : HoldsMat W M) (hB : HoldsMat B N) :
    HoldsMat (powLoop m W B n) (M ^ n * N) := by
  induction n using Nat.strongRecOn generalizing W B M N with
  | ind n ih =>
    rw [powLoop]
    split
    next h0 => rwa [h0, pow_zero, one_mul]
    next h0 =>
      have hhalf : n / 2 < n := Nat.div_lt_self (Nat.pos_of_ne_zero h0) (by decide)
      have hWW := matMatModM_holds hW hW
      split
      next hodd =>
        have hpow : M ^ n * N = (M * M) ^ (n / 2) * (M * N) := by
          have hn : n = 2 * (n / 2) + 1 := by omega
          rw [← pow_two, ← pow_mul, ← mul_assoc, ← pow_succ, ← hn]
        rw [hpow]
        exact ih (n / 2) hhalf hWW (matMatModM_holds hW hB)
      next heven =>
        have hpow : M ^ n * N = (M * M) ^ (n / 2) * N := by
          have hn : n = 2 * (n / 2) := by omega
          rw [← pow_two, ← pow_mul, ← hn]
        rw [hpow]
        exact ih (n / 2) hhalf hWW hB

theorem matPowModM_holds [NeZero m] (hA : HoldsMat A M) (n : ℕ) :
    HoldsMat (matPowModM A m n) (M ^ n) := by
  have hone :
      HoldsMat (fun i j => if i = j then 1 else 0) (1 : Matrix (Fin 3) (Fin 3) (ZMod m)) := by
    intro i j
    by_cases hij : i = j
    · subst hij
      rw [one_apply_eq]
      simpa only [if_true] using holds_one
    · simpa only [one_apply_ne hij, if_neg hij] using holds_zero
  have h := powLoop_holds n hA hone
  rwa [mul_one] at h

end Rng

end Afabric
