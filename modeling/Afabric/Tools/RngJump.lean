import Afabric.Tools.RngStream
import Mathlib.LinearAlgebra.Matrix.NonsingularInverse

/-!
# Tools — jumping ahead in a stream

A valid state holds two vectors of residues, and a step of `U01` multiplies each by an invertible
matrix, so `n` steps multiply it by the power `n`.  The tables are checked once against repeated
squaring (`a1p76_eq`, …); then every jump is a power of the matrix, and its steps, forward or back,
are those of the recurrences (`rng_jumps_iff`).
-/

namespace Afabric

open Rng

open scoped Matrix

open Matrix (mulVec mulVec_mulVec mulVec_zero one_mulVec)

attribute [local instance] neZero_three

namespace RngState

/-! ### The matrices -/

/-- The classes of the entries. -/
def classes (m : ℕ) (A : Matrix (Fin 3) (Fin 3) ℤ) : Matrix (Fin 3) (Fin 3) (ZMod m) :=
  A.map (Int.castRingHom (ZMod m))

theorem doubles_holds {m : ℕ} (A : Matrix (Fin 3) (Fin 3) ℤ) : HoldsMat (doubles A) (classes m A) :=
  fun i j => ⟨A i j, rfl, rfl⟩

/-- Equal classes, from congruent entries. -/
theorem classes_eq {m : ℕ} {A B : Matrix (Fin 3) (Fin 3) ℤ} (h : ∀ i j, A i j % m = B i j % m) :
    classes m A = classes m B := by
  ext i j
  exact (ZMod.intCast_eq_intCast_iff' _ _ _).mpr (h i j)

theorem classes_mul {m : ℕ} (A B : Matrix (Fin 3) (Fin 3) ℤ) :
    classes m (A * B) = classes m A * classes m B := Matrix.map_mul

theorem classes_one {m : ℕ} : classes m 1 = 1 :=
  Matrix.map_one _ (map_zero _) (map_one _)

theorem mul_invA1 : classes m1 a1p0 * classes m1 invA1 = 1 := by
  rw [← classes_mul, ← classes_one]
  exact classes_eq (by decide +kernel)

theorem mul_invA2 : classes m2 a2p0 * classes m2 invA2 = 1 := by
  rw [← classes_mul, ← classes_one]
  exact classes_eq (by decide +kernel)

/-- The matrix of the first recurrence, with its inverse. -/
def unit₁ : (Matrix (Fin 3) (Fin 3) (ZMod m1))ˣ where
  val := classes m1 a1p0
  inv := classes m1 invA1
  val_inv := mul_invA1
  inv_val := mul_eq_one_comm.mp mul_invA1

def unit₂ : (Matrix (Fin 3) (Fin 3) (ZMod m2))ˣ where
  val := classes m2 a2p0
  inv := classes m2 invA2
  val_inv := mul_invA2
  inv_val := mul_eq_one_comm.mp mul_invA2

/-- The entries of a table as numbers below the modulus. -/
def numbers (m : ℕ) (A : Matrix (Fin 3) (Fin 3) ℤ) : Matrix3 where
  a₀₀ := (A 0 0 % m).toNat
  a₀₁ := (A 0 1 % m).toNat
  a₀₂ := (A 0 2 % m).toNat
  a₁₀ := (A 1 0 % m).toNat
  a₁₁ := (A 1 1 % m).toNat
  a₁₂ := (A 1 2 % m).toNat
  a₂₀ := (A 2 0 % m).toNat
  a₂₁ := (A 2 1 % m).toNat
  a₂₂ := (A 2 2 % m).toNat

theorem toMatrix_numbers {m : ℕ} [NeZero m] (A : Matrix (Fin 3) (Fin 3) ℤ) :
    (numbers m A).toMatrix m = classes m A := by
  have hm : (m : ℤ) ≠ 0 := by exact_mod_cast NeZero.ne m
  have hcast : ∀ z : ℤ, (((z % m).toNat : ℕ) : ZMod m) = (z : ZMod m) := by
    intro z
    rw [← Int.cast_natCast, Int.toNat_of_nonneg (Int.emod_nonneg z hm), ZMod.intCast_mod]
  ext i j
  fin_cases i <;> fin_cases j <;> exact hcast _

/-- A table that agrees with repeated squaring holds the power. -/
theorem classes_eq_pow {m k : ℕ} [NeZero m] {A B : Matrix (Fin 3) (Fin 3) ℤ}
    (h : (numbers m A).squares m k = numbers m B) : classes m B = classes m A ^ 2 ^ k := by
  rw [← toMatrix_numbers A, ← toMatrix_numbers B, ← h, Matrix3.toMatrix_squares]

instance : NeZero m1 := ⟨by decide⟩

instance : NeZero m2 := ⟨by decide⟩

theorem a1p76_eq : classes m1 a1p76 = (unit₁ ^ 2 ^ 76).val :=
  classes_eq_pow (by decide +kernel)

theorem a2p76_eq : classes m2 a2p76 = (unit₂ ^ 2 ^ 76).val :=
  classes_eq_pow (by decide +kernel)

theorem a1p127_eq : classes m1 a1p127 = (unit₁ ^ 2 ^ 127).val :=
  classes_eq_pow (by decide +kernel)

theorem a2p127_eq : classes m2 a2p127 = (unit₂ ^ 2 ^ 127).val :=
  classes_eq_pow (by decide +kernel)

/-! ### States as residues -/

/-- The residues that a state holds. -/
structure Reads (s : RngState) (v : Fin 3 → ZMod m1) (w : Fin 3 → ZMod m2) : Prop where
  g₁ : ∀ i, Reduced (s.g₁ i) (v i)
  g₂ : ∀ i, Reduced (s.g₂ i) (w i)

variable {s t : RngState} {v v' : Fin 3 → ZMod m1} {w w' : Fin 3 → ZMod m2}

theorem Reads.unique (h : Reads s v w) (h' : Reads t v w) : s = t := by
  have h₁ : s.g₁ = t.g₁ := funext fun i => (h.g₁ i).trans (h'.g₁ i).symm
  have h₂ : s.g₂ = t.g₂ := funext fun i => (h.g₂ i).trans (h'.g₂ i).symm
  cases s
  cases t
  congr

theorem seeds_iff {m : ℕ} [NeZero m] {x : Vec} :
    Seeds m x ↔ ∃ u : Fin 3 → ZMod m, u ≠ 0 ∧ ∀ i, Reduced (x i) (u i) := by
  constructor
  · rintro ⟨n, hlt, hne, hx⟩
    have hval : ∀ i, ((n i : ZMod m)).val = n i := fun i => ZMod.val_natCast_of_lt (hlt i)
    refine ⟨fun i => n i, fun h0 => hne (funext fun i => ?_), fun i => ?_⟩
    · rw [← hval i, congrFun h0 i]
      exact ZMod.val_zero
    · rw [Reduced, hval, hx]
  · rintro ⟨u, hne, hx⟩
    refine ⟨fun i => (u i).val, fun i => ZMod.val_lt (u i), fun h0 => hne (funext fun i => ?_), hx⟩
    exact (ZMod.val_eq_zero (u i)).mp (congrFun h0 i)

theorem valid_iff : s.Valid ↔ ∃ v w, v ≠ 0 ∧ w ≠ 0 ∧ Reads s v w := by
  constructor
  · rintro ⟨h₁, h₂⟩
    obtain ⟨v, hv, hs⟩ := seeds_iff.mp h₁
    obtain ⟨w, hw, hs'⟩ := seeds_iff.mp h₂
    exact ⟨v, w, hv, hw, hs, hs'⟩
  · rintro ⟨v, w, hv, hw, h⟩
    exact ⟨seeds_iff.mpr ⟨v, hv, h.g₁⟩, seeds_iff.mpr ⟨w, hw, h.g₂⟩⟩

/-- An invertible matrix keeps a vector other than zero. -/
theorem mulVec_ne_zero {m : ℕ} (U : (Matrix (Fin 3) (Fin 3) (ZMod m))ˣ) {u : Fin 3 → ZMod m}
    (hu : u ≠ 0) : U.val *ᵥ u ≠ 0 := by
  intro h0
  have hinv : U.inv *ᵥ (U.val *ᵥ u) = u := by
    rw [mulVec_mulVec, U.inv_val, one_mulVec]
  rw [h0, mulVec_zero] at hinv
  exact hu hinv.symm

/-- A state moved by powers of the two matrices. -/
def Moved (s t : RngState) (n : ℤ) : Prop :=
  ∀ v w, Reads s v w → Reads t ((unit₁ ^ n).val *ᵥ v) ((unit₂ ^ n).val *ᵥ w)

theorem Moved.valid {n : ℤ} (h : Moved s t n) (hs : s.Valid) : t.Valid := by
  obtain ⟨v, w, hv, hw, hr⟩ := valid_iff.mp hs
  exact valid_iff.mpr ⟨_, _, mulVec_ne_zero _ hv, mulVec_ne_zero _ hw, h v w hr⟩

theorem Moved.trans {r : RngState} {n k : ℤ} (h : Moved s t n) (h' : Moved t r k) :
    Moved s r (k + n) := by
  intro v w hr
  have hr' := h' _ _ (h v w hr)
  rw [mulVec_mulVec, mulVec_mulVec, ← Units.val_mul, ← Units.val_mul, ← zpow_add, ← zpow_add] at hr'
  exact hr'

theorem Moved.zero (s : RngState) : Moved s s 0 := by
  intro v w hr
  simpa only [zpow_zero, Units.val_one, one_mulVec] using hr

/-- Moves by the same power lead to the same state. -/
theorem Moved.unique {n : ℤ} (hs : s.Valid) (h : Moved s t n) {r : RngState} (h' : Moved s r n) :
    t = r := by
  obtain ⟨v, w, -, -, hr⟩ := valid_iff.mp hs
  exact (h v w hr).unique (h' v w hr)

theorem unit₁_mulVec (v : Fin 3 → ZMod m1) :
    unit₁.val *ᵥ v = ![v 1, v 2, (1403580 : ℤ) * v 1 - (810728 : ℤ) * v 0] := by
  ext i
  fin_cases i <;>
    simp [unit₁, classes, a1p0, mulVec, dotProduct, Fin.sum_univ_three, sub_eq_neg_add]

theorem unit₂_mulVec (w : Fin 3 → ZMod m2) :
    unit₂.val *ᵥ w = ![w 1, w 2, (527612 : ℤ) * w 2 - (1370589 : ℤ) * w 0] := by
  ext i
  fin_cases i <;>
    simp [unit₂, classes, a2p0, mulVec, dotProduct, Fin.sum_univ_three, sub_eq_neg_add]

/-- The numbers that `U01` combines. -/
theorem components_reduced (hr : Reads s v w) :
    Reduced (residue (a12 * s.g₁ 1 - a13n * s.g₁ 0) m1)
        (((1403580 : ℤ) : ZMod m1) * v 1 - ((810728 : ℤ) : ZMod m1) * v 0) ∧
      Reduced (residue (a21 * s.g₂ 2 - a23n * s.g₂ 0) m2)
        (((527612 : ℤ) : ZMod m2) * w 2 - ((1370589 : ℤ) : ZMod m2) * w 0) := by
  refine ⟨residue_reduced ?_, residue_reduced ?_⟩
  · exact (hr.g₁ 1).holds.mul_sub_mul 1403580 810728 (hr.g₁ 0).holds
  · exact (hr.g₂ 2).holds.mul_sub_mul 527612 1370589 (hr.g₂ 0).holds

/-- A step of `U01` multiplies by the matrices. -/
theorem u01_moved (anti : Bool) (s : RngState) : Moved s (s.u01 anti).2 1 := by
  intro v w hr
  obtain ⟨h₁, h₂⟩ := components_reduced hr
  rw [zpow_one, zpow_one, unit₁_mulVec, unit₂_mulVec]
  refine ⟨fun i => ?_, fun i => ?_⟩
  · fin_cases i
    · exact hr.g₁ 1
    · exact hr.g₁ 2
    · exact h₁
  · fin_cases i
    · exact hr.g₂ 1
    · exact hr.g₂ 2
    · exact h₂

theorem iterate_moved (s : RngState) (n : ℕ) : Moved s (step^[n] s) n := by
  induction n with
  | zero => exact .zero s
  | succ n ih =>
    rw [Function.iterate_succ_apply', Nat.cast_succ, add_comm]
    exact ih.trans (u01_moved false _)

/-- Multiplication by tables that hold the power. -/
theorem moved_of_holds {C₁ C₂ : Mat} {n : ℤ} (h₁ : HoldsMat C₁ (unit₁ ^ n).val)
    (h₂ : HoldsMat C₂ (unit₂ ^ n).val) (s : RngState) :
    Moved s ⟨matVecModM C₁ s.g₁ m1, matVecModM C₂ s.g₂ m2⟩ n := by
  intro v w hr
  exact ⟨matVecModM_reduced h₁ fun i => (hr.g₁ i).holds,
    matVecModM_reduced h₂ fun i => (hr.g₂ i).holds⟩

/-! ### Jumps -/

/-- `n` steps forward lead from one state to the other, or `-n` steps back. -/
def Jumped (s t : RngState) (n : ℤ) : Prop :=
  (0 ≤ n → t = step^[n.toNat] s) ∧ (n < 0 → step^[(-n).toNat] t = s)

theorem Moved.jumped {n : ℤ} (h : Moved s t n) (hs : s.Valid) : Jumped s t n := by
  refine ⟨fun hn => ?_, fun hn => ?_⟩
  · have hit := iterate_moved s n.toNat
    rw [Int.toNat_of_nonneg hn] at hit
    exact h.unique hs hit
  · have hit := iterate_moved t (-n).toNat
    rw [Int.toNat_of_nonneg (by omega)] at hit
    have hback := h.trans hit
    rw [neg_add_cancel] at hback
    exact hback.unique hs (.zero s)

/-- The steps that `advance_state` is asked for. -/
def steps (e c : ℤ) : ℤ := e.sign * 2 ^ e.natAbs + c

section Table

variable {m : ℕ} {A inv : Matrix (Fin 3) (Fin 3) ℤ}
  {U : (Matrix (Fin 3) (Fin 3) (ZMod m))ˣ}

/-- The table for the sign of an exponent, to its absolute value. -/
theorem classes_pow (hA : classes m A = U.val) (hinv : classes m inv = U.inv) (c : ℤ) :
    classes m (if 0 ≤ c then A else inv) ^ c.natAbs = (U ^ c).val := by
  obtain ⟨n, rfl | rfl⟩ := Int.eq_nat_or_neg c
  · rw [if_pos (Int.natCast_nonneg n), hA, Int.natAbs_natCast, zpow_natCast,
      Units.val_pow_eq_pow_val]
  · rw [Int.natAbs_neg, Int.natAbs_natCast, zpow_neg, zpow_natCast, ← inv_pow,
      Units.val_pow_eq_pow_val]
    rcases Nat.eq_zero_or_pos n with rfl | hn
    · simp
    · rw [if_neg (by omega), hinv]
      rfl

theorem classes_two_pow (hA : classes m A = U.val) (hinv : classes m inv = U.inv) {e : ℤ}
    (he : e ≠ 0) :
    classes m (if 0 < e then A else inv) ^ 2 ^ e.natAbs = (U ^ (e.sign * 2 ^ e.natAbs)).val := by
  have habs : (e.sign * 2 ^ e.natAbs).natAbs = 2 ^ e.natAbs := by
    rw [Int.natAbs_mul, Int.natAbs_sign_of_ne_zero he, one_mul]
    simp [Int.natAbs_pow]
  have hsign : 0 ≤ e.sign * 2 ^ e.natAbs ↔ 0 < e := by
    rw [mul_nonneg_iff_of_pos_right (by positivity), Int.sign_nonneg_iff]
    omega
  have hpow := classes_pow hA hinv (e.sign * 2 ^ e.natAbs)
  rw [habs] at hpow
  simp only [hsign] at hpow
  exact hpow

theorem jumpMatrix_eq [NeZero m] (hA : classes m A = U.val) (hinv : classes m inv = U.inv)
    {e : ℤ} (c : ℤ) (he : e.natAbs ≤ INT_MAX) :
    ∃ C, jumpMatrix A inv m e c = some C ∧ HoldsMat C (U ^ steps e c).val := by
  have hC : HoldsMat (matPowModM (doubles (if 0 ≤ c then A else inv)) m c.natAbs) (U ^ c).val := by
    rw [← classes_pow hA hinv]
    exact matPowModM_holds (doubles_holds _) _
  by_cases h0 : e = 0
  · refine ⟨_, by rw [jumpMatrix, if_pos h0], ?_⟩
    rw [steps, h0]
    simpa using hC
  · obtain ⟨B, hB, hBholds⟩ :=
      matTwoPowModM_holds (doubles_holds (m := m) (if 0 < e then A else inv)) he
    refine ⟨matMatModM B _ m, by rw [jumpMatrix, if_neg h0, hB], ?_⟩
    rw [classes_two_pow hA hinv h0] at hBholds
    rw [steps, zpow_add, Units.val_mul]
    exact matMatModM_holds hBholds hC

theorem jumpMatrix_eq_none {e : ℤ} (c : ℤ) (he : INT_MAX < e.natAbs) :
    jumpMatrix A inv m e c = none := by
  have h0 : e ≠ 0 := by
    rintro rfl
    exact absurd he (by decide)
  rw [jumpMatrix, if_neg h0, matTwoPowModM, if_pos he]

end Table

theorem advanceState_moved {e : ℤ} (c : ℤ) (he : e.natAbs ≤ INT_MAX) (s : RngState) :
    ∃ t, advanceState e c s = some t ∧ Moved s t (steps e c) := by
  obtain ⟨C₁, h₁, hC₁⟩ := jumpMatrix_eq (U := unit₁) rfl rfl c he
  obtain ⟨C₂, h₂, hC₂⟩ := jumpMatrix_eq (U := unit₂) rfl rfl c he
  refine ⟨_, ?_, moved_of_holds hC₁ hC₂ s⟩
  rw [advanceState, h₁, h₂]

/-- `advance_state` does what it is asked for. -/
def Advances (e c : ℤ) (s : RngState) : Prop :=
  ∃ t, advanceState e c s = some t ∧ t.Valid ∧ Jumped s t (steps e c)

theorem advanceState_valid {e c : ℤ} (hs : s.Valid) (h : s.advanceState e c = some t) :
    t.Valid := by
  by_cases he : e.natAbs ≤ INT_MAX
  · obtain ⟨t', ht', hm⟩ := advanceState_moved c he s
    rw [ht'] at h
    cases h
    exact hm.valid hs
  · rw [advanceState, jumpMatrix_eq_none c (Nat.lt_of_not_le he)] at h
    cases h

theorem advances_iff {e c : ℤ} (hs : s.Valid) : Advances e c s ↔ e.natAbs ≤ INT_MAX := by
  constructor
  · rintro ⟨t, ht, -⟩
    by_contra he
    rw [advanceState, jumpMatrix_eq_none c (Nat.lt_of_not_le he)] at ht
    cases ht
  · intro he
    obtain ⟨t, ht, hm⟩ := advanceState_moved c he s
    exact ⟨t, ht, hm.valid hs, hm.jumped hs⟩

/-! ### The numbers drawn -/

theorem reduced_range {m : ℕ} [NeZero m] {x : ℚ} {u : ZMod m} (h : Reduced x u) :
    0 ≤ x ∧ x < m := by
  rw [h]
  exact ⟨by positivity, by exact_mod_cast ZMod.val_lt u⟩

theorem u01_range (hs : s.Valid) (anti : Bool) : 0 < (s.u01 anti).1 ∧ (s.u01 anti).1 < 1 := by
  obtain ⟨v, w, -, -, hr⟩ := valid_iff.mp hs
  obtain ⟨h₁, h₂⟩ := components_reduced hr
  obtain ⟨p1, hp1⟩ : ∃ p, p = residue (a12 * s.g₁ 1 - a13n * s.g₁ 0) m1 := ⟨_, rfl⟩
  obtain ⟨p2, hp2⟩ : ∃ p, p = residue (a21 * s.g₂ 2 - a23n * s.g₂ 0) m2 := ⟨_, rfl⟩
  rw [← hp1] at h₁
  rw [← hp2] at h₂
  have hm : (m2 : ℚ) < m1 := by exact_mod_cast (by decide : m2 < m1)
  obtain ⟨hp1₀, hp1₁⟩ := reduced_range h₁
  obtain ⟨hp2₀, hp2₁⟩ := reduced_range h₂
  have hscale : ∀ x : ℚ, 0 < x → x < m1 + 1 → 0 < x * Rng.norm ∧ x * Rng.norm < 1 := by
    intro x h0 h1
    have hpos : (0 : ℚ) < m1 + 1 := h0.trans h1
    rw [Rng.norm, mul_one_div]
    exact ⟨div_pos h0 hpos, (div_lt_one hpos).mpr h1⟩
  have hu : 0 < (if p2 < p1 then (p1 - p2) * Rng.norm else (p1 - p2 + m1) * Rng.norm) ∧
      (if p2 < p1 then (p1 - p2) * Rng.norm else (p1 - p2 + m1) * Rng.norm) < 1 := by
    split
    next h => exact hscale _ (by linarith) (by linarith)
    next h => exact hscale _ (by linarith) (by linarith)
  rw [u01]
  simp only [← hp1, ← hp2]
  cases anti with
  | false => exact hu
  | true => exact ⟨sub_pos.mpr hu.2, sub_lt_self 1 hu.1⟩

theorem u01d_valid (hs : s.Valid) (anti : Bool) : (s.u01d anti).2.Valid := by
  have h := (u01_moved anti _).valid ((u01_moved anti s).valid hs)
  rw [u01d]
  split <;> exact h

theorem ofSeed_valid {seed : Fin 6 → ℕ} (h : checkSeed seed = true) : (ofSeed seed).Valid := by
  obtain ⟨h0, h1, h2, h3, h4, h5, hne, hne'⟩ := of_decide_eq_true h
  refine ⟨⟨![seed 0, seed 1, seed 2], fun i => ?_, fun hz => hne ?_, fun i => ?_⟩,
    ⟨![seed 3, seed 4, seed 5], fun i => ?_, fun hz => hne' ?_, fun i => ?_⟩⟩
  · fin_cases i <;> assumption
  · exact ⟨congrFun hz 0, congrFun hz 1, congrFun hz 2⟩
  · fin_cases i <;> rfl
  · fin_cases i <;> assumption
  · exact ⟨congrFun hz 0, congrFun hz 1, congrFun hz 2⟩
  · fin_cases i <;> rfl

/-! ### Fixed jumps -/

/-- Multiplication by tables that hold the power `n` is `n` steps. -/
theorem table_moved {A₁ A₂ : Matrix (Fin 3) (Fin 3) ℤ} {n : ℕ}
    (h₁ : classes m1 A₁ = (unit₁ ^ n).val) (h₂ : classes m2 A₂ = (unit₂ ^ n).val) (s : RngState) :
    Moved s ⟨matVecModM (doubles A₁) s.g₁ m1, matVecModM (doubles A₂) s.g₂ m2⟩ n := by
  refine moved_of_holds ?_ ?_ s
  · rw [zpow_natCast, ← h₁]
    exact doubles_holds A₁
  · rw [zpow_natCast, ← h₂]
    exact doubles_holds A₂

theorem iterate_eq {n : ℕ} (h : Moved s t n) (hs : s.Valid) : t = step^[n] s :=
  h.unique hs (iterate_moved s n)

end RngState

/-! ### The package -/

open RngState

structure RNG.Valid (r : RNG) : Prop where
  Cg : r.Cg.Valid
  Bg : r.Bg.Valid
  Ig : r.Ig.Valid

theorem RNG.valid_of_seed {s : RngState} (hs : s.Valid) (anti incPrec : Bool) :
    (⟨s, s, s, anti, incPrec⟩ : RNG).Valid :=
  ⟨hs, hs, hs⟩

theorem RNG.resetNextSubstream_moved (r : RNG) : Moved r.Bg r.resetNextSubstream.Bg (2 ^ 76 : ℕ) :=
  table_moved a1p76_eq a2p76_eq r.Bg

/-- A call that sets the state of the package. -/
def RngCall.Seeds : RngCall → Prop
  | .setPackageSeed _ => True
  | .setSeedLong _ _ => True
  | _ => False

namespace RngPackage

structure Valid (S : RngPackage) : Prop where
  nextSeed : S.nextSeed.Valid
  streams : ∀ r ∈ S.streams, r.Valid

variable {S T : RngPackage} {start : Option RngState}

theorem init_moved (S : RngPackage) : Moved S.nextSeed S.init.2.nextSeed (2 ^ 127 : ℕ) :=
  table_moved a1p127_eq a2p127_eq S.nextSeed

theorem Valid.init (hS : S.Valid) : S.init.1.Valid ∧ S.init.2.Valid :=
  ⟨RNG.valid_of_seed hS.nextSeed false false, (init_moved S).valid hS.nextSeed, hS.streams⟩

theorem modify_cases {i : ℕ} {f : RNG → Option RNG} {start' : Option RngState}
    (h : S.modify i start f = some (start', T)) :
    start' = start ∧ ∃ r ∈ S.streams, ∃ r', f r = some r' ∧
      T = { S with streams := S.streams.set i r' } := by
  rw [modify] at h
  split at h
  next => cases h
  next r hr =>
    split at h
    next => cases h
    next r' hr' =>
      cases h
      exact ⟨rfl, r, List.mem_of_getElem? hr, r', hr', rfl⟩

theorem Valid.modify (hS : S.Valid) {i : ℕ} {f : RNG → Option RNG} {start' : Option RngState}
    (hf : ∀ r : RNG, r.Valid → ∀ r', f r = some r' → r'.Valid)
    (h : S.modify i start f = some (start', T)) : T.Valid := by
  obtain ⟨-, r, hr, r', hr', rfl⟩ := modify_cases h
  refine ⟨hS.nextSeed, fun r₁ h₁ => ?_⟩
  rcases List.mem_or_eq_of_mem_set h₁ with h₁ | rfl
  · exact hS.streams r₁ h₁
  · exact hf r (hS.streams r hr) _ hr'

/-- **Every call keeps the package valid.** -/
theorem Valid.handle (hS : S.Valid) {c : RngCall} (h : S.handle c = some (start, T)) :
    T.Valid := by
  cases c with
  | create =>
    cases h
    refine ⟨hS.init.2.nextSeed, fun r hr => ?_⟩
    rcases List.mem_append.mp hr with hr | hr
    · exact hS.streams r hr
    · rw [List.mem_singleton.mp hr]
      exact hS.init.1
  | init i =>
    rw [RngPackage.handle] at h
    refine hS.init.2.modify (fun r hr r' h' => ?_) h
    cases h'
    exact hS.init.1
  | setPackageSeed seed =>
    rw [RngPackage.handle] at h
    split at h
    next hseed =>
      cases h
      exact ⟨ofSeed_valid hseed, hS.streams⟩
    next => cases h
  | setSeed i seed =>
    rw [RngPackage.handle] at h
    split at h
    next hseed =>
      refine hS.modify (fun r hr r' h' => ?_) h
      cases h'
      exact RNG.valid_of_seed (ofSeed_valid hseed) r.anti r.incPrec
    next => cases h
  | setSeedLong i seed =>
    rw [RngPackage.handle] at h
    simp only at h
    split at h
    next hseed =>
      have hS' : Valid { S with nextSeed := .ofSeed fun _ => (seed % 2 ^ 64).toNat } :=
        ⟨ofSeed_valid hseed, hS.streams⟩
      refine hS'.init.2.modify (fun r hr r' h' => ?_) h
      cases h'
      exact hS'.init.1
    next => cases h
  | u01 i =>
    rw [RngPackage.handle] at h
    refine hS.modify (fun r hr r' h' => ?_) h
    cases h'
    exact ⟨(u01_moved r.anti r.Cg).valid hr.Cg, hr.Bg, hr.Ig⟩
  | u01d i =>
    rw [RngPackage.handle] at h
    refine hS.modify (fun r hr r' h' => ?_) h
    cases h'
    exact ⟨u01d_valid hr.Cg r.anti, hr.Bg, hr.Ig⟩
  | resetStartStream i =>
    rw [RngPackage.handle] at h
    refine hS.modify (fun r hr r' h' => ?_) h
    cases h'
    exact ⟨hr.Ig, hr.Ig, hr.Ig⟩
  | resetStartSubstream i =>
    rw [RngPackage.handle] at h
    refine hS.modify (fun r hr r' h' => ?_) h
    cases h'
    exact ⟨hr.Bg, hr.Bg, hr.Ig⟩
  | resetNextSubstream i =>
    rw [RngPackage.handle] at h
    refine hS.modify (fun r hr r' h' => ?_) h
    cases h'
    have hB := r.resetNextSubstream_moved.valid hr.Bg
    exact ⟨hB, hB, hr.Ig⟩
  | advanceState i e c =>
    rw [RngPackage.handle] at h
    refine hS.modify (fun r hr r' h' => ?_) h
    split at h'
    next => cases h'
    next t ht =>
      cases h'
      exact ⟨advanceState_valid hr.Cg ht, hr.Bg, hr.Ig⟩
  | setAntithetic i a =>
    rw [RngPackage.handle] at h
    refine hS.modify (fun r hr r' h' => ?_) h
    cases h'
    exact ⟨hr.Cg, hr.Bg, hr.Ig⟩
  | increasedPrecis i b =>
    rw [RngPackage.handle] at h
    refine hS.modify (fun r hr r' h' => ?_) h
    cases h'
    exact ⟨hr.Cg, hr.Bg, hr.Ig⟩

/-- The next stream starts where the package says, and the package moves on. -/
theorem handle_start {c : RngCall} (hc : ¬ c.Seeds) (h : S.handle c = some (start, T)) :
    (start = none ∧ T.nextSeed = S.nextSeed) ∨
      (start = some S.nextSeed ∧ T.nextSeed = S.init.2.nextSeed) := by
  cases c with
  | create =>
    cases h
    exact .inr ⟨rfl, rfl⟩
  | init i =>
    rw [handle] at h
    obtain ⟨rfl, -, -, -, -, rfl⟩ := modify_cases h
    exact .inr ⟨rfl, rfl⟩
  | setPackageSeed seed => exact absurd trivial hc
  | setSeedLong i seed => exact absurd trivial hc
  | setSeed i seed =>
    rw [handle] at h
    split at h
    next =>
      obtain ⟨rfl, -, -, -, -, rfl⟩ := modify_cases h
      exact .inl ⟨rfl, rfl⟩
    next => cases h
  | u01 | u01d | resetStartStream | resetStartSubstream | resetNextSubstream | advanceState
    | setAntithetic | increasedPrecis =>
    rw [handle] at h
    obtain ⟨rfl, -, -, -, -, rfl⟩ := modify_cases h
    exact .inl ⟨rfl, rfl⟩

/-! ### Runs -/

variable {cs : List RngCall} {starts : List RngState}

theorem run_cons {c : RngCall} (h : S.run (c :: cs) = some (starts, T)) :
    ∃ start S' starts', S.handle c = some (start, S') ∧ S'.run cs = some (starts', T) ∧
      starts = start.toList ++ starts' := by
  rw [run] at h
  split at h
  next => cases h
  next start S' hc =>
    split at h
    next => cases h
    next starts' T' hcs =>
      cases h
      exact ⟨start, S', starts', hc, hcs, rfl⟩

theorem Valid.run (hS : S.Valid) (h : S.run cs = some (starts, T)) : T.Valid := by
  induction cs generalizing S starts with
  | nil =>
    cases h
    exact hS
  | cons c cs ih =>
    obtain ⟨start, S', starts', hc, hcs, -⟩ := run_cons h
    exact ih (hS.handle hc) hcs

/-- The streams of a run start a jump of the package apart. -/
theorem run_starts (hS : S.Valid) (hcs : ∀ c ∈ cs, ¬ c.Seeds) (h : S.run cs = some (starts, T)) :
    starts = List.iterate step^[2 ^ 127] S.nextSeed starts.length := by
  induction cs generalizing S starts with
  | nil =>
    cases h
    rfl
  | cons c cs ih =>
    obtain ⟨start, S', starts', hc, hrun, rfl⟩ := run_cons h
    have htail := ih (hS.handle hc) (fun c hc => hcs c (List.mem_cons_of_mem _ hc)) hrun
    rcases handle_start (hcs c List.mem_cons_self) hc with ⟨rfl, hnext⟩ | ⟨rfl, hnext⟩
    · rw [hnext] at htail
      exact htail
    · rw [hnext, iterate_eq (init_moved S) hS.nextSeed] at htail
      have hcons : (some S.nextSeed).toList ++ starts' = S.nextSeed :: starts' := rfl
      rw [hcons, List.length_cons, List.iterate, ← htail]

end RngPackage

/-! ### The jumps -/

theorem ofSeed_default_valid : (RngState.ofSeed fun _ => 12345).Valid := by
  apply ofSeed_valid
  decide

theorem RngPackage.default_valid : ({} : RngPackage).Valid :=
  ⟨ofSeed_default_valid, fun _ hr => nomatch hr⟩

/-- **Every jump takes the steps asked for**, forward or back, unless its exponent passes the
counter of the squarings.  Substreams and streams start `2^76` and `2^127` steps apart, calls keep
the package valid, and a number drawn lies strictly between zero and one. -/
theorem rng_jumps_iff {s : RngState} (hs : s.Valid) (e c : ℤ) (anti : Bool) {r : RNG} (hr : r.Valid)
    {S T : RngPackage} (hS : S.Valid) {cs : List RngCall} {starts : List RngState}
    (hrun : S.run cs = some (starts, T)) :
    (Advances e c s ↔ e.natAbs ≤ INT_MAX) ∧
      (0 < (s.u01 anti).1 ∧ (s.u01 anti).1 < 1) ∧
      (r.resetNextSubstream.Bg = step^[2 ^ 76] r.Bg ∧
        r.resetNextSubstream.Cg = r.resetNextSubstream.Bg) ∧
      T.Valid ∧
      ((∀ c ∈ cs, ¬ c.Seeds) → starts = List.iterate step^[2 ^ 127] S.nextSeed starts.length) := by
  refine ⟨advances_iff hs, u01_range hs anti, ⟨?_, rfl⟩, hS.run hrun, fun hcs => ?_⟩
  · exact iterate_eq r.resetNextSubstream_moved hr.Bg
  · exact RngPackage.run_starts hS hcs hrun

/-- Two streams of the package, and a jump three steps back from eight. -/
theorem rng_jumps_default :
    Advances 3 (-5) (.ofSeed fun _ => 12345) ∧
      ∃ starts S, ({} : RngPackage).run [.create, .create] = some (starts, S) ∧ S.Valid ∧
        starts = List.iterate step^[2 ^ 127] (.ofSeed fun _ => 12345) 2 := by
  have hs : (RngState.ofSeed fun _ => 12345).Valid := ofSeed_default_valid
  obtain ⟨starts, S, hrun, htwo⟩ : ∃ starts S,
      ({} : RngPackage).run [.create, .create] = some (starts, S) ∧ starts.length = 2 :=
    ⟨_, _, rfl, rfl⟩
  obtain ⟨h, -, -, hS, hstarts⟩ := rng_jumps_iff hs 3 (-5) false
    (RNG.valid_of_seed hs false false) RngPackage.default_valid hrun
  have hspaced := hstarts (by simp [RngCall.Seeds])
  rw [htwo] at hspaced
  exact ⟨h.mpr (by decide), starts, S, hrun, hS, hspaced⟩

/-- With the exponent `2^31` the counter overflows. -/
theorem jump_overflows :
    (RngState.ofSeed fun _ => 12345).Valid ∧
      advanceState (2 ^ 31) 0 (.ofSeed fun _ => 12345) = none ∧
      ¬ Advances (2 ^ 31) 0 (.ofSeed fun _ => 12345) := by
  have hlarge : INT_MAX < (2 ^ 31 : ℤ).natAbs := by decide
  have hnone : advanceState (2 ^ 31) 0 (.ofSeed fun _ => 12345) = none := by
    rw [advanceState, jumpMatrix_eq_none 0 hlarge]
  refine ⟨ofSeed_default_valid, hnone, ?_⟩
  rintro ⟨t, ht, -⟩
  rw [hnone] at ht
  cases ht

end Afabric
