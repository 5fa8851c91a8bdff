import Afabric.Support.Windows
import Mathlib.Algebra.BigOperators.Ring.Finset
import Mathlib.Data.Nat.Bitwise

/-!
# Queue — the weight spread sequence

`queue/wss.h`: a sequence of 2¹⁶ - 1 terms, of which the first 2ⁿ - 1 are the sequence of order `n`.
The term at a position is one more than the number of times that 2 divides the position.  A weight
matrix of `n` columns is scanned in the order of the sequence, at a term `t` in column `n - t`, and
so in a period as often at the columns of the bits of a weight as the weight says (`sum_spread`).
-/

namespace Afabric

open Finset

/-- `rawScan(i, j, j + n)`. -/
def rawScanFrom (i : ℕ) : ℕ → ℕ → ℕ
  | 0, j => j
  | n + 1, j => if i % 2 ^ j ≠ 0 then j else rawScanFrom i n (j + 1)

def rawScan (i j N : ℕ) : ℕ := rawScanFrom i (N - j) j

/-- `MAXWSSORDER`. -/
def maxWssOrder : ℕ := 16

/-- `pwss[ptr]`. -/
def pwss (ptr : ℕ) : ℕ := rawScan (ptr + 1) 1 maxWssOrder

/-- `WSS::get`, which exits if the pointer is too large. -/
def wssGet (order ptr : ℕ) : Option ℕ := if 2 ^ order < ptr + 2 then none else some (pwss ptr)

/-- `WSS::inc_ptr`. -/
def wssInc (order ptr : ℕ) : ℕ := if 2 ^ order < ptr + 1 + 2 then 0 else ptr + 1

/-- The number of terms of a sequence of an order. -/
def wssItems (order : ℕ) : ℕ := 2 ^ order - 1

variable {i j k m n p w : ℕ}

/-! ### The terms -/

/-- A scan of more powers of two finds the same one. -/
theorem rawScanFrom_add (hi : 0 < i) (hlt : i < 2 ^ (j + n)) (k : ℕ) :
    rawScanFrom i (n + k) j = rawScanFrom i n j := by
  induction n generalizing j with
  | zero =>
      cases k with
      | zero => rfl
      | succ k =>
          have hmod : i % 2 ^ j = i := Nat.mod_eq_of_lt hlt
          rw [Nat.zero_add, rawScanFrom, rawScanFrom, hmod, if_pos hi.ne']
  | succ n ih =>
      rw [Nat.succ_add, rawScanFrom, rawScanFrom]
      split_ifs
      · rfl
      · exact ih (by rwa [Nat.succ_add_eq_add_succ])

theorem rawScanFrom_two_mul : rawScanFrom (2 * i) n (j + 1) = rawScanFrom i n j + 1 := by
  induction n generalizing j with
  | zero => rfl
  | succ n ih =>
      have hmod : 2 * i % 2 ^ (j + 1) = 2 * (i % 2 ^ j) := by rw [pow_succ', Nat.mul_mod_mul_left]
      rw [rawScanFrom, rawScanFrom, hmod]
      by_cases h : i % 2 ^ j = 0
      · rw [h, Nat.mul_zero, if_neg (not_not.mpr rfl), if_neg (not_not.mpr rfl), ih]
      · rw [if_pos (Nat.mul_ne_zero two_ne_zero h), if_pos h]

/-- The terms of the sequence of an order are found within the order. -/
theorem pwss_eq (hn : n < maxWssOrder) (hp : p < wssItems (n + 1)) :
    pwss p = rawScanFrom (p + 1) n 1 := by
  obtain ⟨k, hk⟩ := Nat.exists_eq_add_of_lt hn
  have hlt : p + 1 < 2 ^ (1 + n) := by
    rw [wssItems, Nat.lt_sub_iff_add_lt] at hp
    rwa [Nat.add_comm 1 n]
  rw [pwss, rawScan, hk, Nat.add_sub_cancel, rawScanFrom_add (Nat.succ_pos p) hlt]

/-- Every other term is the first. -/
theorem pwss_two_mul (hi : 2 * i < wssItems (n + 1)) (hn : n < maxWssOrder) : pwss (2 * i) = 1 := by
  rw [pwss_eq hn hi]
  cases n with
  | zero => rfl
  | succ n =>
      rw [rawScanFrom, if_pos]
      omega

/-! ### The columns -/

/-- The column of a matrix of `n` columns that is scanned at a term. -/
def wssColumn (n p : ℕ) : ℕ := n - pwss p

theorem wssColumn_two_mul (hi : 2 * i < wssItems (n + 1)) (hn : n < maxWssOrder) :
    wssColumn (n + 1) (2 * i) = n := by
  rw [wssColumn, pwss_two_mul hi hn, Nat.add_sub_cancel]

/-- The terms between are those of the sequence of the order below, at the same columns. -/
theorem wssColumn_two_mul_add_one (hn : n < maxWssOrder) (hp : p < wssItems n) :
    wssColumn (n + 1) (2 * p + 1) = wssColumn n p := by
  cases n with
  | zero => exact absurd hp (Nat.not_lt_zero p)
  | succ n =>
      have hp' : 2 * p + 1 < wssItems (n + 1 + 1) := by
        rw [wssItems] at hp ⊢
        rw [pow_succ]
        omega
      have htwo : 2 * p + 1 + 1 = 2 * (p + 1) := rfl
      rw [wssColumn, wssColumn, pwss_eq hn hp', pwss_eq (Nat.lt_of_succ_lt hn) hp, htwo, rawScanFrom,
        if_neg (by simp), rawScanFrom_two_mul, Nat.add_sub_add_right]

/-- **A weight is spread over a period.** -/
theorem sum_spread (hn : n ≤ maxWssOrder) (w : ℕ) :
    ∑ p ∈ range (wssItems n), (if w.testBit (wssColumn n p) then 1 else 0) = w % 2 ^ n := by
  induction n with
  | zero => rw [pow_zero, Nat.mod_one]; rfl
  | succ n ih =>
      have hpow : 0 < 2 ^ n := Nat.two_pow_pos n
      have hitems : wssItems (n + 1) = 2 * (wssItems n) + 1 := by
        rw [wssItems, wssItems, pow_succ]
        omega
      have hodd : ∀ i ∈ range (wssItems n + 1), wssColumn (n + 1) (2 * i) = n := by
        intro i hi
        refine wssColumn_two_mul ?_ hn
        rw [hitems]
        have := mem_range.mp hi
        omega
      have heven : ∀ i ∈ range (wssItems n), wssColumn (n + 1) (2 * i + 1) = wssColumn n i :=
        fun i hi => wssColumn_two_mul_add_one hn (mem_range.mp hi)
      have hlow : ∑ i ∈ range (wssItems n),
          (if w.testBit (wssColumn (n + 1) (2 * i + 1)) then 1 else 0) = w % 2 ^ n := by
        rw [← ih (Nat.le_of_succ_le hn)]
        exact sum_congr rfl fun i hi => by rw [heven i hi]
      have hhigh : ∑ i ∈ range (wssItems n + 1),
          (if w.testBit (wssColumn (n + 1) (2 * i)) then 1 else 0) =
            2 ^ n * (w / 2 ^ n % 2) := by
        rw [sum_congr rfl fun i hi => by rw [hodd i hi], sum_const, card_range, nsmul_eq_mul, Nat.cast_id,
          wssItems, Nat.sub_add_cancel hpow, Nat.testBit_eq_decide_div_mod_eq]
        rcases Nat.mod_two_eq_zero_or_one (w / 2 ^ n) with h | h <;> simp [h]
      rw [hitems, sum_range_even_odd, hlow, hhigh, pow_succ, Nat.mod_mul, Nat.add_comm]

end Afabric
