import Mathlib.Algebra.BigOperators.Intervals
import Mathlib.Algebra.Order.Ring.Int
import Mathlib.Tactic.Abel
import Mathlib.Tactic.Ring

/-!
# Support — sums over a range

The sum of a periodic function over a period does not depend on where the period starts
(`sum_window`), and a sum over the first odd number of arguments is taken over the even and the odd
ones apart.  `sum_update` is the sum when one entry of an array changes.
-/

namespace Afabric

open Finset

variable {M : Type*} [AddCommMonoid M]

/-- The even arguments and the odd ones. -/
theorem sum_range_even_odd (f : ℕ → M) (m : ℕ) :
    ∑ i ∈ range (2 * m + 1), f i =
      ∑ i ∈ range (m + 1), f (2 * i) + ∑ i ∈ range m, f (2 * i + 1) := by
  induction m with
  | zero => simp
  | succ m ih =>
      have h : 2 * m + 1 + 1 = 2 * (m + 1) := rfl
      rw [Nat.mul_succ, sum_range_succ, sum_range_succ, ih,
        sum_range_succ (fun i => f (2 * i)) (m + 1), sum_range_succ (fun i => f (2 * i + 1)) m, h]
      abel

/-- A period may start anywhere. -/
theorem sum_window {f : ℕ → M} {n : ℕ} (hf : ∀ i, f (i + n) = f i) (t : ℕ) :
    ∑ i ∈ range n, f (t + i) = ∑ i ∈ range n, f i := by
  induction t with
  | zero => simp
  | succ t ih =>
      rw [← ih]
      cases n with
      | zero => rfl
      | succ n =>
          rw [sum_range_succ, sum_range_succ' (fun i => f (t + i)), add_zero, Nat.succ_add_eq_add_succ,
            ← Nat.succ_eq_add_one, hf t]
          congr 1
          exact sum_congr rfl fun i _ => by rw [Nat.succ_add_eq_add_succ]

/-- A sum over an array when one of its entries changes. -/
theorem sum_update {α : Type*} {n x : ℕ} (hx : x < n) (f : α → ℤ) (m : ℕ → α) (b : α) :
    ∑ i ∈ range n, f (Function.update m x b i) = (∑ i ∈ range n, f (m i)) + (f b - f (m x)) := by
  have hmem : x ∈ range n := mem_range.mpr hx
  have hrest : ∑ i ∈ (range n).erase x, f (Function.update m x b i) =
      ∑ i ∈ (range n).erase x, f (m i) := by
    refine sum_congr rfl fun i hi => ?_
    rw [Function.update_of_ne (ne_of_mem_erase hi)]
  rw [← add_sum_erase _ _ hmem, ← add_sum_erase _ _ hmem, hrest, Function.update_self]
  ring

end Afabric
