import Mathlib.Order.Interval.Finset.Nat
import Mathlib.Data.Int.ConditionallyCompleteOrder
import Mathlib.Data.Int.SuccPred

/-!
# Support — rings

An array whose cells stand for the positions of a window that moves up the integers: position
`i` is kept in cell `slot i`.  `slot` need not be injective, only so on the window; then a
position of the window reads what was last written at it, whatever the cells outside the window
hold.  `fill` is the loop that writes a run of positions, for clearing them, for marking them
and for copying them into a larger array.
-/

namespace Afabric

namespace Ring

variable {ι α : Type*} [DecidableEq ι] {slot : ℤ → ι} {c : ι → α} {f : ℤ → α} {a b i j lo : ℤ}

/-- Position `i` is written. -/
def write (slot : ℤ → ι) (c : ι → α) (i : ℤ) (x : α) : ι → α := Function.update c (slot i) x

/-- The positions `lo`, …, `lo + n - 1` are written, in this order. -/
def fill (slot : ℤ → ι) (c : ι → α) (f : ℤ → α) (lo : ℤ) : ℕ → ι → α
  | 0 => c
  | n + 1 => write slot (fill slot c f lo n) (lo + n) (f (lo + n))

@[simp] theorem write_self (x : α) : write slot c i x (slot i) = x := by simp [write]

theorem write_of_ne {x : α} {k : ι} (h : k ≠ slot i) : write slot c i x k = c k := by
  simp [write, h]

/-- What a position of the window reads after a write to the window. -/
theorem write_apply {s : Set ℤ} (hinj : Set.InjOn slot s) (hi : i ∈ s) (hj : j ∈ s) (x : α) :
    write slot c i x (slot j) = if j = i then x else c (slot j) := by
  split_ifs with h
  · rw [h, write_self]
  · exact write_of_ne fun he => h (hinj hj hi he)

/-- What a position of the window reads after a run of writes to the window. -/
theorem fill_apply {s : Set ℤ} (hinj : Set.InjOn slot s) {n : ℕ}
    (hrun : ∀ k, lo ≤ k → k < lo + n → k ∈ s) (hj : j ∈ s) :
    fill slot c f lo n (slot j) = if lo ≤ j ∧ j < lo + n then f j else c (slot j) := by
  induction n with
  | zero => rw [fill, if_neg (by omega)]
  | succ n ih =>
      have hn : lo + n ∈ s := hrun _ (by omega) (by omega)
      rw [fill, write_apply hinj hn hj, ih fun k h₁ h₂ => hrun k h₁ (by omega)]
      split_ifs with h₁ h₂ h₃ h₃
      · rw [h₁]
      all_goals first | rfl | omega

/-- Two positions less than `n` apart are in different cells of an array of `n`. -/
theorem emod_injOn {n : ℤ} (h : b - a ≤ n) : Set.InjOn (fun i : ℤ => i % n) (Set.Ico a b) := by
  rintro i ⟨hi₁, hi₂⟩ j ⟨hj₁, hj₂⟩ he
  have hdvd : n ∣ i - j := Int.dvd_of_emod_eq_zero (Int.emod_eq_emod_iff_emod_sub_eq_zero.mp he)
  have := Int.eq_zero_of_abs_lt_dvd hdvd (abs_lt.mpr ⟨by omega, by omega⟩)
  omega

/-- The same with a mask, the length of the array being a power of two. -/
theorem and_injOn {k : ℕ} (ha : 0 ≤ a) (h : b - a ≤ 2 ^ k) :
    Set.InjOn (fun i : ℤ => i.toNat &&& (2 ^ k - 1)) (Set.Ico a b) := by
  rintro i ⟨hi₁, hi₂⟩ j ⟨hj₁, hj₂⟩ he
  simp only [Nat.and_two_pow_sub_one_eq_mod] at he
  have hmem : ∀ l : ℤ, a ≤ l → l < b → l.toNat ∈ Finset.Ico a.toNat (a.toNat + 2 ^ k) := by
    intro l h₁ h₂
    have : ((2 ^ k : ℕ) : ℤ) = 2 ^ k := by push_cast; rfl
    rw [Finset.mem_Ico]
    omega
  have := Nat.mod_injOn_Ico a.toNat (2 ^ k) (hmem i hi₁ hi₂) (hmem j hj₁ hj₂) he
  omega

end Ring

end Afabric
