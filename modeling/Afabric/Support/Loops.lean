import Mathlib.Algebra.Order.Ring.Nat
import Mathlib.Data.List.Range

/-!
# Support — counted loops

`loop lo hi body` runs `body` for `i = lo`, …, `hi - 1` on a state.  What its rounds keep, it keeps
(`loop_induct`); a loop that only writes cells of an array writes each of them (`loop_update`).
`doubled` is the size to which a table grows.
-/

namespace Afabric

variable {σ ι α : Type*}

/-- `for (i = lo; i < hi; i++) body`. -/
def loop (lo hi : ℕ) (body : ℕ → σ → σ) (s : σ) : σ :=
  (List.range' lo (hi - lo)).foldl (fun s i => body i s) s

variable {lo hi : ℕ} {body : ℕ → σ → σ} {s : σ}

theorem loop_self : loop lo lo body s = s := by simp [loop]

theorem loop_succ (h : lo ≤ hi) : loop lo (hi + 1) body s = body hi (loop lo hi body s) := by
  rw [loop, Nat.succ_sub h, List.range'_concat, List.foldl_append]
  simp [loop, Nat.add_sub_cancel' h]

/-- An assertion about the rounds so far, kept by each round. -/
theorem loop_induct (P : ℕ → σ → Prop) (hle : lo ≤ hi) (h₀ : P lo s)
    (hstep : ∀ i s, lo ≤ i → i < hi → P i s → P (i + 1) (body i s)) :
    P hi (loop lo hi body s) := by
  induction hi, hle using Nat.le_induction with
  | base => rwa [loop_self]
  | succ hi hle ih =>
      rw [loop_succ hle]
      exact hstep hi _ hle (Nat.lt_succ_self hi)
        (ih fun i s h₁ h₂ => hstep i s h₁ (Nat.lt_succ_of_lt h₂))

/-- An assertion that every round keeps. -/
theorem loop_invariant (P : σ → Prop) (h₀ : P s)
    (hstep : ∀ i s, lo ≤ i → i < hi → P s → P (body i s)) : P (loop lo hi body s) := by
  rcases le_total lo hi with h | h
  · exact loop_induct (fun _ => P) h h₀ hstep
  · rw [loop, Nat.sub_eq_zero_of_le h]
    exact h₀

/-- The same over the integers. -/
def intLoop (lo hi : ℤ) (body : ℤ → σ → σ) (s : σ) : σ :=
  loop 0 (hi - lo).toNat (fun k => body (lo + k)) s

theorem intLoop_induct {lo hi : ℤ} (body : ℤ → σ → σ) (P : ℤ → σ → Prop) (hle : lo ≤ hi)
    (h₀ : P lo s) (hstep : ∀ i s, lo ≤ i → i < hi → P i s → P (i + 1) (body i s)) :
    P hi (intLoop lo hi body s) := by
  have hrun : P (lo + ((hi - lo).toNat : ℤ)) (intLoop lo hi body s) := by
    refine loop_induct (fun (k : ℕ) s => P (lo + k) s) (Nat.zero_le _) (by simpa using h₀) ?_
    intro k s _ hk hP
    have hnext := hstep (lo + k) s (by omega) (by omega) hP
    push_cast
    rwa [← add_assoc]
  rwa [Int.toNat_of_nonneg (by omega), add_sub_cancel] at hrun

theorem intLoop_of_le {lo hi : ℤ} {body : ℤ → σ → σ} (h : hi ≤ lo) : intLoop lo hi body s = s := by
  rw [intLoop, Int.toNat_of_nonpos (by omega), loop_self]

section Update

variable [DecidableEq ι] {cell : ℕ → ι} {val : ℕ → α} {a : ι → α}

theorem loop_update_of_notMem {x : ι} (hx : ∀ i, lo ≤ i → i < hi → x ≠ cell i) :
    loop lo hi (fun i a => Function.update a (cell i) (val i)) a x = a x := by
  refine loop_invariant (fun b : ι → α => b x = a x) rfl fun i b h₁ h₂ hb => ?_
  rw [Function.update_of_ne (hx i h₁ h₂), hb]

/-- A loop over distinct cells leaves in each what it wrote there. -/
theorem loop_update (hinj : ∀ i j, lo ≤ i → i < hi → lo ≤ j → j < hi → cell i = cell j → i = j)
    {i : ℕ} (h₁ : lo ≤ i) (h₂ : i < hi) :
    loop lo hi (fun i a => Function.update a (cell i) (val i)) a (cell i) = val i := by
  have hle : lo ≤ hi := h₁.trans h₂.le
  refine loop_induct (fun n (b : ι → α) => i < n → b (cell i) = val i) hle (fun h => absurd h h₁.not_gt)
    (fun j b hj₁ hj₂ hb hi => ?_) h₂
  by_cases hij : i = j
  · rw [hij, Function.update_self]
  · have hne : cell i ≠ cell j := fun he => hij (hinj i j h₁ h₂ hj₁ hj₂ he)
    rw [Function.update_of_ne hne, hb (lt_of_le_of_ne (Nat.le_of_lt_succ hi) hij)]

end Update

/-! ### Doubling -/

/-- `while (m <= n) m <<= 1`, at most as many times as the first argument says. -/
def doubled (n : ℕ) : ℕ → ℕ → ℕ
  | 0, m => m
  | fuel + 1, m => if m ≤ n then doubled n fuel (2 * m) else m

theorem le_doubled (n fuel m : ℕ) : m ≤ doubled n fuel m := by
  induction fuel generalizing m with
  | zero => exact le_rfl
  | succ fuel ih =>
      rw [doubled]
      split_ifs
      · exact (Nat.le_mul_of_pos_left m Nat.two_pos).trans (ih (2 * m))
      · exact le_rfl

theorem lt_doubled {n fuel m : ℕ} (h : n < 2 ^ fuel * m) : n < doubled n fuel m := by
  induction fuel generalizing m with
  | zero => rwa [pow_zero, one_mul] at h
  | succ fuel ih =>
      rw [doubled]
      split_ifs with hm
      · refine ih ?_
        rwa [← mul_assoc, ← pow_succ]
      · exact not_le.mp hm

end Afabric
