import Mathlib.MeasureTheory.Integral.IntervalIntegral.Basic

/-!
# Support — integrals over adjacent intervals

A function with its integral, so that an integral that is not defined is not taken for zero, and the
integral of a line that is rounded up.
-/

namespace Afabric

open MeasureTheory Set

/-- `f` is integrable from `a` to `b`, and this is its integral. -/
structure IntegratesTo (f : ℝ → ℝ) (a b c : ℝ) : Prop where
  integrable : IntervalIntegrable f volume a b
  integral : ∫ u in a..b, f u = c

namespace IntegratesTo

variable {f g : ℝ → ℝ} {a b c d e : ℝ}

theorem unique (h : IntegratesTo f a b c) (h' : IntegratesTo f a b d) : c = d :=
  h.integral.symm.trans h'.integral

/-- A function with no values between `a` and `a`. -/
theorem refl (f : ℝ → ℝ) (a : ℝ) : IntegratesTo f a a 0 :=
  ⟨IntervalIntegrable.refl, intervalIntegral.integral_same⟩

theorem const (a b k : ℝ) : IntegratesTo (fun _ => k) a b ((b - a) * k) :=
  ⟨intervalIntegrable_const, by rw [intervalIntegral.integral_const, smul_eq_mul]⟩

/-- Only the values in between count. -/
theorem congr (hab : a ≤ b) (hfg : ∀ u ∈ Ioo a b, f u = g u) (h : IntegratesTo f a b c) :
    IntegratesTo g a b c := by
  have hfg' : EqOn f g (Ioo a b) := hfg
  refine ⟨h.integrable.congr_uIoo (by rwa [uIoo_of_le hab]), ?_⟩
  rw [← intervalIntegral.integral_congr_Ioo_of_le hab hfg']
  exact h.integral

theorem trans (h : IntegratesTo f a b c) (h' : IntegratesTo f b d e) :
    IntegratesTo f a d (c + e) :=
  ⟨h.integrable.trans h'.integrable, by
    rw [← intervalIntegral.integral_add_adjacent_intervals h.integrable h'.integrable, h.integral,
      h'.integral]⟩

/-! ### A line that is rounded up -/

/-- Between two integers the ceiling is the upper one. -/
theorem ceil_unit (k : ℕ) : IntegratesTo (fun t => (⌈t⌉ : ℝ)) k (k + 1 : ℕ) (k + 1) := by
  have hle : (k : ℝ) ≤ (k + 1 : ℕ) := by
    push_cast
    linarith
  refine congr hle (fun t ht => ?_) (c := k + 1) (f := fun _ => (k + 1 : ℝ)) ?_
  · rw [mem_Ioo] at ht
    have hc : ⌈t⌉ = (k : ℤ) + 1 := by
      rw [Int.ceil_eq_iff]
      push_cast at ht ⊢
      constructor
      · linarith [ht.1]
      · exact ht.2.le
    rw [hc]
    push_cast
    rfl
  · have h := const k (k + 1 : ℕ) (k + 1 : ℝ)
    push_cast at h ⊢
    rwa [show ((k : ℝ) + 1 - k) * (k + 1) = k + 1 by ring] at h

theorem ceil (m : ℕ) : IntegratesTo (fun t => (⌈t⌉ : ℝ)) 0 m (m * (m + 1) / 2) := by
  induction m with
  | zero =>
    have h := refl (fun t => (⌈t⌉ : ℝ)) 0
    simpa using h
  | succ m ih =>
    have h := ih.trans (ceil_unit m)
    rw [show (m * (m + 1) / 2 + (m + 1) : ℝ) = (m + 1 : ℕ) * ((m + 1 : ℕ) + 1) / 2 by
      push_cast
      ring] at h
    exact h

/-- From `y` up by `m` on the way from `x₁` to `x₂`. -/
theorem ceil_line {x₁ x₂ : ℝ} (hx : x₁ < x₂) (y : ℤ) {m : ℕ} (hm : 0 < m) :
    IntegratesTo (fun u => (⌈(y : ℝ) + (u - x₁) * m / (x₂ - x₁)⌉ : ℝ)) x₁ x₂
      ((x₂ - x₁) * (y + (m + 1) / 2)) := by
  have hd : 0 < x₂ - x₁ := sub_pos.mpr hx
  have hm' : (0 : ℝ) < m := Nat.cast_pos.mpr hm
  have hslope : (m : ℝ) / (x₂ - x₁) ≠ 0 := (div_pos hm' hd).ne'
  -- the line measured from its start, in units of its slope
  have hline : ∀ u, (⌈(y : ℝ) + (u - x₁) * m / (x₂ - x₁)⌉ : ℝ) =
      y + ⌈m / (x₂ - x₁) * u - m / (x₂ - x₁) * x₁⌉ := fun u => by
    rw [Int.ceil_intCast_add, Int.cast_add]
    congr 3
    ring
  have hmono : Monotone fun u : ℝ => (⌈m / (x₂ - x₁) * u - m / (x₂ - x₁) * x₁⌉ : ℝ) := by
    intro u v huv
    have hmul := mul_le_mul_of_nonneg_left huv (div_pos hm' hd).le
    exact Int.cast_le.mpr (Int.ceil_le_ceil (by linarith))
  simp only [hline]
  refine ⟨intervalIntegrable_const.add hmono.intervalIntegrable, ?_⟩
  rw [intervalIntegral.integral_add intervalIntegrable_const hmono.intervalIntegrable,
    (const x₁ x₂ y).integral,
    intervalIntegral.integral_comp_mul_sub (fun t => (⌈t⌉ : ℝ)) hslope, sub_self, ← mul_sub,
    div_mul_cancel₀ _ hd.ne', (ceil m).integral, smul_eq_mul]
  field_simp

end IntegratesTo

end Afabric
