import Mathlib.Data.Nat.ModEq
import Mathlib.Tactic.FieldSimp
import Mathlib.Tactic.Linarith

/-!
# Support — `std::minstd_rand0`

The linear congruential engine of the C++ standard library with the multiplier 16807 and the
modulus `2 ^ 31 - 1`, and `std::generate_canonical` over it for the 53 bits of a `double`, which
draws twice.  A number that is drawn determines the state it was drawn from
(`generateCanonical_inj`).  The numbers are exact.
-/

namespace Minstd

def modulus : Nat := 2147483647

/-- The state for a seed; zero, from which the engine would not move, becomes one. -/
def seed (s : Nat) : Nat := if s % modulus = 0 then 1 else s % modulus

/-- The next state, which is also the number drawn. -/
def next (x : Nat) : Nat := 16807 * x % modulus

/-- A number in `[0, 1)` from two draws, and the state after them.  The range of the draws is
`1 .. modulus - 1`. -/
def generateCanonical (x : Nat) : ℚ × Nat :=
  let g₀ := next x
  let g₁ := next g₀
  ((((g₀ - 1) + (g₁ - 1) * (modulus - 1) : Nat) : ℚ) / ((modulus - 1 : Nat) ^ 2 : Nat), g₁)

/-- The states that the engine has. -/
def Valid (x : Nat) : Prop := 0 < x ∧ x < modulus

theorem seed_valid (s : Nat) : Valid (seed s) := by
  have hlt : s % modulus < modulus := Nat.mod_lt s (by decide)
  unfold seed
  split
  · exact ⟨Nat.one_pos, by decide⟩
  · exact ⟨by omega, hlt⟩

theorem seed_eq_iff (s t : Nat) :
    seed s = seed t ↔ s % modulus = t % modulus ∨ s % modulus ≤ 1 ∧ t % modulus ≤ 1 := by
  unfold seed
  split <;> split <;> omega

theorem coprime : Nat.Coprime modulus 16807 := by decide +kernel

theorem next_valid {x : Nat} (h : Valid x) : Valid (next x) := by
  refine ⟨Nat.pos_of_ne_zero fun h₀ => ?_, Nat.mod_lt _ (by decide)⟩
  have hdvd : modulus ∣ x := coprime.dvd_of_dvd_mul_left (Nat.dvd_of_mod_eq_zero h₀)
  exact absurd (Nat.le_of_dvd h.1 hdvd) (Nat.not_le.mpr h.2)

theorem next_inj {x y : Nat} (hx : Valid x) (hy : Valid y) (h : next x = next y) : x = y := by
  have hmod : x ≡ y [MOD modulus] := Nat.ModEq.cancel_left_of_coprime coprime h
  exact Nat.ModEq.eq_of_lt_of_lt hmod hx.2 hy.2

theorem generateCanonical_inj {x y : Nat} (hx : Valid x) (hy : Valid y)
    (h : (generateCanonical x).1 = (generateCanonical y).1) : x = y := by
  have hpos : (((modulus - 1) ^ 2 : Nat) : ℚ) ≠ 0 := by
    exact_mod_cast (by decide +kernel : (modulus - 1) ^ 2 ≠ 0)
  have hnum : ((next x - 1) + (next (next x) - 1) * (modulus - 1) : Nat)
      = (next y - 1) + (next (next y) - 1) * (modulus - 1) := by
    have := (div_left_inj' hpos).mp h
    exact_mod_cast this
  -- the first draws are the low digits
  obtain ⟨hx₀, hx₁⟩ := next_valid hx
  obtain ⟨hy₀, hy₁⟩ := next_valid hy
  have hlow : next x - 1 = next y - 1 := by
    have hm := congrArg (· % (modulus - 1)) hnum
    simp only [Nat.add_mul_mod_self_right] at hm
    rwa [Nat.mod_eq_of_lt (by omega), Nat.mod_eq_of_lt (by omega)] at hm
  exact next_inj hx hy (by omega)

end Minstd
