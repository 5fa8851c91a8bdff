import Mathlib.Data.ZMod.Basic
import Mathlib.LinearAlgebra.Matrix.Notation

/-!
# Support — powers of a 3 × 3 matrix modulo a number

`Matrix3` holds the entries of a matrix as numbers, so that `squares`, which squares it over and
over modulo `m`, can be evaluated.  It computes the powers of the matrix over `ZMod m`
(`toMatrix_squares`).
-/

namespace Afabric

structure Matrix3 where
  a₀₀ : ℕ
  a₀₁ : ℕ
  a₀₂ : ℕ
  a₁₀ : ℕ
  a₁₁ : ℕ
  a₁₂ : ℕ
  a₂₀ : ℕ
  a₂₁ : ℕ
  a₂₂ : ℕ
deriving DecidableEq

namespace Matrix3

variable {m : ℕ}

def toMatrix (m : ℕ) (A : Matrix3) : Matrix (Fin 3) (Fin 3) (ZMod m) :=
  !![(A.a₀₀ : ZMod m), A.a₀₁, A.a₀₂; A.a₁₀, A.a₁₁, A.a₁₂; A.a₂₀, A.a₂₁, A.a₂₂]

/-- The square modulo `m`. -/
def square (m : ℕ) (A : Matrix3) : Matrix3 where
  a₀₀ := (A.a₀₀ * A.a₀₀ + A.a₀₁ * A.a₁₀ + A.a₀₂ * A.a₂₀) % m
  a₀₁ := (A.a₀₀ * A.a₀₁ + A.a₀₁ * A.a₁₁ + A.a₀₂ * A.a₂₁) % m
  a₀₂ := (A.a₀₀ * A.a₀₂ + A.a₀₁ * A.a₁₂ + A.a₀₂ * A.a₂₂) % m
  a₁₀ := (A.a₁₀ * A.a₀₀ + A.a₁₁ * A.a₁₀ + A.a₁₂ * A.a₂₀) % m
  a₁₁ := (A.a₁₀ * A.a₀₁ + A.a₁₁ * A.a₁₁ + A.a₁₂ * A.a₂₁) % m
  a₁₂ := (A.a₁₀ * A.a₀₂ + A.a₁₁ * A.a₁₂ + A.a₁₂ * A.a₂₂) % m
  a₂₀ := (A.a₂₀ * A.a₀₀ + A.a₂₁ * A.a₁₀ + A.a₂₂ * A.a₂₀) % m
  a₂₁ := (A.a₂₀ * A.a₀₁ + A.a₂₁ * A.a₁₁ + A.a₂₂ * A.a₂₁) % m
  a₂₂ := (A.a₂₀ * A.a₀₂ + A.a₂₁ * A.a₁₂ + A.a₂₂ * A.a₂₂) % m

def squares (m : ℕ) : ℕ → Matrix3 → Matrix3
  | 0, A => A
  | k + 1, A => squares m k (square m A)

theorem toMatrix_square (A : Matrix3) : (square m A).toMatrix m = A.toMatrix m ^ 2 := by
  rw [pow_two]
  ext i j
  fin_cases i <;> fin_cases j <;>
    simp [toMatrix, square, Matrix.mul_apply, Fin.sum_univ_three, ZMod.natCast_mod]

theorem toMatrix_squares (k : ℕ) (A : Matrix3) :
    (squares m k A).toMatrix m = A.toMatrix m ^ 2 ^ k := by
  induction k generalizing A with
  | zero => simp [squares]
  | succ k ih => rw [squares, ih, toMatrix_square, ← pow_mul, pow_succ']

end Matrix3

end Afabric
