import Mathlib.Algebra.Order.Ring.Int
import Mathlib.Data.List.TakeWhile

/-!
# Support — decimal text

The conversion of decimal text to an `int` by `atoi`, which reads digits up to another character
and does not say whether they fit, and the pieces between the separators of a text.  A C string is
the list of its characters.  Joined pieces come apart again (`pieces_intercalate`), and `atoi` reads
back what `%d` writes (`atoi_toDigits`).
-/

namespace Afabric

/-- `isspace`. -/
def isSpace (c : Char) : Bool := c = ' ' ∨ 9 ≤ c.toNat ∧ c.toNat ≤ 13

/-- The number that the digits at the front of a text denote. -/
def digitsValue (s : List Char) : ℕ := Nat.ofDigitChars 10 (s.takeWhile Char.isDigit) 0

def signedValue : List Char → ℤ
  | '-' :: s => -(digitsValue s : ℤ)
  | '+' :: s => digitsValue s
  | s => digitsValue s

/-- `(int) strtol(s, NULL, 10)`: what does not fit a `long` becomes its largest or smallest value,
and an `int` keeps the low half. -/
def atoi (s : List Char) : ℤ :=
  (max (-2 ^ 63) (min (2 ^ 63 - 1) (signedValue (s.dropWhile isSpace)))).bmod (2 ^ 32)

/-- `%d`. -/
def decimal (z : ℤ) : List Char :=
  if z < 0 then '-' :: Nat.toDigits 10 z.natAbs else Nat.toDigits 10 z.natAbs

theorem digitsValue_toDigits (n : ℕ) : digitsValue (Nat.toDigits 10 n) = n := by
  have hall : (Nat.toDigits 10 n).takeWhile Char.isDigit = Nat.toDigits 10 n := by
    rw [List.takeWhile_eq_self_iff]
    exact fun c hc => Nat.isDigit_of_mem_toDigits (by decide) (by decide) hc
  rw [digitsValue, hall, Nat.ofDigitChars_toDigits (by decide) (by decide)]

theorem not_isSpace_of_isDigit {c : Char} (h : c.isDigit = true) : isSpace c = false := by
  have h1 : 48 ≤ c.toNat ∧ c.toNat ≤ 57 := Char.isDigit_iff_toNat.mp h
  have h2 : c ≠ ' ' := by
    rintro rfl
    exact absurd h1 (by decide)
  simp only [isSpace, h2, false_or, decide_eq_false_iff_not]
  omega

/-- What `%d` writes, `atoi` reads. -/
theorem atoi_toDigits {n : ℕ} (h : n < 2 ^ 31) : atoi (Nat.toDigits 10 n) = n := by
  have hdig : ∀ c ∈ Nat.toDigits 10 n, c.isDigit = true := fun c hc =>
    Nat.isDigit_of_mem_toDigits (by decide) (by decide) hc
  have hdrop : (Nat.toDigits 10 n).dropWhile isSpace = Nat.toDigits 10 n := by
    cases hs : Nat.toDigits 10 n with
    | nil => rfl
    | cons c s =>
      have hc := not_isSpace_of_isDigit (hdig c (hs ▸ List.mem_cons_self))
      exact List.dropWhile_cons_of_neg (by rw [hc]; decide)
  have hval : signedValue (Nat.toDigits 10 n) = n := by
    rw [signedValue, digitsValue_toDigits]
    · rintro s hs
      exact absurd (hdig '-' (hs ▸ List.mem_cons_self)) (by decide)
    · rintro s hs
      exact absurd (hdig '+' (hs ▸ List.mem_cons_self)) (by decide)
  have hclamp : max (-2 ^ 63) (min (2 ^ 63 - 1) (n : ℤ)) = n := by omega
  rw [atoi, hdrop, hval, hclamp]
  exact Int.bmod_eq_of_le_mul_two (by omega) (by omega)

section Pieces

variable {α : Type*} [DecidableEq α]

/-- The pieces of a text between separators, after the front `cur` of the first one; nothing after
the last separator is no piece. -/
def piecesFrom (sep : α) (cur : List α) : List α → List (List α)
  | [] => if cur = [] then [] else [cur]
  | c :: s => if c = sep then cur :: piecesFrom sep [] s else piecesFrom sep (cur ++ [c]) s

def pieces (sep : α) (s : List α) : List (List α) := piecesFrom sep [] s

variable {sep : α} {p s : List α}

theorem piecesFrom_append (hp : sep ∉ p) (cur : List α) :
    piecesFrom sep cur (p ++ s) = piecesFrom sep (cur ++ p) s := by
  induction p generalizing cur with
  | nil => rw [List.nil_append, List.append_nil]
  | cons c p ih =>
    have hc : c ≠ sep := fun h => hp (h ▸ List.mem_cons_self)
    rw [List.cons_append, piecesFrom, if_neg hc, ih fun h => hp (List.mem_cons_of_mem c h),
      List.append_assoc, List.singleton_append]

/-- Joined pieces come apart again. -/
theorem pieces_intercalate {ps : List (List α)} (h : ∀ p ∈ ps, p ≠ [] ∧ sep ∉ p) :
    pieces sep ([sep].intercalate ps) = ps := by
  induction ps with
  | nil => rfl
  | cons p ps ih =>
    obtain ⟨hne, hp⟩ := h p List.mem_cons_self
    have ih := ih fun q hq => h q (List.mem_cons_of_mem p hq)
    cases ps with
    | nil =>
      rw [List.intercalate_singleton, pieces, ← List.append_nil p, piecesFrom_append hp]
      simp [piecesFrom, hne]
    | cons q ps =>
      rw [List.intercalate_cons_cons, List.append_assoc, List.singleton_append, pieces,
        piecesFrom_append hp, piecesFrom, if_pos rfl]
      exact congrArg _ ih

end Pieces

end Afabric
