import Mathlib.Tactic.Common

/-!
# Support — buffers

A `Buffer` is an array that `new[]` returns: `size` cells, with arbitrary contents at first.  An
access outside the array has no result, and neither has a `memset` or a `memcpy` that reaches
outside it.  A buffer of bytes is also an array of bits, eight in a byte: `bit_assign` is what a
byte that is written does to them.
-/

namespace Afabric

variable {α : Type*}

structure Buffer (α : Type*) where
  size : ℕ
  get : ℕ → α

namespace Buffer

def read (b : Buffer α) (i : ℕ) : Option α := if i < b.size then some (b.get i) else none

/-- The cell `i` is set to `a`. -/
def assign (b : Buffer α) (i : ℕ) (a : α) : Buffer α := { b with get := Function.update b.get i a }

def write (b : Buffer α) (i : ℕ) (a : α) : Option (Buffer α) :=
  if i < b.size then some (b.assign i a) else none

/-- `memset(b + start, a, len)`. -/
def memset (b : Buffer α) (start : ℕ) (a : α) (len : ℕ) : Option (Buffer α) :=
  if start + len ≤ b.size then
    some { b with get := fun i => if start ≤ i ∧ i < start + len then a else b.get i }
  else none

/-- `memcpy(dst, src, len)`. -/
def memcpy (dst src : Buffer α) (len : ℕ) : Option (Buffer α) :=
  if len ≤ dst.size ∧ len ≤ src.size then
    some { dst with get := fun i => if i < len then src.get i else dst.get i }
  else none

variable {b : Buffer α} {i : ℕ} {a : α}

theorem read_of_lt (h : i < b.size) : b.read i = some (b.get i) := if_pos h

theorem write_of_lt (h : i < b.size) : b.write i a = some (b.assign i a) := if_pos h

/-! ### Bits -/

variable {c : BitVec 8} {k : ℕ}

theorem and_mask_ne_zero (hk : k < 8) : c &&& 1#8 <<< k ≠ 0#8 ↔ c.getLsbD k = true := by
  rw [← BitVec.twoPow_eq, BitVec.and_twoPow]
  by_cases hc : c.getLsbD k = true
  · refine iff_of_true ?_ hc
    rw [if_pos hc]
    intro h0
    have hbit := congrArg (fun x : BitVec 8 => x.getLsbD k) h0
    simp [hk] at hbit
  · refine iff_of_false ?_ hc
    rw [if_neg hc]
    exact not_not.mpr rfl

theorem or_mask (hk : k < 8) (j : ℕ) :
    (c ||| 1#8 <<< k).getLsbD j = if j = k then true else c.getLsbD j := by
  rw [← BitVec.twoPow_eq, BitVec.getLsbD_or, BitVec.getLsbD_twoPow]
  by_cases hj : j = k
  · simp [hj, hk]
  · simp [hj, Ne.symm hj]

theorem and_not_mask (hk : k < 8) (j : ℕ) :
    (c &&& ~~~(1#8 <<< k)).getLsbD j = if j = k then false else c.getLsbD j := by
  rw [← BitVec.twoPow_eq, BitVec.getLsbD_and, BitVec.getLsbD_not, BitVec.getLsbD_twoPow]
  by_cases hj : j = k
  · simp [hj, hk]
  · have hlow : c.getLsbD j = true → j < 8 := BitVec.lt_of_getLsbD
    cases hc : c.getLsbD j
    · simp [hj]
    · simp [hj, Ne.symm hj, hlow hc]

/-- The bit `id` of a buffer of bytes. -/
def bit (v : Buffer (BitVec 8)) (id : ℕ) : Bool := (v.get (id / 8)).getLsbD (id % 8)

variable {v : Buffer (BitVec 8)} {id : ℕ} {x : Bool}

/-- A byte is written in which one bit is new. -/
theorem bit_assign (h : ∀ j, c.getLsbD j = if j = id % 8 then x else (v.get (id / 8)).getLsbD j)
    (i : ℕ) : (v.assign (id / 8) c).bit i = if i = id then x else v.bit i := by
  rw [bit, assign, bit]
  dsimp only
  by_cases hbyte : i / 8 = id / 8
  · rw [hbyte, Function.update_self, h]
    by_cases hi : i = id
    · rw [if_pos (congrArg (· % 8) hi), if_pos hi]
    · rw [if_neg fun hmod => hi (by omega), if_neg hi]
  · rw [Function.update_of_ne hbyte, if_neg fun hi => hbyte (congrArg (· / 8) hi)]

end Buffer

end Afabric
