import Mathlib.Data.List.Basic
import Mathlib.Data.Nat.ModEq

/-!
# Support — ring buffers

`RingBuffer m cells tail head l` says that the first `m` cells hold the list `l` in a ring, from the
cell `tail` on and up to the cell `head`, and that every other cell is empty.  The same index may
stand for both ends of an empty ring and of a full one.  Each operation on the cells is one on the
list; `shiftBack` is the loop that makes room in the middle, by moving the cells up to a place one
place back.
-/

namespace Afabric

variable {α : Type*} {m i j k : ℕ}

namespace RingBuffer

def next (m i : ℕ) : ℕ := (i + 1) % m

def prev (m i : ℕ) : ℕ := if i = 0 then m - 1 else i - 1

theorem next_lt (hm : 0 < m) : next m i < m := Nat.mod_lt _ hm

theorem prev_lt (hi : i < m) : prev m i < m := by
  rw [prev]
  split <;> omega

theorem next_prev (hi : i < m) : next m (prev m i) = i := by
  rw [next, prev]
  split
  next h0 => rw [h0, Nat.sub_add_cancel (by omega), Nat.mod_self]
  next h0 => rw [Nat.sub_add_cancel (by omega), Nat.mod_eq_of_lt hi]

theorem prev_next (hi : i < m) : prev m (next m i) = i := by
  by_cases hlast : i + 1 = m
  · rw [next, hlast, Nat.mod_self, prev, if_pos rfl]
    omega
  · rw [next, Nat.mod_eq_of_lt (by omega), prev, if_neg (by omega), Nat.add_sub_cancel]

/-- The place `k` places from `i`. -/
def off (m i k : ℕ) : ℕ := (i + k) % m

theorem off_lt (hm : 0 < m) : off m i k < m := Nat.mod_lt _ hm

@[simp] theorem off_zero (hi : i < m) : off m i 0 = i := Nat.mod_eq_of_lt hi

theorem off_next : off m (next m i) k = off m i (k + 1) := by
  rw [off, off, next, Nat.mod_add_mod, Nat.add_right_comm, Nat.add_assoc]

theorem next_off : next m (off m i k) = off m i (k + 1) := by
  rw [off, off, next, Nat.mod_add_mod, Nat.add_assoc]

theorem off_prev (hi : i < m) : off m (prev m i) (k + 1) = off m i k := by
  rw [← off_next, next_prev hi]

theorem off_inj (hj : j < m) (hk : k < m) (h : off m i j = off m i k) : j = k := by
  have hmod : j ≡ k [MOD m] := Nat.ModEq.add_left_cancel' i h
  exact Nat.ModEq.eq_of_lt_of_lt hmod hj hk

/-- How many places `j` is from `i`. -/
def dist (m i j : ℕ) : ℕ := (j + (m - i)) % m

theorem off_dist (hi : i < m) (hj : j < m) : off m i (dist m i j) = j := by
  have hsum : i + (j + (m - i)) = j + m := by omega
  rw [off, dist, Nat.add_mod_mod, hsum, Nat.add_mod_right, Nat.mod_eq_of_lt hj]

theorem dist_off (hi : i < m) (hk : k < m) : dist m i (off m i k) = k :=
  off_inj (Nat.mod_lt _ (Nat.zero_lt_of_lt hi)) hk (off_dist hi (off_lt (Nat.zero_lt_of_lt hi)))

end RingBuffer

open RingBuffer

structure RingBuffer (m : ℕ) (cells : ℕ → Option α) (tail head : ℕ) (l : List α) : Prop where
  tail_lt : tail < m
  head_eq : head = off m tail l.length
  length_le : l.length ≤ m
  cell : ∀ k < m, cells (off m tail k) = l[k]?
  outside : ∀ i, m ≤ i → cells i = none

namespace RingBuffer

variable {cells : ℕ → Option α} {tail head : ℕ} {l a b : List α} {x y : α}

theorem empty (hm : 0 < m) : RingBuffer m (fun _ => (none : Option α)) 0 0 [] where
  tail_lt := hm
  head_eq := (off_zero hm).symm
  length_le := Nat.zero_le m
  cell := fun _ _ => List.getElem?_nil.symm
  outside := fun _ _ => rfl

section

variable (h : RingBuffer m cells tail head l)
include h

theorem pos : 0 < m := Nat.lt_of_le_of_lt (Nat.zero_le tail) h.tail_lt

theorem head_lt : head < m := by
  rw [h.head_eq]
  exact off_lt h.pos

theorem tail_cell : cells tail = l.head? := by
  have h0 := h.cell 0 h.pos
  rwa [off_zero h.tail_lt, ← List.head?_eq_getElem?] at h0

/-- The two ends meet in a full ring and in an empty one. -/
theorem head_eq_tail_iff : head = tail ↔ l = [] ∨ l.length = m := by
  constructor
  · intro heq
    by_cases hm : l.length = m
    · exact .inr hm
    · have hlen : l.length < m := Nat.lt_of_le_of_ne h.length_le hm
      have h0 : off m tail l.length = off m tail 0 := by
        rw [← h.head_eq, heq, off_zero h.tail_lt]
      exact .inl (List.length_eq_zero_iff.mp (off_inj hlen h.pos h0))
  · rintro (rfl | hm)
    · rw [h.head_eq, List.length_nil, off_zero h.tail_lt]
    · rw [h.head_eq, hm, off, Nat.add_mod_right, Nat.mod_eq_of_lt h.tail_lt]

/-- A cell of the ring holds something from the tail up to the head. -/
theorem isSome_iff (hfull : l.length < m) (hi : i < m) :
    (cells i).isSome = true ↔ dist m tail i < dist m tail head := by
  have hhead : dist m tail head = l.length := by rw [h.head_eq, dist_off h.tail_lt hfull]
  have hcell := h.cell (dist m tail i) (Nat.mod_lt _ h.pos)
  rw [off_dist h.tail_lt hi] at hcell
  rw [hhead, hcell]
  simp

theorem isSome_of_full (hfull : l.length = m) (hi : i < m) : (cells i).isSome = true := by
  have hcell := h.cell (dist m tail i) (Nat.mod_lt _ h.pos)
  rw [off_dist h.tail_lt hi] at hcell
  have hlt : dist m tail i < l.length := by
    rw [hfull]
    exact Nat.mod_lt _ h.pos
  rw [hcell, List.getElem?_eq_getElem hlt, Option.isSome_some]

/-- **Writing at the head.** -/
theorem push (hlen : l.length < m) (x : α) :
    RingBuffer m (Function.update cells head (some x)) tail (next m head) (l ++ [x]) where
  tail_lt := h.tail_lt
  head_eq := by rw [h.head_eq, next_off, List.length_append, List.length_singleton]
  length_le := by
    rw [List.length_append, List.length_singleton]
    exact hlen
  cell := by
    intro k hk
    by_cases hkl : k = l.length
    · rw [hkl, ← h.head_eq, Function.update_self, List.getElem?_concat_length]
    · have hne : off m tail k ≠ head := fun e => hkl (off_inj hk hlen (e.trans h.head_eq))
      rw [Function.update_of_ne hne, h.cell k hk]
      rcases Nat.lt_or_gt_of_ne hkl with hlt | hgt
      · rw [List.getElem?_append_left hlt]
      · rw [List.getElem?_eq_none hgt.le, List.getElem?_eq_none (by simp; omega)]
  outside := by
    intro i hi
    rw [Function.update_of_ne (Nat.ne_of_gt (Nat.lt_of_lt_of_le h.head_lt hi))]
    exact h.outside i hi

/-- **Writing before the tail.** -/
theorem cons (hlen : l.length < m) (x : α) :
    RingBuffer m (Function.update cells (prev m tail) (some x)) (prev m tail) head (x :: l) where
  tail_lt := prev_lt h.tail_lt
  head_eq := by rw [h.head_eq, List.length_cons, off_prev h.tail_lt]
  length_le := hlen
  cell := by
    intro k hk
    cases k with
    | zero => rw [off_zero (prev_lt h.tail_lt), Function.update_self, List.getElem?_cons_zero]
    | succ k =>
      have hne : off m (prev m tail) (k + 1) ≠ prev m tail := by
        intro e
        have h0 : off m (prev m tail) (k + 1) = off m (prev m tail) 0 := by
          rw [e, off_zero (prev_lt h.tail_lt)]
        exact absurd (off_inj hk h.pos h0) (Nat.succ_ne_zero k)
      rw [Function.update_of_ne hne, off_prev h.tail_lt, h.cell k (Nat.lt_of_succ_lt hk),
        List.getElem?_cons_succ]
  outside := by
    intro i hi
    rw [Function.update_of_ne (Nat.ne_of_gt (Nat.lt_of_lt_of_le (prev_lt h.tail_lt) hi))]
    exact h.outside i hi

end

/-- **Emptying the tail.** -/
theorem pop (h : RingBuffer m cells tail head (x :: l)) :
    RingBuffer m (Function.update cells tail none) (next m tail) head l where
  tail_lt := next_lt h.pos
  head_eq := by rw [h.head_eq, List.length_cons, off_next]
  length_le := Nat.le_of_succ_le h.length_le
  cell := by
    intro k hk
    rw [off_next]
    by_cases hlast : k + 1 = m
    · have hwrap : off m tail (k + 1) = tail := by
        rw [hlast, off, Nat.add_mod_right, Nat.mod_eq_of_lt h.tail_lt]
      have hlen := h.length_le
      rw [List.length_cons] at hlen
      rw [hwrap, Function.update_self, List.getElem?_eq_none (by omega)]
    · have hk' : k + 1 < m := Nat.lt_of_le_of_ne hk hlast
      have hne : off m tail (k + 1) ≠ tail := by
        intro e
        have h0 : off m tail (k + 1) = off m tail 0 := by rw [e, off_zero h.tail_lt]
        exact absurd (off_inj hk' h.pos h0) (Nat.succ_ne_zero k)
      rw [Function.update_of_ne hne, h.cell _ hk', List.getElem?_cons_succ]
  outside := by
    intro i hi
    rw [Function.update_of_ne (Nat.ne_of_gt (Nat.lt_of_lt_of_le h.tail_lt hi))]
    exact h.outside i hi

/-- What the place after a part of the list holds. -/
theorem cell_append (h : RingBuffer m cells tail head (a ++ x :: b)) :
    cells (off m tail a.length) = some x := by
  have hlt : a.length < m := by
    have hlen := h.length_le
    rw [List.length_append, List.length_cons] at hlen
    omega
  rw [h.cell _ hlt, List.getElem?_append_right le_rfl, Nat.sub_self, List.getElem?_cons_zero]

/-- **Writing over a place.** -/
theorem set (h : RingBuffer m cells tail head (a ++ x :: b)) (y : α) :
    RingBuffer m (Function.update cells (off m tail a.length) (some y)) tail head
      (a ++ y :: b) := by
  have hlen := h.length_le
  rw [List.length_append, List.length_cons] at hlen
  have hlt : a.length < m := by omega
  have hlength : (a ++ y :: b).length = (a ++ x :: b).length := by simp
  refine ⟨h.tail_lt, hlength ▸ h.head_eq, hlength ▸ h.length_le, fun k hk => ?_, fun i hi => ?_⟩
  · by_cases hka : k = a.length
    · rw [hka, Function.update_self, List.getElem?_append_right le_rfl, Nat.sub_self,
        List.getElem?_cons_zero]
    · rw [Function.update_of_ne fun e => hka (off_inj hk hlt e), h.cell k hk]
      rcases Nat.lt_or_gt_of_ne hka with hlt | hgt
      · rw [List.getElem?_append_left hlt, List.getElem?_append_left hlt]
      · obtain ⟨d, rfl⟩ := Nat.exists_eq_add_of_lt hgt
        rw [List.getElem?_append_right (by omega), List.getElem?_append_right (by omega)]
        have hd : a.length + d + 1 - a.length = d + 1 := by omega
        rw [hd, List.getElem?_cons_succ, List.getElem?_cons_succ]
  · rw [Function.update_of_ne (Nat.ne_of_gt (Nat.lt_of_lt_of_le (off_lt h.pos) hi))]
    exact h.outside i hi

/-! ### Room in the middle -/

/-- `for (j = tail; j != i; j = next(j)) cells[prev(j)] = cells[j]`. -/
def shiftBack (m i : ℕ) : ℕ → ℕ → (ℕ → Option α) → Option (ℕ → Option α)
  | 0, _, _ => none
  | fuel + 1, j, cells =>
    if j = i then some cells
    else shiftBack m i fuel (next m j) (Function.update cells (prev m j) (cells j))

/-- The loop with the cells of `a₁` moved and those of `a₂` to move. -/
theorem shiftBack_from (hb : b ≠ []) {a₂ : List α} :
    ∀ {a₁ : List α} {cells : ℕ → Option α} {fuel : ℕ},
    (∀ x, RingBuffer m (Function.update cells (off m tail a₁.length) (some x)) tail head
      (a₁ ++ x :: (a₂ ++ b))) → a₂.length < fuel →
    ∃ cells', shiftBack m (off m tail (a₁.length + 1 + a₂.length)) fuel
        (off m tail (a₁.length + 1)) cells = some cells' ∧
      ∀ x, RingBuffer m (Function.update cells' (off m tail (a₁.length + a₂.length)) (some x)) tail
        head (a₁ ++ a₂ ++ x :: b) := by
  induction a₂ with
  | nil =>
    intro a₁ cells fuel h hfuel
    obtain ⟨fuel, rfl⟩ := Nat.exists_eq_succ_of_ne_zero (Nat.ne_of_gt hfuel)
    refine ⟨cells, by rw [shiftBack, List.length_nil, Nat.add_zero, if_pos rfl], fun x => ?_⟩
    rw [List.append_nil]
    exact h x
  | cons c a₂ ih =>
    intro a₁ cells fuel h hfuel
    obtain ⟨fuel, rfl⟩ := Nat.exists_eq_succ_of_ne_zero (Nat.ne_of_gt (Nat.zero_lt_of_lt hfuel))
    have hpos := (h c).pos
    have hlen := (h c).length_le
    have hb' := List.length_pos_iff.mpr hb
    simp only [List.length_append, List.length_cons] at hlen
    have hne : off m tail (a₁.length + 1) ≠ off m tail (a₁.length + 1 + (a₂.length + 1)) := by
      intro e
      have := off_inj (by omega) (by omega) e
      omega
    have hhole : off m tail (a₁.length + 1) ≠ off m tail a₁.length := by
      intro e
      have := off_inj (by omega) (by omega) e
      omega
    have hback : prev m (off m tail (a₁.length + 1)) = off m tail a₁.length := by
      rw [← next_off, prev_next (off_lt hpos)]
    -- the cell to move, read past the hole
    have hcell : cells (off m tail (a₁.length + 1)) = some c := by
      have hc := (h c).cell (a₁.length + 1) (by omega)
      rw [Function.update_of_ne hhole] at hc
      rw [hc, List.getElem?_append_right (by omega)]
      simp
    have hmoved : ∀ x, RingBuffer m (Function.update
        (Function.update cells (off m tail a₁.length) (some c)) (off m tail (a₁ ++ [c]).length)
          (some x)) tail head ((a₁ ++ [c]) ++ x :: (a₂ ++ b)) := by
      intro x
      have hc := h c
      rw [List.cons_append, List.append_cons] at hc
      exact hc.set x
    obtain ⟨cells', hrun, hroom⟩ := ih hmoved (Nat.lt_of_succ_lt_succ hfuel)
    simp only [List.length_append, List.length_singleton] at hrun hroom
    refine ⟨cells', ?_, fun x => ?_⟩
    · rw [shiftBack, List.length_cons, if_neg hne, hback, hcell, next_off]
      rw [Nat.add_right_comm _ 1 a₂.length] at hrun
      exact hrun
    · have hx := hroom x
      rw [Nat.add_right_comm, List.append_assoc a₁ [c]] at hx
      exact hx

/-- **Making room in the middle**: the cells up to a place move one back, and that place is free. -/
theorem shiftBack_spec (h : RingBuffer m cells tail head (a ++ b)) (hb : b ≠ [])
    (hlen : (a ++ b).length < m) :
    ∃ cells', shiftBack m (off m tail a.length) m tail cells = some cells' ∧
      ∀ x, RingBuffer m (Function.update cells' (prev m (off m tail a.length)) (some x))
        (prev m tail) head (a ++ x :: b) := by
  have htail := prev_lt h.tail_lt
  have hroom : ∀ x, RingBuffer m (Function.update cells (off m (prev m tail) ([] : List α).length)
      (some x)) (prev m tail) head ([] ++ x :: (a ++ b)) := by
    intro x
    rw [List.length_nil, off_zero htail]
    exact h.cons hlen x
  have hfuel : a.length < m := by
    rw [List.length_append] at hlen
    omega
  obtain ⟨cells', hrun, hcells⟩ := shiftBack_from hb hroom hfuel
  simp only [List.length_nil, Nat.zero_add, List.nil_append] at hrun hcells
  refine ⟨cells', ?_, fun x => ?_⟩
  · rw [Nat.add_comm, off_prev h.tail_lt, ← Nat.zero_add 1, off_prev h.tail_lt,
      off_zero h.tail_lt] at hrun
    exact hrun
  · rw [← off_prev h.tail_lt, ← next_off, prev_next (off_lt h.pos)]
    exact hcells x

end RingBuffer

end Afabric
