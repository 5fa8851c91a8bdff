import Mathlib.Data.Multiset.Range

/-!
# Support — binary heaps in an array

A heap is an array `a` of which the first `n` places are used, in a binary tree with the root at
`0`.  A smaller element moves towards the root by `siftUp`, which moves the parents down instead of
swapping; a larger one moves away from it by `siftDown`; and `raise` brings an element to the root
whatever its key, so that `extract` can remove it.

All three keep the order off one place, the hole (`Hole`), and differ in what they know of the
element in it.
-/

namespace BinaryHeap

variable {α κ : Type}

def parent (i : Nat) : Nat := (i - 1) / 2

def left (i : Nat) : Nat := i * 2 + 1

def right (i : Nat) : Nat := (i + 1) * 2

theorem parent_lt {i : Nat} (h : 0 < i) : parent i < i := by unfold parent; omega

theorem parent_eq_iff {i j : Nat} (h : 0 < j) : parent j = i ↔ j = left i ∨ j = right i := by
  unfold parent left right; omega

/-- The array with an element written at `i`. -/
def put (a : Nat → α) (i : Nat) (x : α) (k : Nat) : α := if k = i then x else a k

@[simp] theorem put_same (a : Nat → α) (i : Nat) (x : α) : put a i x i = x := if_pos rfl

theorem put_of_ne {a : Nat → α} {i k : Nat} (h : k ≠ i) (x : α) : put a i x k = a k := if_neg h

def swap (a : Nat → α) (i j : Nat) : Nat → α := put (put a i (a j)) j (a i)

@[simp] theorem swap_right (a : Nat → α) (i j : Nat) : swap a i j j = a i := put_same _ _ _

theorem swap_left (a : Nat → α) (i j : Nat) : swap a i j i = a j := by
  by_cases h : i = j
  · rw [h, swap_right]
  · rw [swap, put_of_ne h, put_same]

theorem swap_of_ne {a : Nat → α} {i j k : Nat} (hi : k ≠ i) (hj : k ≠ j) : swap a i j k = a k := by
  rw [swap, put_of_ne hj, put_of_ne hi]

/-! ### What a heap holds -/

/-- The elements in the first `n` places. -/
def contents (a : Nat → α) (n : Nat) : Multiset α := (Multiset.range n).map a

theorem contents_succ (a : Nat → α) (n : Nat) : contents a (n + 1) = a n ::ₘ contents a n := by
  rw [contents, Multiset.range_succ, Multiset.map_cons]
  rfl

theorem mem_contents {a : Nat → α} {n : Nat} {x : α} : x ∈ contents a n ↔ ∃ i < n, a i = x := by
  simp [contents]

theorem contents_congr {a b : Nat → α} {n : Nat} (h : ∀ i < n, a i = b i) :
    contents a n = contents b n :=
  Multiset.map_congr rfl fun i hi => h i (Multiset.mem_range.mp hi)

@[simp] theorem card_contents (a : Nat → α) (n : Nat) : (contents a n).card = n := by
  rw [contents, Multiset.card_map, Multiset.card_range]

/-- Writing at a place exchanges one element for another. -/
theorem contents_put (a : Nat → α) {i n : Nat} (hi : i < n) (x : α) :
    a i ::ₘ contents (put a i x) n = x ::ₘ contents a n := by
  induction n with
  | zero => exact absurd hi (Nat.not_lt_zero i)
  | succ n ih =>
      rw [contents_succ, contents_succ]
      by_cases h : i = n
      · subst h
        have hc : contents (put a i x) i = contents a i :=
          contents_congr fun k hk => put_of_ne (Nat.ne_of_lt hk) x
        rw [hc, put_same, Multiset.cons_swap]
      · have hn : n ≠ i := fun hn => h hn.symm
        rw [put_of_ne hn, Multiset.cons_swap, ih (by omega), Multiset.cons_swap]

theorem contents_swap (a : Nat → α) {i j n : Nat} (hi : i < n) (hj : j < n) :
    contents (swap a i j) n = contents a n := by
  have h₁ := contents_put a hi (a j)
  have h₂ := contents_put (put a i (a j)) hj (a i)
  have hj' : put a i (a j) j = a j := by
    by_cases h : j = i
    · rw [h, put_same]
    · exact put_of_ne h _
  rw [hj', h₁] at h₂
  exact (Multiset.cons_inj_right _).mp h₂

/-! ### The order -/

section Order

variable [LinearOrder κ] (key : α → κ)

/-- No element is smaller than its parent. -/
def Ordered (a : Nat → α) (n : Nat) : Prop :=
  ∀ j, 0 < j → j < n → key (a (parent j)) ≤ key (a j)

/-- The elements off `i` are ordered, also when `i` is skipped. -/
structure Hole (a : Nat → α) (n i : Nat) : Prop where
  off : ∀ j, 0 < j → j < n → j ≠ i → parent j ≠ i → key (a (parent j)) ≤ key (a j)
  skip : 0 < i → ∀ j, 0 < j → j < n → parent j = i → key (a (parent i)) ≤ key (a j)

variable {key}

theorem Ordered.root_le {a : Nat → α} {n : Nat} (h : Ordered key a n) :
    ∀ i < n, key (a 0) ≤ key (a i) := by
  intro i
  induction i using Nat.strong_induction_on with
  | _ i ih =>
      intro hi
      by_cases h₀ : i = 0
      · rw [h₀]
      · have hp := parent_lt (Nat.pos_of_ne_zero h₀)
        exact (ih _ hp (by omega)).trans (h i (by omega) hi)

theorem Ordered.hole {a : Nat → α} {n i : Nat} (h : Ordered key a n) (hi : i < n) :
    Hole key a n i where
  off := fun j h₀ hj _ _ => h j h₀ hj
  skip := fun h₀ j hj₀ hj hp => (h i h₀ hi).trans (hp ▸ h j hj₀ hj)

/-- The place in the hole is filled by an element between its neighbours. -/
theorem Hole.ordered {a : Nat → α} {n i : Nat} (h : Hole key a n i)
    (hup : 0 < i → key (a (parent i)) ≤ key (a i))
    (hdown : ∀ j, 0 < j → j < n → parent j = i → key (a i) ≤ key (a j)) : Ordered key a n := by
  intro j h₀ hj
  by_cases hji : j = i
  · rw [hji] at h₀ ⊢
    exact hup h₀
  by_cases hp : parent j = i
  · rw [hp]
    exact hdown j h₀ hj hp
  · exact h.off j h₀ hj hji hp

/-- The hole moves up: the parent goes down. -/
theorem Hole.up {a : Nat → α} {n i : Nat} (h : Hole key a n i) (h₀ : 0 < i) (hi : i < n) :
    Hole key (swap a i (parent i)) n (parent i) := by
  have hlt := parent_lt h₀
  have hpp : 0 < parent i → key (a (parent (parent i))) ≤ key (a (parent i)) := fun hp => by
    have := parent_lt hp
    exact h.off _ hp (by omega) (by omega) (by omega)
  refine ⟨fun j hj₀ hj hjp hpj => ?_, fun hp j hj₀ hj hpj => ?_⟩
  · by_cases hji : j = i
    · exact absurd (congrArg parent hji) hpj
    rw [swap_of_ne hji hjp]
    by_cases hpi : parent j = i
    · rw [hpi, swap_left]
      exact h.skip h₀ j hj₀ hj hpi
    · rw [swap_of_ne hpi hpj]
      exact h.off j hj₀ hj hji hpi
  · have := parent_lt hp
    rw [swap_of_ne (k := parent (parent i)) (by omega) (by omega)]
    by_cases hji : j = i
    · rw [hji, swap_left]
      exact hpp hp
    · have hjp := parent_lt hj₀
      rw [swap_of_ne hji (by omega)]
      have hoff := h.off j hj₀ hj hji (by omega)
      rw [hpj] at hoff
      exact (hpp hp).trans hoff

/-- The hole moves down: its smaller child goes up. -/
theorem Hole.down {a : Nat → α} {n i x : Nat} (h : Hole key a n i) (hx₀ : 0 < x) (hx : x < n)
    (hp : parent x = i)
    (hmin : ∀ j, 0 < j → j < n → parent j = i → key (a x) ≤ key (a j)) :
    Hole key (swap a i x) n x := by
  have hix : i < x := hp ▸ parent_lt hx₀
  refine ⟨fun j hj₀ hj hjx hpx => ?_, fun _ j hj₀ hj hpx => ?_⟩
  · by_cases hji : j = i
    · subst hji
      have := parent_lt hj₀
      rw [swap_left, swap_of_ne (k := parent j) (by omega) (by omega)]
      exact h.skip hj₀ x hx₀ hx hp
    rw [swap_of_ne hji hjx]
    by_cases hpi : parent j = i
    · rw [hpi, swap_left]
      exact hmin j hj₀ hj hpi
    · rw [swap_of_ne hpi hpx]
      exact h.off j hj₀ hj hji hpi
  · have := parent_lt hj₀
    rw [hp, swap_left, swap_of_ne (k := j) (by omega) (by omega)]
    have hoff := h.off j hj₀ hj (by omega) (by omega)
    rwa [hpx] at hoff

end Order

/-! ### The operations -/

section Operations

variable (less : α → α → Prop) [DecidableRel less]

/-- Finds the place of `x`, the hole at `i`, and writes it there. -/
def siftUp (x : α) (a : Nat → α) (i : Nat) : Nat → α :=
  if h : 0 < i ∧ less x (a (parent i)) then
    have := parent_lt h.1
    siftUp x (put a i (a (parent i))) (parent i)
  else put a i x
termination_by i

/-- The child of `i` to compare with, or `i` if it has none. -/
def smallerChild (a : Nat → α) (n i : Nat) : Nat :=
  if right i < n then
    if less (a (left i)) (a (right i)) then left i else right i
  else if left i < n then left i else i

theorem smallerChild_le (a : Nat → α) (n i : Nat) (h : smallerChild less a n i ≠ i) :
    i < smallerChild less a n i ∧ smallerChild less a n i < n ∧
      parent (smallerChild less a n i) = i := by
  unfold smallerChild parent left right at *
  split_ifs at * <;> omega

/-- Swaps the element at `i` with its children until it is not larger. -/
def siftDown (a : Nat → α) (n i : Nat) : Nat → α :=
  let x := smallerChild less a n i
  if h : x ≠ i ∧ less (a x) (a i) then
    have := smallerChild_le less a n i h.1
    siftDown (swap a i x) n x
  else a
termination_by n - i

/-- The array without the root, whose place the last element takes. -/
def extract (a : Nat → α) (n : Nat) : Nat → α := siftDown less (put a 0 (a (n - 1))) (n - 1) 0

/-- Swaps the element at `i` with its parents up to the root. -/
def raise (a : Nat → α) (i : Nat) : Nat → α :=
  if h : 0 < i then
    have := parent_lt h
    raise (swap a i (parent i)) (parent i)
  else a
termination_by i

end Operations

section Specs

variable [LinearOrder κ] {key : α → κ} {less : α → α → Prop} [DecidableRel less]
variable (hless : ∀ x y, less x y ↔ key x < key y)
include hless

theorem siftUp_spec {a : Nat → α} {n i : Nat} {x : α} (hi : i < n)
    (h : Hole key (put a i x) n i)
    (hdown : ∀ j, 0 < j → j < n → parent j = i → key x ≤ key (a j)) :
    Ordered key (siftUp less x a i) n ∧
      contents (siftUp less x a i) n = contents (put a i x) n := by
  induction a, i using siftUp.induct less x with
  | case1 a i hc hlt ih =>
      rw [siftUp, dif_pos hc]
      have hx := (hless _ _).mp hc.2
      -- moving the parent down is a swap of it with the element still to be written
      have hput : put (put a i (a (parent i))) (parent i) x = swap (put a i x) i (parent i) := by
        funext k
        unfold swap put
        grind
      have hne : ∀ j, 0 < j → parent j = parent i → j ≠ parent i := fun j hj hp => by
        have := parent_lt hj
        omega
      obtain ⟨ho, hs⟩ := ih (by omega) (hput ▸ h.up hc.1 hi) fun j hj₀ hj hp => by
        by_cases hji : j = i
        · rw [hji, put_same]
          exact hx.le
        · rw [put_of_ne hji]
          have hoff := h.off j hj₀ hj hji (by omega)
          rw [put_of_ne hji, hp, put_of_ne (by omega)] at hoff
          exact hx.le.trans hoff
      refine ⟨ho, hs.trans ?_⟩
      rw [hput, contents_swap _ hi (by omega)]
  | case2 a i hc =>
      rw [siftUp, dif_neg hc]
      refine ⟨h.ordered (fun h₀ => ?_) fun j hj₀ hj hp => ?_, rfl⟩
      · rw [put_same, put_of_ne (Nat.ne_of_lt (parent_lt h₀))]
        have hnot : ¬ less x (a (parent i)) := fun hl => hc ⟨h₀, hl⟩
        rw [hless] at hnot
        exact not_lt.mp hnot
      · have := parent_lt hj₀
        rw [put_same, put_of_ne (by omega)]
        exact hdown j hj₀ hj hp

theorem smallerChild_min (a : Nat → α) {n i j : Nat} (hj₀ : 0 < j) (hj : j < n)
    (hp : parent j = i) :
    smallerChild less a n i ≠ i ∧ key (a (smallerChild less a n i)) ≤ key (a j) := by
  have hlr : i < left i ∧ left i < right i := by unfold left right; omega
  unfold smallerChild
  by_cases hr : right i < n
  · rw [if_pos hr]
    split
    case isTrue hl =>
      rcases (parent_eq_iff hj₀).mp hp with rfl | rfl
      · exact ⟨by omega, le_rfl⟩
      · exact ⟨by omega, ((hless _ _).mp hl).le⟩
    case isFalse hl =>
      rw [hless] at hl
      rcases (parent_eq_iff hj₀).mp hp with rfl | rfl
      · exact ⟨by omega, not_lt.mp hl⟩
      · exact ⟨by omega, le_rfl⟩
  · have hjl : j = left i := by
      rcases (parent_eq_iff hj₀).mp hp with rfl | rfl
      · rfl
      · exact absurd hj hr
    rw [if_neg hr, if_pos (hjl ▸ hj), hjl]
    exact ⟨by omega, le_rfl⟩

theorem siftDown_spec {a : Nat → α} {n i : Nat} (hi : i < n ∨ i = 0) (h : Hole key a n i)
    (hup : 0 < i → key (a (parent i)) ≤ key (a i)) :
    Ordered key (siftDown less a n i) n ∧ contents (siftDown less a n i) n = contents a n := by
  induction a, i using siftDown.induct less n with
  | case1 a i x hc hlt ih =>
      rw [siftDown, dif_pos hc]
      obtain ⟨hx, hxn, hxp⟩ := smallerChild_le less a n i hc.1
      have hmin : ∀ j, 0 < j → j < n → parent j = i → key (a x) ≤ key (a j) :=
        fun j hj₀ hj hp => (smallerChild_min hless a hj₀ hj hp).2
      obtain ⟨ho, hs⟩ := ih (.inl hxn) (h.down (by omega) hxn hxp hmin) fun _ => by
        rw [hxp, swap_left, swap_right]
        exact ((hless _ _).mp hc.2).le
      exact ⟨ho, hs.trans (contents_swap a (by omega) hxn)⟩
  | case2 a i x hc =>
      rw [siftDown, dif_neg hc]
      refine ⟨h.ordered hup fun j hj₀ hj hp => ?_, rfl⟩
      obtain ⟨hne, hle⟩ := smallerChild_min hless a hj₀ hj hp
      have hnot : ¬ less (a x) (a i) := fun hl => hc ⟨hne, hl⟩
      rw [hless] at hnot
      exact (not_lt.mp hnot).trans hle

/-- `extract` leaves a heap of the elements other than the root, also if the root is too large. -/
theorem extract_spec {a : Nat → α} {n : Nat} (h : Hole key a (n + 1) 0) :
    Ordered key (extract less a (n + 1)) n ∧
      contents a (n + 1) = a 0 ::ₘ contents (extract less a (n + 1)) n := by
  have hh : Hole key (put a 0 (a n)) n 0 := by
    refine ⟨fun j hj₀ hj hj' hp => ?_, fun h₀ => absurd h₀ (Nat.lt_irrefl 0)⟩
    rw [put_of_ne hj', put_of_ne hp]
    exact h.off j hj₀ (by omega) hj' hp
  obtain ⟨ho, hs⟩ := siftDown_spec hless (.inr rfl) hh fun h₀ => absurd h₀ (Nat.lt_irrefl 0)
  refine ⟨ho, ?_⟩
  show _ = _ ::ₘ contents (siftDown less (put a 0 (a n)) n 0) n
  rw [hs, contents_succ]
  by_cases hn : 0 < n
  · exact (contents_put a hn (a n)).symm
  · have : n = 0 := by omega
    subst this
    rfl

omit hless in
theorem raise_spec {a : Nat → α} {n i : Nat} (hi : i < n) (h : Hole key a n i) :
    Hole key (raise a i) n 0 ∧ raise a i 0 = a i ∧ contents (raise a i) n = contents a n := by
  induction a, i using raise.induct with
  | case1 a i h₀ hlt ih =>
      rw [raise, dif_pos h₀]
      obtain ⟨hh, hr, hs⟩ := ih (by omega) (h.up h₀ hi)
      exact ⟨hh, hr.trans (swap_right _ _ _), hs.trans (contents_swap a hi (by omega))⟩
  | case2 a i h₀ =>
      have : i = 0 := by omega
      subst this
      rw [raise, dif_neg h₀]
      exact ⟨h, rfl, rfl⟩

end Specs

end BinaryHeap
