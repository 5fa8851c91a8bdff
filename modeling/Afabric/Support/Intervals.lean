import Mathlib.Data.Set.Card
import Mathlib.Data.Int.ConditionallyCompleteOrder
import Mathlib.Data.Int.Interval
import Mathlib.Algebra.Order.Ring.Int

/-!
# Support — lists of intervals

Records `b : β` that stand for half-open intervals `[lo b, hi b)` of a linear order, and lists
of them.  A list is *normal* when its intervals are non-empty and each lies strictly below the
next, with a gap: `hi a < lo b` for `a` before `b`.  A normal list is the unique way to write
its `cover`, the union of its intervals, as a list of maximal intervals; over the integers its
length, `span`, counts the points covered (`Normal.ncard_cover`).

A list is *loose* when some of its intervals may also be empty: an empty interval stands at a point,
apart from the intervals around it.  Its length still counts the points covered.
-/

namespace Afabric

variable {β α : Type*}

section Order

variable [LinearOrder α] {lo hi : β → α}

/-- The intervals are non-empty, sorted, disjoint and not adjacent. -/
structure Normal (lo hi : β → α) (l : List β) : Prop where
  nonempty : ∀ b ∈ l, lo b < hi b
  apart : l.Pairwise fun a b => hi a < lo b

/-- The union of the intervals. -/
def cover (lo hi : β → α) (l : List β) : Set α := {x | ∃ b ∈ l, lo b ≤ x ∧ x < hi b}

@[simp] theorem cover_nil : cover lo hi ([] : List β) = ∅ := by simp [cover]

@[simp] theorem cover_cons (b : β) (l : List β) :
    cover lo hi (b :: l) = Set.Ico (lo b) (hi b) ∪ cover lo hi l := by
  ext x; simp [cover]

@[simp] theorem cover_append (a b : List β) :
    cover lo hi (a ++ b) = cover lo hi a ∪ cover lo hi b := by
  ext x; simp [cover, or_and_right, exists_or]

namespace Normal

variable {a b l : List β} {m : β}

theorem nil : Normal lo hi ([] : List β) := ⟨by simp, by simp⟩

theorem append_iff : Normal lo hi (a ++ b) ↔
    Normal lo hi a ∧ Normal lo hi b ∧ ∀ x ∈ a, ∀ y ∈ b, hi x < lo y := by
  constructor
  · rintro ⟨h₁, h₂⟩
    obtain ⟨h₃, h₄, h₅⟩ := List.pairwise_append.mp h₂
    exact ⟨⟨fun x hx => h₁ x (by simp [hx]), h₃⟩, ⟨fun x hx => h₁ x (by simp [hx]), h₄⟩, h₅⟩
  · rintro ⟨⟨h₁, h₂⟩, ⟨h₃, h₄⟩, h₅⟩
    refine ⟨fun x hx => ?_, List.pairwise_append.mpr ⟨h₂, h₄, h₅⟩⟩
    rcases List.mem_append.mp hx with hx | hx
    · exact h₁ x hx
    · exact h₃ x hx

theorem cons_iff : Normal lo hi (m :: l) ↔
    lo m < hi m ∧ (∀ x ∈ l, hi m < lo x) ∧ Normal lo hi l := by
  constructor
  · rintro ⟨h₁, h₂⟩
    obtain ⟨h₃, h₄⟩ := List.pairwise_cons.mp h₂
    exact ⟨h₁ m (by simp), h₃, fun x hx => h₁ x (by simp [hx]), h₄⟩
  · rintro ⟨h₁, h₂, h₃, h₄⟩
    exact ⟨by simpa using ⟨h₁, h₃⟩, List.pairwise_cons.mpr ⟨h₂, h₄⟩⟩

theorem sublist (h : Normal lo hi l) (hs : a.Sublist l) : Normal lo hi a :=
  ⟨fun x hx => h.nonempty x (hs.mem hx), h.apart.sublist hs⟩

/-- Below a record of a normal list, every earlier one ends; above it, every later one starts. -/
theorem split_at (h : Normal lo hi (a ++ m :: b)) :
    (∀ x ∈ a, hi x < lo m) ∧ ∀ y ∈ b, hi m < lo y := by
  obtain ⟨-, h₂, h₃⟩ := append_iff.mp h
  exact ⟨fun x hx => h₃ x hx m (by simp), (cons_iff.mp h₂).2.1⟩

/-- In place of a record there may be others within it. -/
theorem replace {c : List β} (h : Normal lo hi (a ++ m :: b)) (hc : Normal lo hi c)
    (hin : ∀ x ∈ c, lo m ≤ lo x ∧ hi x ≤ hi m) : Normal lo hi (a ++ (c ++ b)) := by
  obtain ⟨ha, hb⟩ := h.split_at
  obtain ⟨h₁, h₂, h₃⟩ := append_iff.mp h
  refine append_iff.mpr ⟨h₁, append_iff.mpr ⟨hc, (cons_iff.mp h₂).2.2, fun x hx y hy => ?_⟩,
    fun x hx y hy => ?_⟩
  · exact (hin x hx).2.trans_lt (hb y hy)
  · rcases List.mem_append.mp hy with hy | hy
    · exact (ha x hx).trans_le (hin y hy).1
    · exact h₃ x hx y (List.mem_cons_of_mem m hy)

/-- A point of a record is in no other. -/
theorem cover_replace {c : List β} {i : α} (h : Normal lo hi (a ++ m :: b)) (hi₁ : lo m ≤ i)
    (hi₂ : i < hi m) (hc : cover lo hi c = Set.Ico (lo m) (hi m) \ {i}) :
    cover lo hi (a ++ (c ++ b)) = cover lo hi (a ++ m :: b) \ {i} := by
  obtain ⟨ha, hb⟩ := h.split_at
  have hia : i ∉ cover lo hi a := by
    rintro ⟨x, hx, -, hlt⟩
    exact absurd (hlt.trans (ha x hx)) hi₁.not_gt
  have hib : i ∉ cover lo hi b := by
    rintro ⟨y, hy, hle, -⟩
    exact absurd (hi₂.trans (hb y hy)) hle.not_gt
  rw [cover_append, cover_append, cover_append, cover_cons, hc, Set.union_sdiff_distrib,
    Set.union_sdiff_distrib, Set.sdiff_singleton_eq_self hia, Set.sdiff_singleton_eq_self hib]

end Normal

end Order

/-! ### Lists with empty intervals -/

section Loose

variable [LinearOrder α] {lo hi : β → α} {a b l : List β} {m : β}

/-- The intervals are sorted, disjoint and not adjacent. -/
structure Loose (lo hi : β → α) (l : List β) : Prop where
  ordered : ∀ b ∈ l, lo b ≤ hi b
  apart : l.Pairwise fun a b => hi a < lo b

theorem Normal.loose (h : Normal lo hi l) : Loose lo hi l :=
  ⟨fun b hb => (h.nonempty b hb).le, h.apart⟩

namespace Loose

theorem nil : Loose lo hi ([] : List β) := Normal.nil.loose

/-- Without an empty interval a list is normal. -/
theorem normal (h : Loose lo hi l) (hne : ∀ b ∈ l, lo b ≠ hi b) : Normal lo hi l :=
  ⟨fun b hb => lt_of_le_of_ne (h.ordered b hb) (hne b hb), h.apart⟩

theorem append_iff : Loose lo hi (a ++ b) ↔
    Loose lo hi a ∧ Loose lo hi b ∧ ∀ x ∈ a, ∀ y ∈ b, hi x < lo y := by
  constructor
  · rintro ⟨h₁, h₂⟩
    obtain ⟨h₃, h₄, h₅⟩ := List.pairwise_append.mp h₂
    rw [List.forall_mem_append] at h₁
    exact ⟨⟨h₁.1, h₃⟩, ⟨h₁.2, h₄⟩, h₅⟩
  · rintro ⟨⟨h₁, h₂⟩, ⟨h₃, h₄⟩, h₅⟩
    exact ⟨List.forall_mem_append.mpr ⟨h₁, h₃⟩, List.pairwise_append.mpr ⟨h₂, h₄, h₅⟩⟩

theorem cons_iff : Loose lo hi (m :: l) ↔
    lo m ≤ hi m ∧ (∀ x ∈ l, hi m < lo x) ∧ Loose lo hi l := by
  constructor
  · rintro ⟨h₁, h₂⟩
    obtain ⟨h₃, h₄⟩ := List.pairwise_cons.mp h₂
    rw [List.forall_mem_cons] at h₁
    exact ⟨h₁.1, h₃, h₁.2, h₄⟩
  · rintro ⟨h₁, h₂, h₃, h₄⟩
    exact ⟨List.forall_mem_cons.mpr ⟨h₁, h₃⟩, List.pairwise_cons.mpr ⟨h₂, h₄⟩⟩

theorem sublist (h : Loose lo hi l) (hs : a.Sublist l) : Loose lo hi a :=
  ⟨fun x hx => h.ordered x (hs.mem hx), h.apart.sublist hs⟩

/-- Below a record of a loose list, every earlier one ends; above it, every later one starts. -/
theorem split_at (h : Loose lo hi (a ++ m :: b)) :
    (∀ x ∈ a, hi x < lo m) ∧ ∀ y ∈ b, hi m < lo y := by
  obtain ⟨-, h₂, h₃⟩ := append_iff.mp h
  exact ⟨fun x hx => h₃ x hx m List.mem_cons_self, (cons_iff.mp h₂).2.1⟩

/-- A record may be put between the ones before and after it. -/
theorem insert {v : β} (h : Loose lo hi (a ++ b)) (hv : lo v ≤ hi v)
    (ha : ∀ x ∈ a, hi x < lo v) (hb : ∀ y ∈ b, hi v < lo y) : Loose lo hi (a ++ v :: b) := by
  obtain ⟨h₁, h₂, h₃⟩ := append_iff.mp h
  refine append_iff.mpr ⟨h₁, cons_iff.mpr ⟨hv, hb, h₂⟩, fun x hx y hy => ?_⟩
  rcases List.mem_cons.mp hy with rfl | hy
  · exact ha x hx
  · exact h₃ x hx y hy

end Loose

end Loose

/-! ### Counting -/

section Count

variable {lo hi : β → ℤ}

/-- The sum of the lengths. -/
def span (lo hi : β → ℤ) (l : List β) : ℤ := (l.map fun b => hi b - lo b).sum

@[simp] theorem span_nil : span lo hi ([] : List β) = 0 := rfl

@[simp] theorem span_cons (b : β) (l : List β) :
    span lo hi (b :: l) = hi b - lo b + span lo hi l := by simp [span]

@[simp] theorem span_append (a b : List β) :
    span lo hi (a ++ b) = span lo hi a + span lo hi b := by simp [span]

theorem cover_finite (l : List β) : (cover lo hi l).Finite := by
  induction l with
  | nil => simp
  | cons b l ih => rw [cover_cons]; exact (Set.finite_Ico _ _).union ih

/-- **The span of a loose list counts the points it covers.** -/
theorem Loose.ncard_cover {l : List β} (h : Loose lo hi l) :
    ((cover lo hi l).ncard : ℤ) = span lo hi l := by
  induction l with
  | nil => simp
  | cons b l ih =>
      obtain ⟨h₁, h₂, h₃⟩ := Loose.cons_iff.mp h
      have hdisj : Disjoint (Set.Ico (lo b) (hi b)) (cover lo hi l) := by
        rw [Set.disjoint_left]
        rintro x ⟨-, hx⟩ ⟨c, hc, hcx, -⟩
        exact absurd (lt_trans hx (h₂ c hc)) (not_lt.mpr hcx)
      rw [cover_cons, Set.ncard_union_eq hdisj (Set.finite_Ico _ _) (cover_finite l), span_cons,
        Nat.cast_add, ih h₃]
      have : (Set.Ico (lo b) (hi b)).ncard = (hi b - lo b).toNat := by
        rw [← Int.card_Ico, ← Finset.coe_Ico, Set.ncard_coe_finset]
      rw [this, Int.toNat_of_nonneg (by omega)]

theorem Normal.ncard_cover {l : List β} (h : Normal lo hi l) :
    ((cover lo hi l).ncard : ℤ) = span lo hi l := h.loose.ncard_cover

end Count

end Afabric
