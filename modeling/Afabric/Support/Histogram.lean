import Mathlib.Data.List.Count
import Mathlib.Data.List.DropRight

/-!
# Support — histograms

A partial map is the histogram of a list (`Histogram`) when it has an entry for each element of the
list and for no other, the number of its occurrences.  Adding to the end of the list is an entry
that is counted up or set to one (`Histogram.push`), taking its head one that is counted down and
erased at zero (`Histogram.pop`).  A list of at most `k` elements that is pushed to and then popped
when it is too long holds the last `k` of what was pushed (`rtake_push`).
-/

namespace Afabric

variable {α : Type*} [DecidableEq α] {h : α → Option ℤ} {l : List α} {x : α}

def Histogram (h : α → Option ℤ) (l : List α) : Prop :=
  ∀ s, h s = if s ∈ l then some (l.count s : ℤ) else none

/-- The entry of `x` counted up, or set to one if there was none. -/
def countUp (h : α → Option ℤ) (x : α) : α → Option ℤ :=
  Function.update h x (some (match h x with
    | some c => c + 1
    | none => 1))

/-- The entry of `x` counted down, and erased at zero. -/
def countDown (h : α → Option ℤ) (x : α) : α → Option ℤ :=
  let c := (h x).getD 0 - 1
  Function.update h x (if c = 0 then none else some c)

theorem Histogram.nil : Histogram (fun _ : α => none) [] := fun _ => rfl

theorem Histogram.push (hh : Histogram h l) (x : α) : Histogram (countUp h x) (l ++ [x]) := by
  intro s
  by_cases hs : s = x
  · subst hs
    rw [countUp, Function.update_self, if_pos (by simp), hh s, List.count_append,
      List.count_singleton_self]
    by_cases hm : s ∈ l
    · rw [if_pos hm]
      rfl
    · rw [if_neg hm, List.count_eq_zero.mpr hm]
      rfl
  · have hmem : s ∈ l ++ [x] ↔ s ∈ l := by simp [hs]
    have hcount : (l ++ [x]).count s = l.count s := by
      rw [List.count_append, List.count_singleton, if_neg (by simpa using Ne.symm hs), Nat.add_zero]
    rw [countUp, Function.update_of_ne hs, hh s, hcount, if_congr hmem rfl rfl]

theorem Histogram.pop (hh : Histogram h (x :: l)) : Histogram (countDown h x) l := by
  intro s
  by_cases hs : s = x
  · subst hs
    have hcount : (h s).getD 0 - 1 = l.count s := by
      rw [hh s, if_pos List.mem_cons_self, List.count_cons_self, Option.getD_some]
      push_cast
      omega
    rw [countDown, hcount, Function.update_self]
    by_cases hm : s ∈ l
    · have hpos := List.count_pos_iff.mpr hm
      rw [if_neg (by exact_mod_cast hpos.ne'), if_pos hm]
    · rw [if_pos (by exact_mod_cast List.count_eq_zero.mpr hm), if_neg hm]
  · have hmem : s ∈ x :: l ↔ s ∈ l := by simp [hs]
    rw [countDown, Function.update_of_ne hs, hh s, List.count_cons_of_ne (Ne.symm hs),
      if_congr hmem rfl rfl]

omit [DecidableEq α] in
/-- The last `k` elements, when one more is added. -/
theorem rtake_push (k : ℕ) (l : List α) (x : α) :
    (l ++ [x]).rtake k =
      if k < (l.rtake k ++ [x]).length then (l.rtake k ++ [x]).tail else l.rtake k ++ [x] := by
  by_cases hk : l.length < k
  · have hall : l.rtake k = l := by
      rw [List.rtake, Nat.sub_eq_zero_of_le hk.le, List.drop_zero]
    have hle : (l ++ [x]).length ≤ k := by
      rw [List.length_append, List.length_singleton]
      exact hk
    rw [hall, if_neg hle.not_gt, List.rtake, Nat.sub_eq_zero_of_le hle, List.drop_zero]
  · have hlen : (l.rtake k).length = k := by
      rw [List.rtake, List.length_drop]
      omega
    have hdrop : (l ++ [x]).length - k = l.length - k + 1 := by
      rw [List.length_append, List.length_singleton]
      omega
    rw [if_pos (by simp [hlen]), List.rtake, List.rtake, hdrop,
      ← List.drop_append_of_le_length (Nat.sub_le _ _), List.tail_drop]

end Afabric
