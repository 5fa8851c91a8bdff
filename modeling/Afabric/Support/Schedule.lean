import Mathlib.Algebra.Order.Field.Basic
import Mathlib.Data.List.Sort
import Mathlib.Tactic.Linarith
import Mathlib.Tactic.Ring

/-!
# Support — schedules of released units

Units are released in batches, each at its time, and served one at a time, with at least a period
between the starts of two of them.  A schedule may serve the units that are there in any order.
`completion` serves the batches one after the other, each as soon as it is released and the ones
before it are done; for batches in the order of their times it is the least time by which any
schedule is done (`completion_isLeast`).
-/

namespace Afabric

variable {K : Type*} [Field K] [LinearOrder K] [IsStrictOrderedRing K]

/-- A batch of units, with the time of its release. -/
structure Batch (K : Type*) where
  time : K
  units : ℕ

/-- The units of the batches. -/
def totalUnits (rs : List (Batch K)) : ℕ := (rs.map (·.units)).sum

/-- The end of the service in the order of the batches, from `e` on. -/
def completion (period : K) : K → List (Batch K) → K
  | e, [] => e
  | e, r :: rs => completion period (max r.time e + r.units * period) rs

/-- The starts of the units of each batch, none before its release. -/
def Released (rs : List (Batch K)) (starts : List (List K)) : Prop :=
  List.Forall₂ (fun r l => l.length = r.units ∧ ∀ x ∈ l, r.time ≤ x) rs starts

/-- A schedule, by the starts of the units of each batch, which is done at `T`. -/
structure Schedules (period : K) (rs : List (Batch K)) (starts : List (List K)) (T : K) : Prop where
  released : Released rs starts
  spaced : starts.flatten.Pairwise fun a b => period ≤ |a - b|
  done : ∀ x ∈ starts.flatten, x + period ≤ T

omit [Field K] [LinearOrder K] [IsStrictOrderedRing K] in
@[simp] theorem totalUnits_cons (r : Batch K) (rs : List (Batch K)) :
    totalUnits (r :: rs) = r.units + totalUnits rs := by
  simp [totalUnits]

/-! ### No schedule is done before -/

/-- Units that start at `t` at the earliest, in the order of their starts. -/
theorem spaced_sorted_le {period t T : K} {l : List K} (hne : l ≠ [])
    (hs : l.Pairwise (· ≤ ·)) (hd : l.Pairwise fun a b => period ≤ |a - b|)
    (ht : ∀ x ∈ l, t ≤ x) (hT : ∀ x ∈ l, x + period ≤ T) : t + l.length * period ≤ T := by
  induction l generalizing t with
  | nil => exact absurd rfl hne
  | cons a l ih =>
    rw [List.pairwise_cons] at hs hd
    have ha := ht a List.mem_cons_self
    rcases eq_or_ne l [] with rfl | hl
    · have := hT a List.mem_cons_self
      simp only [List.length_cons, List.length_nil]
      push_cast
      linarith
    · have hstep : ∀ x ∈ l, a + period ≤ x := fun x hx => by
        have h₁ := hs.1 x hx
        have h₂ := hd.1 x hx
        rw [abs_of_nonpos (by linarith)] at h₂
        linarith
      have := ih hl hs.2 hd.2 hstep fun x hx => hT x (List.mem_cons_of_mem _ hx)
      simp only [List.length_cons]
      push_cast
      linarith

/-- Units that start at `t` at the earliest, in any order. -/
theorem spaced_le {period t T : K} {l : List K} (hne : l ≠ [])
    (hd : l.Pairwise fun a b => period ≤ |a - b|) (ht : ∀ x ∈ l, t ≤ x)
    (hT : ∀ x ∈ l, x + period ≤ T) : t + l.length * period ≤ T := by
  have hperm : (l.insertionSort (· ≤ ·)).Perm l := List.perm_insertionSort _ _
  have hsym : ∀ {a b : K}, period ≤ |a - b| → period ≤ |b - a| := fun h => by
    rwa [abs_sub_comm]
  rw [← hperm.length_eq]
  refine spaced_sorted_le (fun h => hne ?_) (List.pairwise_insertionSort _ _)
    (hperm.symm.pairwise hd hsym) (fun x hx => ht x (hperm.mem_iff.mp hx))
    fun x hx => hT x (hperm.mem_iff.mp hx)
  rw [h] at hperm
  exact hperm.nil_eq.symm

/-- What `completion` is the maximum of: from `e` on for all units, and from each batch on for it
and the ones after it. -/
theorem completion_le_iff {period e T : K} (rs : List (Batch K)) :
    completion period e rs ≤ T ↔ e + totalUnits rs * period ≤ T ∧
      ∀ j (h : j < rs.length), rs[j].time + totalUnits (rs.drop j) * period ≤ T := by
  induction rs generalizing e with
  | nil => simp [completion, totalUnits]
  | cons r rs ih =>
    rw [completion, ih, totalUnits_cons]
    push_cast
    constructor
    · rintro ⟨h₀, hrest⟩
      have h₁ := le_max_left r.time e
      have h₂ := le_max_right r.time e
      refine ⟨by linarith, fun j hj => ?_⟩
      cases j with
      | zero =>
        simp only [List.getElem_cons_zero, List.drop_zero, totalUnits_cons]
        push_cast
        linarith
      | succ j => exact hrest j (Nat.lt_of_succ_lt_succ hj)
    · rintro ⟨h₀, hall⟩
      have hhead := hall 0 (Nat.succ_pos _)
      simp only [List.getElem_cons_zero, List.drop_zero, totalUnits_cons] at hhead
      push_cast at hhead
      refine ⟨?_, fun j hj => hall (j + 1) (Nat.succ_lt_succ hj)⟩
      rcases max_choice r.time e with h | h <;> rw [h] <;> linarith

section Released

variable {rs : List (Batch K)} {starts : List (List K)}

omit [Field K] [IsStrictOrderedRing K] in
theorem Released.length_flatten (h : Released rs starts) :
    starts.flatten.length = totalUnits rs := by
  induction h with
  | nil => rfl
  | cons hd _ ih => rw [List.flatten_cons, List.length_append, hd.1, ih, totalUnits_cons]

omit [Field K] [IsStrictOrderedRing K] in
theorem Released.ge (h : Released rs starts) {t : K} (ht : ∀ r ∈ rs, t ≤ r.time) :
    ∀ x ∈ starts.flatten, t ≤ x := by
  induction h with
  | nil => simp
  | cons hd _ ih =>
    intro x hx
    rw [List.forall_mem_cons] at ht
    rcases List.mem_append.mp hx with hx | hx
    · exact ht.1.trans (hd.2 x hx)
    · exact ih ht.2 x hx

/-- The units from a batch on start at `t` at the earliest. -/
theorem Schedules.le_of_drop {period T t : K} (h : Schedules period rs starts T) (j : ℕ)
    (hpos : 0 < totalUnits (rs.drop j)) (ht : ∀ r ∈ rs.drop j, t ≤ r.time) :
    t + totalUnits (rs.drop j) * period ≤ T := by
  have hrel : Released (rs.drop j) (starts.drop j) := List.forall₂_drop j h.released
  have hsub : (starts.drop j).flatten.Sublist starts.flatten := by
    conv_rhs => rw [← List.take_append_drop j starts, List.flatten_append]
    exact List.sublist_append_right _ _
  have hlen := hrel.length_flatten
  rw [← hlen]
  refine spaced_le (fun hnil => ?_) (h.spaced.sublist hsub) (hrel.ge ht)
    fun x hx => h.done x (hsub.subset hx)
  rw [hnil] at hlen
  exact hpos.ne hlen

/-- **No schedule is done before.**  The batches are in the order of their times, and none is
empty. -/
theorem Schedules.completion_le {period T e : K} (h : Schedules period rs starts T)
    (hne : rs ≠ []) (hunits : ∀ r ∈ rs, 0 < r.units) (hsorted : rs.Pairwise (·.time ≤ ·.time))
    (he : ∀ r ∈ rs, e ≤ r.time) : completion period e rs ≤ T := by
  have hpos : ∀ j, j < rs.length → 0 < totalUnits (rs.drop j) := fun j hj => by
    rw [List.drop_eq_getElem_cons hj, totalUnits_cons]
    exact Nat.add_pos_left (hunits _ (List.getElem_mem hj)) _
  have hlen := List.length_pos_iff.mpr hne
  refine (completion_le_iff rs).mpr ⟨?_, fun j hj => ?_⟩
  · exact h.le_of_drop 0 (hpos 0 hlen) he
  · refine h.le_of_drop j (hpos j hj) fun r hr => ?_
    rw [List.drop_eq_getElem_cons hj, List.mem_cons] at hr
    rcases hr with rfl | hr
    · exact le_rfl
    · obtain ⟨k, hk, rfl⟩ := List.getElem_of_mem hr
      rw [List.getElem_drop]
      exact List.pairwise_iff_getElem.mp hsorted j _ hj _ (by omega)

end Released

/-! ### One is done then -/

/-- The units of each batch one after the other, in the order of the batches. -/
def greedy (period : K) : K → List (Batch K) → List (List K)
  | _, [] => []
  | e, r :: rs =>
      ((List.range r.units).map fun k : ℕ => max r.time e + (k : K) * period) ::
        greedy period (max r.time e + r.units * period) rs

variable {period : K}

theorem greedy_released (hp : 0 ≤ period) (e : K) (rs : List (Batch K)) :
    Released rs (greedy period e rs) := by
  induction rs generalizing e with
  | nil => exact .nil
  | cons r rs ih =>
    refine .cons ⟨by simp, fun x hx => ?_⟩ (ih _)
    obtain ⟨k, -, rfl⟩ := List.mem_map.mp hx
    have := mul_nonneg (Nat.cast_nonneg k : (0 : K) ≤ k) hp
    have := le_max_left r.time e
    linarith

theorem greedy_ge (hp : 0 ≤ period) (e : K) (rs : List (Batch K)) :
    ∀ x ∈ (greedy period e rs).flatten, e ≤ x := by
  induction rs generalizing e with
  | nil => simp [greedy]
  | cons r rs ih =>
    intro x hx
    have hmax := le_max_right r.time e
    rcases List.mem_append.mp hx with hx | hx
    · obtain ⟨k, -, rfl⟩ := List.mem_map.mp hx
      have := mul_nonneg (Nat.cast_nonneg k : (0 : K) ≤ k) hp
      linarith
    · have := ih _ x hx
      have := mul_nonneg (Nat.cast_nonneg r.units : (0 : K) ≤ r.units) hp
      linarith

theorem greedy_spaced (hp : 0 ≤ period) (e : K) (rs : List (Batch K)) :
    (greedy period e rs).flatten.Pairwise fun a b => period ≤ |a - b| := by
  induction rs generalizing e with
  | nil => exact .nil
  | cons r rs ih =>
    rw [greedy, List.flatten_cons, List.pairwise_append]
    have hstep : ∀ {k l : ℕ}, k < l → (k : K) * period + period ≤ l * period := fun {k l} h => by
      have hc : (k : K) + 1 ≤ l := by exact_mod_cast h
      have := mul_le_mul_of_nonneg_right hc hp
      linarith
    refine ⟨?_, ih _, fun a ha b hb => ?_⟩
    · rw [List.pairwise_map]
      refine List.pairwise_lt_range.imp fun {k l} h => ?_
      have := hstep h
      rw [abs_sub_comm, abs_of_nonneg (by linarith)]
      linarith
    · obtain ⟨k, hk, rfl⟩ := List.mem_map.mp ha
      have := hstep (List.mem_range.mp hk)
      have := greedy_ge hp _ rs b hb
      rw [abs_sub_comm, abs_of_nonneg (by linarith)]
      linarith

theorem le_completion (hp : 0 ≤ period) (e : K) (rs : List (Batch K)) :
    e ≤ completion period e rs := by
  have := ((completion_le_iff rs).mp (le_refl (completion period e rs))).1
  have := mul_nonneg (Nat.cast_nonneg (totalUnits rs) : (0 : K) ≤ totalUnits rs) hp
  linarith

theorem greedy_done (hp : 0 ≤ period) (e : K) (rs : List (Batch K)) :
    ∀ x ∈ (greedy period e rs).flatten, x + period ≤ completion period e rs := by
  induction rs generalizing e with
  | nil => simp [greedy]
  | cons r rs ih =>
    intro x hx
    rw [completion]
    rcases List.mem_append.mp hx with hx | hx
    · obtain ⟨k, hk, rfl⟩ := List.mem_map.mp hx
      have hc : (k : K) + 1 ≤ r.units := by exact_mod_cast List.mem_range.mp hk
      have := mul_le_mul_of_nonneg_right hc hp
      have := le_completion hp (max r.time e + r.units * period) rs
      linarith
    · exact ih _ x hx

/-- **The least completion** of batches in the order of their times. -/
theorem completion_isLeast (hp : 0 ≤ period) {rs : List (Batch K)} {e : K} (hne : rs ≠ [])
    (hunits : ∀ r ∈ rs, 0 < r.units) (hsorted : rs.Pairwise (·.time ≤ ·.time))
    (he : ∀ r ∈ rs, e ≤ r.time) :
    IsLeast {T | ∃ starts, Schedules period rs starts T} (completion period e rs) := by
  refine ⟨⟨greedy period e rs, greedy_released hp e rs, greedy_spaced hp e rs,
    greedy_done hp e rs⟩, ?_⟩
  rintro T ⟨starts, h⟩
  exact h.completion_le hne hunits hsorted he

end Afabric
