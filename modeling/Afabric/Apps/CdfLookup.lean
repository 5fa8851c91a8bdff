import Afabric.Apps.Empirical

/-!
# Apps — the search of a cumulative distribution

`EmpiricalRandomVariable::lookup` (`tools/ranvar.cc`).  The first row is looked at before the binary
search, which begins at the second and never looks at the last: where no row before the last is as
large as the draw, the last row is the answer.  A table of one row has no second, and a draw above
it ends outside the table (`lookup_found_iff`).
-/

namespace Afabric

namespace EmpiricalRandomVariable

variable {K : Type} [LinearOrder K] {rv : EmpiricalRandomVariable K} {u : K} {i : ℕ}

/-- The least row whose probability is at least `u`; the last row if there is none. -/
structure Found (table : List (CDFentry K)) (u : K) (i : ℕ) : Prop where
  lt : i < table.length
  below : ∀ j, j < i → ∃ e, table[j]? = some e ∧ e.cdf < u
  row : (∃ e, table[i]? = some e ∧ u ≤ e.cdf) ∨
    (i + 1 = table.length ∧ ∀ e ∈ table, e.cdf < u)

/-- The row with the first probability that is large enough, if there is one. -/
theorem exists_first (l : List (CDFentry K)) (u : K) :
    (∃ pre e post, l = pre ++ e :: post ∧ (∀ x ∈ pre, x.cdf < u) ∧ u ≤ e.cdf) ∨
      ∀ e ∈ l, e.cdf < u := by
  induction l with
  | nil => exact .inr fun e he => absurd he List.not_mem_nil
  | cons x l ih =>
    by_cases hx : u ≤ x.cdf
    · exact .inl ⟨[], x, l, rfl, fun y hy => absurd hy List.not_mem_nil, hx⟩
    · rcases ih with ⟨pre, e, post, rfl, hpre, he⟩ | hall
      · exact .inl ⟨x :: pre, e, post, rfl, List.forall_mem_cons.mpr ⟨not_le.mp hx, hpre⟩, he⟩
      · exact .inr (List.forall_mem_cons.mpr ⟨not_le.mp hx, hall⟩)

theorem getElem?_of_lt {l : List (CDFentry K)} (hall : ∀ e ∈ l, e.cdf < u) {j : ℕ}
    (hj : j < l.length) : ∃ e, l[j]? = some e ∧ e.cdf < u :=
  ⟨l[j], List.getElem?_eq_getElem hj, hall _ (List.getElem_mem hj)⟩

/-- A draw above every row ends at the last of them, or at the second place of a table of one. -/
theorem lookup_of_above {x : CDFentry K} {l : List (CDFentry K)} (ht : rv.table = x :: l)
    (hall : ∀ e ∈ rv.table, e.cdf < u) : rv.lookup u = some (max 1 l.length) := by
  have hx : ¬ u ≤ x.cdf := (hall x (by rw [ht]; exact List.mem_cons_self)).not_ge
  have hget : rv.table[0]? = some x := by rw [ht]; rfl
  have hlen : rv.table.length - 1 = l.length := by rw [ht]; rfl
  rw [lookup]
  simp only [hget, Option.bind_eq_bind, Option.bind_some, if_neg hx, hlen]
  rcases Nat.eq_zero_or_pos l.length with hz | hpos
  · rw [hz, lookupFrom.eq_def, dif_neg (by omega)]
    rfl
  · rw [max_eq_right hpos]
    refine lookupFrom_eq hpos le_rfl (fun j hj => getElem?_of_lt hall ?_)
      fun j h₁ h₂ => absurd h₁ h₂.not_ge
    omega

/-- **The search of a cumulative distribution**: it ends at the least row that is large enough, or
at the last, when the table has two rows or the draw is not above the first. -/
theorem lookup_found_iff (hs : rv.table.Pairwise (·.cdf ≤ ·.cdf)) (hne : rv.table ≠ []) :
    (∃ i, rv.lookup u = some i ∧ Found rv.table u i) ↔
      2 ≤ rv.table.length ∨ ∃ e, rv.table[0]? = some e ∧ u ≤ e.cdf := by
  obtain ⟨x, l, ht⟩ := List.exists_cons_of_ne_nil hne
  have hlen : rv.table.length = l.length + 1 := by rw [ht]; rfl
  rcases exists_first rv.table u with ⟨pre, e, post, he, hpre, hu⟩ | hall
  · -- some row is large enough: the search ends there, and one of two rows is not the first
    have hlt : pre.length < rv.table.length := by
      rw [he, List.length_append, List.length_cons]
      omega
    have hget : rv.table[pre.length]? = some e := by
      rw [he, List.getElem?_append_right le_rfl, Nat.sub_self, List.getElem?_cons_zero]
    refine iff_of_true ⟨pre.length, lookup_eq hs he hpre hu, hlt, fun j hj => ?_,
      .inl ⟨e, hget, hu⟩⟩ ?_
    · rw [he, List.getElem?_append_left hj]
      exact getElem?_of_lt hpre hj
    · rcases Nat.eq_zero_or_pos pre.length with hz | hpos
      · exact .inr ⟨e, hz ▸ hget, hu⟩
      · exact .inl (by omega)
  · rw [lookup_of_above ht hall]
    constructor
    · rintro ⟨i, hi, hf⟩
      rw [Option.some.injEq] at hi
      have hlt := hf.lt
      exact .inl (by omega)
    · rintro (h2 | ⟨e, he, hu⟩)
      · have hmax : max 1 l.length + 1 = rv.table.length := by omega
        refine ⟨_, rfl, by omega, fun j hj => getElem?_of_lt hall (by omega), .inr ⟨hmax, hall⟩⟩
      · exact absurd hu (hall e (List.mem_of_getElem? he)).not_ge

/-- A table of two rows. -/
def twoRows : EmpiricalRandomVariable ℚ where
  minCDF := 0
  maxCDF := 1
  interpolation := .none
  table := [⟨1 / 4, 0⟩, ⟨1 / 2, 1⟩]

/-- A draw above both ends at the second. -/
theorem lookup_found_iff_above : ∃ i, twoRows.lookup 1 = some i ∧ Found twoRows.table 1 i :=
  have hsorted : twoRows.table.Pairwise (·.cdf ≤ ·.cdf) := by
    simp only [twoRows, List.pairwise_cons, List.mem_singleton]
    norm_num
  (lookup_found_iff hsorted (List.cons_ne_nil _ _)).mpr (.inl le_rfl)

/-- A table of one row. -/
def oneRow : EmpiricalRandomVariable ℚ where
  minCDF := 0
  maxCDF := 1
  interpolation := .none
  table := [⟨1 / 2, 0⟩]

/-- A draw above it ends outside the table. -/
theorem lookup_past_only_row : oneRow.lookup 1 = some 1 ∧ oneRow.table.length = 1 ∧
    ¬ ∃ i, oneRow.lookup 1 = some i ∧ Found oneRow.table 1 i := by
  have hl : oneRow.lookup 1 = some 1 := by
    refine lookup_of_above (x := ⟨1 / 2, 0⟩) (l := []) rfl fun e he => ?_
    rw [List.mem_singleton.mp he]
    norm_num
  refine ⟨hl, rfl, ?_⟩
  rintro ⟨i, hi, hf⟩
  rw [hl, Option.some.injEq] at hi
  have hlt := hf.lt
  rw [← hi] at hlt
  exact absurd hlt (lt_irrefl 1)

end EmpiricalRandomVariable

end Afabric
