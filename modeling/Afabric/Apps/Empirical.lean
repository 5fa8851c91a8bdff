import Afabric.Support.Integrals

/-!
# Apps — the mean of an empirical random variable

`EmpiricalRandomVariable` (`tools/ranvar.cc`) draws a value from the table of a cumulative
distribution, and `random_variables.py` computes its mean, from which the load is set.

With integral interpolation the generator rounds up, so that it draws one of the integers above the
lower value of a segment, up to the upper one; the first value stands for itself.  The script takes
the integers from the lower value up to the one below the upper, and leaves the first value out
(`load_mean_iff`).
-/

namespace Afabric

/-- `CDFentry`: a row of the table. -/
structure CDFentry (K : Type) where
  cdf : K
  val : K

/-- The codes of `EmpiricalInterpolation`, `INTER_DISCRETE` and the others. -/
inductive EmpiricalInterpolation
  | none
  | continuous
  | integral
deriving DecidableEq, Repr

/-! ### The script -/

namespace EmpiricalInterpolation

variable {K : Type} [Field K]

/-- `_interpolate_none`, `_interpolate_continous` and `_interpolate_integral`. -/
def interpolate : EmpiricalInterpolation → K → K → K
  | none, _, stop => stop
  | continuous, start, stop => (stop + start) / (2 : ℕ)
  | integral, start, stop => start + (stop - start - 1) / (2 : ℕ)

/-- `mean`. -/
def mean (i : EmpiricalInterpolation) (cdf : List (CDFentry K)) : K :=
  ((cdf.dropLast.zip cdf.tail).map fun p =>
    (p.2.cdf - p.1.cdf) * i.interpolate p.1.val p.2.val).sum

@[simp] theorem mean_singleton (i : EmpiricalInterpolation) (e : CDFentry K) : i.mean [e] = 0 := rfl

@[simp] theorem mean_cons_cons (i : EmpiricalInterpolation) (e e' : CDFentry K)
    (l : List (CDFentry K)) :
    i.mean (e :: e' :: l) = (e'.cdf - e.cdf) * i.interpolate e.val e'.val + i.mean (e' :: l) := by
  rfl

end EmpiricalInterpolation

/-! ### The generator -/

/-- An `EmpiricalRandomVariable` with its table. -/
structure EmpiricalRandomVariable (K : Type) where
  minCDF : K
  maxCDF : K
  interpolation : EmpiricalInterpolation
  table : List (CDFentry K)

namespace EmpiricalRandomVariable

variable {K : Type} [LinearOrder K] (rv : EmpiricalRandomVariable K)

/-- The loop of `lookup`. -/
def lookupFrom (u : K) (lo hi : ℕ) : Option ℕ :=
  if h : lo < hi then do
    let e ← rv.table[(lo + hi) / 2]?
    if e.cdf < u then lookupFrom u ((lo + hi) / 2 + 1) hi
    else lookupFrom u lo ((lo + hi) / 2)
  else some lo
termination_by hi - lo

/-- `lookup`. -/
def lookup (u : K) : Option ℕ := do
  let e ← rv.table[0]?
  if u ≤ e.cdf then some 0
  else rv.lookupFrom u 1 (rv.table.length - 1)

/-! ### The search -/

section Search

variable {rv} {u : K}

/-- The search ends at `i` if the rows before it are below `u` and the others are not. -/
theorem lookupFrom_eq {i lo hi : ℕ} (hlo : lo ≤ i) (hhi : i ≤ hi)
    (hbelow : ∀ j, j < i → ∃ e, rv.table[j]? = some e ∧ e.cdf < u)
    (habove : ∀ j, i ≤ j → j < hi → ∃ e, rv.table[j]? = some e ∧ u ≤ e.cdf) :
    rv.lookupFrom u lo hi = some i := by
  fun_induction lookupFrom rv u lo hi with
  | case1 lo hi h ih₁ ih₂ =>
    by_cases hmid : (lo + hi) / 2 < i
    · obtain ⟨e, he, hlt⟩ := hbelow _ hmid
      simp only [he, Option.bind_eq_bind, Option.bind_some, if_pos hlt]
      exact ih₁ hmid hhi habove
    · obtain ⟨e, he, hle⟩ := habove ((lo + hi) / 2) (by omega) (by omega)
      simp only [he, Option.bind_eq_bind, Option.bind_some, if_neg hle.not_gt]
      exact ih₂ hlo (by omega) fun j h₁ h₂ => habove j h₁ (by omega)
  | case2 lo hi h => exact congrArg some (by omega)

theorem lookup_eq (hs : rv.table.Pairwise (·.cdf ≤ ·.cdf)) {pre post : List (CDFentry K)}
    {e : CDFentry K} (ht : rv.table = pre ++ e :: post) (hpre : ∀ x ∈ pre, x.cdf < u)
    (hu : u ≤ e.cdf) : rv.lookup u = some pre.length := by
  have hbelow : ∀ j, j < pre.length → ∃ e, rv.table[j]? = some e ∧ e.cdf < u := fun j hj =>
    ⟨pre[j], by rw [ht, List.getElem?_append_left hj, List.getElem?_eq_getElem hj],
      hpre _ (List.getElem_mem hj)⟩
  have habove : ∀ j, pre.length ≤ j → j ≤ rv.table.length - 1 →
      ∃ e, rv.table[j]? = some e ∧ u ≤ e.cdf := by
    intro j h₁ h₂
    rw [ht, List.pairwise_append, List.pairwise_cons] at hs
    have hlen : j - pre.length < (e :: post).length := by
      rw [ht, List.length_append, List.length_cons] at h₂
      rw [List.length_cons]
      omega
    refine ⟨(e :: post)[j - pre.length], ?_, ?_⟩
    · rw [ht, List.getElem?_append_right h₁, List.getElem?_eq_getElem hlen]
    · rcases List.mem_cons.mp (List.getElem_mem hlen) with h | h
      · rwa [h]
      · exact hu.trans (hs.2.1.1 _ h)
  unfold lookup
  -- the first row is looked at before the binary search
  cases pre with
  | nil =>
    rw [ht]
    simp only [List.nil_append, List.getElem?_cons_zero, Option.bind_eq_bind, Option.bind_some,
      if_pos hu, List.length_nil]
  | cons x pre =>
    have hx := hpre x List.mem_cons_self
    have hget : rv.table[0]? = some x := by rw [ht]; rfl
    simp only [hget, Option.bind_eq_bind, Option.bind_some, if_neg hx.not_ge]
    refine lookupFrom_eq (by simp) ?_ hbelow fun j h₁ h₂ => habove j h₁ h₂.le
    rw [ht, List.length_append, List.length_cons, List.length_cons]
    omega

end Search

/-! ### The value -/

section Value

variable [Field K] [FloorRing K]

/-- `RNG::uniform(a, b)`, for the `r` that `uniform()` returns. -/
def uniform (a b r : K) : K := a + r * (b - a)

/-- `interpolate`. -/
def interpolate (x x₁ y₁ x₂ y₂ : K) : K :=
  let value := y₁ + (x - x₁) * (y₂ - y₁) / (x₂ - x₁)
  if rv.interpolation = .integral then (⌈value⌉ : ℤ) else value

/-- `value`, for the `r` that `uniform()` returns; `none` is a read outside the table. -/
def value (r : K) : Option K :=
  if rv.table.length ≤ 0 then some 0
  else do
    let u := uniform rv.minCDF rv.maxCDF r
    let mid ← rv.lookup u
    let e ← rv.table[mid]?
    if mid ≠ 0 ∧ rv.interpolation ≠ .none ∧ u < e.cdf then
      let e' ← rv.table[mid - 1]?
      return rv.interpolate u e'.cdf e'.val e.cdf e.val
    else return e.val

end Value

end EmpiricalRandomVariable

/-! ### The mean of the generator -/

open Set (Icc Ioo mem_Icc mem_Ioo)

/-- A table of increasing integers with their cumulative probabilities, of which the last is one. -/
structure IntegerCdf where
  first : CDFentry ℝ
  rest : List (CDFentry ℝ)
  cdf_nonneg : 0 ≤ first.cdf
  cdf_sorted : (first :: rest).Pairwise (·.cdf ≤ ·.cdf)
  cdf_last : ((first :: rest).getLast (List.cons_ne_nil _ _)).cdf = 1
  val_sorted : (first :: rest).Pairwise (·.val < ·.val)
  val_int : ∀ e ∈ first :: rest, ∃ z : ℤ, e.val = z

namespace IntegerCdf

variable (t : IntegerCdf)

def table : List (CDFentry ℝ) := t.first :: t.rest

/-- The generator with the table, that rounds up; the bounds are those of the constructor. -/
def generator : EmpiricalRandomVariable ℝ := ⟨0, 1, .integral, t.table⟩

variable {t} {pre post : List (CDFentry ℝ)} {e e' : CDFentry ℝ} {u : ℝ}

theorem cdf_mem (he : e ∈ t.table) : e.cdf ∈ Icc 0 1 := by
  constructor
  · rcases List.mem_cons.mp he with rfl | h
    · exact t.cdf_nonneg
    · exact t.cdf_nonneg.trans ((List.pairwise_cons.mp t.cdf_sorted).1 e h)
  · rw [← t.cdf_last]
    exact t.cdf_sorted.rel_getLast he

theorem lookup_eq (ht : t.table = pre ++ e :: post) (hpre : ∀ x ∈ pre, x.cdf < u)
    (hu : u ≤ e.cdf) : t.generator.lookup u = some pre.length :=
  EmpiricalRandomVariable.lookup_eq t.cdf_sorted ht hpre hu

/-- The value of a draw that ends at `e`. -/
theorem value_eq (ht : t.table = pre ++ e :: post) (hpre : ∀ x ∈ pre, x.cdf < u) (hu : u ≤ e.cdf) :
    t.generator.value u = if pre.length ≠ 0 ∧ u < e.cdf then
      (t.table[pre.length - 1]?).map fun e' =>
        (⌈e'.val + (u - e'.cdf) * (e.val - e'.val) / (e.cdf - e'.cdf)⌉ : ℝ)
      else some e.val := by
  have hget : t.generator.table[pre.length]? = some e := by
    show t.table[pre.length]? = _
    rw [ht, List.getElem?_append_right le_rfl, Nat.sub_self, List.getElem?_cons_zero]
  have hlen : ¬ t.generator.table.length ≤ 0 := by
    show ¬ t.table.length ≤ 0
    simp [ht]
  have hdraw : EmpiricalRandomVariable.uniform t.generator.minCDF t.generator.maxCDF u = u := by
    simp [EmpiricalRandomVariable.uniform, generator]
  rw [EmpiricalRandomVariable.value, if_neg hlen]
  simp only [hdraw, lookup_eq ht hpre hu, hget, Option.bind_eq_bind, Option.bind_some]
  by_cases hc : pre.length ≠ 0 ∧ u < e.cdf
  · rw [if_pos hc, if_pos ⟨hc.1, by simp [generator], hc.2⟩]
    cases h : t.table[pre.length - 1]? with
    | none => simp [generator, h]
    | some e' => simp [generator, h, EmpiricalRandomVariable.interpolate]
  · rw [if_neg hc, if_neg fun h => hc ⟨h.1, h.2.2⟩]
    rfl

/-- Up to the first probability the first value stands for itself. -/
theorem value_first (hu : u ≤ t.first.cdf) : t.generator.value u = some t.first.val := by
  have ht : t.table = [] ++ t.first :: t.rest := rfl
  rw [value_eq ht (by simp) hu]
  simp

/-- Between two rows the line is rounded up. -/
theorem value_between (ht : t.table = pre ++ e' :: e :: post) (hu : u ∈ Ioo e'.cdf e.cdf) :
    t.generator.value u =
      some (⌈e'.val + (u - e'.cdf) * (e.val - e'.val) / (e.cdf - e'.cdf)⌉ : ℝ) := by
  have hs : t.table.Pairwise (·.cdf ≤ ·.cdf) := t.cdf_sorted
  have ht' : t.table = (pre ++ [e']) ++ e :: post := by rw [ht, List.append_assoc]; rfl
  have hpre : ∀ x ∈ pre ++ [e'], x.cdf < u := by
    rw [ht, List.pairwise_append] at hs
    intro x hx
    rcases List.mem_append.mp hx with h | h
    · exact (hs.2.2 x h e' List.mem_cons_self).trans_lt hu.1
    · rw [List.mem_singleton.mp h]
      exact hu.1
  have hget : t.table[(pre ++ [e']).length - 1]? = some e' := by
    rw [ht, List.length_append, List.length_singleton, Nat.add_sub_cancel,
      List.getElem?_append_right le_rfl, Nat.sub_self, List.getElem?_cons_zero]
  rw [value_eq ht' hpre hu.2.le, if_pos ⟨by simp, hu.2⟩, hget]
  rfl

/-- The row at which the search for a draw ends. -/
theorem exists_row (l : List (CDFentry ℝ)) (hne : l ≠ []) (hu : u ≤ (l.getLast hne).cdf) :
    ∃ pre e post, l = pre ++ e :: post ∧ (∀ x ∈ pre, x.cdf < u) ∧ u ≤ e.cdf := by
  induction l with
  | nil => exact absurd rfl hne
  | cons x l ih =>
    by_cases hx : u ≤ x.cdf
    · exact ⟨[], x, l, rfl, by simp, hx⟩
    · have hl : l ≠ [] := by
        rintro rfl
        exact hx hu
      rw [List.getLast_cons hl] at hu
      obtain ⟨pre, e, post, rfl, hpre, he⟩ := ih hl hu
      exact ⟨x :: pre, e, post, rfl, List.forall_mem_cons.mpr ⟨lt_of_not_ge hx, hpre⟩, he⟩

/-- No draw reads outside the table. -/
theorem exists_value (hu : u ≤ 1) : ∃ v, t.generator.value u = some v := by
  obtain ⟨pre, e, post, ht, hpre, he⟩ :=
    exists_row t.table (List.cons_ne_nil _ _) (hu.trans_eq t.cdf_last.symm)
  rw [value_eq ht hpre he]
  split
  · rename_i hc
    have hlen : pre.length - 1 < t.table.length := by
      rw [ht, List.length_append]
      omega
    rw [List.getElem?_eq_getElem hlen]
    exact ⟨_, rfl⟩
  · exact ⟨_, rfl⟩

/-- Between two rows the generator is above the script by one, for each draw. -/
theorem integratesTo_between {f : ℝ → ℝ}
    (hf : ∀ r ∈ Icc 0 1, t.generator.value r = some (f r)) (ht : t.table = pre ++ e' :: e :: post) :
    IntegratesTo f e'.cdf e.cdf
      ((e.cdf - e'.cdf) * (EmpiricalInterpolation.integral.interpolate e'.val e.val + 1)) := by
  have he' : e' ∈ t.table := by rw [ht]; simp
  have he : e ∈ t.table := by rw [ht]; simp
  have hcdf : t.table.Pairwise (·.cdf ≤ ·.cdf) := t.cdf_sorted
  have hval : t.table.Pairwise (·.val < ·.val) := t.val_sorted
  rw [ht, List.pairwise_append, List.pairwise_cons] at hcdf hval
  have hle : e'.cdf ≤ e.cdf := hcdf.2.1.1 e List.mem_cons_self
  have hlt : e'.val < e.val := hval.2.1.1 e List.mem_cons_self
  rcases hle.eq_or_lt with heq | hpos
  · rw [heq, sub_self, zero_mul]
    exact IntegratesTo.refl f e.cdf
  · obtain ⟨y, hy⟩ := t.val_int e' he'
    obtain ⟨z, hz⟩ := t.val_int e he
    rw [hy, hz, Int.cast_lt] at hlt
    obtain ⟨m, hm⟩ := Int.eq_ofNat_of_zero_le (sub_nonneg.mpr hlt.le)
    have hzy : e.val - e'.val = m := by
      rw [hy, hz]
      exact_mod_cast hm
    -- rounding up draws each of the `m` integers above `y` on an equal part of the segment
    have hline := IntegratesTo.ceil_line hpos y (show 0 < m by omega)
    have hmean : EmpiricalInterpolation.integral.interpolate e'.val e.val + 1 =
        y + ((m : ℝ) + 1) / 2 := by
      rw [EmpiricalInterpolation.interpolate, hzy, hy]
      ring
    rw [hmean]
    refine hline.congr hle fun u hu => ?_
    have hv := hf u ⟨(cdf_mem he').1.trans hu.1.le, hu.2.le.trans (cdf_mem he).2⟩
    rw [value_between ht hu, hzy, hy] at hv
    exact Option.some.inj hv

/-- The same from a row on. -/
theorem integratesTo_from {f : ℝ → ℝ} (hf : ∀ r ∈ Icc 0 1, t.generator.value r = some (f r)) :
    ∀ (rest pre : List (CDFentry ℝ)) (e : CDFentry ℝ), t.table = pre ++ e :: rest →
      IntegratesTo f e.cdf 1 (EmpiricalInterpolation.integral.mean (e :: rest) + (1 - e.cdf)) := by
  intro rest
  induction rest with
  | nil =>
    intro pre e ht
    have hlast : e.cdf = 1 := by
      rw [← t.cdf_last]
      show _ = (t.table.getLast _).cdf
      simp only [ht, List.getLast_append_singleton]
    have h := IntegratesTo.refl f 1
    rwa [hlast, EmpiricalInterpolation.mean_singleton, sub_self, add_zero]
  | cons e' rest ih =>
    intro pre e ht
    have hseg := integratesTo_between hf ht
    have hrest := ih (pre ++ [e]) e' (by rw [ht, List.append_assoc]; rfl)
    have hsum : (e'.cdf - e.cdf) *
          (EmpiricalInterpolation.integral.interpolate e.val e'.val + 1) +
        (EmpiricalInterpolation.integral.mean (e' :: rest) + (1 - e'.cdf)) =
        EmpiricalInterpolation.integral.mean (e :: e' :: rest) + (1 - e.cdf) := by
      rw [EmpiricalInterpolation.mean_cons_cons]
      ring
    rw [← hsum]
    exact hseg.trans hrest

end IntegerCdf

/-- The expectation of a generator over the draws of `uniform()`. -/
def EmpiricalRandomVariable.HasMean (rv : EmpiricalRandomVariable ℝ) (m : ℝ) : Prop :=
  ∃ f : ℝ → ℝ, (∀ r ∈ Icc 0 1, rv.value r = some (f r)) ∧ IntegratesTo f 0 1 m

theorem EmpiricalRandomVariable.HasMean.unique {rv : EmpiricalRandomVariable ℝ} {m m' : ℝ}
    (h : rv.HasMean m) (h' : rv.HasMean m') : m = m' := by
  obtain ⟨f, hf, hm⟩ := h
  obtain ⟨g, hg, hm'⟩ := h'
  refine hm.unique (hm'.congr zero_le_one fun u hu => ?_)
  have hu' : u ∈ Icc (0 : ℝ) 1 := ⟨hu.1.le, hu.2.le⟩
  exact Option.some.inj ((hg u hu').symm.trans (hf u hu'))

namespace IntegerCdf

variable (t : IntegerCdf)

/-- What the generator draws on average, by what the script computes. -/
theorem generator_mean : t.generator.HasMean (t.first.cdf * t.first.val +
    (EmpiricalInterpolation.integral.mean t.table + (1 - t.first.cdf))) := by
  choose! f hf using fun u (hu : u ∈ Icc (0 : ℝ) 1) => exists_value (t := t) hu.2
  have hfirst : IntegratesTo f 0 t.first.cdf (t.first.cdf * t.first.val) := by
    have hconst := IntegratesTo.const 0 t.first.cdf t.first.val
    rw [sub_zero] at hconst
    refine hconst.congr t.cdf_nonneg fun u hu => ?_
    have hv := hf u ⟨hu.1.le, hu.2.le.trans (cdf_mem List.mem_cons_self).2⟩
    rw [value_first hu.2.le] at hv
    exact Option.some.inj hv
  exact ⟨f, hf, hfirst.trans (integratesTo_from hf t.rest [] t.first rfl)⟩

/-- **The load is that of the generator.**  The mean that the script computes is the expectation of
the generator if and only if the first row, of the probability `p` and the value `v`, has
`p * (1 - v) = 1`. -/
theorem load_mean_iff : t.generator.HasMean (EmpiricalInterpolation.integral.mean t.table) ↔
    t.first.cdf * (1 - t.first.val) = 1 := by
  have hmean := t.generator_mean
  constructor
  · intro h
    have := h.unique hmean
    linarith
  · intro h
    have hzero : t.first.cdf * t.first.val + (EmpiricalInterpolation.integral.mean t.table +
        (1 - t.first.cdf)) = EmpiricalInterpolation.integral.mean t.table := by
      linarith
    rwa [hzero] at hmean

end IntegerCdf

/-- One packet or two, each half of the time. -/
noncomputable def oneOrTwo : IntegerCdf where
  first := ⟨1 / (2 : ℕ), 1⟩
  rest := [⟨1, (2 : ℕ)⟩]
  cdf_nonneg := by norm_num
  cdf_sorted := by norm_num
  cdf_last := rfl
  val_sorted := by norm_num
  val_int e he := by
    rw [List.mem_pair] at he
    rcases he with rfl | rfl
    · exact ⟨1, by norm_num⟩
    · exact ⟨2, by norm_num⟩

/-- The generator draws one and a half on average, the script computes a half. -/
theorem oneOrTwo_mean : EmpiricalInterpolation.integral.mean oneOrTwo.table = 1 / 2 ∧
    oneOrTwo.generator.HasMean (3 / 2) ∧
    ¬ oneOrTwo.generator.HasMean (EmpiricalInterpolation.integral.mean oneOrTwo.table) := by
  have hscript : EmpiricalInterpolation.integral.mean oneOrTwo.table = 1 / 2 := by
    simp only [IntegerCdf.table, oneOrTwo, EmpiricalInterpolation.mean_cons_cons,
      EmpiricalInterpolation.mean_singleton, EmpiricalInterpolation.interpolate]
    norm_num
  have hmean : oneOrTwo.generator.HasMean (3 / 2) := by
    have h := oneOrTwo.generator_mean
    rw [hscript] at h
    convert h using 1
    norm_num [oneOrTwo]
  refine ⟨hscript, hmean, fun h => ?_⟩
  have := h.unique hmean
  rw [hscript] at this
  norm_num at this

end Afabric
