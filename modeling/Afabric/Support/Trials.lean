import Mathlib.Algebra.Order.BigOperators.Ring.Finset

/-!
# Support — independent trials

An outcome of `n` independent trials is the set of those that succeed, and its probability is a
product with a factor for each trial.  `atMost` is the probability of at most `i` successes;
`atMost_eq_sum` is its value with binomial coefficients.  A coefficient that is multiplied up from
quotients rounded down is right if and only if no quotient is rounded (`flooredChoose_eq_iff`).
-/

namespace Afabric

/-! ### At most so many successes -/

section Trials

variable {K : Type*}

/-- The probability that the trials of `s` succeed, and no others. -/
def outcomeProb [CommRing K] {n : ℕ} (p : K) (s : Finset (Fin n)) : K :=
  ∏ j, if j ∈ s then p else 1 - p

/-- The probability of at most `i` successes in `n` trials. -/
def atMost [CommRing K] (p : K) (n i : ℕ) : K :=
  ∑ s : Finset (Fin n) with s.card ≤ i, outcomeProb p s

theorem outcomeProb_eq [CommRing K] {n : ℕ} (p : K) (s : Finset (Fin n)) :
    outcomeProb p s = p ^ s.card * (1 - p) ^ (n - s.card) := by
  rw [outcomeProb, Finset.prod_ite, Finset.prod_const, Finset.prod_const, Finset.filter_univ_mem]
  congr 2
  rw [Finset.filter_not, Finset.filter_univ_mem, ← Finset.compl_eq_univ_sdiff, Finset.card_compl,
    Fintype.card_fin]

/-- The binomial distribution. -/
theorem atMost_eq_sum [CommRing K] (p : K) (n i : ℕ) :
    atMost p n i = ∑ k ∈ Finset.range (i + 1), (n.choose k : K) * p ^ k * (1 - p) ^ (n - k) := by
  have hmaps : ∀ s ∈ ({s | s.card ≤ i} : Finset (Finset (Fin n))),
      s.card ∈ Finset.range (i + 1) := by
    intro s hs
    rw [Finset.mem_range, Nat.lt_succ_iff]
    exact (Finset.mem_filter.mp hs).2
  rw [atMost, ← Finset.sum_fiberwise_of_maps_to hmaps]
  refine Finset.sum_congr rfl fun k hk => ?_
  have hfiber : ({s ∈ ({s | s.card ≤ i} : Finset (Finset (Fin n))) | s.card = k}) =
      Finset.powersetCard k Finset.univ := by
    ext s
    rw [Finset.mem_filter, Finset.mem_filter, Finset.mem_powersetCard]
    rw [Finset.mem_range, Nat.lt_succ_iff] at hk
    constructor
    · rintro ⟨-, rfl⟩
      exact ⟨Finset.subset_univ s, rfl⟩
    · rintro ⟨-, rfl⟩
      exact ⟨⟨Finset.mem_univ s, hk⟩, rfl⟩
  have hconst : ∀ s ∈ Finset.powersetCard k (Finset.univ : Finset (Fin n)),
      outcomeProb p s = p ^ k * (1 - p) ^ (n - k) := by
    intro s hs
    rw [outcomeProb_eq, (Finset.mem_powersetCard.mp hs).2]
  rw [hfiber, Finset.sum_congr rfl hconst, Finset.sum_const, Finset.card_powersetCard,
    Finset.card_univ, Fintype.card_fin, nsmul_eq_mul, mul_assoc]

/-- Some outcome is certain. -/
theorem sum_outcomeProb [CommRing K] (p : K) (n : ℕ) :
    ∑ s : Finset (Fin n), outcomeProb p s = 1 := by
  have hsum := Fintype.sum_pow_mul_eq_add_pow (Fin n) p (1 - p)
  rw [Fintype.card_fin, add_sub_cancel, one_pow] at hsum
  rw [← hsum]
  exact Finset.sum_congr rfl fun s _ => outcomeProb_eq p s

variable [Field K] [LinearOrder K] [IsStrictOrderedRing K] {p : K} {n : ℕ}

theorem outcomeProb_nonneg (h0 : 0 ≤ p) (h1 : p ≤ 1) (s : Finset (Fin n)) : 0 ≤ outcomeProb p s := by
  rw [outcomeProb_eq]
  exact mul_nonneg (pow_nonneg h0 _) (pow_nonneg (sub_nonneg.mpr h1) _)

theorem atMost_nonneg (h0 : 0 ≤ p) (h1 : p ≤ 1) (n i : ℕ) : 0 ≤ atMost p n i :=
  Finset.sum_nonneg fun s _ => outcomeProb_nonneg h0 h1 s

theorem atMost_mono (h0 : 0 ≤ p) (h1 : p ≤ 1) (n : ℕ) {i j : ℕ} (hij : i ≤ j) :
    atMost p n i ≤ atMost p n j := by
  refine Finset.sum_le_sum_of_subset_of_nonneg (fun s hs => ?_) fun s _ _ =>
    outcomeProb_nonneg h0 h1 s
  rw [Finset.mem_filter] at hs ⊢
  exact ⟨hs.1, hs.2.trans hij⟩

theorem atMost_le_one (h0 : 0 ≤ p) (h1 : p ≤ 1) (n i : ℕ) : atMost p n i ≤ 1 := by
  rw [← sum_outcomeProb p n]
  exact Finset.sum_le_sum_of_subset_of_nonneg (Finset.filter_subset _ _) fun s _ _ =>
    outcomeProb_nonneg h0 h1 s

end Trials

/-! ### Rounded coefficients -/

/-- A binomial coefficient from quotients that are rounded down. -/
def flooredChoose (n : ℕ) : ℕ → ℕ
  | 0 => 1
  | k + 1 => flooredChoose n k * ((n - k) / (k + 1))

theorem flooredChoose_spec {n k : ℕ} (hk : k ≤ n) : flooredChoose n k ≤ n.choose k ∧
    (flooredChoose n k = n.choose k ↔ ∀ i < k, i + 1 ∣ n - i) := by
  induction k with
  | zero =>
      exact ⟨(Nat.choose_zero_right n).ge, iff_of_true (Nat.choose_zero_right n).symm fun i hi =>
        absurd hi (Nat.not_lt_zero i)⟩
  | succ k ih =>
      obtain ⟨hle, heq⟩ := ih (Nat.le_of_succ_le hk)
      have hchoose : n.choose (k + 1) * (k + 1) = n.choose k * (n - k) :=
        Nat.choose_succ_right_eq n k
      have hpos : 0 < n.choose k := Nat.choose_pos (Nat.le_of_succ_le hk)
      have hdiv : (n - k) / (k + 1) * (k + 1) ≤ n - k := Nat.div_mul_le_self _ _
      have hstep : flooredChoose n (k + 1) * (k + 1) ≤ n.choose (k + 1) * (k + 1) := by
        rw [hchoose, flooredChoose, mul_assoc]
        exact Nat.mul_le_mul hle hdiv
      refine ⟨Nat.le_of_mul_le_mul_right hstep (Nat.succ_pos k), ?_⟩
      have hall : (∀ i < k + 1, i + 1 ∣ n - i) ↔
          flooredChoose n k = n.choose k ∧ k + 1 ∣ n - k := by
        rw [heq, Nat.forall_lt_succ_right]
      rw [hall]
      constructor
      · intro hsame
        -- neither factor can have got smaller
        have hprod : flooredChoose n k * ((n - k) / (k + 1) * (k + 1)) = n.choose k * (n - k) := by
          rw [← hchoose, ← hsame, flooredChoose, mul_assoc]
        have hkeep : flooredChoose n k = n.choose k := by
          refine le_antisymm hle (le_of_not_gt fun hlt => ?_)
          have hless : flooredChoose n k * ((n - k) / (k + 1) * (k + 1)) <
              n.choose k * (n - k) :=
            Nat.mul_lt_mul_of_lt_of_le hlt hdiv (Nat.sub_pos_of_lt hk)
          exact hless.ne hprod
        rw [hkeep] at hprod
        exact ⟨hkeep, Dvd.intro_left _ (Nat.eq_of_mul_eq_mul_left hpos hprod)⟩
      · rintro ⟨hkeep, hdvd⟩
        refine Nat.eq_of_mul_eq_mul_right (Nat.succ_pos k) ?_
        rw [hchoose, flooredChoose, mul_assoc, hkeep, Nat.div_mul_cancel hdvd]

/-- **A coefficient is right if and only if nothing is rounded**: each of `1` to `k` divides
`n + 1`. -/
theorem flooredChoose_eq_iff {n k : ℕ} (hk : k ≤ n) :
    flooredChoose n k = n.choose k ↔ ∀ j, 1 ≤ j → j ≤ k → j ∣ n + 1 := by
  rw [(flooredChoose_spec hk).2]
  have hshift : ∀ i < k, (i + 1 ∣ n - i ↔ i + 1 ∣ n + 1) := by
    intro i hi
    rw [show n + 1 = n - i + (i + 1) by omega, Nat.dvd_add_self_right]
  constructor
  · intro h j hj hjk
    obtain ⟨i, rfl⟩ : ∃ i, j = i + 1 := ⟨j - 1, by omega⟩
    exact (hshift i hjk).mp (h i hjk)
  · intro h i hi
    exact (hshift i hi).mpr (h (i + 1) (Nat.succ_pos i) hi)

end Afabric
