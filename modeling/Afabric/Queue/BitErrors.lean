import Afabric.Support.Trials
import Mathlib.Tactic.NormNum

/-!
# Queue — bit errors

`ErrorModel` with `EU_BIT` (`queue/errmodel.cc`): the number of corrupted bits of a packet is drawn
from a table of cumulative probabilities, which is made once, for each of two packet sizes.  The
table is summed up in place and its last entry is 1, so every draw ends within it; but `comb`
divides integers, and the entries are those of the binomial distribution only where nothing is
rounded (`corruptBit_binomial_iff`).
-/

namespace Afabric

/-- `ErrorModel`, with its tables as functions of the index. -/
structure ErrorModel where
  rate : ℚ
  fecStrength : ℕ
  datapktsize : ℤ
  cntrlpktsize : ℤ
  firstTime : Bool
  dataprb : ℕ → ℚ
  cntrlprb : ℕ → ℚ

/-- `comb`. -/
def comb (n : ℤ) (k : ℕ) : ℚ :=
  (List.range k).foldl (fun sum (i : ℕ) => sum * ((n - i).tdiv (i + 1) : ℤ)) 1

namespace ErrorModel

/-- The entries before they are summed up; those that are not written are 0. -/
def bitErrProb (e : ErrorModel) (size : ℤ) (i : ℕ) : ℚ :=
  if i < e.fecStrength + 1 then comb size i * e.rate ^ i * (1 - e.rate) ^ (size - i) else 0

/-- `for (i = 0; i < n; i++) dptr[i + 1] += dptr[i]`. -/
def cumulate (n : ℕ) (dptr : ℕ → ℚ) : ℕ → ℚ :=
  (List.range n).foldl (fun d i => Function.update d (i + 1) (d (i + 1) + d i)) dptr

/-- `ComputeBitErrProb`. -/
def computeBitErrProb (e : ErrorModel) (size : ℤ) : ℕ → ℚ :=
  Function.update (cumulate e.fecStrength (e.bitErrProb size)) (e.fecStrength + 1) 1

/-- The tables are computed the first time. -/
def prepare (e : ErrorModel) : ErrorModel :=
  if e.firstTime ∧ e.fecStrength ≠ 0 then
    { e with
      cntrlprb := e.computeBitErrProb e.cntrlpktsize
      dataprb := e.computeBitErrProb e.datapktsize
      firstTime := false }
  else e

/-- `CorruptBit` of a packet of the given size, for a draw `u`. -/
def corruptBit (u : ℚ) (size : ℤ) (e : ErrorModel) : ℕ × ErrorModel :=
  let e := e.prepare
  let dptr := if e.datapktsize ≤ size then e.dataprb else e.cntrlprb
  (((List.range (e.fecStrength + 2)).find? fun i => u < dptr i).getD (e.fecStrength + 2), e)

/-- `reset`. -/
def reset (e : ErrorModel) : ErrorModel := { e with firstTime := true }

/-- A draw for a packet, or a reset. -/
inductive Call where
  | corruptBit (u : ℚ) (size : ℤ)
  | reset

def step (e : ErrorModel) : Call → ErrorModel
  | .corruptBit u size => (e.corruptBit u size).2
  | .reset => e.reset

def run (cs : List Call) (e : ErrorModel) : ErrorModel := cs.foldl step e

/-- The packet size that the table for a packet is made for. -/
def pktsize (e : ErrorModel) (size : ℤ) : ℤ :=
  if e.datapktsize ≤ size then e.datapktsize else e.cntrlpktsize

variable {e e' : ErrorModel} {u : ℚ} {size : ℤ} {n k i : ℕ}

/-! ### The table -/

theorem comb_eq (hk : k ≤ n) : comb n k = (flooredChoose n k : ℚ) := by
  induction k with
  | zero => rfl
  | succ k ih =>
      have hdiv : ((n : ℤ) - k).tdiv (k + 1) = ((n - k) / (k + 1) : ℕ) := by
        rw [← Nat.cast_sub (Nat.le_of_succ_le hk)]
        exact Int.ofNat_tdiv (n - k) (k + 1)
      have hcomb : comb n (k + 1) = comb n k * (((n : ℤ) - k).tdiv (k + 1) : ℤ) := by
        rw [comb, List.range_succ, List.foldl_append]
        rfl
      rw [hcomb, ih (Nat.le_of_succ_le hk), hdiv, flooredChoose]
      push_cast
      rfl

/-- The in-place sums. -/
theorem cumulate_eq (n : ℕ) (d : ℕ → ℚ) (i : ℕ) :
    cumulate n d i = if i ≤ n then ∑ k ∈ Finset.range (i + 1), d k else d i := by
  induction n generalizing i with
  | zero =>
      rw [cumulate, List.range_zero, List.foldl_nil]
      split_ifs with hi
      · rw [Nat.le_zero.mp hi, Finset.sum_range_one]
      · rfl
  | succ n ih =>
      have hstep : cumulate (n + 1) d = Function.update (cumulate n d) (n + 1)
          (cumulate n d (n + 1) + cumulate n d n) := by
        rw [cumulate, List.range_succ, List.foldl_append]
        rfl
      rw [hstep]
      by_cases hi : i = n + 1
      · subst hi
        rw [Function.update_self, if_pos le_rfl, ih, ih, if_neg (Nat.not_succ_le_self n),
          if_pos le_rfl, Finset.sum_range_succ _ (n + 1), add_comm]
      · rw [Function.update_of_ne hi, ih]
        have hle : i ≤ n + 1 ↔ i ≤ n := by omega
        simp only [hle]

/-- An entry of the table before the last. -/
theorem computeBitErrProb_eq (hi : i ≤ e.fecStrength) (size : ℤ) :
    e.computeBitErrProb size i =
      ∑ k ∈ Finset.range (i + 1), comb size k * e.rate ^ k * (1 - e.rate) ^ (size - k) := by
  rw [computeBitErrProb, Function.update_of_ne (by omega), cumulate_eq, if_pos hi]
  refine Finset.sum_congr rfl fun k hk => ?_
  rw [Finset.mem_range] at hk
  rw [bitErrProb, if_pos (by omega)]

theorem computeBitErrProb_last (e : ErrorModel) (size : ℤ) :
    e.computeBitErrProb size (e.fecStrength + 1) = 1 := Function.update_self _ _ _

/-- Sums agree up to each index if and only if their terms do. -/
theorem sums_eq_iff {f g : ℕ → ℚ} (m : ℕ) :
    (∀ i ≤ m, ∑ k ∈ Finset.range (i + 1), f k = ∑ k ∈ Finset.range (i + 1), g k) ↔
      ∀ i ≤ m, f i = g i := by
  constructor
  · intro h i hi
    cases i with
    | zero => simpa using h 0 hi
    | succ i =>
        have hbefore := h i (Nat.le_of_succ_le hi)
        have hsum := h (i + 1) hi
        rw [Finset.sum_range_succ, Finset.sum_range_succ _ (i + 1), hbefore] at hsum
        exact add_left_cancel hsum
  · intro h i hi
    refine Finset.sum_congr rfl fun k hk => h k ?_
    rw [Finset.mem_range] at hk
    omega

/-- No quotient of `comb` matters that is rounded. -/
def NotRounded (e : ErrorModel) (n : ℕ) : Prop :=
  e.rate = 0 ∨ (e.rate = 1 ∧ e.fecStrength < n) ∨ ∀ j, 1 ≤ j → j ≤ e.fecStrength → j ∣ n + 1

/-- **The entries are those of the binomial distribution** if and only if nothing is rounded. -/
theorem computeBitErrProb_atMost_iff (hn : e.fecStrength ≤ n) :
    (∀ i ≤ e.fecStrength, e.computeBitErrProb n i = atMost e.rate n i) ↔ e.NotRounded n := by
  have hterm : ∀ i ≤ e.fecStrength,
      (comb n i * e.rate ^ i * (1 - e.rate) ^ ((n : ℤ) - i) =
        (n.choose i : ℚ) * e.rate ^ i * (1 - e.rate) ^ (n - i) ↔
      flooredChoose n i = n.choose i ∨ e.rate ^ i * (1 - e.rate) ^ (n - i) = 0) := by
    intro i hi
    rw [comb_eq (hi.trans hn), ← Nat.cast_sub (hi.trans hn), zpow_natCast, mul_assoc, mul_assoc,
      mul_eq_mul_right_iff, Nat.cast_inj]
  have hsums : (∀ i ≤ e.fecStrength, e.computeBitErrProb n i = atMost e.rate n i) ↔
      ∀ i ≤ e.fecStrength, ∑ k ∈ Finset.range (i + 1),
        comb n k * e.rate ^ k * (1 - e.rate) ^ ((n : ℤ) - k) =
          ∑ k ∈ Finset.range (i + 1), (n.choose k : ℚ) * e.rate ^ k * (1 - e.rate) ^ (n - k) :=
    forall₂_congr fun i hi => by rw [computeBitErrProb_eq hi, atMost_eq_sum]
  rw [hsums, sums_eq_iff, forall₂_congr hterm, NotRounded]
  constructor
  · intro h
    by_contra hnot
    obtain ⟨hzero, hrest⟩ := not_or.mp hnot
    obtain ⟨hone, hdvd⟩ := not_or.mp hrest
    -- the entry at the end has a weight, and its coefficient is rounded
    rcases h e.fecStrength le_rfl with heq | hweight
    · exact hdvd ((flooredChoose_eq_iff hn).mp heq)
    · have hq := (mul_eq_zero.mp hweight).resolve_left (pow_ne_zero _ hzero)
      have hlt : e.fecStrength < n := by
        refine lt_of_le_of_ne hn fun he => ?_
        rw [he, Nat.sub_self, pow_zero] at hq
        exact one_ne_zero hq
      exact hone ⟨(sub_eq_zero.mp (pow_eq_zero_iff (Nat.sub_pos_of_lt hlt).ne' |>.mp hq)).symm, hlt⟩
  · rintro (hzero | ⟨hone, hlt⟩ | hdvd) i hi
    · cases i with
      | zero => exact .inl (Nat.choose_zero_right n).symm
      | succ i =>
          right
          rw [hzero, zero_pow (Nat.succ_ne_zero i), zero_mul]
    · right
      rw [hone, sub_self, zero_pow (by omega), mul_zero]
    · exact .inl ((flooredChoose_eq_iff (hi.trans hn)).mpr fun j hj hji => hdvd j hj (hji.trans hi))

/-- The table for packets of `n` bits is that of the distribution. -/
structure Binomial (e : ErrorModel) (n : ℕ) : Prop where
  table : ∀ i ≤ e.fecStrength, e.computeBitErrProb n i = atMost e.rate n i
  mono : ∀ i ≤ e.fecStrength, e.computeBitErrProb n i ≤ e.computeBitErrProb n (i + 1)
  mem : ∀ i ≤ e.fecStrength + 1, 0 ≤ e.computeBitErrProb n i ∧ e.computeBitErrProb n i ≤ 1
  last : e.computeBitErrProb n (e.fecStrength + 1) = 1

theorem binomial_of_table (h0 : 0 ≤ e.rate) (h1 : e.rate ≤ 1)
    (h : ∀ i ≤ e.fecStrength, e.computeBitErrProb n i = atMost e.rate n i) : e.Binomial n := by
  have hlast := e.computeBitErrProb_last n
  refine ⟨h, fun i hi => ?_, fun i hi => ?_, hlast⟩
  · rw [h i hi]
    rcases Nat.eq_or_lt_of_le hi with rfl | hlt
    · rw [hlast]
      exact atMost_le_one h0 h1 n _
    · rw [h (i + 1) hlt]
      exact atMost_mono h0 h1 n (Nat.le_succ i)
  · rcases Nat.eq_or_lt_of_le hi with rfl | hlt
    · rw [hlast]
      exact ⟨zero_le_one, le_rfl⟩
    · rw [h i (Nat.le_of_lt_succ hlt)]
      exact ⟨atMost_nonneg h0 h1 n i, atMost_le_one h0 h1 n i⟩

/-! ### The draw -/

/-- The least entry of the table above the draw. -/
structure Drawn (e : ErrorModel) (size : ℤ) (u : ℚ) (i : ℕ) : Prop where
  le : i ≤ e.fecStrength + 1
  above : u < e.computeBitErrProb size i
  least : ∀ j < i, e.computeBitErrProb size j ≤ u

/-- A search that ends. -/
theorem find_least {d : ℕ → ℚ} {m : ℕ} (hm : u < d m) : ∃ i ≤ m, u < d i ∧ (∀ j < i, d j ≤ u) ∧
    (List.range (m + 1)).find? (fun i => u < d i) = some i := by
  classical
  have hex : ∃ i, u < d i := ⟨m, hm⟩
  have hle : Nat.find hex ≤ m := Nat.find_min' hex hm
  have hleast : ∀ j < Nat.find hex, d j ≤ u := fun j hj => not_lt.mp (Nat.find_min hex hj)
  refine ⟨Nat.find hex, hle, Nat.find_spec hex, hleast, ?_⟩
  rw [List.find?_range_eq_some]
  refine ⟨decide_eq_true (Nat.find_spec hex), List.mem_range.mpr (Nat.lt_succ_of_le hle), ?_⟩
  intro j hj
  rw [decide_eq_false (not_lt.mpr (hleast j hj))]
  rfl

/-- The model `e'` has the settings of `e`, and its tables if they have been made. -/
structure Since (e e' : ErrorModel) : Prop where
  rate : e'.rate = e.rate
  fecStrength : e'.fecStrength = e.fecStrength
  datapktsize : e'.datapktsize = e.datapktsize
  cntrlpktsize : e'.cntrlpktsize = e.cntrlpktsize
  tables : e'.firstTime = false → e'.dataprb = e.computeBitErrProb e.datapktsize ∧
    e'.cntrlprb = e.computeBitErrProb e.cntrlpktsize

theorem Since.table (h : Since e e') : e'.computeBitErrProb = e.computeBitErrProb := by
  funext size
  have hprob : e'.bitErrProb size = e.bitErrProb size := by
    funext i
    rw [bitErrProb, bitErrProb, h.rate, h.fecStrength]
  rw [computeBitErrProb, computeBitErrProb, hprob, h.fecStrength]

theorem Since.prepare (h : Since e e') (hF : 1 ≤ e.fecStrength) :
    Since e e'.prepare ∧ e'.prepare.firstTime = false := by
  rw [ErrorModel.prepare]
  by_cases hfirst : e'.firstTime = true
  · have hprepare : e'.firstTime = true ∧ e'.fecStrength ≠ 0 := by
      refine ⟨hfirst, ?_⟩
      rw [h.fecStrength]
      omega
    rw [if_pos hprepare]
    refine ⟨⟨h.rate, h.fecStrength, h.datapktsize, h.cntrlpktsize, fun _ => ?_⟩, rfl⟩
    rw [← h.table, ← h.datapktsize, ← h.cntrlpktsize]
    exact ⟨rfl, rfl⟩
  · rw [if_neg fun hc => hfirst hc.1]
    exact ⟨h, Bool.eq_false_iff.mpr hfirst⟩

theorem Since.step (h : Since e e') (hF : 1 ≤ e.fecStrength) (c : Call) :
    Since e (step e' c) := by
  cases c with
  | corruptBit u size => exact (h.prepare hF).1
  | reset => exact ⟨h.rate, h.fecStrength, h.datapktsize, h.cntrlpktsize, fun hc => by cases hc⟩

theorem Since.run (hnew : e.firstTime = true) (hF : 1 ≤ e.fecStrength) (cs : List Call) :
    Since e (run cs e) := by
  induction cs using List.reverseRecOn with
  | nil =>
      refine ⟨rfl, rfl, rfl, rfl, fun hc => ?_⟩
      exact absurd (hnew.symm.trans hc) Bool.noConfusion
  | append_singleton cs c ih =>
      rw [ErrorModel.run, List.foldl_append]
      exact ih.step hF c

/-- **Every draw ends at the least entry above it.** -/
theorem Since.drawn (h : Since e e') (hF : 1 ≤ e.fecStrength) (hu : u < 1) (size : ℤ) :
    e.Drawn (e.pktsize size) u (e'.corruptBit u size).1 := by
  obtain ⟨hprepared, hfirst⟩ := h.prepare hF
  obtain ⟨hdata, hcntrl⟩ := hprepared.tables hfirst
  have hdptr : (if e'.prepare.datapktsize ≤ size then e'.prepare.dataprb
      else e'.prepare.cntrlprb) = e.computeBitErrProb (e.pktsize size) := by
    rw [hprepared.datapktsize, hdata, hcntrl, pktsize]
    split_ifs
    · rfl
    · rfl
  have hlast : u < e.computeBitErrProb (e.pktsize size) (e.fecStrength + 1) := by
    rw [computeBitErrProb_last]
    exact hu
  obtain ⟨i, hi, habove, hleast, hfind⟩ := find_least hlast
  have hdrawn : (e'.corruptBit u size).1 = i := by
    simp only [corruptBit]
    rw [hdptr, hprepared.fecStrength, hfind]
    rfl
  rw [hdrawn]
  exact ⟨hi, habove, hleast⟩

/-- **The bit errors are binomial if and only if `comb` rounds nothing that matters**: the table is
the distribution of the number of bit errors of a packet, and each draw, after any calls, ends at
its least entry above the draw. -/
theorem corruptBit_binomial_iff (hnew : e.firstTime = true) (h0 : 0 ≤ e.rate) (h1 : e.rate ≤ 1)
    (hF : 1 ≤ e.fecStrength) (hn : e.fecStrength ≤ n) (hsize : e.pktsize size = n)
    (cs : List Call) :
    (e.Binomial n ∧
      ∀ u, 0 ≤ u → u < 1 → e.Drawn n u ((run cs e).corruptBit u size).1) ↔ e.NotRounded n := by
  rw [← computeBitErrProb_atMost_iff hn]
  constructor
  · exact fun h => h.1.table
  · intro h
    refine ⟨binomial_of_table h0 h1 h, fun u _ hu => ?_⟩
    rw [← hsize]
    exact (Since.run hnew hF cs).drawn hF hu size

/-- Packets of so many bits, of which each is corrupted with probability 1/2; two are corrected. -/
def evenOdds (bits : ℤ) : ErrorModel where
  rate := 1 / 2
  fecStrength := 2
  datapktsize := bits
  cntrlpktsize := bits
  firstTime := true
  dataprb := fun _ => 0
  cntrlprb := fun _ => 0

/-- Five bits: `1` and `2` divide `6`. -/
theorem corruptBit_binomial_iff_five : (evenOdds 5).Binomial 5 ∧
    ∀ u, 0 ≤ u → u < 1 → (evenOdds 5).Drawn (5 : ℕ) u ((run [] (evenOdds 5)).corruptBit u 5).1 :=
  (corruptBit_binomial_iff (n := 5) rfl (by norm_num [evenOdds]) (by norm_num [evenOdds])
    (by decide) (by decide) rfl []).mpr (.inr (.inr fun j hj hj2 => by
      change j ≤ 2 at hj2
      obtain rfl | rfl : j = 1 ∨ j = 2 := by omega
      · decide
      · decide))

/-- Four bits: at most two of them are corrupted with probability 11/16, and the table has 9/16. -/
theorem computeBitErrProb_four : (evenOdds 4).computeBitErrProb 4 2 = 9 / 16 ∧
    atMost (evenOdds 4).rate 4 2 = 11 / 16 := by
  have hcomb : ∀ k ≤ 2, comb 4 k = (flooredChoose 4 k : ℚ) := fun k hk =>
    comb_eq (hk.trans (by decide))
  constructor
  · rw [computeBitErrProb_eq (e := evenOdds 4) (i := 2) le_rfl, Finset.sum_range_succ,
      Finset.sum_range_succ, Finset.sum_range_one, hcomb 0 (by decide), hcomb 1 (by decide),
      hcomb 2 le_rfl]
    norm_num [evenOdds, flooredChoose]
  · rw [atMost_eq_sum]
    norm_num [Finset.sum_range_succ, evenOdds, Nat.choose]

end ErrorModel

end Afabric
