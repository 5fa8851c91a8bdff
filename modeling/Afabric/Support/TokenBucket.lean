import Mathlib.Algebra.Order.Field.Basic
import Mathlib.Algebra.Order.BigOperators.Group.List
import Mathlib.Tactic.Linarith
import Mathlib.Tactic.Ring

/-!
# Support — token buckets

A bucket of some depth that fills at some rate.  A history is what was taken, newest first, and it
conforms when in no interval more was taken than the depth and what flowed in.

A bucket that starts full and pays for everything taken (`level`) holds exactly what may still be
taken (`le_level_iff`), also when it is in debt.  So the histories that conform are those in which
everything taken was allowed (`conforms_cons_iff`).
-/

namespace Afabric

structure TokenBucket (K : Type*) where
  rate : K
  depth : K

namespace TokenBucket

variable {K : Type*} [Field K] [LinearOrder K]

/-- What was taken between `s` and `t`, both included. -/
def taken (s t : K) (h : List (K × K)) : K :=
  ((h.filter fun g => s ≤ g.1 ∧ g.1 ≤ t).map Prod.snd).sum

@[simp] theorem taken_nil (s t : K) : taken s t [] = 0 := rfl

theorem taken_cons (s t : K) (g : K × K) (h : List (K × K)) :
    taken s t (g :: h) = (if s ≤ g.1 ∧ g.1 ≤ t then g.2 else 0) + taken s t h := by
  unfold taken
  by_cases hg : s ≤ g.1 ∧ g.1 ≤ t
  · rw [List.filter_cons_of_pos (by simpa using hg), if_pos hg, List.map_cons, List.sum_cons]
  · rw [List.filter_cons_of_neg (by simpa using hg), if_neg hg, zero_add]

/-- What a history up to the time `now` must be: amounts that are not negative, the newest first. -/
inductive UpTo : K → List (K × K) → Prop where
  | nil (now : K) : UpTo now []
  | cons {now : K} {g : K × K} {h : List (K × K)} (time : g.1 ≤ now) (amount : 0 ≤ g.2)
      (older : UpTo g.1 h) : UpTo now (g :: h)

theorem UpTo.mono {now now' : K} {h : List (K × K)} (hh : UpTo now h) (hle : now ≤ now') :
    UpTo now' h := by
  cases hh with
  | nil => exact .nil now'
  | cons time amount older => exact .cons (time.trans hle) amount older

variable (b : TokenBucket K)

/-- At a level `x`, after some more time. -/
def fill (x elapsed : K) : K := min b.depth (x + b.rate * elapsed)

/-- What a bucket that was full at first holds at the time `now`. -/
def level : List (K × K) → K → K
  | [], _ => b.depth
  | g :: h, now => b.fill (level h g.1 - g.2) (now - g.1)

/-- The amount `n` may be taken at the time `now`. -/
def Allows (h : List (K × K)) (now n : K) : Prop :=
  ∀ s ≤ now, n + taken s now h ≤ b.depth + b.rate * (now - s)

def Conforms (h : List (K × K)) : Prop :=
  ∀ s t : K, s ≤ t → taken s t h ≤ b.depth + b.rate * (t - s)

/-- Nothing is newer than the newest. -/
theorem taken_of_le {now s t : K} {h : List (K × K)} (hh : UpTo now h) (hnow : now ≤ t) :
    taken s t h = taken s now h := by
  induction hh generalizing t with
  | nil => rfl
  | cons time amount older ih =>
    rw [taken_cons, taken_cons, ih (time.trans hnow), ih time]
    simp only [time, time.trans hnow, and_true]

theorem taken_of_lt {now s t : K} {h : List (K × K)} (hh : UpTo now h) (hs : now < s) :
    taken s t h = 0 := by
  induction hh generalizing t with
  | nil => rfl
  | cons time amount older ih =>
    have hlt := time.trans_lt hs
    rw [taken_cons, if_neg fun hg => hlt.not_ge hg.1, ih hlt, zero_add]

variable {b}

/-- As a program writes it. -/
theorem fill_eq_ite (r d x elapsed : K) :
    (if x + r * elapsed ≤ d then x + r * elapsed else d) = fill ⟨r, d⟩ x elapsed := by
  rw [fill, min_comm, min_def]

theorem fill_le_depth (x elapsed : K) : b.fill x elapsed ≤ b.depth :=
  min_le_left _ _

@[simp] theorem fill_zero {x : K} (hx : x ≤ b.depth) : b.fill x 0 = x := by
  simp [fill, hx]

theorem level_le_depth (h : List (K × K)) (now : K) : b.level h now ≤ b.depth := by
  cases h with
  | nil => exact le_rfl
  | cons g h => exact fill_le_depth _ _

variable [IsStrictOrderedRing K]

theorem taken_nonneg {now : K} {h : List (K × K)} (hh : UpTo now h) (s t : K) :
    0 ≤ taken s t h := by
  induction hh with
  | nil => exact le_rfl
  | cons time amount older ih =>
    rw [taken_cons]
    split
    · exact add_nonneg amount ih
    · simpa using ih

theorem fill_fill (hr : 0 ≤ b.rate) (x : K) {d e : K} (he : 0 ≤ e) :
    b.fill (b.fill x d) e = b.fill x (d + e) := by
  unfold fill
  rw [min_add, ← min_assoc, min_eq_left (le_add_of_nonneg_right (mul_nonneg hr he)), mul_add,
    add_assoc]

/-- The level between two takings is that of a bucket that fills. -/
theorem level_advance (hr : 0 ≤ b.rate) (h : List (K × K)) {now later : K} (hle : now ≤ later) :
    b.level h later = b.fill (b.level h now) (later - now) := by
  cases h with
  | nil =>
    rw [level, fill, min_eq_left]
    exact le_add_of_nonneg_right (mul_nonneg hr (sub_nonneg.mpr hle))
  | cons g h =>
    rw [level, level, fill_fill hr _ (sub_nonneg.mpr hle)]
    congr 1
    ring

theorem level_cons_self (g : K × K) (h : List (K × K)) (hg : 0 ≤ g.2) :
    b.level (g :: h) g.1 = b.level h g.1 - g.2 := by
  rw [level, sub_self, fill_zero]
  linarith [b.level_le_depth h g.1]

/-- The bucket holds exactly what may still be taken. -/
theorem le_level_iff (hr : 0 ≤ b.rate) {now n : K} {h : List (K × K)} (hh : UpTo now h) :
    n ≤ b.level h now ↔ b.Allows h now n := by
  unfold Allows
  induction hh generalizing n with
  | nil now =>
    constructor
    · intro hn s hs
      have hflow := mul_nonneg hr (sub_nonneg.mpr hs)
      rw [taken_nil]
      rw [level] at hn
      linarith
    · intro hall
      simpa [level] using hall now le_rfl
  | @cons now g h time amount older ih =>
    have hsplit : n ≤ b.level (g :: h) now ↔
        n ≤ b.depth ∧ n + g.2 - b.rate * (now - g.1) ≤ b.level h g.1 := by
      rw [level, fill, le_min_iff]
      constructor
      · intro hn
        exact ⟨hn.1, by linarith [hn.2]⟩
      · intro hn
        exact ⟨hn.1, by linarith [hn.2]⟩
    rw [hsplit, ih]
    have hold : ∀ s ≤ g.1, taken s now (g :: h) = g.2 + taken s g.1 h := by
      intro s hs
      rw [taken_cons, if_pos ⟨hs, time⟩, taken_of_le older time]
    have hnew : ∀ s, g.1 < s → taken s now (g :: h) = 0 := by
      intro s hs
      rw [taken_cons, if_neg fun hg => hs.not_ge hg.1, taken_of_lt older hs, zero_add]
    have hflow : ∀ s, b.rate * (now - s) = b.rate * (now - g.1) + b.rate * (g.1 - s) := by
      intro s
      ring
    constructor
    · rintro ⟨hdepth, hall⟩ s hs
      rcases le_or_gt s g.1 with hsg | hgs
      · rw [hold s hsg]
        linarith [hall s hsg, hflow s]
      · rw [hnew s hgs]
        linarith [mul_nonneg hr (sub_nonneg.mpr hs)]
    · intro hall
      constructor
      · have hlast := hall now le_rfl
        have htaken := taken_nonneg (UpTo.cons time amount older) now now
        rw [sub_self, mul_zero] at hlast
        linarith
      · intro s hs
        have hthen := hall s (hs.trans time)
        rw [hold s hs] at hthen
        linarith [hflow s]

theorem conforms_nil (hr : 0 ≤ b.rate) (hd : 0 ≤ b.depth) : b.Conforms [] := by
  intro s t hst
  exact add_nonneg hd (mul_nonneg hr (sub_nonneg.mpr hst))

theorem conforms_cons_iff (hr : 0 ≤ b.rate) {now : K} {g : K × K} {h : List (K × K)}
    (hh : UpTo now (g :: h)) : b.Conforms (g :: h) ↔ b.Conforms h ∧ b.Allows h g.1 g.2 := by
  obtain _ | ⟨time, amount, older⟩ := hh
  constructor
  · intro hc
    constructor
    · intro s t hst
      refine le_trans ?_ (hc s t hst)
      rw [taken_cons]
      split
      · exact le_add_of_nonneg_left amount
      · rw [zero_add]
    · intro s hs
      have hthen := hc s g.1 hs
      rwa [taken_cons, if_pos ⟨hs, le_rfl⟩] at hthen
  · rintro ⟨hc, hpaid⟩ s t hst
    rw [taken_cons]
    split
    next hg =>
      rw [taken_of_le older hg.2]
      have hflow := mul_le_mul_of_nonneg_left (sub_le_sub_right hg.2 s) hr
      linarith [hpaid s hg.1]
    next =>
      rw [zero_add]
      exact hc s t hst

/-! ### A register that is the level -/

/-- The register `x` at the time `t`, of a bucket that pays for what it lets through. -/
structure Holds (b : TokenBucket K) (t : K) (h : List (K × K)) (x : K) : Prop where
  upTo : UpTo t h
  eq : x = b.level h t
  conforms : b.Conforms h

namespace Holds

variable {t now n x : K} {h : List (K × K)}

theorem create (hr : 0 ≤ b.rate) (hd : 0 ≤ b.depth) (t : K) : Holds b t [] b.depth :=
  ⟨.nil t, rfl, conforms_nil hr hd⟩

theorem fill (hx : Holds b t h x) (hr : 0 ≤ b.rate) (hle : t ≤ now) :
    Holds b now h (b.fill x (now - t)) :=
  ⟨hx.upTo.mono hle, by rw [hx.eq, level_advance hr h hle], hx.conforms⟩

theorem le_iff (hx : Holds b t h x) (hr : 0 ≤ b.rate) : n ≤ x ↔ b.Allows h t n := by
  rw [hx.eq, le_level_iff hr hx.upTo]

theorem pay (hx : Holds b t h x) (hr : 0 ≤ b.rate) (hn : 0 ≤ n) (hpay : n ≤ x) :
    Holds b t ((t, n) :: h) (x - n) := by
  have hup : UpTo t ((t, n) :: h) := .cons le_rfl hn hx.upTo
  refine ⟨hup, ?_, (conforms_cons_iff hr hup).mpr ⟨hx.conforms, (hx.le_iff hr).mp hpay⟩⟩
  rw [level_cons_self (t, n) h hn, hx.eq]

end Holds

theorem fill_nonneg (hr : 0 ≤ b.rate) (hd : 0 ≤ b.depth) {x elapsed : K} (hx : 0 ≤ x)
    (he : 0 ≤ elapsed) : 0 ≤ b.fill x elapsed :=
  le_min hd (add_nonneg hx (mul_nonneg hr he))

end TokenBucket

end Afabric
