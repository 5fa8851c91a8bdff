import Afabric.Sched.CalendarRep
import Mathlib.Data.Nat.ModEq

/-!
# Sched — the head of the calendar

`head` looks at the buckets in the order of the days from the clock on.  An event in the bucket of
the `k`-th day is on that day or whole years later, and the limits of the search tell the two apart
(`within_year`): they are at least `k + 1` days, and at most a year and `k - 1` days.  So the first
event that is found on its own day is the earliest of all, and if there is none then the earliest
event is the earliest that was seen.
-/

namespace Afabric

namespace Calendar

/-- The days from the clock to an event. -/
def days (s : Calendar) (x : Event) : Nat := (⌊x.time / s.width⌋ - ⌊s.calClock / s.width⌋).toNat

end Calendar

namespace CalendarRep

variable {s : Calendar} {l : EventList}

theorem pos (h : CalendarRep s l) : 0 < s.nbuckets :=
  Nat.lt_of_lt_of_le (by decide) h.shape.nbuckets

theorem last_lt (h : CalendarRep s l) : s.lastbucket < s.nbuckets := by
  rw [h.last]
  exact Calendar.hash_lt h.pos _

theorem floor_eq (h : CalendarRep s l) {x : Event} (hx : x ∈ l.events) :
    ⌊x.time / s.width⌋ = ⌊s.calClock / s.width⌋ + s.days x := by
  have hle : ⌊s.calClock / s.width⌋ ≤ ⌊x.time / s.width⌋ := by
    refine Int.floor_le_floor ?_
    rw [h.clock]
    exact div_le_div_of_nonneg_right (h.ahead x hx) h.shape.width.le
  unfold Calendar.days
  omega

theorem floor_clock_nonneg (h : CalendarRep s l) : 0 ≤ ⌊s.calClock / s.width⌋ := by
  refine Int.floor_nonneg.mpr ?_
  rw [h.clock]
  exact div_nonneg h.nonneg h.shape.width.le

/-- An event is in the bucket of its day. -/
theorem hash_eq (h : CalendarRep s l) {x : Event} (hx : x ∈ l.events) :
    s.hash x.time = (s.lastbucket + s.days x) % s.nbuckets := by
  have hn : (⌊x.time / s.width⌋).toNat = (⌊s.calClock / s.width⌋).toNat + s.days x := by
    have h₁ := h.floor_eq hx
    have h₂ := h.floor_clock_nonneg
    omega
  rw [h.last, ← h.clock]
  show (⌊x.time / s.width⌋).toNat % _ = ((⌊s.calClock / s.width⌋).toNat % _ + _) % _
  rw [hn, Nat.mod_add_mod]

theorem add_mod_inj {n i j k : Nat} (hj : j < n) (hk : k < n) (h : (i + j) % n = (i + k) % n) :
    j = k := Nat.ModEq.eq_of_lt_of_lt (Nat.ModEq.add_left_cancel' i h) hj hk

/-- The bucket of the `k`-th day holds the events of that day, in all years. -/
theorem mem_bucket (h : CalendarRep s l) {k : Nat} (hk : k < s.nbuckets) {x : Event} :
    x ∈ (s.buckets ((s.lastbucket + k) % s.nbuckets)).list ↔
      x ∈ l.events ∧ s.days x % s.nbuckets = k := by
  rw [h.filled.list, List.mem_filter, decide_eq_true_iff]
  refine and_congr_right fun hx => ?_
  rw [h.hash_eq hx, ← Nat.add_mod_mod]
  exact ⟨add_mod_inj (Nat.mod_lt _ h.pos) hk, fun heq => by rw [heq]⟩

theorem lt_of_days (h : CalendarRep s l) {x y : Event} (hx : x ∈ l.events) (hy : y ∈ l.events)
    (hd : s.days x < s.days y) : x.time < y.time := by
  have hfloor : ⌊x.time / s.width⌋ < ⌊y.time / s.width⌋ := by
    rw [h.floor_eq hx, h.floor_eq hy]
    omega
  have hlt : x.time / s.width < y.time / s.width := by
    by_contra hle
    exact absurd (Int.floor_le_floor (not_lt.mp hle)) (not_le.mpr hfloor)
  exact (div_lt_div_iff_of_pos_right h.shape.width).mp hlt

theorem days_le (h : CalendarRep s l) {x y : Event} (hx : x ∈ l.events) (hy : y ∈ l.events)
    (hxy : x.time ≤ y.time) : s.days x ≤ s.days y := by
  by_contra hlt
  exact absurd hxy (not_le.mpr (h.lt_of_days hy hx (not_le.mp hlt)))

/-- A limit of more than `k` days and less than a year and `k` days tells whether an event of the
`k`-th bucket is in this year. -/
theorem within_year (h : CalendarRep s l) {x : Event} (hx : x ∈ l.events) {k : Nat}
    (hk : s.days x % s.nbuckets = k) {d : ℚ} (hlow : (k : ℚ) + 1 ≤ d)
    (hhigh : d ≤ s.nbuckets + k - 1) :
    x.time - s.calClock < s.width * d ↔ s.days x = k := by
  have hw := h.shape.width
  have hfloor : (⌊x.time / s.width⌋ : ℚ) = ⌊s.calClock / s.width⌋ + s.days x := by
    exact_mod_cast h.floor_eq hx
  have hx₁ := Int.floor_le (x.time / s.width)
  have hx₂ := Int.lt_floor_add_one (x.time / s.width)
  have hc₁ := Int.floor_le (s.calClock / s.width)
  have hc₂ := Int.lt_floor_add_one (s.calClock / s.width)
  have hdiv : x.time - s.calClock < s.width * d ↔
      x.time / s.width - s.calClock / s.width < d := by
    rw [← sub_div, div_lt_iff₀ hw, mul_comm]
  rw [hdiv]
  refine ⟨fun hlt => ?_, fun heq => ?_⟩
  · by_contra hne
    -- the event is in a later year
    have hlater : s.nbuckets + k ≤ s.days x := by
      have hdm := Nat.div_add_mod (s.days x) s.nbuckets
      have hq : 1 ≤ s.days x / s.nbuckets := by
        by_contra hq
        have h₀ : s.days x / s.nbuckets = 0 := Nat.lt_one_iff.mp (not_le.mp hq)
        rw [h₀, Nat.mul_zero] at hdm
        omega
      have := Nat.mul_le_mul_left s.nbuckets hq
      omega
    have hlater' : (s.nbuckets : ℚ) + k ≤ s.days x := by exact_mod_cast hlater
    linarith
  · have heq' : (s.days x : ℚ) = k := by exact_mod_cast heq
    linarith

end CalendarRep

/-! ### The search -/

/-- The event is at the head of its bucket, and no event is earlier. -/
def IsHead (s : Calendar) (l : EventList) (e : Event) (i : Nat) : Prop :=
  (s.buckets i).list.head? = some e ∧ ∀ x ∈ l.events, e.time ≤ x.time

/-- The search after the first `k` days: no event is on one of them, and the earliest event of their
buckets is known. -/
structure Probed (s : Calendar) (l : EventList) (k : Nat) (p : Calendar.Probe) : Prop where
  i : p.i = (s.lastbucket + k) % s.nbuckets
  later : ∀ x ∈ l.events, s.days x % s.nbuckets < k → s.nbuckets ≤ s.days x
  none : p.min = none → ∀ x ∈ l.events, k ≤ s.days x % s.nbuckets
  some : ∀ m, p.min = some m → (s.buckets m.2).list.head? = some m.1 ∧
    ∀ x ∈ l.events, s.days x % s.nbuckets < k → m.1.time ≤ x.time

namespace Probed

variable {s : Calendar} {l : EventList} {k : Nat} {p : Calendar.Probe}

theorem next_i (h : CalendarRep s l) (hp : Probed s l k p) :
    (if p.i + 1 = s.nbuckets then 0 else p.i + 1) = (s.lastbucket + (k + 1)) % s.nbuckets := by
  have hlt : p.i < s.nbuckets := by
    rw [hp.i]
    exact Nat.mod_lt _ h.pos
  have hstep : (s.lastbucket + (k + 1)) % s.nbuckets = (p.i + 1) % s.nbuckets := by
    rw [hp.i, Nat.mod_add_mod, Nat.add_assoc]
  rw [hstep]
  split
  case isTrue heq => rw [heq, Nat.mod_self]
  case isFalse hne => exact (Nat.mod_eq_of_lt (by omega)).symm

theorem head_le (h : CalendarRep s l) (hl : l.Ok) {i : Nat} {e : Event}
    (he : (s.buckets i).list.head? = Option.some e) :
    ∀ x ∈ (s.buckets i).list, e.time ≤ x.time := by
  have ht := h.filled.timed hl.timed i
  cases hb : (s.buckets i).list with
  | nil => simp
  | cons y t =>
      rw [hb] at he ht
      cases Option.some.inj he
      intro x hx
      rcases List.mem_cons.mp hx with rfl | hx
      · exact le_rfl
      · exact (List.pairwise_cons.mp ht).1 x hx

/-- The earlier of the earliest event and one more. -/
theorem min_update (min : Option (Event × Nat)) (e : Event) (i : Nat) :
    ∃ m, (if min.all (fun m => decide (e.time < m.1.time)) then Option.some (e, i) else min)
        = Option.some m ∧
      (m = (e, i) ∨ min = Option.some m) ∧ m.1.time ≤ e.time ∧
      ∀ m₀, min = Option.some m₀ → m.1.time ≤ m₀.1.time := by
  cases min with
  | none => exact ⟨(e, i), rfl, .inl rfl, le_rfl, nofun⟩
  | some m₀ =>
      simp only [Option.all_some, decide_eq_true_iff]
      by_cases hlt : e.time < m₀.1.time
      · rw [if_pos hlt]
        refine ⟨(e, i), rfl, .inl rfl, le_rfl, fun m hm => ?_⟩
        cases hm
        exact hlt.le
      · rw [if_neg hlt]
        refine ⟨m₀, rfl, .inr rfl, not_lt.mp hlt, fun m hm => ?_⟩
        cases hm
        exact le_rfl

/-- The bucket of the day is empty. -/
theorem skip (h : CalendarRep s l) (hp : Probed s l k p)
    (hnot : ∀ x ∈ l.events, s.days x % s.nbuckets ≠ k) (n : Nat) :
    Probed s l (k + 1) ⟨if p.i + 1 = s.nbuckets then 0 else p.i + 1, p.min, n⟩ := by
  have hlt : ∀ x ∈ l.events, s.days x % s.nbuckets < k + 1 → s.days x % s.nbuckets < k :=
    fun x hx hxk => lt_of_le_of_ne (Nat.lt_succ_iff.mp hxk) (hnot x hx)
  refine ⟨hp.next_i h, fun x hx hxk => hp.later x hx (hlt x hx hxk), fun hm x hx => ?_,
    fun m hm => ?_⟩
  · exact lt_of_le_of_ne (hp.none hm x hx) (Ne.symm (hnot x hx))
  · obtain ⟨h₁, h₂⟩ := hp.some m hm
    exact ⟨h₁, fun x hx hxk => h₂ x hx (hlt x hx hxk)⟩

/-- An event of this year on the day that is looked at. -/
theorem isHead (h : CalendarRep s l) (hp : Probed s l k p) (hk : k < s.nbuckets) {e : Event}
    (hel : e ∈ l.events) (hhead : (s.buckets p.i).list.head? = Option.some e) (hek : s.days e = k)
    (hle : ∀ x ∈ l.events, s.days x % s.nbuckets = k → e.time ≤ x.time) : IsHead s l e p.i := by
  refine ⟨hhead, fun x hx => ?_⟩
  have hmod := Nat.mod_le (s.days x) s.nbuckets
  rcases lt_trichotomy (s.days x % s.nbuckets) k with hxk | hxk | hxk
  · -- the days before have only events of later years
    have := hp.later x hx hxk
    exact (h.lt_of_days hel hx (by omega)).le
  · exact hle x hx hxk
  · exact (h.lt_of_days hel hx (by omega)).le

/-- The first event of the bucket is of a later year. -/
theorem look (h : CalendarRep s l) (hp : Probed s l k p) {e : Event}
    (hhead : (s.buckets p.i).list.head? = Option.some e)
    (hlater : ∀ x ∈ l.events, s.days x % s.nbuckets = k → s.nbuckets ≤ s.days x)
    (hle : ∀ x ∈ l.events, s.days x % s.nbuckets = k → e.time ≤ x.time) (n : Nat) :
    Probed s l (k + 1) ⟨if p.i + 1 = s.nbuckets then 0 else p.i + 1,
      if p.min.all (fun m => decide (e.time < m.1.time)) then Option.some (e, p.i) else p.min, n⟩ := by
  have hcases : ∀ x, s.days x % s.nbuckets < k + 1 →
      s.days x % s.nbuckets < k ∨ s.days x % s.nbuckets = k := fun x hxk =>
    Nat.lt_or_eq_of_le (Nat.lt_succ_iff.mp hxk)
  obtain ⟨m₁, hm₁, hm₂, hm₃, hm₄⟩ := min_update p.min e p.i
  refine ⟨hp.next_i h, fun x hx hxk => ?_, fun hm x hx => ?_, fun m hm => ?_⟩
  · rcases hcases x hxk with hxk | hxk
    · exact hp.later x hx hxk
    · exact hlater x hx hxk
  · rw [hm₁] at hm
    cases hm
  · cases hm₁.symm.trans hm
    refine ⟨hm₂.elim (fun heq => by rw [heq]; exact hhead) fun heq => (hp.some _ heq).1,
      fun x hx hxk => ?_⟩
    rcases hcases x hxk with hxk | hxk
    · cases hpm : p.min with
      | none => exact absurd (hp.none hpm x hx) (not_le.mpr hxk)
      | some m => exact (hm₄ m hpm).trans ((hp.some m hpm).2 x hx hxk)
    · exact hm₃.trans (hle x hx hxk)

/-- One bucket is looked at, with a limit that is right for its day. -/
theorem calDequeue (h : CalendarRep s l) (hl : l.Ok) (hp : Probed s l k p) (hk : k < s.nbuckets)
    {d : ℚ} (hlow : (k : ℚ) + 1 ≤ d) (hhigh : d ≤ s.nbuckets + k - 1) :
    (∃ e i n, s.calDequeue (s.width * d) p = .inl (e, i, n) ∧ IsHead s l e i) ∨
      ∃ p', s.calDequeue (s.width * d) p = .inr p' ∧ Probed s l (k + 1) p' := by
  have hmem : ∀ x, x ∈ (s.buckets p.i).list ↔ x ∈ l.events ∧ s.days x % s.nbuckets = k := by
    rw [hp.i]
    exact fun x => h.mem_bucket hk
  unfold Calendar.calDequeue
  cases hhead : (s.buckets p.i).list.head? with
  | none =>
      have hnil : (s.buckets p.i).list = [] := List.head?_eq_none_iff.mp hhead
      refine .inr ⟨_, rfl, hp.skip h (fun x hx hxk => ?_) _⟩
      have := (hmem x).mpr ⟨hx, hxk⟩
      rw [hnil] at this
      simp at this
  | some e =>
      obtain ⟨hel, hek⟩ := (hmem e).mp (List.mem_of_head? hhead)
      have hle : ∀ x ∈ l.events, s.days x % s.nbuckets = k → e.time ≤ x.time := fun x hx hxk =>
        head_le h hl hhead x ((hmem x).mpr ⟨hx, hxk⟩)
      have hyear := h.within_year hel hek hlow hhigh
      dsimp only
      by_cases hlt : e.time - s.calClock < s.width * d
      · rw [if_pos hlt]
        exact .inl ⟨e, p.i, _, rfl, hp.isHead h hk hel hhead (hyear.mp hlt) hle⟩
      · rw [if_neg hlt]
        refine .inr ⟨_, rfl, hp.look h hhead (fun x hx hxk => ?_) hle _⟩
        -- an event of the bucket on its own day would put the first one there too
        have hex := h.days_le hel hx (hle x hx hxk)
        by_contra hsmall
        have hxd : s.days x = k := by rw [← hxk, Nat.mod_eq_of_lt (not_le.mp hsmall)]
        have hed : s.days e < s.nbuckets := by omega
        rw [Nat.mod_eq_of_lt hed] at hek
        exact hlt (hyear.mpr hek)

/-- The days from the second to the last but one. -/
theorem calLoop (h : CalendarRep s l) (hl : l.Ok) (fuel : Nat) (hp : Probed s l k p) (hk₂ : 2 ≤ k)
    (hk : k < s.nbuckets) (hfuel : s.nbuckets ≤ fuel + k) :
    (∃ e i n, s.calLoop ((s.lastbucket + (s.nbuckets - 1)) % s.nbuckets) fuel p
        = Option.some (.inl (e, i, n)) ∧ IsHead s l e i) ∨
      ∃ p', s.calLoop ((s.lastbucket + (s.nbuckets - 1)) % s.nbuckets) fuel p
        = Option.some (.inr p') ∧ Probed s l (s.nbuckets - 1) p' := by
  induction fuel generalizing k p with
  | zero => omega
  | succ fuel ih =>
      rw [Calendar.calLoop]
      by_cases hstop : p.i = (s.lastbucket + (s.nbuckets - 1)) % s.nbuckets
      · have hkn : k = s.nbuckets - 1 :=
          CalendarRep.add_mod_inj hk (by omega) (hp.i.symm.trans hstop)
        rw [if_pos hstop]
        exact .inr ⟨p, rfl, hkn ▸ hp⟩
      · have hkn : k ≠ s.nbuckets - 1 := fun heq => hstop (heq ▸ hp.i)
        have hlow : (k : ℚ) + 1 ≤ s.nbuckets := by exact_mod_cast hk
        have hhigh : (s.nbuckets : ℚ) ≤ s.nbuckets + k - 1 := by
          have : (2 : ℚ) ≤ k := by exact_mod_cast hk₂
          linarith
        rw [if_neg hstop, h.shape.diff2]
        rcases hp.calDequeue h hl hk hlow hhigh with ⟨e, i, n, he, hhead⟩ | ⟨p', he, hp'⟩
        · rw [he]
          exact .inl ⟨e, i, n, rfl, hhead⟩
        · rw [he]
          exact ih hp' (by omega) (by omega) (by omega)

/-- The last day, against the earliest event of the others. -/
theorem calLast (h : CalendarRep s l) (hl : l.Ok) (hp : Probed s l (s.nbuckets - 1) p)
    (hne : l.events ≠ []) : ∃ e i n, s.calLast p = Option.some (e, i, n) ∧ IsHead s l e i := by
  have hpos := h.pos
  have hmem : ∀ x, x ∈ (s.buckets p.i).list ↔
      x ∈ l.events ∧ s.days x % s.nbuckets = s.nbuckets - 1 := by
    rw [hp.i]
    exact fun x => h.mem_bucket (by omega)
  have hcases : ∀ x ∈ l.events, s.days x % s.nbuckets < s.nbuckets - 1 ∨
      x ∈ (s.buckets p.i).list := fun x hx => by
    have := Nat.mod_lt (s.days x) hpos
    rw [hmem]
    by_cases hlt : s.days x % s.nbuckets < s.nbuckets - 1
    · exact .inl hlt
    · exact .inr ⟨hx, by omega⟩
  unfold Calendar.calLast
  cases hm : p.min with
  | none =>
      -- no other bucket has an event
      have hall : ∀ x ∈ l.events, x ∈ (s.buckets p.i).list := fun x hx =>
        (hcases x hx).resolve_left (not_lt.mpr (hp.none hm x hx))
      cases hhead : (s.buckets p.i).list.head? with
      | none =>
          obtain ⟨x, hx⟩ := List.exists_mem_of_ne_nil _ hne
          have := hall x hx
          rw [List.head?_eq_none_iff.mp hhead] at this
          simp at this
      | some e =>
          exact ⟨e, p.i, _, rfl, hhead, fun x hx => head_le h hl hhead x (hall x hx)⟩
  | some m =>
      obtain ⟨h₁, h₂⟩ := hp.some m hm
      cases hhead : (s.buckets p.i).list.head? with
      | none =>
          refine ⟨m.1, m.2, _, rfl, h₁, fun x hx => ?_⟩
          rcases hcases x hx with hxk | hxk
          · exact h₂ x hx hxk
          · rw [List.head?_eq_none_iff.mp hhead] at hxk
            simp at hxk
      | some e =>
          have hle := head_le h hl hhead
          dsimp only
          by_cases hlt : m.1.time < e.time
          · rw [if_pos hlt]
            refine ⟨m.1, m.2, _, rfl, h₁, fun x hx => ?_⟩
            rcases hcases x hx with hxk | hxk
            · exact h₂ x hx hxk
            · exact hlt.le.trans (hle x hxk)
          · rw [if_neg hlt]
            refine ⟨e, p.i, _, rfl, hhead, fun x hx => ?_⟩
            rcases hcases x hx with hxk | hxk
            · exact (not_lt.mp hlt).trans (h₂ x hx hxk)
            · exact hle x hxk

end Probed

namespace CalendarRep

variable {s : Calendar} {l : EventList}

theorem findHead (h : CalendarRep s l) (hl : l.Ok) (hne : l.events ≠ []) :
    ∃ e i n, s.findHead = some (e, i, n) ∧ IsHead s l e i := by
  have hn := h.shape.nbuckets
  have hnq : (4 : ℚ) ≤ s.nbuckets := by exact_mod_cast hn
  have hlast := h.last_lt
  have hdec : (if s.lastbucket ≠ 0 then s.lastbucket - 1 else s.nbuckets - 1)
      = (s.lastbucket + (s.nbuckets - 1)) % s.nbuckets := by
    by_cases h₀ : s.lastbucket = 0
    · rw [if_neg (not_not_intro h₀), h₀, Nat.zero_add, Nat.mod_eq_of_lt (by omega)]
    · have hsum : s.lastbucket + (s.nbuckets - 1) = s.lastbucket - 1 + s.nbuckets := by omega
      rw [if_pos h₀, hsum, Nat.add_mod_right, Nat.mod_eq_of_lt (by omega)]
  have hp₀ : Probed s l 0 ⟨s.lastbucket, none, 0⟩ := by
    refine ⟨(Nat.mod_eq_of_lt hlast).symm, fun x _ hx => absurd hx (Nat.not_lt_zero _),
      fun _ x _ => Nat.zero_le _, nofun⟩
  have hd₀ : s.diff0 = s.width * ((s.nbuckets : ℚ) / 2) := by
    rw [h.shape.diff0]
    ring
  have hd₁ : s.diff1 = s.width * ((s.nbuckets : ℚ) / 2 + 1) := by
    rw [h.shape.diff1]
    ring
  unfold Calendar.findHead
  rw [hdec, hd₀, hd₁]
  rcases hp₀.calDequeue h hl (by omega) (d := (s.nbuckets : ℚ) / 2)
    (by push_cast; linarith) (by push_cast; linarith) with ⟨e, i, n, he, hhead⟩ | ⟨p₁, he, hp₁⟩
  · rw [he]
    exact ⟨e, i, n, rfl, hhead⟩
  rw [he]
  dsimp only
  rcases hp₁.calDequeue h hl (by omega) (d := (s.nbuckets : ℚ) / 2 + 1)
    (by push_cast; linarith) (by push_cast; linarith) with ⟨e, i, n, he, hhead⟩ | ⟨p₂, he, hp₂⟩
  · rw [he]
    exact ⟨e, i, n, rfl, hhead⟩
  rw [he]
  dsimp only
  rcases hp₂.calLoop h hl s.nbuckets le_rfl (by omega) (by omega) with
    ⟨e, i, n, he, hhead⟩ | ⟨p₃, he, hp₃⟩
  · rw [he]
    exact ⟨e, i, n, rfl, hhead⟩
  · rw [he]
    exact hp₃.calLast h hl hne

end CalendarRep

end Afabric
