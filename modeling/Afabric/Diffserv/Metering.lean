import Afabric.Diffserv.Policy
import Afabric.Support.TokenBucket

/-!
# Diffserv — the three colour policies meter exactly

After an entry has been added, in any run of the classifier, with packets for this entry and for
others in any order, what `SRTCMPolicy` and `TRTCMPolicy` give the packets of the entry depends only
on what they gave its earlier ones: a packet is marked down exactly when an interval would otherwise
have more than the burst size and what the rate allows.

The excess bucket of `SRTCMPolicy` is filled by what overflows from the committed one, so that the
two together are one bucket of the depth `cbs + ebs` at the rate `cir`.
-/

namespace Afabric

namespace PolicyClassifier

open TokenBucket

/-- What the entry at `i` gave one of the marks `S`, with the times. -/
def marked (i : ℕ) (S : List DsMark) (ms : List DsMarking) : List (ℚ × ℚ) :=
  (ms.filter fun m => m.entry = i ∧ ∃ k ∈ S, m.mark = some k).map fun m => (m.time, (m.size : ℚ))

variable {ε : Type} {O : OtherPolicies ε} {c c' c₀ : PolicyClassifier ε} {t₀ clock now : ℚ}
  {ms : List DsMarking} {m : DsMarking} {pkt : DsPacket} {i : ℕ}

@[simp] theorem marked_nil (i : ℕ) (S : List DsMark) : marked i S [] = [] := rfl

theorem marked_cons_of_mem {S : List DsMark} {k : DsMark} (hi : m.entry = i) (hk : m.mark = some k)
    (hS : k ∈ S) : marked i S (m :: ms) = (m.time, (m.size : ℚ)) :: marked i S ms := by
  unfold marked
  rw [List.filter_cons_of_pos (by simp only [hi, hk]; simpa using hS), List.map_cons]

theorem marked_cons_of_not_mem {S : List DsMark} {k : DsMark} (hk : m.mark = some k) (hS : k ∉ S) :
    marked i S (m :: ms) = marked i S ms := by
  unfold marked
  rw [List.filter_cons_of_neg (by simp only [hk]; simpa using fun _ => hS)]

theorem marked_cons_of_ne {S : List DsMark} (hi : m.entry ≠ i) :
    marked i S (m :: ms) = marked i S ms := by
  unfold marked
  rw [List.filter_cons_of_neg (by simp [hi])]

/-! ### One entry among others -/

/-- What `mark` does. -/
theorem mark_cases (hm : c.mark O now pkt = some (c', m)) :
    c.getPolicyTableEntry pkt.saddr pkt.daddr = some m.entry ∧ m.time = now ∧ m.size = pkt.size ∧
      ((c.pool (c.policyTable m.entry).policyIndex = false ∧ c' = c ∧ m.mark = none) ∨
        c.pool (c.policyTable m.entry).policyIndex = true ∧ ∃ policer,
          c' = (c.apply O m.entry policer now pkt).1 ∧
          m.mark = some (c.apply O m.entry policer now pkt).2) := by
  unfold mark at hm
  cases he : c.getPolicyTableEntry pkt.saddr pkt.daddr with
  | none => simp [he] at hm
  | some i =>
    cases hp : c.pool (c.policyTable i).policyIndex with
    | false =>
      obtain ⟨rfl, rfl⟩ : c = c' ∧ _ = m := by simpa [he, hp] using hm
      exact ⟨rfl, rfl, rfl, .inl ⟨hp, rfl, rfl⟩⟩
    | true =>
      cases hq : c.getPolicerTableEntry (c.policyTable i).policyIndex (c.policyTable i).codePt with
      | none => simp [he, hp, hq] at hm
      | some policer =>
        obtain ⟨rfl, rfl⟩ : _ = c' ∧ _ = m := by simpa [he, hp, hq] using hm
        exact ⟨rfl, rfl, rfl, .inr ⟨hp, policer, rfl, rfl⟩⟩

theorem apply_policyTable_of_ne {j : ℕ} (hj : i ≠ j) (policer : PolicerTableEntry) :
    (c.apply O j policer now pkt).1.policyTable i = c.policyTable i := by
  cases h : (c.policyTable j).policyIndex <;> simp [apply, h, Function.update_of_ne hj]

@[simp] theorem apply_pool (j : ℕ) (policer : PolicerTableEntry) :
    (c.apply O j policer now pkt).1.pool = c.pool := by
  cases h : (c.policyTable j).policyIndex <;> simp [apply, h]

@[simp] theorem apply_policyTableSize (j : ℕ) (policer : PolicerTableEntry) :
    (c.apply O j policer now pkt).1.policyTableSize = c.policyTableSize := by
  cases h : (c.policyTable j).policyIndex <;> simp [apply, h]

/-- A property of the entry at `i`, whose policy is `k`, and its markings. -/
structure EntryInvariant (O : OtherPolicies ε) (i : ℕ) (k : PolicyIndex)
    (I : PolicyTableEntry → List DsMarking → Prop) : Prop where
  index : ∀ e ms, I e ms → e.policyIndex = k
  /-- It is not concerned by the markings of other entries. -/
  other : ∀ e ms m, m.entry ≠ i → I e ms → I e (m :: ms)
  winLen : ∀ e ms winLen, I e ms → I { e with winLen := winLen } ms
  /-- It is kept when a packet is metered and policed. -/
  apply : ∀ (c : PolicyClassifier ε) ms now pkt policer m, I (c.policyTable i) ms →
    (c.policyTable i).arrivalTime ≤ now → m.entry = i → m.time = now → m.size = pkt.size →
    m.mark = some (c.apply O i policer now pkt).2 →
    I ((c.apply O i policer now pkt).1.policyTable i) (m :: ms) ∧
      ((c.apply O i policer now pkt).1.policyTable i).arrivalTime ≤ now

/-- The entry at `i` is in the table, its policy in the pool, and it was metered in the past. -/
structure Settled (i : ℕ) (k : PolicyIndex) (I : PolicyTableEntry → List DsMarking → Prop)
    (c : PolicyClassifier ε) (clock : ℚ) (ms : List DsMarking) : Prop where
  lt : i < c.policyTableSize
  pool : c.pool k = true
  holds : I (c.policyTable i) ms
  past : (c.policyTable i).arrivalTime ≤ clock

variable {k : PolicyIndex} {I : PolicyTableEntry → List DsMarking → Prop}

theorem Settled.mark (hI : EntryInvariant O i k I) (hs : Settled i k I c clock ms)
    (hnow : clock ≤ now) (hm : c.mark O now pkt = some (c', m)) :
    Settled i k I c' now (m :: ms) := by
  have hpast := hs.past.trans hnow
  obtain ⟨-, htime, hsize, ⟨hpool, rfl, hmark⟩ | ⟨-, policer, rfl, hmark⟩⟩ := mark_cases hm
  · have hne : m.entry ≠ i := by
      rintro rfl
      rw [hI.index _ _ hs.holds, hs.pool] at hpool
      cases hpool
    exact ⟨hs.lt, hs.pool, hI.other _ _ _ hne hs.holds, hpast⟩
  · rcases eq_or_ne m.entry i with hi | hne
    · subst hi
      obtain ⟨hholds, hpast⟩ :=
        hI.apply c ms now pkt policer m hs.holds hpast rfl htime hsize hmark
      exact ⟨by simpa using hs.lt, by simpa using hs.pool, hholds, hpast⟩
    · have htable : (c.apply O m.entry policer now pkt).1.policyTable i = c.policyTable i :=
        apply_policyTable_of_ne hne.symm policer
      refine ⟨by simpa using hs.lt, by simpa using hs.pool, ?_, ?_⟩
      · rw [htable]
        exact hI.other _ _ _ hne hs.holds
      · rw [htable]
        exact hpast

/-- No policy leaves the pool. -/
theorem update_pool {pool : PolicyIndex → Bool} (index : PolicyIndex) (hk : pool k = true) :
    Function.update pool index true k = true := by
  rw [Function.update_apply]
  split
  · rfl
  · exact hk

theorem Settled.addPolicy (hs : Settled i k I c clock ms) (source dest codePt : ℤ)
    (spec : PolicySpec) : Settled i k I (c.addPolicyEntry O source dest codePt spec) clock ms := by
  unfold addPolicyEntry
  split
  · exact hs
  · have hne := hs.lt.ne
    refine ⟨hs.lt.trans (Nat.lt_succ_self _), ?_, ?_, ?_⟩
    · exact update_pool _ hs.pool
    · simpa [Function.update_of_ne hne] using hs.holds
    · simpa [Function.update_of_ne hne] using hs.past

theorem Settled.addPolicer (hs : Settled i k I c clock ms) {index : PolicyIndex}
    {initialCodePt downgrade1 downgrade2 : ℤ}
    (hc : c.addPolicerEntry index initialCodePt downgrade1 downgrade2 = some c') :
    Settled i k I c' clock ms := by
  unfold addPolicerEntry at hc
  split at hc
  · cases hc
  · obtain rfl := Option.some.inj hc
    exact ⟨hs.lt, update_pool _ hs.pool, hs.holds, hs.past⟩

theorem Settled.updateRTT (hI : EntryInvariant O i k I) (hs : Settled i k I c clock ms)
    (source dest : ℤ) (winLen : ℚ) :
    Settled i k I (c.updatePolicyRTT source dest winLen) clock ms := by
  unfold updatePolicyRTT
  split
  · exact hs
  next j _ =>
    rcases eq_or_ne i j with rfl | hne
    · refine ⟨hs.lt, hs.pool, ?_, ?_⟩
      · simpa using hI.winLen _ _ winLen hs.holds
      · simpa using hs.past
    · refine ⟨hs.lt, hs.pool, ?_, ?_⟩
      · simpa [Function.update_of_ne hne] using hs.holds
      · simpa [Function.update_of_ne hne] using hs.past

theorem Runs.settled (hI : EntryInvariant O i k I) (h : Runs O c₀ t₀ c clock ms)
    (h₀ : Settled i k I c₀ t₀ []) : Settled i k I c clock ms := by
  induction h with
  | refl => exact h₀
  | addPolicyEntry h source dest codePt spec ih => exact ih.addPolicy source dest codePt spec
  | addPolicerEntry h hc ih => exact ih.addPolicer hc
  | updatePolicyRTT h source dest winLen ih => exact ih.updateRTT hI source dest winLen
  | mark h hnow hm ih => exact ih.mark hI hnow hm

/-- A packet of the entry is metered and policed. -/
theorem Settled.police (hI : EntryInvariant O i k I) (hs : Settled i k I c clock ms)
    (hm : c.mark O now pkt = some (c', m)) (hi : m.entry = i) :
    ∃ policer, m.mark = some (c.apply O i policer now pkt).2 := by
  obtain ⟨-, -, -, ⟨hpool, -, -⟩ | ⟨-, policer, -, hmark⟩⟩ := mark_cases hm
  · rw [hi, hI.index _ _ hs.holds, hs.pool] at hpool
    cases hpool
  · exact ⟨policer, hi ▸ hmark⟩

/-- After an entry has been added. -/
theorem settled_addPolicyEntry (hroom : c.policyTableSize ≠ maxPolicies) {source dest codePt : ℤ}
    {spec : PolicySpec} (ht : 0 ≤ t₀)
    (hI : ∀ e : PolicyTableEntry, I (PolicySpec.configure { e with arrivalTime := 0 } spec) [])
    (hk : ∀ e : PolicyTableEntry, (PolicySpec.configure e spec).policyIndex = k)
    (hpast : ∀ e : PolicyTableEntry, (PolicySpec.configure e spec).arrivalTime = e.arrivalTime) :
    Settled c.policyTableSize k I (c.addPolicyEntry O source dest codePt spec) t₀ [] := by
  unfold addPolicyEntry
  rw [if_neg hroom]
  refine ⟨Nat.lt_succ_self _, ?_, ?_, ?_⟩
  · simp [hk]
  · simpa using hI { c.policyTable c.policyTableSize with
      sourceNode := source, destNode := dest, codePt := codePt, winLen := 1 }
  · simpa [hpast] using ht

/-! ### A classifier with one entry -/

/-- Memory that was zero. -/
def blank : PolicyTableEntry := ⟨0, 0, .null, 0, 0, 0, 0, 0, 0, 0, 0, 0, 0, 0, 0⟩

/-- No early warning. -/
def quiet : OtherPolicies Unit where
  ewInit := fun _ _ _ _ => ()
  dewpInit := fun _ _ => ()
  ew := fun _ _ _ => ((), .initialCodePt)
  dewp := fun _ _ _ => ((), .initialCodePt)

/-- One entry, from any host to any other, and its policer. -/
def single (spec : PolicySpec) (index : PolicyIndex) : Option (PolicyClassifier Unit) :=
  ((create (fun _ => blank) ()).addPolicyEntry quiet anyHost anyHost 10 spec).addPolicerEntry
    index 10 20 30

/-- Two packets of 60 bytes, a second apart. -/
theorem runs_two (spec : PolicySpec) (index : PolicyIndex)
    (h : ((single spec index).bind fun c => (c.mark quiet 1 ⟨3, 4, 5, 60, 0⟩).bind fun r =>
      r.1.mark quiet 2 ⟨3, 4, 5, 60, 0⟩).isSome = true) :
    ∃ c m₁ m₂, Runs quiet ((create (fun _ => blank) ()).addPolicyEntry quiet anyHost anyHost 10 spec)
      1 c 2 [m₂, m₁] := by
  obtain ⟨r₂, h⟩ := Option.isSome_iff_exists.mp h
  obtain ⟨c, hc, h⟩ := Option.bind_eq_some_iff.mp h
  obtain ⟨r₁, h₁, h₂⟩ := Option.bind_eq_some_iff.mp h
  exact ⟨r₂.1, r₁.2, r₂.2, .mark (.mark (.addPolicerEntry .refl hc) le_rfl h₁) (by norm_num) h₂⟩

/-! ### Two rates -/

/-- What is marked as initial, and what is marked at all. -/
def green : List DsMark := [.initialCodePt]

def greenYellow : List DsMark := [.initialCodePt, .downgrade1]

variable {cir cbs ebs pir pbs : ℚ}

structure TRHolds (i : ℕ) (cir cbs pir pbs : ℚ) (e : PolicyTableEntry) (ms : List DsMarking) :
    Prop where
  index : e.policyIndex = .trtcm
  rate : e.cir = cir
  burst : e.cbs = cbs
  peakRate : e.pir = pir
  peakBurst : e.pbs = pbs
  committed : Holds ⟨cir, cbs⟩ e.arrivalTime (marked i green ms) e.cBucket
  peak : Holds ⟨pir, pbs⟩ e.arrivalTime (marked i greenYellow ms) e.pBucket

/-- What `TRTCMPolicy` does to an entry. -/
theorem TRHolds.police {e : PolicyTableEntry} (he : TRHolds i cir cbs pir pbs e ms)
    (hcir : 0 ≤ cir) (hpir : 0 ≤ pir) (hnow : e.arrivalTime ≤ now) (n : ℕ) :
    let r := TRTCMPolicy.applyPolicer (TRTCMPolicy.applyMeter e now) n
    r.1.arrivalTime = now ∧
      (r.2 = .downgrade2 ↔ ¬ Allows ⟨pir, pbs⟩ (marked i greenYellow ms) now n) ∧
      (r.2 = .initialCodePt ↔ Allows ⟨pir, pbs⟩ (marked i greenYellow ms) now n ∧
        Allows ⟨cir, cbs⟩ (marked i green ms) now n) ∧
      ∀ m : DsMarking, m.entry = i → m.time = now → m.size = n → m.mark = some r.2 →
        TRHolds i cir cbs pir pbs r.1 (m :: ms) := by
  obtain ⟨hindex, rfl, rfl, rfl, rfl, hx, hy⟩ := he
  have hc := hx.fill hcir hnow
  have hp := hy.fill hpir hnow
  have hn : (0 : ℚ) ≤ n := n.cast_nonneg
  rw [← hc.le_iff hcir, ← hp.le_iff hpir]
  intro r
  simp only [r, TRTCMPolicy.applyPolicer, TRTCMPolicy.applyMeter, fill_eq_ite, sub_neg]
  by_cases hpeak : fill ⟨e.pir, e.pbs⟩ e.pBucket (now - e.arrivalTime) < n
  · simp only [hpeak, if_true, true_and, hpeak.not_ge, not_false_eq_true, reduceCtorEq, false_and]
    refine fun m hi ht hs hm => ⟨hindex, rfl, rfl, rfl, rfl, ?_, ?_⟩
    · rw [marked_cons_of_not_mem hm (by simp [green])]
      exact hc
    · rw [marked_cons_of_not_mem hm (by simp [greenYellow])]
      exact hp
  · have hpays := hp.pay hpir hn (not_lt.mp hpeak)
    by_cases hcommitted : fill ⟨e.cir, e.cbs⟩ e.cBucket (now - e.arrivalTime) < n
    · simp only [hpeak, hcommitted, if_true, if_false, true_and, not_lt.mp hpeak, not_true_eq_false,
        hcommitted.not_ge, reduceCtorEq, and_false]
      refine fun m hi ht hs hm => ⟨hindex, rfl, rfl, rfl, rfl, ?_, ?_⟩
      · rw [marked_cons_of_not_mem hm (by simp [green])]
        exact hc
      · rw [marked_cons_of_mem hi hm (by simp [greenYellow]), ht, hs]
        exact hpays
    · simp only [hpeak, hcommitted, if_false, true_and, not_lt.mp hpeak, not_true_eq_false,
        not_lt.mp hcommitted, reduceCtorEq, and_true]
      refine fun m hi ht hs hm => ⟨hindex, rfl, rfl, rfl, rfl, ?_, ?_⟩
      · rw [marked_cons_of_mem hi hm (by simp [green]), ht, hs]
        exact hc.pay hcir hn (not_lt.mp hcommitted)
      · rw [marked_cons_of_mem hi hm (by simp [greenYellow]), ht, hs]
        exact hpays

theorem apply_trtcm (h : (c.policyTable i).policyIndex = .trtcm) (policer : PolicerTableEntry) :
    (c.apply O i policer now pkt).2 =
        (TRTCMPolicy.applyPolicer (TRTCMPolicy.applyMeter (c.policyTable i) now) pkt.size).2 ∧
      (c.apply O i policer now pkt).1.policyTable i =
        (TRTCMPolicy.applyPolicer (TRTCMPolicy.applyMeter (c.policyTable i) now) pkt.size).1 := by
  simp [apply, h]

theorem trInvariant (O : OtherPolicies ε) (i : ℕ) (cbs pbs : ℚ) (hcir : 0 ≤ cir) (hpir : 0 ≤ pir) :
    EntryInvariant O i .trtcm (TRHolds i cir cbs pir pbs) where
  index := fun _ _ h => h.index
  other := fun e ms m hne h =>
    ⟨h.index, h.rate, h.burst, h.peakRate, h.peakBurst,
      by rw [marked_cons_of_ne hne]; exact h.committed, by rw [marked_cons_of_ne hne]; exact h.peak⟩
  winLen := fun _ _ _ h =>
    ⟨h.index, h.rate, h.burst, h.peakRate, h.peakBurst, h.committed, h.peak⟩
  apply := by
    intro c ms now pkt policer m h hpast hi ht hs hm
    obtain ⟨hmark, htable⟩ := apply_trtcm h.index policer
    obtain ⟨htime, -, -, hholds⟩ := h.police hcir hpir hpast pkt.size
    rw [htable, htime]
    exact ⟨hholds m hi ht hs (hm.trans (congrArg some hmark)), le_rfl⟩

/-- From its addition on, in every run and whatever else passes the classifier, the packets that a
two rate policy does not mark red conform to the peak rate and burst size, and the green ones to the
committed ones; the next one is red exactly when it does not conform to the peak, and green exactly
when it conforms to both. -/
theorem trTCM_exact {source dest codePt : ℤ} (hroom : c₀.policyTableSize ≠ maxPolicies)
    (ht : 0 ≤ t₀) (hcir : 0 ≤ cir) (hcbs : 0 ≤ cbs) (hpir : 0 ≤ pir) (hpbs : 0 ≤ pbs)
    (h : Runs O (c₀.addPolicyEntry O source dest codePt (.trTCM cir cbs pir pbs)) t₀ c clock ms) :
    Conforms ⟨pir / 8, pbs⟩ (marked c₀.policyTableSize greenYellow ms) ∧
      Conforms ⟨cir / 8, cbs⟩ (marked c₀.policyTableSize green ms) ∧
      ∀ now, clock ≤ now → ∀ pkt c' m, c.mark O now pkt = some (c', m) →
        m.entry = c₀.policyTableSize →
        (m.mark = some .downgrade2 ↔
          ¬ Allows ⟨pir / 8, pbs⟩ (marked c₀.policyTableSize greenYellow ms) now pkt.size) ∧
        (m.mark = some .initialCodePt ↔
          Allows ⟨pir / 8, pbs⟩ (marked c₀.policyTableSize greenYellow ms) now pkt.size ∧
          Allows ⟨cir / 8, cbs⟩ (marked c₀.policyTableSize green ms) now pkt.size) := by
  have hrate : 0 ≤ cir / 8 := by positivity
  have hpeak : 0 ≤ pir / 8 := by positivity
  have hI := trInvariant O c₀.policyTableSize cbs pbs hrate hpeak
  have hs := h.settled hI (settled_addPolicyEntry hroom ht
    (fun e => ⟨rfl, rfl, rfl, rfl, rfl, .create hrate hcbs _, .create hpeak hpbs _⟩) (fun e => rfl)
    fun e => rfl)
  refine ⟨hs.holds.peak.conforms, hs.holds.committed.conforms, fun now hnow pkt c' m hm hi => ?_⟩
  obtain ⟨policer, hmark⟩ := hs.police hI hm hi
  rw [hmark, (apply_trtcm hs.holds.index policer).1, Option.some.injEq, Option.some.injEq]
  obtain ⟨-, hred, hgreen, -⟩ := hs.holds.police hrate hpeak (hs.past.trans hnow) pkt.size
  exact ⟨hred, hgreen⟩

/-- A committed burst size of 100 bytes and a peak burst size of 150. -/
theorem trTCM_exact_two : ∃ c m₁ m₂,
    Runs quiet ((create (fun _ => blank) ()).addPolicyEntry quiet anyHost anyHost 10
      (.trTCM 8 100 16 150)) 1 c 2 [m₂, m₁] ∧
    Conforms ⟨16 / 8, 150⟩ (marked 0 greenYellow [m₂, m₁]) := by
  obtain ⟨c, m₁, m₂, h⟩ := runs_two (.trTCM 8 100 16 150) .trtcm (by decide +kernel)
  exact ⟨c, m₁, m₂, h, (trTCM_exact (by decide) (by norm_num) (by norm_num) (by norm_num)
    (by norm_num) (by norm_num) h).1⟩

/-! ### One rate, two buckets -/

structure SRHolds (i : ℕ) (cir cbs ebs : ℚ) (e : PolicyTableEntry) (ms : List DsMarking) :
    Prop where
  index : e.policyIndex = .srtcm
  rate : e.cir = cir
  burst : e.cbs = cbs
  excess : e.ebs = ebs
  committed : Holds ⟨cir, cbs⟩ e.arrivalTime (marked i green ms) e.cBucket
  both : Holds ⟨cir, cbs + ebs⟩ e.arrivalTime (marked i greenYellow ms) (e.cBucket + e.eBucket)
  cBucket : 0 ≤ e.cBucket
  eBucket : 0 ≤ e.eBucket
  eBucket_le : e.eBucket ≤ ebs

/-- What overflows from the committed bucket goes to the excess bucket. -/
theorem SRHolds.meter {e : PolicyTableEntry} (he : SRHolds i cir cbs ebs e ms) (hcir : 0 ≤ cir)
    (hcbs : 0 ≤ cbs) (hnow : e.arrivalTime ≤ now) :
    SRHolds i cir cbs ebs (SRTCMPolicy.applyMeter e now) ms ∧
      (SRTCMPolicy.applyMeter e now).arrivalTime = now := by
  obtain ⟨hindex, rfl, rfl, rfl, hx, hy, hc, hE, hle⟩ := he
  have hfill := hx.fill hcir hnow
  have hboth := hy.fill hcir hnow
  have hc' := fill_nonneg (b := ⟨e.cir, e.cbs⟩) hcir hcbs hc (sub_nonneg.mpr hnow)
  have hcle : e.cBucket ≤ e.cbs := hx.eq ▸ level_le_depth (b := ⟨e.cir, e.cbs⟩) _ _
  unfold SRTCMPolicy.applyMeter
  simp only
  by_cases hroom : e.cBucket + e.cir * (now - e.arrivalTime) ≤ e.cbs
  · rw [if_pos hroom]
    have hfilled : fill ⟨e.cir, e.cbs⟩ e.cBucket (now - e.arrivalTime) =
        e.cBucket + e.cir * (now - e.arrivalTime) := min_eq_right hroom
    have hsum : fill ⟨e.cir, e.cbs + e.ebs⟩ (e.cBucket + e.eBucket) (now - e.arrivalTime) =
        e.cBucket + e.cir * (now - e.arrivalTime) + e.eBucket := by
      rw [fill, min_eq_right]
      · ring
      · change e.cBucket + e.eBucket + e.cir * (now - e.arrivalTime) ≤ e.cbs + e.ebs
        linarith
    rw [hfilled] at hfill hc'
    rw [hsum] at hboth
    exact ⟨⟨hindex, rfl, rfl, rfl, hfill, hboth, hc', hE, hle⟩, rfl⟩
  · rw [if_neg hroom]
    have hover := (not_le.mp hroom).le
    have hfilled : fill ⟨e.cir, e.cbs⟩ e.cBucket (now - e.arrivalTime) = e.cbs :=
      min_eq_left hover
    rw [hfilled] at hfill
    -- What does not fit in the committed bucket.
    generalize htok : e.cir * (now - e.arrivalTime) - (e.cbs - e.cBucket) = rest
    have hover' : 0 ≤ rest := by linarith
    have hsum : fill ⟨e.cir, e.cbs + e.ebs⟩ (e.cBucket + e.eBucket) (now - e.arrivalTime) =
        e.cbs + if e.eBucket + rest ≤ e.ebs then e.eBucket + rest else e.ebs := by
      have hall : e.cBucket + e.eBucket + e.cir * (now - e.arrivalTime) =
          e.cbs + (e.eBucket + rest) := by linarith
      rw [← min_def, min_comm, ← min_add_add_left, ← hall]
      rfl
    rw [hsum] at hboth
    have hnext : 0 ≤ (if e.eBucket + rest ≤ e.ebs then e.eBucket + rest else e.ebs) := by
      split
      · exact add_nonneg hE hover'
      · exact hE.trans hle
    have hnextle : (if e.eBucket + rest ≤ e.ebs then e.eBucket + rest else e.ebs) ≤ e.ebs := by
      split
      · assumption
      · exact le_rfl
    exact ⟨⟨hindex, rfl, rfl, rfl, hfill, hboth, hcbs, hnext, hnextle⟩, rfl⟩

/-- What `SRTCMPolicy` does to an entry that has been metered. -/
theorem SRHolds.police {e : PolicyTableEntry} (he : SRHolds i cir cbs ebs e ms) (hcir : 0 ≤ cir)
    (n : ℕ) :
    let r := SRTCMPolicy.applyPolicer e n
    r.1.arrivalTime = e.arrivalTime ∧
      (r.2 = .initialCodePt ↔ Allows ⟨cir, cbs⟩ (marked i green ms) e.arrivalTime n) ∧
      (r.2 = .downgrade1 ↔ ¬ Allows ⟨cir, cbs⟩ (marked i green ms) e.arrivalTime n ∧
        Allows ⟨cir, cbs + ebs⟩ (marked i greenYellow ms) e.arrivalTime (n + e.cBucket)) ∧
      ∀ m : DsMarking, m.entry = i → m.time = e.arrivalTime → m.size = n → m.mark = some r.2 →
        SRHolds i cir cbs ebs r.1 (m :: ms) := by
  obtain ⟨hindex, rfl, rfl, rfl, hx, hy, hc, hE, hle⟩ := he
  have hn : (0 : ℚ) ≤ n := n.cast_nonneg
  rw [← hx.le_iff hcir, ← hy.le_iff hcir, add_comm e.cBucket, add_le_add_iff_right]
  intro r
  simp only [r, SRTCMPolicy.applyPolicer, ge_iff_le, sub_nonneg]
  by_cases hgreen : (n : ℚ) ≤ e.cBucket
  · simp only [hgreen, if_true, true_and, reduceCtorEq, not_true_eq_false, false_and]
    refine fun m hi ht hs hm => ⟨hindex, rfl, rfl, rfl, ?_, ?_, ?_, hE, hle⟩
    · rw [marked_cons_of_mem hi hm (by simp [green]), ht, hs]
      exact hx.pay hcir hn hgreen
    · have hpay := hy.pay hcir hn (hgreen.trans (le_add_of_nonneg_right hE))
      rw [add_sub_right_comm] at hpay
      rw [marked_cons_of_mem hi hm (by simp [greenYellow]), ht, hs]
      exact hpay
    · exact sub_nonneg.mpr hgreen
  · by_cases hyellow : (n : ℚ) ≤ e.eBucket
    · simp only [hgreen, hyellow, if_true, if_false, true_and, reduceCtorEq, not_false_eq_true]
      refine fun m hi ht hs hm => ⟨hindex, rfl, rfl, rfl, ?_, ?_, hc, ?_, ?_⟩
      · rw [marked_cons_of_not_mem hm (by simp [green])]
        exact hx
      · have hpay := hy.pay hcir hn (hyellow.trans (le_add_of_nonneg_left hc))
        rw [add_sub_assoc] at hpay
        rw [marked_cons_of_mem hi hm (by simp [greenYellow]), ht, hs]
        exact hpay
      · exact sub_nonneg.mpr hyellow
      · exact (sub_le_self _ hn).trans hle
    · simp only [hgreen, hyellow, if_false, true_and, reduceCtorEq, and_false]
      refine fun m hi ht hs hm => ⟨hindex, rfl, rfl, rfl, ?_, ?_, hc, hE, hle⟩
      · rw [marked_cons_of_not_mem hm (by simp [green])]
        exact hx
      · rw [marked_cons_of_not_mem hm (by simp [greenYellow])]
        exact hy

theorem apply_srtcm (h : (c.policyTable i).policyIndex = .srtcm) (policer : PolicerTableEntry) :
    (c.apply O i policer now pkt).2 =
        (SRTCMPolicy.applyPolicer (SRTCMPolicy.applyMeter (c.policyTable i) now) pkt.size).2 ∧
      (c.apply O i policer now pkt).1.policyTable i =
        (SRTCMPolicy.applyPolicer (SRTCMPolicy.applyMeter (c.policyTable i) now) pkt.size).1 := by
  simp [apply, h]

theorem srInvariant (O : OtherPolicies ε) (i : ℕ) (ebs : ℚ) (hcir : 0 ≤ cir) (hcbs : 0 ≤ cbs) :
    EntryInvariant O i .srtcm (SRHolds i cir cbs ebs) where
  index := fun _ _ h => h.index
  other := fun e ms m hne h =>
    { h with
      committed := by rw [marked_cons_of_ne hne]; exact h.committed
      both := by rw [marked_cons_of_ne hne]; exact h.both }
  winLen := fun _ _ _ h =>
    ⟨h.index, h.rate, h.burst, h.excess, h.committed, h.both, h.cBucket, h.eBucket, h.eBucket_le⟩
  apply := by
    intro c ms now pkt policer m h hpast hi ht hs hm
    obtain ⟨hmark, htable⟩ := apply_srtcm h.index policer
    obtain ⟨hmet, hmetTime⟩ := h.meter hcir hcbs hpast
    obtain ⟨htime, -, -, hholds⟩ := hmet.police hcir pkt.size
    rw [htable, htime, hmetTime]
    exact ⟨hholds m hi (ht.trans hmetTime.symm) hs (hm.trans (congrArg some hmark)), le_rfl⟩

/-- From its addition on, in every run and whatever else passes the classifier, the packets that a
single rate policy marks green conform to the rate and the committed burst size, and those that it
does not mark red to the rate and both burst sizes; the next one is green exactly when it conforms,
and yellow exactly when it does not, and conforms with both burst sizes without what is left of the
committed one. -/
theorem srTCM_exact {source dest codePt : ℤ} (hroom : c₀.policyTableSize ≠ maxPolicies)
    (ht : 0 ≤ t₀) (hcir : 0 ≤ cir) (hcbs : 0 ≤ cbs) (hebs : 0 ≤ ebs)
    (h : Runs O (c₀.addPolicyEntry O source dest codePt (.srTCM cir cbs ebs)) t₀ c clock ms) :
    Conforms ⟨cir / 8, cbs⟩ (marked c₀.policyTableSize green ms) ∧
      Conforms ⟨cir / 8, cbs + ebs⟩ (marked c₀.policyTableSize greenYellow ms) ∧
      ∀ now, clock ≤ now → ∀ pkt c' m, c.mark O now pkt = some (c', m) →
        m.entry = c₀.policyTableSize →
        (m.mark = some .initialCodePt ↔
          Allows ⟨cir / 8, cbs⟩ (marked c₀.policyTableSize green ms) now pkt.size) ∧
        (m.mark = some .downgrade1 ↔
          ¬ Allows ⟨cir / 8, cbs⟩ (marked c₀.policyTableSize green ms) now pkt.size ∧
          Allows ⟨cir / 8, cbs + ebs⟩ (marked c₀.policyTableSize greenYellow ms) now
            (pkt.size + level ⟨cir / 8, cbs⟩ (marked c₀.policyTableSize green ms) now)) := by
  have hrate : 0 ≤ cir / 8 := by positivity
  have hI := srInvariant O c₀.policyTableSize ebs hrate hcbs
  have hs := h.settled hI (settled_addPolicyEntry hroom ht
    (fun e => ⟨rfl, rfl, rfl, rfl, .create hrate hcbs _, .create hrate (add_nonneg hcbs hebs) _,
      hcbs, hebs, le_rfl⟩) (fun e => rfl) fun e => rfl)
  refine ⟨hs.holds.committed.conforms, hs.holds.both.conforms, fun now hnow pkt c' m hm hi => ?_⟩
  obtain ⟨policer, hmark⟩ := hs.police hI hm hi
  rw [hmark, (apply_srtcm hs.holds.index policer).1, Option.some.injEq, Option.some.injEq]
  obtain ⟨hmet, hmetTime⟩ := hs.holds.meter hrate hcbs (hs.past.trans hnow)
  obtain ⟨-, hgreen, hyellow, -⟩ := hmet.police hrate pkt.size
  rw [hmet.committed.eq, hmetTime] at hyellow
  rw [hmetTime] at hgreen
  exact ⟨hgreen, hyellow⟩

/-- A committed burst size of 100 bytes and an excess burst size of 50. -/
theorem srTCM_exact_two : ∃ c m₁ m₂,
    Runs quiet ((create (fun _ => blank) ()).addPolicyEntry quiet anyHost anyHost 10
      (.srTCM 8 100 50)) 1 c 2 [m₂, m₁] ∧
    Conforms ⟨8 / 8, 100 + 50⟩ (marked 0 greenYellow [m₂, m₁]) := by
  obtain ⟨c, m₁, m₂, h⟩ := runs_two (.srTCM 8 100 50) .srtcm (by decide +kernel)
  exact ⟨c, m₁, m₂, h,
    (srTCM_exact (by decide) (by norm_num) (by norm_num) (by norm_num) (by norm_num) h).2.1⟩

end PolicyClassifier

end Afabric
