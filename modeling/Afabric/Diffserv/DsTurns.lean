import Afabric.Diffserv.DsBooks
import Afabric.Support.RingBuffer

/-!
# Diffserv — which queue is served

Each of the schedulers goes round the queues from the last one served, and finds one with a packet
if there is one.  The exception is the weighted interleaved round robin: when all queues with
packets are done for the round, it is left with the queue it started from, with a packet or without.
The round is over then, so that the next call finds a packet (`serves_or_stalls`).
-/

namespace Afabric

namespace DsRed

open Function RingBuffer

variable {d d' s : DsRed} {now u : ℚ} {a b i k : ℕ}

/-! ### Round robin -/

theorem following_lt {d : DsRed} (hd : d.qToDq < d.numQueues) : d.following < d.numQueues :=
  Nat.mod_lt _ (Nat.zero_lt_of_lt hd)

/-- Where a search from the queue `p` for `k` steps ends: at the first queue that is not skipped, or
with none such found. -/
structure Found (n : ℕ) (skip : ℕ → Prop) (p k q : ℕ) (j : ℕ) : Prop where
  le : j ≤ k
  eq : q = off n p j
  skipped : ∀ i < j, skip (off n p i)
  last : j < k → ¬ skip (off n p j)

theorem Found.zero {n p k : ℕ} {skip : ℕ → Prop} (hp : p < n) (hs : ¬ skip p) :
    Found n skip p k p 0 :=
  ⟨Nat.zero_le _, (off_zero hp).symm, fun _ h => absurd h (Nat.not_lt_zero _),
    fun _ => by rwa [off_zero hp]⟩

theorem Found.succ {n p k q j : ℕ} {skip : ℕ → Prop} (hp : p < n) (hs : skip p)
    (h : Found n skip (next n p) k q j) : Found n skip p (k + 1) q (j + 1) := by
  refine ⟨Nat.succ_le_succ h.le, by rw [h.eq, off_next], ?_, ?_⟩
  · intro i hi
    cases i with
    | zero => rwa [off_zero hp]
    | succ i =>
      rw [← off_next]
      exact h.skipped i (Nat.lt_of_succ_lt_succ hi)
  · intro hj
    rw [← off_next]
    exact h.last (Nat.lt_of_succ_lt_succ hj)

/-- After all places have been seen, nothing was found only if everything is skipped. -/
theorem Found.all {n p q j : ℕ} {skip : ℕ → Prop} (hp : p < n) (h : Found n skip p n q j) :
    (j < n ∧ ¬ skip q) ∨ (j = n ∧ q = p ∧ ∀ i < n, skip i) := by
  rcases h.le.lt_or_eq with hlt | rfl
  · exact .inl ⟨hlt, h.eq ▸ h.last hlt⟩
  · refine .inr ⟨rfl, ?_, fun i hi => ?_⟩
    · rw [h.eq, off, Nat.add_mod_right, Nat.mod_eq_of_lt hp]
    · rw [← off_dist hp hi]
      exact h.skipped _ (Nat.mod_lt _ (Nat.zero_lt_of_lt hp))

theorem Found.lt {n p q j : ℕ} {skip : ℕ → Prop} (hp : p < n) (h : Found n skip p n q j)
    (hq : ¬ skip q) : j < n :=
  (h.all hp).elim And.left fun hall => absurd (hall.2.2 q (hall.2.1 ▸ hp)) hq

theorem Found.finds {n p q j : ℕ} {skip : ℕ → Prop} (hp : p < n) (h : Found n skip p n q j) :
    q < n ∧ (¬ skip q ∨ ∀ i < n, skip i) :=
  ⟨h.eq ▸ off_lt (Nat.zero_lt_of_lt hp), (h.all hp).imp And.right fun hall => hall.2.2⟩

theorem searchRR_found (k : ℕ) : ∀ {d : DsRed}, d.qToDq < d.numQueues → ∃ j,
    Found d.numQueues d.Empty d.qToDq k (d.searchRR k).qToDq j ∧
      d.searchRR k = { d with qToDq := (d.searchRR k).qToDq } := by
  induction k with
  | zero =>
    intro d hd
    exact ⟨0, ⟨le_rfl, (off_zero hd).symm, fun _ h => absurd h (Nat.not_lt_zero _),
      fun h => absurd h (lt_irrefl _)⟩, rfl⟩
  | succ k ih =>
    intro d hd
    rw [searchRR]
    split
    next he =>
      have hnext := following_lt hd
      obtain ⟨j, hf, heq⟩ := ih (d := { d with qToDq := d.following }) hnext
      exact ⟨j + 1, Found.succ hd he hf, heq⟩
    next he => exact ⟨0, .zero hd he, rfl⟩

theorem searchWRR_of_pos {k : ℕ} (hk : 0 < k) (d : DsRed) : d.searchWRR k =
    if d.Empty d.qToDq then
      searchWRR (moveWRR { d with wirrTemp := update d.wirrTemp d.qToDq 0 }) (k - 1)
    else d := by
  cases k with
  | zero => exact absurd hk (lt_irrefl 0)
  | succ k => rfl

/-- From a queue that has been moved to, with its weight of services. -/
theorem searchWRR_found (k : ℕ) : ∀ {d : DsRed}, d.qToDq < d.numQueues → ∃ j,
    Found d.numQueues d.Empty d.following k (d.moveWRR.searchWRR k).qToDq j ∧
      (d.moveWRR.searchWRR k).wirrTemp (d.moveWRR.searchWRR k).qToDq =
        d.queueWeight (d.moveWRR.searchWRR k).qToDq - 1 := by
  induction k with
  | zero =>
    intro d hd
    have hnext := following_lt hd
    exact ⟨0, ⟨le_rfl, (off_zero hnext).symm, fun _ h => absurd h (Nat.not_lt_zero _),
      fun h => absurd h (lt_irrefl _)⟩, update_self _ _ _⟩
  | succ k ih =>
    intro d hd
    have hnext := following_lt hd
    rw [searchWRR]
    split
    next he =>
      obtain ⟨j, hf, hw⟩ := ih
        (d := { d.moveWRR with wirrTemp := update d.moveWRR.wirrTemp d.moveWRR.qToDq 0 }) hnext
      exact ⟨j + 1, Found.succ hnext he hf, hw⟩
    next he => exact ⟨0, .zero hnext he, update_self _ _ _⟩

/-! ### Work conservation -/

theorem select_rr (hm : d.schedMode = .rr) :
    d.selectQueueToDeque = searchRR { d with qToDq := d.following } d.numQueues := by
  rw [selectQueueToDeque, hm]

theorem select_wrr (hm : d.schedMode = .wrr) :
    d.selectQueueToDeque = searchWRR (if d.wirrTemp d.qToDq ≤ 0 then d.moveWRR
      else { d with wirrTemp := update d.wirrTemp d.qToDq (d.wirrTemp d.qToDq - 1) })
        d.numQueues := by
  rw [selectQueueToDeque, hm]
  simp only
  split <;> rfl

theorem select_pri (hm : d.schedMode = .pri) :
    d.selectQueueToDeque = if d.searchPRI 0 d.numQueues = d.numQueues then
      searchRR { d with qToDq := 0 } d.numQueues
    else { d with qToDq := d.searchPRI 0 d.numQueues } := by
  rw [selectQueueToDeque, hm]

theorem searchPRI_found (d : DsRed) (k : ℕ) : ∀ i, d.searchPRI i k ≤ i + k ∧
    (d.searchPRI i k < i + k → ¬ d.Empty (d.searchPRI i k)) := by
  induction k with
  | zero => exact fun i => ⟨le_rfl, fun h => absurd h (lt_irrefl _)⟩
  | succ k ih =>
    intro i
    rw [searchPRI]
    split
    · have h := ih (i + 1)
      rwa [Nat.add_right_comm, Nat.add_assoc] at h
    next hp => exact ⟨Nat.le_add_right _ _, fun _ he => hp (.inl he)⟩

/-- A queue with a packet is found if there is one. -/
theorem select_found (hm : d.schedMode ≠ .wirr) (hd : d.qToDq < d.numQueues) :
    d.selectQueueToDeque.qToDq < d.numQueues ∧
      (¬ d.Empty d.selectQueueToDeque.qToDq ∨ ∀ i < d.numQueues, d.Empty i) := by
  have hn : 0 < d.numQueues := Nat.zero_lt_of_lt hd
  have hnext := following_lt hd
  cases hmode : d.schedMode with
  | rr =>
    obtain ⟨j, hf, -⟩ := searchRR_found d.numQueues (d := { d with qToDq := d.following }) hnext
    rw [select_rr hmode]
    exact hf.finds hnext
  | wrr =>
    rw [select_wrr hmode]
    split
    · obtain ⟨j, hf, -⟩ := searchWRR_found d.numQueues hd
      exact hf.finds hnext
    rw [searchWRR_of_pos hn]
    split
    next he =>
      obtain ⟨j, hf, -⟩ := searchWRR_found (d.numQueues - 1) (d := { d with
        wirrTemp := update (update d.wirrTemp d.qToDq (d.wirrTemp d.qToDq - 1)) d.qToDq 0 }) hd
      have hf' := Found.succ hd he hf
      rw [Nat.sub_add_cancel hn] at hf'
      exact hf'.finds hd
    next he => exact ⟨hd, .inl he⟩
  | wirr => exact absurd hmode hm
  | pri =>
    obtain ⟨hle, hlt⟩ := searchPRI_found d d.numQueues 0
    rw [Nat.zero_add] at hle hlt
    rw [select_pri hmode]
    split
    · obtain ⟨j, hf, -⟩ := searchRR_found d.numQueues (d := { d with qToDq := 0 }) hn
      exact hf.finds hn
    next hne => exact ⟨lt_of_le_of_ne hle hne, .inl (hlt (lt_of_le_of_ne hle hne))⟩

/-- What the weighted interleaved round robin passes over. -/
def Skips (d : DsRed) (i : ℕ) : Prop := d.Empty i ∨ d.wirrqDone i = true

instance (d : DsRed) (i : ℕ) : Decidable (d.Skips i) := inferInstanceAs (Decidable (_ ∨ _))

/-- No more queues are done than `queuesDone` says. -/
def Counted (d : DsRed) : Prop :=
  ((Finset.range d.numQueues).filter fun i => d.wirrqDone i = true).card ≤ d.queuesDone

theorem finish_done (d : DsRed) (i j : ℕ) :
    (d.finish i).wirrqDone j = true ↔ d.wirrqDone j = true ∨ j = i := by
  change update d.wirrqDone i true j = true ↔ _
  rw [update_apply]
  split
  next h => exact iff_of_true rfl (.inr h)
  next h => exact (or_iff_left h).symm

theorem Counted.finish (h : d.Counted) (i : ℕ) : (d.finish i).Counted := by
  refine (Finset.card_le_card ?_).trans ((Finset.card_insert_le i _).trans (Nat.succ_le_succ h))
  intro j hj
  obtain ⟨hlt, hdone⟩ := Finset.mem_filter.mp hj
  rw [Finset.mem_insert]
  exact ((finish_done d i j).mp hdone).symm.imp_right fun h => Finset.mem_filter.mpr ⟨hlt, h⟩

theorem searchWIRR_found (k : ℕ) : ∀ {d : DsRed}, d.qToDq < d.numQueues → d.Counted → ∃ j,
    Found d.numQueues d.Skips d.qToDq k (d.searchWIRR k).qToDq j ∧
      (∀ i < j, (d.searchWIRR k).wirrqDone (off d.numQueues d.qToDq i) = true) ∧
      (∀ i, d.wirrqDone i = true → (d.searchWIRR k).wirrqDone i = true) ∧
      (d.searchWIRR k).Counted := by
  induction k with
  | zero =>
    intro d hd hc
    exact ⟨0, ⟨le_rfl, (off_zero hd).symm, fun _ h => absurd h (Nat.not_lt_zero _),
      fun h => absurd h (lt_irrefl _)⟩, fun _ h => absurd h (Nat.not_lt_zero _), fun _ h => h, hc⟩
  | succ k ih =>
    intro d hd hc
    rw [searchWIRR]
    split
    next hs =>
      have hnext := following_lt hd
      simp only
      -- A queue is done when it is passed over, which changes nothing about what is.
      generalize hs₁ : (if d.wirrqDone d.qToDq = true then d else d.finish d.qToDq) = s₁
      have hk : Kept d s₁ := hs₁ ▸ by
        split
        · exact .refl d
        · exact ⟨rfl, rfl, rfl, rfl, rfl, rfl, rfl⟩
      have hc₁ : s₁.Counted := hs₁ ▸ by
        split
        · exact hc
        · exact hc.finish _
      have hq₁ : s₁.qToDq = d.qToDq := hs₁ ▸ by split <;> rfl
      have hdone : ∀ i, s₁.wirrqDone i = true ↔ d.wirrqDone i = true ∨ i = d.qToDq := by
        intro i
        rw [← hs₁]
        split
        next h =>
          refine ⟨.inl, ?_⟩
          rintro (h' | rfl)
          · exact h'
          · exact h
        next h => exact finish_done d d.qToDq i
      have hskip : s₁.Skips = d.Skips := by
        funext i
        have he : s₁.Empty i = d.Empty i := by rw [Empty, Empty, hk.redq]
        rw [Skips, Skips, he, hdone]
        refine propext ⟨?_, fun h => h.imp_right .inl⟩
        rintro (h | h | rfl)
        · exact .inl h
        · exact .inr h
        · exact hs
      have hfol : s₁.following = d.following := by
        rw [following, following, hq₁, hk.numQueues]
      obtain ⟨j, hf, hall, hmono, hc₂⟩ := ih (d := { s₁ with qToDq := s₁.following })
        (by rw [hfol, hk.numQueues]; exact hnext) hc₁
      generalize searchWIRR { s₁ with qToDq := s₁.following } k = s at hf hall hmono hc₂ ⊢
      change Found s₁.numQueues s₁.Skips s₁.following k s.qToDq j at hf
      change ∀ i < j, s.wirrqDone (off s₁.numQueues s₁.following i) = true at hall
      rw [hk.numQueues, hfol] at hf hall
      rw [hskip] at hf
      refine ⟨j + 1, Found.succ hd hs hf, ?_, fun i h => hmono i ((hdone i).mpr (.inl h)), hc₂⟩
      intro i hi
      cases i with
      | zero =>
        rw [off_zero hd]
        exact hmono _ ((hdone _).mpr (.inr rfl))
      | succ i =>
        rw [← off_next]
        exact hall i (Nat.lt_of_succ_lt_succ hi)
    next hs => exact ⟨0, .zero hd hs, fun _ h => absurd h (Nat.not_lt_zero _), fun _ h => h, hc⟩

/-- A new round is one with no queue done. -/
theorem renew_counted (h : d.Counted) : d.renew.Counted := by
  unfold renew
  split
  · refine (Finset.card_eq_zero.mpr (Finset.filter_eq_empty_iff.mpr fun i hi => ?_)).le
    simp only [if_pos (Finset.mem_range.mp hi)]
    exact Bool.false_ne_true
  · exact h

theorem renew_of_done (h : d.Counted) (hdone : ∀ i < d.numQueues, d.wirrqDone i = true) :
    ∀ i < d.numQueues, d.renew.wirrqDone i = false := by
  intro i hi
  have hcard : (Finset.range d.numQueues).filter (fun i => d.wirrqDone i = true) =
      Finset.range d.numQueues :=
    Finset.filter_true_of_mem fun i hi => hdone i (Finset.mem_range.mp hi)
  have hle : d.numQueues ≤ d.queuesDone := by
    unfold Counted at h
    rwa [hcard, Finset.card_range] at h
  rw [renew, if_pos hle]
  exact if_pos hi

theorem renew_qToDq (d : DsRed) : d.renew.qToDq = d.qToDq := by
  unfold renew
  split <;> rfl

theorem select_wirr (hm : d.schedMode = .wirr) :
    let s := searchWIRR { d with qToDq := d.following } d.numQueues
    let s₁ := if s.wirrTemp s.qToDq = 1 then s.finish s.qToDq else s
    d.selectQueueToDeque = renew { s₁ with
      wirrTemp := update s₁.wirrTemp s₁.qToDq (s₁.wirrTemp s₁.qToDq - 1) } := by
  rw [selectQueueToDeque, hm]

/-- Either a queue is found, or all are done and a new round begins. -/
theorem select_wirr_found (hm : d.schedMode = .wirr) (hd : d.qToDq < d.numQueues)
    (hc : d.Counted) :
    let s := d.selectQueueToDeque
    s.qToDq < d.numQueues ∧ s.Counted ∧ (¬ d.Skips s.qToDq ∨
      (∀ i < d.numQueues, d.Skips i) ∧ s.qToDq = d.following ∧
        ∀ i < d.numQueues, s.wirrqDone i = false) := by
  have hnext := following_lt hd
  have hsel := select_wirr hm
  have hk := Kept.searchWIRR d.numQueues { d with qToDq := d.following }
  obtain ⟨j, hf, hall, -, hc₁⟩ :=
    searchWIRR_found d.numQueues (d := { d with qToDq := d.following }) hnext hc
  simp only at hsel
  generalize searchWIRR { d with qToDq := d.following } d.numQueues = s at hk hf hall hc₁ hsel
  change Found d.numQueues d.Skips d.following d.numQueues s.qToDq j at hf
  change ∀ i < j, s.wirrqDone (off d.numQueues d.following i) = true at hall
  generalize hs₁ : (if s.wirrTemp s.qToDq = 1 then s.finish s.qToDq else s) = s₁ at hsel
  have hc₂ : s₁.Counted := hs₁ ▸ by
    split
    · exact hc₁.finish _
    · exact hc₁
  have hmono : ∀ i, s.wirrqDone i = true → s₁.wirrqDone i = true := by
    intro i h
    rw [← hs₁]
    split
    · exact (finish_done s s.qToDq i).mpr (.inl h)
    · exact h
  have hn₁ : s₁.numQueues = d.numQueues := (hs₁ ▸ by split <;> rfl :
    s₁.numQueues = s.numQueues).trans hk.numQueues
  have hq : d.selectQueueToDeque.qToDq = s.qToDq := by
    rw [hsel, renew_qToDq, ← hs₁]
    change (if s.wirrTemp s.qToDq = 1 then s.finish s.qToDq else s).qToDq = s.qToDq
    split <;> rfl
  have hcount : d.selectQueueToDeque.Counted := by
    rw [hsel]
    exact renew_counted hc₂
  refine ⟨hq ▸ (hf.finds hnext).1, hcount, ?_⟩
  rw [hq]
  refine (hf.all hnext).imp And.right fun ⟨hj, hq', hskip⟩ => ⟨hskip, hq', fun i hi => ?_⟩
  have hdone : ∀ i < s₁.numQueues, s₁.wirrqDone i = true := by
    intro i hi
    rw [hn₁] at hi
    rw [← off_dist hnext hi]
    exact hmono _ (hall _ (hj.symm ▸ Nat.mod_lt _ (Nat.zero_lt_of_lt hnext)))
  rw [hsel]
  refine renew_of_done ?_ ?_ i ?_
  · exact hc₂
  · exact hdone
  · exact hn₁.symm ▸ hi

/-- The marks of the rounds. -/
theorem searchWRR_done (k : ℕ) : ∀ d : DsRed, (d.searchWRR k).wirrqDone = d.wirrqDone ∧
    (d.searchWRR k).queuesDone = d.queuesDone := by
  induction k with
  | zero => exact fun _ => ⟨rfl, rfl⟩
  | succ k ih =>
    intro d
    rw [searchWRR]
    split
    · exact ih _
    · exact ⟨rfl, rfl⟩

theorem select_counted (hm : d.schedMode ≠ .wirr) (hd : d.qToDq < d.numQueues) (hc : d.Counted) :
    d.selectQueueToDeque.Counted := by
  have hn : 0 < d.numQueues := Nat.zero_lt_of_lt hd
  have hk := Kept.selectQueueToDeque d
  suffices d.selectQueueToDeque.wirrqDone = d.wirrqDone ∧
      d.selectQueueToDeque.queuesDone = d.queuesDone by
    rwa [Counted, hk.numQueues, this.1, this.2]
  cases hmode : d.schedMode with
  | rr =>
    obtain ⟨j, -, heq⟩ := searchRR_found d.numQueues (d := { d with qToDq := d.following })
      (Nat.mod_lt _ hn)
    rw [select_rr hmode, heq]
    exact ⟨rfl, rfl⟩
  | wrr =>
    rw [select_wrr hmode]
    split
    · exact searchWRR_done _ _
    · exact searchWRR_done _ _
  | wirr => exact absurd hmode hm
  | pri =>
    rw [select_pri hmode]
    split
    · obtain ⟨j, -, heq⟩ := searchRR_found d.numQueues (d := { d with qToDq := 0 }) hn
      rw [heq]
      exact ⟨rfl, rfl⟩
    · exact ⟨rfl, rfl⟩

/-- The queue to serve is one of the queues, and the marks are counted. -/
structure Sound (d : DsRed) : Prop where
  lt : d.qToDq < d.numQueues
  counted : d.Counted

theorem Sound.select (h : Sound d) : Sound d.selectQueueToDeque := by
  have hk := Kept.selectQueueToDeque d
  by_cases hm : d.schedMode = .wirr
  · obtain ⟨hlt, hc, -⟩ := select_wirr_found hm h.lt h.counted
    exact ⟨hk.numQueues.symm ▸ hlt, hc⟩
  · exact ⟨hk.numQueues.symm ▸ (select_found hm h.lt).1, select_counted hm h.lt h.counted⟩

/-- What the choice of the queue is made of, but for the packets. -/
structure SameTurn (d d' : DsRed) : Prop where
  qToDq : d'.qToDq = d.qToDq
  numQueues : d'.numQueues = d.numQueues
  pktcount : d'.pktcount = d.pktcount
  wirrTemp : d'.wirrTemp = d.wirrTemp
  wirrqDone : d'.wirrqDone = d.wirrqDone
  queuesDone : d'.queuesDone = d.queuesDone

/-- The mode and the weights stay. -/
def Op.Steady : Op → Prop
  | .addQueueWeights _ _ => False
  | .setSchedularMode _ => False
  | _ => True

structure SameMode (d d' : DsRed) : Prop where
  numQueues : d'.numQueues = d.numQueues
  schedMode : d'.schedMode = d.schedMode
  queueWeight : d'.queueWeight = d.queueWeight

/-- The other calls change the mode or the weights at most. -/
theorem step_same {r r' : Run} {op : Op} (h : r.step op = some r') (hop : ∀ now, op ≠ .deque now) :
    SameTurn r.router r'.router ∧ (op.Steady → SameMode r.router r'.router) := by
  cases op with
  | enque pkt now u =>
    obtain ⟨e, -, hcase⟩ := step_enque h
    cases hcase with
    | accepted _ _ _ => exact ⟨⟨rfl, rfl, rfl, rfl, rfl, rfl⟩, fun _ => ⟨rfl, rfl, rfl⟩⟩
    | dropped _ _ => exact ⟨⟨rfl, rfl, rfl, rfl, rfl, rfl⟩, fun _ => ⟨rfl, rfl, rfl⟩⟩
  | deque now => exact absurd rfl (hop now)
  | addPHBEntry e =>
    obtain rfl := Option.some.inj h
    simp only [DsRed.addPHBEntry]
    split <;> exact ⟨⟨rfl, rfl, rfl, rfl, rfl, rfl⟩, fun _ => ⟨rfl, rfl, rfl⟩⟩
  | addQueueWeights queueNum weight =>
    obtain rfl := Option.some.inj h
    simp only [DsRed.addQueueWeights]
    split <;> exact ⟨⟨rfl, rfl, rfl, rfl, rfl, rfl⟩, False.elim⟩
  | addQueueRate queueNum rate =>
    obtain rfl := Option.some.inj h
    simp only [DsRed.addQueueRate]
    split <;> exact ⟨⟨rfl, rfl, rfl, rfl, rfl, rfl⟩, fun _ => ⟨rfl, rfl, rfl⟩⟩
  | setSchedularMode mode =>
    obtain rfl := Option.some.inj h
    exact ⟨⟨rfl, rfl, rfl, rfl, rfl, rfl⟩, False.elim⟩
  | setMREDMode mode queue =>
    obtain rfl := Option.some.inj h
    cases queue <;> exact ⟨⟨rfl, rfl, rfl, rfl, rfl, rfl⟩, fun _ => ⟨rfl, rfl, rfl⟩⟩

theorem step_deque {r r' : Run} (h : r.step (.deque now) = some r') :
    ∃ o, r.router.deque now = some (r'.router, o) := by
  simp only [Run.step, Run.deque] at h
  obtain ⟨⟨d', o⟩, hx, h⟩ := Option.bind_eq_some_iff.mp h
  refine ⟨o, hx.trans ?_⟩
  cases o with
  | none =>
    obtain rfl := Option.some.inj h
    rfl
  | some p =>
    obtain rfl := Option.some.inj h
    rfl

theorem Sound.of_sameTurn (h : Sound d) (hs : SameTurn d d') : Sound d' := by
  refine ⟨by rw [hs.qToDq, hs.numQueues]; exact h.lt, ?_⟩
  rw [Counted, hs.numQueues, hs.wirrqDone, hs.queuesDone]
  exact h.counted

theorem Sound.deque {o : Option DsRedPacket} (h : Sound d) (hx : d.deque now = some (d', o)) :
    Sound d' := by
  have hs := h.select
  cases deque_cases hx with
  | none _ => exact hs
  | some _ _ _ _ => exact ⟨hs.lt, hs.counted⟩

theorem Sound.step {r r' : Run} {op : Op} (h : Sound r.router) (hs : r.step op = some r') :
    Sound r'.router := by
  by_cases hop : ∃ now, op = .deque now
  · obtain ⟨now, rfl⟩ := hop
    obtain ⟨o, hx⟩ := step_deque hs
    exact h.deque hx
  · exact h.of_sameTurn (step_same hs fun now h => hop ⟨now, h⟩).1

theorem sound {r : Run} (h : Reach r) : Sound r.router := by
  induction h with
  | fresh h =>
    refine ⟨h.qToDq.symm ▸ h.numQueues, (Finset.card_eq_zero.mpr ?_).le.trans (Nat.zero_le _)⟩
    exact Finset.filter_eq_empty_iff.mpr fun i _ => by
      rw [h.wirrqDone]
      exact Bool.false_ne_true
  | step op h hs ih => exact ih.step hs

/-- A packet in the queue that is served has an entry in the PHB table. -/
theorem deque_ne_none {r : Run} (b : Booked r) (now : ℚ) : r.router.deque now ≠ none := by
  intro h
  have b' := b.kept (.selectQueueToDeque r.router)
  unfold DsRed.deque at h
  generalize r.router.selectQueueToDeque = s at h b'
  simp only at h
  split at h
  next hlt =>
    cases hq : (s.redq s.qToDq).q with
    | nil => simp [RedQueue.deque, hq] at h
    | cons p q =>
      obtain ⟨avg, arr, hl⟩ := leave_eq s s.qToDq p { s.redq s.qToDq with q := q } now
      simp only [RedQueue.deque, hq, hl, Option.map_eq_none_iff] at h
      have hmem : p ∈ (s.redq s.qToDq).q := by
        rw [hq]
        exact List.mem_cons_self
      obtain ⟨e, he, -⟩ := Option.map_eq_some_iff.mp (b'.queue _ (b'.mem_accepted hmem))
      exact Option.some_ne_none e (he.symm.trans h)
  next => cases h

theorem deque_eq_none_iff {o : Option DsRedPacket} (h : d.deque now = some (d', o))
    (hlt : d.selectQueueToDeque.qToDq < d.numQueues) :
    o = none ↔ d.Empty d.selectQueueToDeque.qToDq := by
  have hk := Kept.selectQueueToDeque d
  rw [Empty, ← hk.redq, List.length_eq_zero_iff]
  cases deque_cases h with
  | none hempty => exact iff_of_true rfl (hempty (hk.numQueues.symm ▸ hlt))
  | some _ hq _ _ => exact iff_of_false nofun (by rw [hq]; nofun)

/-- The weighted interleaved round robin is left with the queue that follows, which is empty, though
others may have packets. -/
def Stalls (d : DsRed) : Prop :=
  d.schedMode = .wirr ∧ (∀ i < d.numQueues, d.Skips i) ∧ d.Empty d.following

instance (d : DsRed) : Decidable d.Stalls := inferInstanceAs (Decidable (_ ∧ _))

theorem empty_or_stalls_iff (h : Sound d) :
    d.Empty d.selectQueueToDeque.qToDq ↔ (∀ i < d.numQueues, d.Empty i) ∨ d.Stalls := by
  by_cases hm : d.schedMode = .wirr
  · obtain ⟨hlt, -, hnot | ⟨hall, hq, -⟩⟩ := select_wirr_found hm h.lt h.counted
    · refine iff_of_false (fun he => hnot (.inl he)) ?_
      rintro (he | ⟨-, hs, -⟩)
      · exact hnot (.inl (he _ hlt))
      · exact hnot (hs _ hlt)
    · rw [hq] at hlt ⊢
      exact ⟨fun he => .inr ⟨hm, hall, he⟩, fun hor => hor.elim (fun he => he _ hlt) (·.2.2)⟩
  · obtain ⟨hlt, hnot | hall⟩ := select_found hm h.lt
    · exact iff_of_false hnot fun hor => hor.elim (fun he => hnot (he _ hlt)) fun hs => hm hs.1
    · exact iff_of_true (hall _ hlt) (.inl hall)

/-- After a stall all queues are in the round again. -/
theorem Stalls.next_found (h : Sound d) (hs : d.Stalls) {i : ℕ} (hi : i < d.numQueues)
    (hb : ¬ d.Empty i) :
    ¬ d.selectQueueToDeque.Empty d.selectQueueToDeque.selectQueueToDeque.qToDq := by
  have hk := Kept.selectQueueToDeque d
  have hempty : d.selectQueueToDeque.Empty = d.Empty := by
    funext j
    rw [Empty, Empty, hk.redq]
  obtain ⟨hlt, -, hnot | ⟨-, -, hnew⟩⟩ := select_wirr_found hs.1 h.lt h.counted
  · exact absurd (hs.2.1 _ hlt) hnot
  have hm : d.selectQueueToDeque.schedMode = .wirr := hk.schedMode.trans hs.1
  obtain ⟨-, -, hnot | ⟨hall, -, -⟩⟩ := select_wirr_found hm h.select.lt h.select.counted
  · exact fun he => hnot (.inl he)
  · rcases hall i (hk.numQueues.symm ▸ hi) with he | hdone
    · exact absurd (hempty ▸ he) hb
    · exact absurd ((hnew i hi).symm.trans hdone) Bool.false_ne_true

/-- **Work conservation**: a service never fails, and finds a packet if there is one, but for a
stall, after which the next one does. -/
theorem serves_or_stalls {r : Run} (h : Reach r) (now : ℚ) :
    ∃ d' o, r.router.deque now = some (d', o) ∧
      (o = none ↔ (∀ i < r.router.numQueues, r.router.Empty i) ∨ r.router.Stalls) ∧
      (r.router.Stalls → (∃ i < r.router.numQueues, ¬ r.router.Empty i) →
        ∀ now', ∃ d'' p, d'.deque now' = some (d'', some p)) := by
  have hs := sound h
  have hk := Kept.selectQueueToDeque r.router
  obtain ⟨⟨d', o⟩, hd⟩ := Option.ne_none_iff_exists'.mp (deque_ne_none (booked h) now)
  have hnone := (deque_eq_none_iff hd (hk.numQueues ▸ hs.select.lt)).trans (empty_or_stalls_iff hs)
  refine ⟨d', o, hd, hnone, fun hstall hne now' => ?_⟩
  obtain ⟨i, hi, hb⟩ := hne
  obtain rfl := hnone.mpr (.inr hstall)
  have hstep : r.step (.deque now) = some { r with router := d' } := by
    simp only [Run.step, Run.deque, hd, Option.bind_eq_bind, Option.bind_some]
    rfl
  obtain ⟨⟨d'', o'⟩, hd'⟩ :=
    Option.ne_none_iff_exists'.mp (deque_ne_none (booked (h.step _ hstep)) now')
  have hsel : d' = r.router.selectQueueToDeque := by
    cases deque_cases hd with
    | none _ => rfl
  have hfound := hstall.next_found hs hi hb
  rw [← hsel] at hfound
  have hlt : d'.selectQueueToDeque.qToDq < d'.numQueues := by
    have hlt' := (hs.deque hd).select.lt
    rwa [(Kept.selectQueueToDeque d').numQueues] at hlt'
  cases o' with
  | none => exact absurd ((deque_eq_none_iff hd' hlt).mp rfl) hfound
  | some p => exact ⟨d'', p, hd'⟩

/-- The first queue has been served its share of the round, and gets a packet before the second one
is due. -/
theorem serves_or_stalls_stall : ∃ r d', Reach r ∧ ¬ r.router.Empty 0 ∧
    r.router.deque 3 = some (d', none) ∧ ∀ now, ∃ d'' p, d'.deque now = some (d'', some p) := by
  have h : ((⟨twoQueues .wirr, [], [], [], []⟩ : Run).steps [.enque ⟨1, 20, 100, false, false⟩ 0 0,
      .deque 0, .enque ⟨2, 10, 100, false, false⟩ 1 0, .deque 1,
      .enque ⟨3, 10, 100, false, false⟩ 2 0]).map
        (fun r => (decide r.router.Stalls, decide (r.router.Empty 0), r.router.numQueues)) =
          some (true, false, 2) := by
    decide +kernel
  obtain ⟨r, h, hr⟩ := Option.map_eq_some_iff.mp h
  simp only [Prod.mk.injEq, decide_eq_true_eq, decide_eq_false_iff_not] at hr
  obtain ⟨hstall, hempty, hn⟩ := hr
  have hreach : Reach r := .steps (.fresh (twoQueues_fresh .wirr)) h
  obtain ⟨d', o, hd, hnone, hnext⟩ := serves_or_stalls hreach 3
  obtain rfl := hnone.mpr (.inr hstall)
  exact ⟨r, d', hreach, hempty, hd, hnext hstall ⟨0, hn ▸ Nat.two_pos, hempty⟩⟩

end DsRed

end Afabric
