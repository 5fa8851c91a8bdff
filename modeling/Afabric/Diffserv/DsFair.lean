import Afabric.Diffserv.DsTurns
import Afabric.Support.Turns

/-!
# Diffserv — fair shares

The round robin and the weighted round robin serve in turn (`Turn.Serves`), so that queues with
packets get their shares of the services.
-/

namespace Afabric

namespace DsRed

open Function RingBuffer

variable {d d' s : DsRed} {now u : ℚ} {a b i k : ℕ}

/-! ### Turns -/

/-- What a queue is served in a row; weights below one are served once. -/
def weight (d : DsRed) (q : ℕ) : ℕ :=
  if d.schedMode = .rr then 1 else (max (d.queueWeight q) 1).toNat

def turn (d : DsRed) : Turn where
  pos := d.qToDq
  credit := if d.schedMode = .rr then 0 else (d.wirrTemp d.qToDq).toNat

theorem weight_pos (d : DsRed) (q : ℕ) : 0 < d.weight q := by
  unfold weight
  split
  · exact Nat.one_pos
  · have hmax := le_max_right (d.queueWeight q) 1
    omega

/-- The queue that was found after a move is served. -/
theorem Found.serves {n k q j : ℕ} {w : ℕ → ℕ} {skip : ℕ → Prop} {t : Turn} (hj : j < n)
    (hf : Found n skip (next n t.pos) k q j) (hq : ¬ skip q) (hleave : t.credit = 0 ∨ skip t.pos) :
    Turn.Serves n w (fun i => ¬ skip i) t ⟨q, w q - 1⟩ := by
  have heq : q = off n t.pos (j + 1) := hf.eq.trans off_next
  rw [heq] at hq ⊢
  refine .move (hleave.imp_right not_not.mpr) (Nat.succ_pos j) hj (fun i h0 hi => ?_) hq
  obtain ⟨i, rfl⟩ := Nat.exists_eq_succ_of_ne_zero h0.ne'
  rw [not_not, Nat.succ_eq_add_one, ← off_next]
  exact hf.skipped i (Nat.lt_of_succ_lt_succ hi)

theorem serves_rr (hm : d.schedMode = .rr) (hd : d.qToDq < d.numQueues)
    (hb : ¬ d.Empty d.selectQueueToDeque.qToDq) :
    Turn.Serves d.numQueues d.weight (fun i => ¬ d.Empty i) d.turn d.selectQueueToDeque.turn := by
  have hk := Kept.selectQueueToDeque d
  have hnext := following_lt hd
  have hsel := select_rr hm
  obtain ⟨j, hf, -⟩ := searchRR_found d.numQueues (d := { d with qToDq := d.following }) hnext
  rw [← hsel] at hf
  have hturn : d.selectQueueToDeque.turn =
      ⟨d.selectQueueToDeque.qToDq, d.weight d.selectQueueToDeque.qToDq - 1⟩ := by
    rw [turn, hk.schedMode, if_pos hm, weight, if_pos hm]
  rw [hturn]
  exact Found.serves (t := d.turn) (hf.lt hnext hb) hf hb (.inl (if_pos hm))

theorem serves_wrr (hm : d.schedMode = .wrr) (hd : d.qToDq < d.numQueues)
    (hb : ¬ d.Empty d.selectQueueToDeque.qToDq) :
    Turn.Serves d.numQueues d.weight (fun i => ¬ d.Empty i) d.turn d.selectQueueToDeque.turn := by
  have hk := Kept.selectQueueToDeque d
  have hrr : d.schedMode ≠ .rr := by rw [hm]; nofun
  have hnext := following_lt hd
  have hcredit : d.turn.credit = (d.wirrTemp d.qToDq).toNat := if_neg hrr
  -- The credit with which a queue is come to.
  have hturn : ∀ {q : ℕ}, d.selectQueueToDeque.qToDq = q →
      d.selectQueueToDeque.wirrTemp q = d.queueWeight q - 1 →
      d.selectQueueToDeque.turn = ⟨q, d.weight q - 1⟩ := by
    rintro q rfl hw
    rw [turn, hk.schedMode, if_neg hrr, hw, weight, if_neg hrr]
    congr 1
    omega
  have hsel := select_wrr hm
  by_cases hc : d.wirrTemp d.qToDq ≤ 0
  · rw [if_pos hc] at hsel
    obtain ⟨j, hf, hw⟩ := searchWRR_found d.numQueues hd
    rw [← hsel] at hf hw
    rw [hturn rfl hw]
    exact Found.serves (t := d.turn) (hf.lt hnext hb) hf hb
      (.inl (hcredit.trans (Int.toNat_of_nonpos hc)))
  rw [if_neg hc] at hsel
  rw [searchWRR_of_pos (Nat.zero_lt_of_lt hd)] at hsel
  split at hsel
  next he =>
    obtain ⟨j, hf, hw⟩ := searchWRR_found (d.numQueues - 1) (d := { d with
      wirrTemp := update (update d.wirrTemp d.qToDq (d.wirrTemp d.qToDq - 1)) d.qToDq 0 }) hd
    rw [← hsel] at hf hw
    rw [hturn rfl hw]
    have hj : j < d.numQueues := by
      have hle := hf.le
      omega
    exact Found.serves (t := d.turn) hj hf hb (.inr he)
  next he =>
    have hq : d.selectQueueToDeque.qToDq = d.qToDq := by rw [hsel]
    have hw : d.selectQueueToDeque.wirrTemp d.selectQueueToDeque.qToDq =
        d.wirrTemp d.qToDq - 1 := by
      rw [hsel]
      exact update_self _ _ _
    have hturn : d.selectQueueToDeque.turn = ⟨d.turn.pos, d.turn.credit - 1⟩ := by
      rw [turn, hk.schedMode, if_neg hrr, hcredit, hw, hq]
      congr 1
      omega
    rw [hturn]
    exact .stay (by omega) he

/-! ### Fairness -/

/-- Calls for each of which `P` holds before. -/
inductive Steps (P : DsRed → Op → Prop) (r : Run) : Run → Prop where
  | refl : Steps P r r
  | step {r' r'' : Run} (op : Op) (h : Steps P r r') (hs : r'.step op = some r'')
      (hp : P r'.router op) : Steps P r r''

/-- The queue `a` has a packet whenever one is to be served. -/
def Backlogged (a : ℕ) (d : DsRed) (op : Op) : Prop :=
  op.Steady ∧ ∀ now, op = .deque now → ¬ d.Empty a

namespace SameMode

theorem trans {d'' : DsRed} (h : SameMode d d') (h' : SameMode d' d'') : SameMode d d'' :=
  ⟨h'.numQueues.trans h.numQueues, h'.schedMode.trans h.schedMode,
    h'.queueWeight.trans h.queueWeight⟩

theorem weight (h : SameMode d d') : d'.weight = d.weight := by
  funext q
  rw [DsRed.weight, DsRed.weight, h.schedMode, h.queueWeight]

theorem select (d : DsRed) : SameMode d d.selectQueueToDeque :=
  have hk := Kept.selectQueueToDeque d
  ⟨hk.numQueues, hk.schedMode, hk.queueWeight⟩

theorem deque {o : Option DsRedPacket} (h : d.deque now = some (d', o)) : SameMode d d' := by
  have hsel := SameMode.select d
  cases deque_cases h with
  | none _ => exact hsel
  | some _ _ _ _ => exact ⟨hsel.numQueues, hsel.schedMode, hsel.queueWeight⟩

theorem step {r r' : Run} {op : Op} (h : r.step op = some r') (hop : op.Steady) :
    SameMode r.router r'.router := by
  by_cases hdq : ∃ now, op = .deque now
  · obtain ⟨now, rfl⟩ := hdq
    obtain ⟨o, hx⟩ := step_deque h
    exact SameMode.deque hx
  · exact (step_same h fun now h => hdq ⟨now, h⟩).2 hop

end SameMode

theorem SameTurn.turn (h : SameTurn d d') (hm : SameMode d d') : d'.turn = d.turn := by
  rw [DsRed.turn, DsRed.turn, h.qToDq, h.wirrTemp, hm.schedMode]

/-- A queue in turn has less than its weight of services left. -/
def InTurn (d : DsRed) : Prop := d.turn.credit < d.weight d.qToDq

theorem InTurn.select (hm : d.schedMode = .rr ∨ d.schedMode = .wrr) (hd : d.qToDq < d.numQueues)
    (h : InTurn d) : InTurn d.selectQueueToDeque := by
  have hk := SameMode.select d
  rw [InTurn, hk.weight]
  rcases hm with hm | hm
  · rw [turn, hk.schedMode, if_pos hm]
    exact d.weight_pos _
  have hrr : d.schedMode ≠ .rr := by rw [hm]; nofun
  rw [InTurn, turn, if_neg hrr] at h
  rw [turn, hk.schedMode, if_neg hrr]
  have hmoved : ∀ q, (d.queueWeight q - 1).toNat < d.weight q := by
    intro q
    rw [weight, if_neg hrr]
    omega
  rw [select_wrr hm]
  split
  next hc =>
    obtain ⟨j, -, hw⟩ := searchWRR_found d.numQueues hd
    rw [hw]
    exact hmoved _
  next hc =>
    rw [searchWRR_of_pos (Nat.zero_lt_of_lt hd)]
    split
    next he =>
      obtain ⟨j, -, hw⟩ := searchWRR_found (d.numQueues - 1) (d := { d with
        wirrTemp := update (update d.wirrTemp d.qToDq (d.wirrTemp d.qToDq - 1)) d.qToDq 0 }) hd
      rw [hw]
      exact hmoved _
    next he =>
      change (update d.wirrTemp d.qToDq (d.wirrTemp d.qToDq - 1) d.qToDq).toNat < _
      rw [update_self]
      change (d.wirrTemp d.qToDq - 1).toNat < d.weight d.qToDq
      change (d.wirrTemp d.qToDq).toNat < d.weight d.qToDq at h
      omega

theorem deque_turn {o : Option DsRedPacket} (h : d.deque now = some (d', o)) :
    d'.turn = d.selectQueueToDeque.turn := by
  cases deque_cases h with
  | none _ => rfl
  | some _ _ _ _ => rfl

theorem InTurn.step {r r' : Run} {op : Op}
    (hm : r.router.schedMode = .rr ∨ r.router.schedMode = .wrr)
    (hd : Sound r.router) (h : InTurn r.router) (hs : r.step op = some r') (hop : op.Steady) :
    InTurn r'.router := by
  have hmode := SameMode.step hs hop
  by_cases hdq : ∃ now, op = .deque now
  · obtain ⟨now, rfl⟩ := hdq
    obtain ⟨o, hx⟩ := step_deque hs
    have hsel := h.select hm hd.lt
    have hturn := deque_turn hx
    have hpos : r'.router.qToDq = r.router.selectQueueToDeque.qToDq := congrArg Turn.pos hturn
    rw [InTurn, hturn, (SameMode.deque hx).weight, hpos]
    rwa [InTurn, (SameMode.select _).weight] at hsel
  · have hst := (step_same hs fun now h => hdq ⟨now, h⟩).1
    rw [InTurn, hst.turn hmode, hmode.weight, hst.qToDq]
    exact h

/-- The services of a segment are turns. -/
structure Segmented (a : ℕ) (d d' : DsRed) (l : List ℕ) : Prop where
  mode : SameMode d d'
  segment : Turn.Segment d.numQueues d.weight a d.turn d'.turn l
  pktcount : ∀ q, d'.pktcount q = d.pktcount q + l.count q

theorem Segmented.deque {l : List ℕ} {d'' : DsRed} {o : Option DsRedPacket}
    (hm : d.schedMode = .rr ∨ d.schedMode = .wrr) (h : Segmented a d d' l)
    (hd : d'.qToDq < d'.numQueues) (ha : a < d.numQueues) (hb : ¬ d'.Empty a)
    (hx : d'.deque now = some (d'', o)) :
    Segmented a d d'' (d''.qToDq :: l) := by
  have hm' : d'.schedMode = .rr ∨ d'.schedMode = .wrr := by rwa [h.mode.schedMode]
  have hmode := SameMode.deque hx
  have hwirr : d'.schedMode ≠ .wirr := by
    rintro hw
    rw [hw] at hm'
    exact hm'.elim nofun nofun
  obtain ⟨hlt, hfound⟩ := select_found hwirr hd
  have hne : ¬ d'.Empty d'.selectQueueToDeque.qToDq := by
    refine hfound.resolve_right fun hall => hb (hall a ?_)
    rwa [h.mode.numQueues]
  have hserves : Turn.Serves d'.numQueues d'.weight (fun i => ¬ d'.Empty i) d'.turn d''.turn := by
    rw [deque_turn hx]
    rcases hm' with hm' | hm'
    · exact serves_rr hm' hd hne
    · exact serves_wrr hm' hd hne
  rw [h.mode.numQueues, h.mode.weight] at hserves
  refine ⟨h.mode.trans hmode, h.segment.serve hb hserves, fun q => ?_⟩
  have hk := Kept.selectQueueToDeque d'
  cases deque_cases hx with
  | none hempty =>
    refine absurd ?_ hne
    rw [Empty, ← hk.redq, List.length_eq_zero_iff]
    exact hempty (hk.numQueues.symm ▸ hlt)
  | some _ _ _ _ =>
    simp only [hk.pktcount, update_apply, List.count_cons, h.pktcount, beq_iff_eq]
    rcases eq_or_ne q d'.selectQueueToDeque.qToDq with rfl | hq
    · rw [if_pos rfl, if_pos rfl, Nat.add_assoc]
    · rw [if_neg hq, if_neg hq.symm, Nat.add_zero]

theorem Segmented.of_steps {r r' : Run} (hm : r.router.schedMode = .rr ∨ r.router.schedMode = .wrr)
    (hr : Sound r.router) (ha : a < r.router.numQueues) (h : Steps (Backlogged a) r r') :
    Sound r'.router ∧ ∃ l, Segmented a r.router r'.router l := by
  induction h with
  | refl =>
    exact ⟨hr, [], ⟨rfl, rfl, rfl⟩, .refl, fun q => by rw [List.count_nil, Nat.add_zero]⟩
  | step op h hs hp ih =>
    obtain ⟨hsound, l, hseg⟩ := ih
    by_cases hdq : ∃ now, op = .deque now
    · obtain ⟨now, rfl⟩ := hdq
      obtain ⟨o, hx⟩ := step_deque hs
      exact ⟨hsound.deque hx, _, hseg.deque hm hsound.lt ha (hp.2 now rfl) hx⟩
    · have hst := (step_same hs fun now h => hdq ⟨now, h⟩).1
      have hmode := SameMode.step hs hp.1
      refine ⟨hsound.of_sameTurn hst, l, hseg.mode.trans hmode, ?_, fun q => ?_⟩
      · rw [hst.turn hmode]
        exact hseg.segment
      · rw [hst.pktcount]
        exact hseg.pktcount q

theorem InTurn.of_steps {r r' : Run} {P : DsRed → Op → Prop} (hP : ∀ d op, P d op → op.Steady)
    (hm : r.router.schedMode = .rr ∨ r.router.schedMode = .wrr) (hr : Sound r.router)
    (hi : InTurn r.router) (h : Steps P r r') :
    Sound r'.router ∧ InTurn r'.router ∧ SameMode r.router r'.router := by
  induction h with
  | refl => exact ⟨hr, hi, rfl, rfl, rfl⟩
  | step op h hs hp ih =>
    obtain ⟨hsound, hin, hmode⟩ := ih
    have hop := hP _ _ hp
    exact ⟨hsound.step hs, hin.step (by rwa [hmode.schedMode]) hsound hs hop,
      hmode.trans (.step hs hop)⟩

/-- **Fairness**: with the mode and the weights of the configuration, no queue `b` is served more
than one round ahead of the queue `a` in the proportion of their weights, while `a` has packets. -/
theorem weighted_shares {d : DsRed} (h : Fresh d) (hm : d.schedMode = .rr ∨ d.schedMode = .wrr)
    {r r' : Run} (hr : Steps (fun _ => Op.Steady) ⟨d, [], [], [], []⟩ r)
    (ha : a < d.numQueues) (hb : b < d.numQueues) (h' : Steps (Backlogged a) r r') :
    (r'.router.pktcount b - r.router.pktcount b) * d.weight a ≤
      (r'.router.pktcount a - r.router.pktcount a) * d.weight b + d.weight a * d.weight b := by
  have hin : InTurn d := by
    have hcredit : d.turn.credit = 0 := by
      rw [turn, h.wirrTemp]
      exact ite_self _
    rw [InTurn, hcredit]
    exact d.weight_pos _
  obtain ⟨hsound, hin', hmode⟩ :=
    InTurn.of_steps (fun _ _ hop => hop) hm (sound (.fresh h)) hin hr
  obtain ⟨-, l, hseg⟩ := Segmented.of_steps (by rwa [hmode.schedMode]) hsound
    (by rwa [hmode.numQueues]) h'
  have hfair := Turn.fair (by rwa [hmode.numQueues]) (by rwa [hmode.numQueues])
    (weight_pos _) hsound.lt hin' hseg.segment
  rw [hseg.pktcount, hseg.pktcount, Nat.add_sub_cancel_left, Nat.add_sub_cancel_left]
  rwa [hmode.weight] at hfair

/-- The second queue has twice the weight, and is served twice before the first one. -/
theorem weighted_shares_two : ∃ r', Steps (Backlogged 0) ⟨twoQueues .wrr, [], [], [], []⟩ r' ∧
    (r'.router.pktcount 0 = 0 ∧ r'.router.pktcount 1 = 2) ∧
      (r'.router.pktcount 1 - 0) * 1 ≤ (r'.router.pktcount 0 - 0) * 2 + 1 * 2 := by
  have h : (((⟨twoQueues .wrr, [], [], [], []⟩ : Run).steps [.enque ⟨1, 10, 100, false, false⟩ 0 0,
      .enque ⟨2, 20, 100, false, false⟩ 0 0]).bind fun r₂ => (r₂.step (.deque 1)).bind fun r₃ =>
        (r₃.step (.enque ⟨3, 20, 100, false, false⟩ 1 0)).bind fun r₄ =>
          (r₄.step (.deque 2)).map fun r₅ => (decide (r₂.router.Empty 0),
            decide (r₄.router.Empty 0), r₅.router.pktcount 0, r₅.router.pktcount 1)) =
              some (false, false, 0, 2) := by
    decide +kernel
  obtain ⟨r₂, h₁₂, h⟩ := Option.bind_eq_some_iff.mp h
  obtain ⟨r₃, h₃, h⟩ := Option.bind_eq_some_iff.mp h
  obtain ⟨r₄, h₄, h⟩ := Option.bind_eq_some_iff.mp h
  obtain ⟨r₅, h₅, h⟩ := Option.map_eq_some_iff.mp h
  simp only [Prod.mk.injEq, decide_eq_false_iff_not] at h
  obtain ⟨he₂, he₄, hcount⟩ := h
  obtain ⟨r₁, h₁, h₁₂⟩ := Option.bind_eq_some_iff.mp h₁₂
  obtain ⟨r₂', h₂, h₁₂⟩ := Option.bind_eq_some_iff.mp h₁₂
  obtain rfl := Option.some.inj h₁₂
  have hrun : Steps (Backlogged 0) ⟨twoQueues .wrr, [], [], [], []⟩ r₅ :=
    .step _ (.step _ (.step _ (.step _ (.step _ .refl h₁ ⟨trivial, nofun⟩) h₂ ⟨trivial, nofun⟩)
      h₃ ⟨trivial, fun _ _ => he₂⟩) h₄ ⟨trivial, nofun⟩) h₅ ⟨trivial, fun _ _ => he₄⟩
  exact ⟨r₅, hrun, hcount, weighted_shares (twoQueues_fresh .wrr) (.inr rfl) .refl Nat.two_pos
    Nat.one_lt_two hrun⟩

end DsRed

end Afabric
