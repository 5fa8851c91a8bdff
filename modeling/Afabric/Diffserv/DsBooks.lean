import Afabric.Diffserv.DsRed

/-!
# Diffserv — the books of the router queue

In every run, of whatever scheduler and drop modes and whatever draws, each packet that arrives is
dropped or accepted, each physical queue is first in, first out, and the length of a virtual queue
is the number of packets of its drop precedence in the physical one.  Nothing that decides about a
drop touches a queue or a length (`SameLen`), so that only `append` and `updateVREDLen` count.
-/

namespace Afabric

namespace DsRed

open Function

variable {r r' r'' : RedQueue} {pkt : DsRedPacket} {prec : ℕ} {now u : ℚ}

/-! ### Lengths -/

/-- The packets and the lengths of two queues are the same. -/
structure SameLen (r r' : RedQueue) : Prop where
  q : r'.q = r.q
  qlen : ∀ i, (r'.qParam i).qlen = (r.qParam i).qlen

namespace SameLen

theorem refl (r : RedQueue) : SameLen r r := ⟨rfl, fun _ => rfl⟩

theorem trans (h : SameLen r r') (h' : SameLen r' r'') : SameLen r r'' :=
  ⟨h'.q.trans h.q, fun i => (h'.qlen i).trans (h.qlen i)⟩

theorem modify (r : RedQueue) (prec : ℕ) {f : QParam → QParam} (hf : ∀ v, (f v).qlen = v.qlen) :
    SameLen r (r.modify prec f) := by
  refine ⟨rfl, fun i => ?_⟩
  simp only [RedQueue.modify, update_apply]
  split
  next h => rw [hf, h]
  next => rfl

theorem modifyAll (r : RedQueue) (lo hi : ℕ) {f : QParam → QParam}
    (hf : ∀ v, (f v).qlen = v.qlen) : SameLen r (r.modifyAll lo hi f) := by
  refine ⟨rfl, fun i => ?_⟩
  simp only [RedQueue.modifyAll]
  split
  · exact hf _
  · rfl

theorem updateIdleFlag (r : RedQueue) (prec : ℕ) : SameLen r (r.updateIdleFlag prec) := by
  unfold RedQueue.updateIdleFlag
  split
  · exact modifyAll r prec r.numPrec (by intro v; rfl)
  · exact modify r prec (by intro v; rfl)
  · exact modify r 0 (by intro v; rfl)

theorem idleFrom (now : ℚ) (k : ℕ) : ∀ (r : RedQueue) (i : ℕ), SameLen r (r.idleFrom now i k) := by
  induction k with
  | zero => exact fun r _ => refl r
  | succ k ih =>
    intro r i
    rw [RedQueue.idleFrom]
    split
    · exact (modify r i (by intro v; rfl)).trans (ih _ _)
    · exact refl r

theorem updateREDStateVar (r : RedQueue) (prec : ℕ) (now : ℚ) :
    SameLen r (r.updateREDStateVar prec now) := by
  unfold RedQueue.updateREDStateVar
  split
  · split
    · split
      · exact idleFrom now _ r prec
      · exact refl r
    · exact modify r prec (by intro v; rfl)
    · exact modify r 0 (by intro v; rfl)
    · exact refl r
  · exact refl r

theorem calcAvg (r : RedQueue) (prec : ℕ) (m : ℤ) : SameLen r (r.calcAvg prec m) := by
  unfold RedQueue.calcAvg
  simp only
  split
  · exact modifyAll r 0 r.numPrec (by intro v; rfl)
  · exact modify r prec (by intro v; rfl)

theorem averages (r : RedQueue) (prec : ℕ) (now : ℚ) : SameLen r (r.averages prec now) := by
  unfold RedQueue.averages
  split
  · exact refl r
  next =>
    generalize List.range' prec (r.numPrec - prec) = l
    clear * -
    induction l generalizing r with
    | nil => exact refl r
    | cons i l ih => exact (calcAvg r i _).trans (ih _)
  · exact calcAvg r prec _
  · exact calcAvg r 0 _

theorem decide (r : RedQueue) (prec : ℕ) (u : ℚ) : SameLen r (r.decide prec u).1 := by
  unfold RedQueue.decide
  simp only
  split
  · split
    · split
      all_goals
        dsimp only
        exact modify r prec (by intro v; rfl)
    · dsimp only
      exact modify r prec (by intro v; rfl)
  · dsimp only
    exact modify r prec (by intro v; rfl)

theorem append (h : SameLen r r') (pkt : DsRedPacket) (prec : ℕ) :
    SameLen (r.append pkt prec) (r'.append pkt prec) := by
  refine ⟨congrArg (· ++ [pkt]) h.q, fun i => ?_⟩
  simp only [RedQueue.append, RedQueue.modify, update_apply]
  split
  · exact congrArg (· + 1) (h.qlen prec)
  · exact h.qlen i

end SameLen

theorem decide_ne_marked (r : RedQueue) (prec : ℕ) (u : ℚ) : (r.decide prec u).2 ≠ .marked := by
  unfold RedQueue.decide
  simp only
  split
  · split
    · split <;> nofun
    · nofun
  · nofun

/-- What `redQueue::enque` does to the packets. -/
theorem enque_cases (r : RedQueue) (pkt : DsRedPacket) (prec : ℕ) (ecn : Bool) (now u : ℚ) :
    let x := r.enque pkt prec ecn now u
    (x.2 = .enqueued ∨ x.2 = .marked) ∧ SameLen (r.append pkt prec) x.1 ∨
      (x.2 = .dropped ∨ x.2 = .edropped) ∧ SameLen r x.1 := by
  intro x
  unfold x RedQueue.enque
  split
  · exact .inr ⟨.inl rfl, .refl r⟩
  split
  · exact .inr ⟨.inl rfl, .refl r⟩
  have havg := SameLen.averages r prec now
  generalize r.averages prec now = ra at havg
  have happ := havg.append pkt prec
  cases ecn with
  | false =>
    have hdec := SameLen.decide ra prec u
    have hmark := decide_ne_marked ra prec u
    simp only [Bool.false_eq_true, if_false]
    generalize ra.decide prec u = y at hdec hmark
    obtain ⟨r', result⟩ := y
    cases result with
    | enqueued =>
      exact .inl ⟨.inl rfl, (happ.trans (hdec.append pkt prec)).trans (.updateIdleFlag _ _)⟩
    | dropped => exact .inr ⟨.inl rfl, havg.trans hdec⟩
    | edropped => exact .inr ⟨.inr rfl, havg.trans hdec⟩
    | marked => exact absurd rfl hmark
  | true =>
    have hdec := happ.trans (SameLen.decide (ra.append pkt prec) prec u)
    simp only [if_true]
    generalize (ra.append pkt prec).decide prec u = y at hdec
    obtain ⟨r', result⟩ := y
    cases result with
    | enqueued => exact .inl ⟨.inl rfl, hdec.trans (.updateIdleFlag _ _)⟩
    | dropped => exact .inl ⟨.inr rfl, hdec.trans (.updateIdleFlag _ _)⟩
    | edropped => exact .inl ⟨.inr rfl, hdec.trans (.updateIdleFlag _ _)⟩
    | marked => exact .inl ⟨.inr rfl, hdec.trans (.updateIdleFlag _ _)⟩

/-! ### The scheduler -/

variable {d d' d'' : DsRed}

/-- What a choice of the next queue leaves alone. -/
structure Kept (d d' : DsRed) : Prop where
  redq : d'.redq = d.redq
  stats : d'.stats = d.stats
  phb : d'.phb = d.phb
  numQueues : d'.numQueues = d.numQueues
  pktcount : d'.pktcount = d.pktcount
  schedMode : d'.schedMode = d.schedMode
  queueWeight : d'.queueWeight = d.queueWeight

namespace Kept

theorem refl (d : DsRed) : Kept d d := ⟨rfl, rfl, rfl, rfl, rfl, rfl, rfl⟩

theorem trans (h : Kept d d') (h' : Kept d' d'') : Kept d d'' :=
  ⟨h'.redq.trans h.redq, h'.stats.trans h.stats, h'.phb.trans h.phb,
    h'.numQueues.trans h.numQueues, h'.pktcount.trans h.pktcount, h'.schedMode.trans h.schedMode,
    h'.queueWeight.trans h.queueWeight⟩

theorem searchRR (k : ℕ) : ∀ d : DsRed, Kept d (d.searchRR k) := by
  induction k with
  | zero => exact refl
  | succ k ih =>
    intro d
    rw [DsRed.searchRR]
    split
    · refine trans ?_ (ih _)
      exact ⟨rfl, rfl, rfl, rfl, rfl, rfl, rfl⟩
    · exact refl d

theorem searchWRR (k : ℕ) : ∀ d : DsRed, Kept d (d.searchWRR k) := by
  induction k with
  | zero => exact refl
  | succ k ih =>
    intro d
    rw [DsRed.searchWRR]
    split
    · refine trans ?_ (ih _)
      exact ⟨rfl, rfl, rfl, rfl, rfl, rfl, rfl⟩
    · exact refl d

theorem searchWIRR (k : ℕ) : ∀ d : DsRed, Kept d (d.searchWIRR k) := by
  induction k with
  | zero => exact refl
  | succ k ih =>
    intro d
    rw [DsRed.searchWIRR]
    split
    · simp only
      split
      · refine trans ?_ (ih _)
        exact ⟨rfl, rfl, rfl, rfl, rfl, rfl, rfl⟩
      · refine trans ?_ (ih _)
        exact ⟨rfl, rfl, rfl, rfl, rfl, rfl, rfl⟩
    · exact refl d

theorem finishIf (d : DsRed) (P : Prop) [Decidable P] (i : ℕ) :
    Kept d (if P then d.finish i else d) := by
  split
  · exact ⟨rfl, rfl, rfl, rfl, rfl, rfl, rfl⟩
  · exact refl d

theorem renew (d : DsRed) : Kept d d.renew := by
  unfold DsRed.renew
  split
  · exact ⟨rfl, rfl, rfl, rfl, rfl, rfl, rfl⟩
  · exact refl d

theorem selectQueueToDeque (d : DsRed) : Kept d d.selectQueueToDeque := by
  unfold DsRed.selectQueueToDeque
  split
  · refine trans ?_ (searchRR _ _)
    exact ⟨rfl, rfl, rfl, rfl, rfl, rfl, rfl⟩
  · simp only
    split
    · refine trans ?_ (searchWRR _ _)
      exact ⟨rfl, rfl, rfl, rfl, rfl, rfl, rfl⟩
    · refine trans ?_ (searchWRR _ _)
      exact ⟨rfl, rfl, rfl, rfl, rfl, rfl, rfl⟩
  · simp only
    refine trans ?_ (renew _)
    refine trans ?_ (trans (finishIf _ _ _) ⟨rfl, rfl, rfl, rfl, rfl, rfl, rfl⟩)
    refine trans ?_ (searchWIRR _ _)
    exact ⟨rfl, rfl, rfl, rfl, rfl, rfl, rfl⟩
  · simp only
    split
    · refine trans ?_ (searchRR _ _)
      exact ⟨rfl, rfl, rfl, rfl, rfl, rfl, rfl⟩
    · exact ⟨rfl, rfl, rfl, rfl, rfl, rfl, rfl⟩

end Kept

/-- The rates only. -/
theorem meter_eq (d : DsRed) (dq size : ℕ) (now : ℚ) :
    ∃ avg arr, d.meter dq size now = { d with queueAvgRate := avg, queueArrTime := arr } := by
  unfold meter
  generalize List.range d.numQueues = l
  induction l generalizing d with
  | nil => exact ⟨_, _, rfl⟩
  | cons i l ih =>
    rw [List.foldl_cons]
    split
    · obtain ⟨avg, arr, h⟩ := ih (d.applyTSWMeter i (if i = dq then size else 0) now)
      exact ⟨avg, arr, h⟩
    · exact ih d

theorem leave_eq (d : DsRed) (dq : ℕ) (p : DsRedPacket) (r : RedQueue) (now : ℚ) :
    ∃ avg arr, d.leave dq p r now = { d with
      redq := update d.redq dq r
      pktcount := update d.pktcount dq (d.pktcount dq + 1)
      queueAvgRate := avg
      queueArrTime := arr } := by
  unfold leave
  simp only
  split
  · exact meter_eq _ _ _ _
  · exact ⟨_, _, rfl⟩

/-- What `deque` does, after the queue has been selected. -/
inductive Dequeued (d : DsRed) : DsRed → Option DsRedPacket → Prop where
  | none (h : d.qToDq < d.numQueues → (d.redq d.qToDq).q = []) : Dequeued d d none
  | some {p : DsRedPacket} {q : List DsRedPacket} {e : PhbParam} {r : RedQueue}
      {avg arr : ℕ → ℚ} (hlt : d.qToDq < d.numQueues) (hq : (d.redq d.qToDq).q = p :: q)
      (he : d.lookupPHBTable p.prio = some e)
      (hr : SameLen ({ d.redq d.qToDq with q := q }.updateVREDLen e.prec) r) :
      Dequeued d { d with
        redq := update d.redq d.qToDq r
        pktcount := update d.pktcount d.qToDq (d.pktcount d.qToDq + 1)
        queueAvgRate := avg
        queueArrTime := arr } p

theorem deque_cases {o : Option DsRedPacket} (h : d.deque now = some (d', o)) :
    Dequeued d.selectQueueToDeque d' o := by
  unfold DsRed.deque at h
  generalize d.selectQueueToDeque = s at h ⊢
  simp only at h
  split at h
  next hlt =>
    cases hq : (s.redq s.qToDq).q with
    | nil =>
      simp only [RedQueue.deque, hq, Option.some.injEq, Prod.mk.injEq] at h
      obtain ⟨rfl, rfl⟩ := h
      exact .none fun _ => hq
    | cons p q =>
      simp only [RedQueue.deque, hq] at h
      obtain ⟨avg, arr, hl⟩ := leave_eq s s.qToDq p { s.redq s.qToDq with q := q } now
      rw [hl] at h
      obtain ⟨e, he, hd⟩ := Option.map_eq_some_iff.mp h
      obtain ⟨rfl, rfl⟩ := Prod.mk.inj hd
      simp only [update_idem, update_self]
      exact .some hlt hq he (.updateREDStateVar _ _ _)
  next hge =>
    simp only [Option.some.injEq, Prod.mk.injEq] at h
    obtain ⟨rfl, rfl⟩ := h
    exact .none fun hlt => absurd hlt hge

/-! ### The books -/

/-- Those of the queue `i`. -/
def ofQueue (i : ℕ) (l : List (ℕ × DsRedPacket)) : List DsRedPacket :=
  (l.filter fun x => x.1 = i).map Prod.snd

theorem ofQueue_append (i : ℕ) (l : List (ℕ × DsRedPacket)) (x : ℕ × DsRedPacket) :
    ofQueue i (l ++ [x]) = ofQueue i l ++ if x.1 = i then [x.2] else [] := by
  unfold ofQueue
  rw [List.filter_append, List.map_append]
  split
  next h => simp [h]
  next h => simp [h]

/-- The drop precedence of a packet. -/
def precOf (d : DsRed) (pkt : DsRedPacket) : Option ℕ :=
  (d.lookupPHBTable pkt.prio).map PhbParam.prec

structure Booked (r : Run) : Prop where
  /-- What was accepted for a queue was served or is in it, in this order. -/
  fifo : ∀ i, ofQueue i r.accepted = ofQueue i r.served ++ (r.router.redq i).q
  conserved : (r.arrived.map DsRedPacket.uid).Perm
    ((r.dropped ++ r.accepted.map Prod.snd).map DsRedPacket.uid)
  queue : ∀ x ∈ r.accepted, (r.router.lookupPHBTable x.2.prio).map PhbParam.queue = some x.1
  /-- Virtual lengths are true. -/
  qlen : ∀ i prec, ((r.router.redq i).qParam prec).qlen =
    (r.router.redq i).q.countP fun p => r.router.precOf p = some prec
  pkts : r.router.stats.pkts = r.arrived.length
  pktsCP : ∀ cp, r.router.stats.pktsCP cp = r.arrived.countP fun p => p.prio = cp
  drops : r.router.stats.drops + r.router.stats.edrops = r.dropped.length
  dropsCP : ∀ cp, r.router.stats.dropsCP cp + r.router.stats.edropsCP cp =
    r.dropped.countP fun p => p.prio = cp
  pktcount : ∀ i, r.router.pktcount i = (ofQueue i r.served).length

/-- A queue with one packet more at its end. -/
structure Longer (d : DsRed) (pkt : DsRedPacket) (e : PhbParam) (r : RedQueue) : Prop where
  q : r.q = (d.redq e.queue).q ++ [pkt]
  qlen : ∀ i, (r.qParam i).qlen = ((d.redq e.queue).qParam i).qlen + if i = e.prec then 1 else 0

theorem Longer.of_append {e : PhbParam} (h : SameLen ((d.redq e.queue).append pkt e.prec) r) :
    Longer d pkt e r := by
  refine ⟨h.q, fun i => ?_⟩
  rw [h.qlen, RedQueue.append, RedQueue.modify]
  simp only [update_apply]
  split
  next hi => rw [hi]
  next => rw [add_zero]

theorem Longer.mark {e : PhbParam} (h : Longer d pkt e r) :
    Longer d { pkt with ce := true } e (markLast r) := by
  refine ⟨?_, h.qlen⟩
  rw [markLast, h.q]
  simp

/-- What becomes of a packet that arrives, for the queue of `e`. -/
inductive Arrived (r : Run) (pkt : DsRedPacket) (e : PhbParam) : Run → Prop where
  | accepted {q : RedQueue} {pkt' : DsRedPacket} (hq : Longer r.router pkt' e q)
      (huid : pkt'.uid = pkt.uid) (hprio : pkt'.prio = pkt.prio) : Arrived r pkt e
      { r with
        router := { r.router with
          stats := r.router.stats.arrive pkt.prio, redq := update r.router.redq e.queue q }
        arrived := r.arrived ++ [pkt]
        accepted := r.accepted ++ [(e.queue, pkt')] }
  | dropped {q : RedQueue} {stats : DsStats} (hq : SameLen (r.router.redq e.queue) q)
      (hstats : stats = (r.router.stats.arrive pkt.prio).drop pkt.prio ∨
        stats = (r.router.stats.arrive pkt.prio).edrop pkt.prio) : Arrived r pkt e
      { r with
        router := { r.router with stats := stats, redq := update r.router.redq e.queue q }
        arrived := r.arrived ++ [pkt]
        dropped := r.dropped ++ [pkt] }

theorem step_enque {r r' : Run} (h : r.step (.enque pkt now u) = some r') :
    ∃ e, r.router.lookupPHBTable pkt.prio = some e ∧ Arrived r pkt e r' := by
  simp only [Run.step, Run.enque, DsRed.enque] at h
  cases he : r.router.lookupPHBTable pkt.prio with
  | none => simp [he] at h
  | some e =>
    refine ⟨e, rfl, ?_⟩
    have hcases :=
      enque_cases (r.router.redq e.queue) pkt e.prec (r.router.ecn && pkt.ect) now u
    simp only [he, Option.bind_eq_bind, Option.bind_some] at h hcases
    generalize (r.router.redq e.queue).enque pkt e.prec (r.router.ecn && pkt.ect) now u = x
      at h hcases
    obtain ⟨q, result⟩ := x
    rcases hcases with ⟨rfl | rfl, hq⟩ | ⟨rfl | rfl, hq⟩
    · obtain rfl := Option.some.inj h
      exact .accepted (.of_append hq) rfl rfl
    · obtain rfl := Option.some.inj h
      exact .accepted (Longer.of_append hq).mark rfl rfl
    · obtain rfl := Option.some.inj h
      exact .dropped hq (.inl rfl)
    · obtain rfl := Option.some.inj h
      exact .dropped hq (.inr rfl)

namespace Booked

variable {arrived dropped : List DsRedPacket} {accepted served : List (ℕ × DsRedPacket)}
  {e : PhbParam} {pkt' : DsRedPacket}

theorem fresh (h : Fresh d) : Booked ⟨d, [], [], [], []⟩ where
  fifo := fun i => by simp [ofQueue, h.q i]
  conserved := .nil
  queue := fun _ hx => absurd hx List.not_mem_nil
  qlen := fun i prec => by simp [h.q i, h.qlen i prec]
  pkts := by simp [h.stats]
  pktsCP := fun cp => by simp [h.stats]
  drops := by simp [h.stats]
  dropsCP := fun cp => by simp [h.stats]
  pktcount := h.pktcount

theorem arrive_pktsCP (b : Booked ⟨d, arrived, accepted, dropped, served⟩) (pkt : DsRedPacket)
    (cp : ℤ) : (d.stats.arrive pkt.prio).pktsCP cp =
      (arrived ++ [pkt]).countP fun p => p.prio = cp := by
  have hp := b.pktsCP cp
  simp only [DsStats.arrive, update_apply, List.countP_append, List.countP_singleton] at hp ⊢
  rw [← hp]
  rcases eq_or_ne cp pkt.prio with rfl | hne
  · simp
  · simp [hne, hne.symm]

theorem accept (b : Booked ⟨d, arrived, accepted, dropped, served⟩)
    (he : d.lookupPHBTable pkt.prio = some e) (hr : Longer d pkt' e r) (huid : pkt'.uid = pkt.uid)
    (hprio : pkt'.prio = pkt.prio) :
    Booked ⟨{ d with stats := d.stats.arrive pkt.prio, redq := update d.redq e.queue r },
      arrived ++ [pkt], accepted ++ [(e.queue, pkt')], dropped, served⟩ where
  fifo := by
    intro i
    have hi := b.fifo i
    simp only [ofQueue_append, update_apply] at hi ⊢
    rw [hi]
    rcases eq_or_ne i e.queue with rfl | hne
    · rw [if_pos rfl, if_pos rfl, hr.q, List.append_assoc]
    · rw [if_neg hne.symm, if_neg hne, List.append_nil]
  conserved := by
    have hc := b.conserved.append_right [pkt.uid]
    simpa [huid, List.append_assoc] using hc
  queue := by
    intro x hx
    rcases List.mem_append.mp hx with hx | hx
    · exact b.queue x hx
    · obtain rfl := List.mem_singleton.mp hx
      change (d.lookupPHBTable pkt'.prio).map _ = _
      rw [hprio, he]
      rfl
  qlen := by
    intro i prec
    have hi := b.qlen i prec
    change (((update d.redq e.queue r) i).qParam prec).qlen =
      ((update d.redq e.queue r) i).q.countP fun p => d.precOf p = some prec
    rcases eq_or_ne i e.queue with rfl | hne
    · have hprec : d.precOf pkt' = some e.prec := by rw [precOf, hprio, he]; rfl
      rw [update_self, hr.qlen, hr.q, List.countP_append, hi, List.countP_singleton, hprec]
      rcases eq_or_ne prec e.prec with rfl | hp
      · simp
      · simp [hp, hp.symm]
    · rw [update_of_ne hne]
      exact hi
  pkts := by
    have hp := b.pkts
    simp only [DsStats.arrive, List.length_append, List.length_singleton] at hp ⊢
    rw [hp]
  pktsCP := b.arrive_pktsCP pkt
  drops := b.drops
  dropsCP := b.dropsCP
  pktcount := b.pktcount

/-- A packet is dropped, early if `early`. -/
theorem drop (b : Booked ⟨d, arrived, accepted, dropped, served⟩) (i₀ : ℕ)
    (hr : SameLen (d.redq i₀) r) {stats : DsStats}
    (hstats : stats = (d.stats.arrive pkt.prio).drop pkt.prio ∨
      stats = (d.stats.arrive pkt.prio).edrop pkt.prio) :
    Booked ⟨{ d with stats := stats, redq := update d.redq i₀ r }, arrived ++ [pkt], accepted,
      dropped ++ [pkt], served⟩ where
  fifo := by
    intro i
    have hi := b.fifo i
    simp only [update_apply] at hi ⊢
    split
    next h => rw [hr.q, ← h, hi]
    next => exact hi
  conserved := by
    have hc := b.conserved.append_right [pkt.uid]
    simp only [List.map_append, List.map_singleton, List.append_assoc] at hc ⊢
    refine hc.trans (List.Perm.append_left _ ?_)
    exact List.perm_append_comm
  queue := b.queue
  qlen := by
    intro i prec
    have hi := b.qlen i prec
    change (((update d.redq i₀ r) i).qParam prec).qlen =
      ((update d.redq i₀ r) i).q.countP fun p => d.precOf p = some prec
    rcases eq_or_ne i i₀ with rfl | hne
    · rw [update_self, hr.qlen, hr.q]
      exact hi
    · rw [update_of_ne hne]
      exact hi
  pkts := by
    have hp := b.pkts
    rcases hstats with rfl | rfl <;> simpa [DsStats.arrive, DsStats.drop, DsStats.edrop] using hp
  pktsCP := by
    rcases hstats with rfl | rfl <;> exact b.arrive_pktsCP pkt
  drops := by
    have hp := b.drops
    simp only [List.length_append, List.length_singleton] at hp ⊢
    rcases hstats with rfl | rfl
    all_goals
      simp only [DsStats.arrive, DsStats.drop, DsStats.edrop]
      omega
  dropsCP := by
    intro cp
    have hp := b.dropsCP cp
    simp only [List.countP_append, List.countP_singleton] at hp ⊢
    rcases hstats with rfl | rfl
    all_goals
      simp only [DsStats.arrive, DsStats.drop, DsStats.edrop, update_apply]
      rcases eq_or_ne cp pkt.prio with rfl | hne
      · simp
        omega
      · simp [hne, hne.symm]
        omega
  pktcount := b.pktcount

theorem kept (h : Kept d d') (b : Booked ⟨d, arrived, accepted, dropped, served⟩) :
    Booked ⟨d', arrived, accepted, dropped, served⟩ := by
  have hlook : d'.lookupPHBTable = d.lookupPHBTable := by
    funext codePt
    rw [lookupPHBTable, lookupPHBTable, h.phb]
  have hprec : d'.precOf = d.precOf := by
    funext p
    rw [precOf, precOf, hlook]
  obtain ⟨hfifo, hconserved, hqueue, hqlen, hpkts, hpktsCP, hdrops, hdropsCP, hcount⟩ := b
  simp only [← hlook, ← hprec, ← h.redq, ← h.stats, ← h.pktcount] at *
  exact ⟨hfifo, hconserved, hqueue, hqlen, hpkts, hpktsCP, hdrops, hdropsCP, hcount⟩

/-- The modes of the queues do not matter. -/
theorem relen {redq : ℕ → RedQueue} (b : Booked ⟨d, arrived, accepted, dropped, served⟩)
    (h : ∀ i, SameLen (d.redq i) (redq i)) :
    Booked ⟨{ d with redq := redq }, arrived, accepted, dropped, served⟩ := by
  refine { b with fifo := fun i => ?_, qlen := fun i prec => ?_ }
  · exact (b.fifo i).trans (congrArg _ (h i).q.symm)
  · change ((redq i).qParam prec).qlen = (redq i).q.countP fun p => d.precOf p = some prec
    rw [(h i).qlen, (h i).q]
    exact b.qlen i prec

/-- A packet leaves the queue that was selected. -/
theorem serve (b : Booked ⟨d, arrived, accepted, dropped, served⟩) {p : DsRedPacket}
    {q : List DsRedPacket} {avg arr : ℕ → ℚ} (hq : (d.redq d.qToDq).q = p :: q)
    (he : d.lookupPHBTable p.prio = some e)
    (hr : SameLen ({ d.redq d.qToDq with q := q }.updateVREDLen e.prec) r) :
    Booked ⟨{ d with
      redq := update d.redq d.qToDq r
      pktcount := update d.pktcount d.qToDq (d.pktcount d.qToDq + 1)
      queueAvgRate := avg
      queueArrTime := arr }, arrived, accepted, dropped, served ++ [(d.qToDq, p)]⟩ where
  fifo := by
    intro i
    have hi := b.fifo i
    simp only [ofQueue_append, update_apply] at hi ⊢
    rw [hi]
    rcases eq_or_ne i d.qToDq with rfl | hne
    · rw [if_pos rfl, if_pos rfl, hr.q, hq, List.append_assoc]
      rfl
    · rw [if_neg hne, if_neg hne.symm, List.append_nil]
  conserved := b.conserved
  queue := b.queue
  qlen := by
    intro i prec
    have hi := b.qlen i prec
    change (((update d.redq d.qToDq r) i).qParam prec).qlen =
      ((update d.redq d.qToDq r) i).q.countP fun p => d.precOf p = some prec
    rcases eq_or_ne i d.qToDq with rfl | hne
    · have hprec : d.precOf p = some e.prec := by rw [precOf, he]; rfl
      change ((d.redq d.qToDq).qParam prec).qlen =
        ((d.redq d.qToDq).q.countP fun p => d.precOf p = some prec) at hi
      rw [hq, List.countP_cons, hprec] at hi
      rw [update_self, hr.q, hr.qlen]
      simp only [RedQueue.updateVREDLen, RedQueue.modify, update_apply]
      rcases eq_or_ne prec e.prec with rfl | hne
      · simp only [decide_true, if_true] at hi ⊢
        rw [hi]
        push_cast
        exact add_sub_cancel_right _ _
      · rw [if_neg hne]
        simpa [hne.symm] using hi
    · rw [update_of_ne hne]
      exact hi
  pkts := b.pkts
  pktsCP := b.pktsCP
  drops := b.drops
  dropsCP := b.dropsCP
  pktcount := by
    intro i
    have hi := b.pktcount i
    simp only [ofQueue_append, update_apply, List.length_append] at hi ⊢
    rcases eq_or_ne i d.qToDq with rfl | hne
    · rw [if_pos rfl, if_pos rfl, hi]
      rfl
    · rw [if_neg hne, if_neg hne.symm, hi]
      rfl

/-- A packet in a queue was accepted for it. -/
theorem mem_accepted (b : Booked ⟨d, arrived, accepted, dropped, served⟩) {i : ℕ} {p : DsRedPacket}
    (hp : p ∈ (d.redq i).q) : (i, p) ∈ accepted := by
  have hmem : p ∈ ofQueue i accepted := by
    rw [b.fifo i]
    exact List.mem_append_right _ hp
  obtain ⟨x, hx, rfl⟩ := List.mem_map.mp hmem
  obtain ⟨hacc, hi⟩ := List.mem_filter.mp hx
  have hfst : x.1 = i := of_decide_eq_true hi
  rw [← hfst]
  exact hacc

/-- A code point that is in the PHB table keeps its entry. -/
theorem phb (b : Booked ⟨d, arrived, accepted, dropped, served⟩) (e : PhbParam) :
    Booked ⟨d.addPHBEntry e, arrived, accepted, dropped, served⟩ := by
  unfold addPHBEntry
  split
  · exact b
  have hlook : ∀ x ∈ accepted, ({ d with phb := d.phb ++ [e] } : DsRed).lookupPHBTable x.2.prio =
      d.lookupPHBTable x.2.prio := by
    intro x hx
    obtain ⟨e', he', -⟩ := Option.map_eq_some_iff.mp (b.queue x hx)
    unfold lookupPHBTable at he' ⊢
    rw [List.find?_append, he']
    rfl
  refine { b with queue := fun x hx => ?_, qlen := fun i prec => ?_ }
  · change (({ d with phb := d.phb ++ [e] } : DsRed).lookupPHBTable x.2.prio).map _ = _
    rw [hlook x hx]
    exact b.queue x hx
  · refine (b.qlen i prec).trans (congrArg _ (List.countP_congr fun p hp => ?_))
    rw [precOf, precOf, hlook (i, p) (b.mem_accepted hp)]

theorem step {r r' : Run} (b : Booked r) (op : Op) (h : r.step op = some r') : Booked r' := by
  obtain ⟨d, arrived, accepted, dropped, served⟩ := r
  cases op with
  | enque pkt now u =>
    obtain ⟨e, he, hcase⟩ := step_enque h
    cases hcase with
    | accepted hq huid hprio => exact b.accept he hq huid hprio
    | dropped hq hstats => exact b.drop e.queue hq hstats
  | deque now =>
    simp only [Run.step, Run.deque] at h
    cases hx : d.deque now with
    | none => simp [hx] at h
    | some x =>
      obtain ⟨d', o⟩ := x
      have hb := b.kept (.selectQueueToDeque d)
      simp only [hx, Option.bind_eq_bind, Option.bind_some] at h
      cases deque_cases hx with
      | none _ =>
        obtain rfl := Option.some.inj h
        exact hb
      | some _ hq he hr =>
        obtain rfl := Option.some.inj h
        exact hb.serve hq he hr
  | addPHBEntry e =>
    obtain rfl := Option.some.inj h
    exact b.phb e
  | addQueueWeights queueNum weight =>
    obtain rfl := Option.some.inj h
    unfold addQueueWeights
    split
    · exact { b with }
    · exact b
  | addQueueRate queueNum rate =>
    obtain rfl := Option.some.inj h
    unfold addQueueRate
    split
    · exact { b with }
    · exact b
  | setSchedularMode mode =>
    obtain rfl := Option.some.inj h
    exact { b with }
  | setMREDMode mode queue =>
    obtain rfl := Option.some.inj h
    cases queue with
    | some j =>
      refine b.relen fun i => ?_
      rw [update_apply]
      split
      next h => exact ⟨by rw [h], fun _ => by rw [h]⟩
      next => exact .refl _
    | none =>
      refine b.relen fun i => ?_
      split
      · exact ⟨rfl, fun _ => rfl⟩
      · exact .refl _

end Booked

/-- The books are right in every run. -/
theorem booked {r : Run} (h : Reach r) : Booked r := by
  induction h with
  | fresh h => exact .fresh h
  | step op h hs ih => exact ih.step op hs

/-- Two queues of at most 10 packets; code point 10 is for the first, 20 for the second. -/
def twoQueues (mode : SchedMode) : DsRed where
  redq := fun _ => ⟨3, 10, .dropTail, [], fun _ => ⟨1, 5, 1, 1, 1, 0, 0, 0, 0, 0, true⟩⟩
  stats := ⟨0, 0, 0, fun _ => 0, fun _ => 0, fun _ => 0⟩
  qToDq := 0
  numQueues := 2
  phb := [⟨10, 0, 0⟩, ⟨20, 1, 0⟩]
  ecn := true
  schedMode := mode
  queueWeight := fun i => i + 1
  queueMaxRate := fun _ => 0
  queueAvgRate := fun _ => 0
  queueArrTime := fun _ => 0
  pktcount := fun _ => 0
  wirrTemp := fun _ => 0
  wirrqDone := fun _ => false
  queuesDone := 8

theorem twoQueues_fresh (mode : SchedMode) : Fresh (twoQueues mode) :=
  ⟨Nat.two_pos, fun _ => rfl, fun _ _ => rfl, rfl, rfl, fun _ => rfl, fun _ => rfl, fun _ => rfl⟩

/-- Two packets of which the second is dropped, and the first is served. -/
theorem booked_two : ∃ r, Reach r ∧ Booked r ∧ r.served.length = 1 ∧ r.dropped.length = 1 := by
  have h : ((⟨twoQueues .rr, [], [], [], []⟩ : Run).steps [.enque ⟨1, 10, 100, true, false⟩ 0 0,
      .enque ⟨2, 10, 100, false, false⟩ 0 0, .deque 1]).map
        (fun r => (r.served.length, r.dropped.length)) = some (1, 1) := by
    decide +kernel
  obtain ⟨r, h, hlen⟩ := Option.map_eq_some_iff.mp h
  have hr : Reach r := .steps (.fresh (twoQueues_fresh .rr)) h
  obtain ⟨hs, hd⟩ := Prod.mk.inj hlen
  exact ⟨r, hr, booked hr, hs, hd⟩

end DsRed

end Afabric
