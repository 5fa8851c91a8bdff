import Afabric.Queue.Accounting

/-!
# Queue — the order of departures

With `deque_prio_` and `keep_order_` set, `deque` finds the first packet of the least priority
value and then goes back to the earliest packet of its flow (`deque_earliest`).  The invariant
over runs is `Ordered`: what a flow has sent out arrived before what it still has in the queue.
Evictions and marks on enqueue keep it, because they add nothing to the queue but the packet that
has just arrived (`SameKeys`).
-/

namespace Afabric

open BadTrackingPacketQueue DropTail

namespace QueueRun

theorem isSameFlow_iff {p x : Packet} : p.isSameFlow x = true ↔ x.flow = p.flow := by
  simp [Packet.isSameFlow, Packet.flow]

/-- `deque` handed out the packet `p`, for the best packet `best`: `p` is the earliest packet of
the flow of `best` except for those dropped, which are bad packets of the flow. -/
structure Earliest (cfg : DropTailConfig) (d : DropTail) (x : Departure) (best p : Packet) :
    Prop where
  result : x.result = some p
  first : IsFirstMin d.q.pkts best
  mem : p ∈ d.q.pkts
  kept : p ∉ x.dropped
  flow : p.flow = best.flow
  least : ∀ y ∈ d.q.pkts, y.flow = best.flow → y ∉ x.dropped → p.uid ≤ y.uid
  dropped : ∀ y ∈ x.dropped, y ∈ d.q.pkts ∧ y.flow = best.flow ∧ cfg.dropLowPrio = true ∧
    y.isBadPrio = true ∧ best.isBadPrio = false
  left : x.state.q.pkts = d.q.pkts.filter fun y => y ∉ p :: x.dropped

variable {cfg : DropTailConfig} {d : DropTail}

/-- The priority `deque` on a queue that is not empty. -/
theorem deque_earliest (h : d.q.Valid) (hdq : cfg.dequePrio = true) (hko : cfg.keepOrder = true)
    (hne : d.q.pkts ≠ []) : ∃ x best p, d.deque cfg = some x ∧ Earliest cfg d x best p := by
  obtain ⟨q', best, p, D, X, Z, -, hb, he, -, hh⟩ := dequePriority_spec cfg h hne
  obtain ⟨huX, huZ⟩ := h.uid_ne hh.split
  have hDu : ∀ x ∈ D, x.uid < p.uid := fun x hx => huX x (hh.front.mem hx)
  have hpD : p ∉ D := fun hm => absurd (hDu p hm) (Nat.lt_irrefl _)
  refine ⟨⟨{ d with q := q' }, D, some p⟩, best, p, by rw [DropTail.deque, if_pos hdq, he],
    rfl, hb, by simp [hh.split], hpD, isSameFlow_iff.mp hh.flow, ?_, fun y hy => ?_, ?_⟩
  · intro y hy hf hyD
    rw [hh.split] at hy
    rcases List.mem_append.mp hy with hy | hy
    · exact absurd (hh.order hko y hy (isSameFlow_iff.mpr hf)) hyD
    · rcases List.mem_cons.mp hy with rfl | hy
      · exact Nat.le_refl _
      · exact Nat.le_of_lt (huZ y hy)
  · obtain ⟨hf, hrest⟩ := hh.bad y hy
    exact ⟨by simp [hh.split, hh.front.mem hy], isSameFlow_iff.mp hf, hrest⟩
  · simp only [hh.left]
    rw [hh.split, List.filter_append, List.filter_cons_of_neg (by simp)]
    congr 1
    · refine List.filter_congr fun x hx => ?_
      have hxp : x ≠ p := fun e => absurd (huX x hx) (by simp [e])
      simp [hxp]
    · refine (List.filter_eq_self.mpr fun x hx => ?_).symm
      have hxu := huZ x hx
      have hxp : x ≠ p := fun e => absurd hxu (by simp [e])
      have hxD : x ∉ D := fun hm => absurd (hDu x hm) (Nat.lt_asymm hxu)
      simp [hxp, hxD]

/-! ### Runs -/

/-- The packets of a flow that are out left in order of arrival, and arrived before those of the
flow in the queue. -/
structure Ordered (r : QueueRun) : Prop where
  valid : r.Valid
  out : ∀ f : FlowKey, ((r.out.filter (·.flow = f)).map (·.uid)).Pairwise (· < ·)
  queue : ∀ x ∈ r.out, ∀ y ∈ r.d.q.pkts, y.flow = x.flow → x.uid < y.uid
  arrivals : ∀ x ∈ r.out, x.uid < r.arrivals

theorem init_ordered : init.Ordered :=
  ⟨init_valid, by simp [init], by simp [init], by simp [init]⟩

variable {r r' : QueueRun} {op : QueueOp}

theorem Ordered.enque (h : r.Ordered) {hd : Header} (he : step cfg r (.enque hd) = some r') :
    r'.Ordered := by
  have hv := (step_spec h.valid he).1
  have hp : ∀ x ∈ r.d.q.pkts, x.uid < (r.arriving hd).uid := h.valid.arrivals
  obtain ⟨hthrow, hret⟩ := enque_spec cfg h.valid.queue hp
  obtain ⟨x, hx, -, -, hk, -⟩ := hret fun e => by simp [step, hthrow e] at he
  simp only [step, hx, Option.map_some, Option.some.injEq] at he
  subst he
  refine ⟨hv, h.out, fun y hy z hz hf => ?_, fun y hy => Nat.lt_succ_of_lt (h.arrivals y hy)⟩
  -- what is in the queue was in it before, or has just arrived
  obtain ⟨w, hw, hwu, hwf⟩ := hk z hz
  rw [← hwu]
  rcases List.mem_append.mp hw with hw | hw
  · exact h.queue y hy w hw (hwf.trans hf)
  · obtain rfl := List.mem_singleton.mp hw
    exact h.arrivals y hy

theorem Ordered.deque (hdq : cfg.dequePrio = true) (hko : cfg.keepOrder = true) (h : r.Ordered)
    (he : step cfg r .deque = some r') : r'.Ordered := by
  have hv := (step_spec h.valid he).1
  by_cases hne : r.d.q.pkts = []
  · have hd : r.d.deque cfg = some ⟨r.d, [], none⟩ := by
      rw [DropTail.deque, if_pos hdq, dequePriority,
        (findBestPacket_spec h.valid.queue).1.mpr hne]
    simp only [step, hd, Option.map_some, Option.some.injEq, Option.toList_none,
      List.append_nil] at he
    exact he ▸ h
  obtain ⟨x, best, p, hx, hE⟩ := deque_earliest h.valid.queue hdq hko hne
  simp only [step, hx, hE.result, Option.map_some, Option.some.injEq, Option.toList_some] at he
  subst he
  have hmem : ∀ y ∈ x.state.q.pkts, y ∈ r.d.q.pkts ∧ y ≠ p ∧ y ∉ x.dropped := by
    intro y hy
    simpa [hE.left] using hy
  refine ⟨hv, fun f => ?_, fun y hy z hz hf => ?_, fun y hy => ?_⟩
  · simp only [List.filter_append, List.map_append]
    refine List.pairwise_append.mpr ⟨h.out f, ?_, fun u hu v hv => ?_⟩
    · by_cases hpf : p.flow = f <;> simp [hpf]
    · obtain ⟨y, hy, rfl⟩ := List.mem_map.mp hu
      obtain ⟨z, hz, rfl⟩ := List.mem_map.mp hv
      simp only [List.mem_filter, List.mem_singleton, decide_eq_true_eq] at hy hz
      obtain ⟨rfl, hzf⟩ := hz
      exact h.queue y hy.1 z hE.mem (hzf.trans hy.2.symm)
  · obtain ⟨hzq, hzp, hzD⟩ := hmem z hz
    rcases List.mem_append.mp hy with hy | hy
    · exact h.queue y hy z hzq hf
    · obtain rfl := List.mem_singleton.mp hy
      have hle := hE.least z hzq (hf.trans hE.flow) hzD
      have hne : y.uid ≠ z.uid := fun e => hzp (h.valid.queue.uid_inj hzq hE.mem e.symm)
      omega
  · rcases List.mem_append.mp hy with hy | hy
    · exact h.arrivals y hy
    · obtain rfl := List.mem_singleton.mp hy
      exact h.valid.arrivals y hE.mem

theorem run_ordered (hdq : cfg.dequePrio = true) (hko : cfg.keepOrder = true) {ops : List QueueOp}
    (he : run cfg ops = some r) : r.Ordered := by
  induction ops using List.reverseRecOn generalizing r with
  | nil =>
      obtain rfl := Option.some.inj he
      exact init_ordered
  | append_singleton ops op ih =>
      rw [run_concat] at he
      obtain ⟨r₀, h₀, h₁⟩ := Option.bind_eq_some_iff.mp he
      cases op with
      | enque hd => exact (ih h₀).enque h₁
      | deque => exact (ih h₀).deque hdq hko h₁

/-- **pFabric's order.**  In every run with `deque_prio_` and `keep_order_` set, `deque` on a queue
that is not empty hands out the earliest packet, among those not dropped, of the flow that owns
the first packet of the least priority value, and the packets of one flow that have left did so in
the order of their arrival. -/
theorem deque_in_order (cfg : DropTailConfig) (hdq : cfg.dequePrio = true)
    (hko : cfg.keepOrder = true) (ops : List QueueOp) (r : QueueRun) (hr : run cfg ops = some r) :
    (r.d.q.pkts ≠ [] → ∃ x best p, r.d.deque cfg = some x ∧ Earliest cfg r.d x best p) ∧
      ∀ f : FlowKey, ((r.out.filter (·.flow = f)).map (·.uid)).Pairwise (· < ·) :=
  ⟨deque_earliest (run_ordered hdq hko hr).valid.queue hdq hko, (run_ordered hdq hko hr).out⟩

/-- Two packets of a flow, the later one of the better priority, and one of another flow. -/
def mixedOps : List QueueOp :=
  [.enque ⟨1500, 9, 0, 1, 0, false, false⟩, .enque ⟨1500, 5, 2, 1, 0, false, false⟩,
    .enque ⟨1500, 1, 0, 1, 0, false, false⟩, .deque, .deque, .deque]

/-- The packets of `mixedOps` leave as the first, the third and the second. -/
theorem deque_in_order_mixed :
    ∃ r, run pfabric mixedOps = some r ∧ r.out.map (·.uid) = [0, 2, 1] ∧
      ((r.out.filter (·.flow = ⟨0, 1, 0⟩)).map (·.uid)).Pairwise (· < ·) :=
  ⟨_, rfl, by decide, (deque_in_order pfabric rfl rfl mixedOps _ rfl).2 _⟩

end QueueRun

end Afabric
