import Mathlib.Data.List.Induction
import Afabric.Queue.Packets

/-!
# Queue — the count of bad packets

`num_bad_packets_` is meant to be the number of packets in the queue whose priority is bad.
`BadTrackingPacketQueue::remove` breaks it: it notes the departure of its target and then calls
`PacketQueue::remove`, which for the head of the queue calls the virtual `deque`, which notes the
departure again.

`Slips` describes, from the state before a call, the calls that remove a bad packet from the head
in this way.  A counter that is too low never recovers, so the counter is exact throughout a run
if and only if no call of the run slips (`count_exact_iff`).
-/

namespace Afabric

open BadTrackingPacketQueue DropTail

namespace QueueRun

/-- The head `h` wins the selection of `drop_prio` against the packets `t` behind it. -/
def WinsPrio (cfg : DropTailConfig) (q : BadTrackingPacketQueue) (h : Packet) (t : List Packet) :
    Prop :=
  t = [] ∨ (eligible cfg q h = true ∧ ∀ x ∈ t, eligible cfg q x = true → x.prio < h.prio)

/-- The head `h` wins the selection of `drop_smart` against the packets `t` behind it. -/
def WinsCount (cfg : DropTailConfig) (d : DropTail) (h : Packet) (t : List Packet) : Prop :=
  t = [] ∨ (0 < count cfg d h ∧ ∀ x ∈ t, count cfg d x ≤ count cfg d h)

/-- The overflow of `enque` removes a bad head: it wins the selection of `drop_prio`, which does not
throw, or of `drop_smart`, against all others, the new packet among them. -/
def SlipsEnque (cfg : DropTailConfig) (d : DropTail) (p : Packet) : Prop :=
  ∃ h t, d.q.pkts ++ [p] = h :: t ∧ h.isBadPrio = true ∧ d.willOverflow cfg p = true ∧
    cfg.dropFront = false ∧
    if cfg.dropPrio then (cfg.qib = true ∨ cfg.goodPrioQlim < 0) ∧ WinsPrio cfg (d.q.enque p) h t
    else cfg.dropSmart = true ∧ WinsCount cfg d h t

/-- The priority `deque` removes a bad head: it is the best packet, or it is of the best packet's
flow and is taken in its place or dropped. -/
def SlipsDeque (cfg : DropTailConfig) (d : DropTail) : Prop :=
  ∃ h t best, d.q.pkts = h :: t ∧ h.isBadPrio = true ∧ cfg.dequePrio = true ∧
    IsFirstMin d.q.pkts best ∧
    (best = h ∨ (best.isSameFlow h = true ∧
      (cfg.keepOrder = true ∨ (cfg.dropLowPrio = true ∧ best.isBadPrio = false))))

/-- The call removes a bad packet from the head through `remove`. -/
def Slips (cfg : DropTailConfig) (r : QueueRun) : QueueOp → Prop
  | .enque h => SlipsEnque cfg r.d (r.arriving h)
  | .deque => SlipsDeque cfg r.d

/-- The counter is the number of bad packets in the queue. -/
def Exact (r : QueueRun) : Prop :=
  r.d.q.numBadPackets = (r.d.q.pkts.countP (·.isBadPrio) : Int)

theorem exact_iff {r : QueueRun} : r.Exact ↔ r.d.q.excess = 0 := by
  unfold Exact excess
  omega

/-! ### One call -/

/-- The queue is in order, and later arrivals get later numbers. -/
structure Valid (r : QueueRun) : Prop where
  queue : r.d.q.Valid
  arrivals : ∀ x ∈ r.d.q.pkts, x.uid < r.arrivals

theorem init_valid : init.Valid := ⟨⟨by simp [init, DropTail.init, BadTrackingPacketQueue.init], rfl⟩,
  by simp [init, DropTail.init, BadTrackingPacketQueue.init]⟩

variable {cfg : DropTailConfig} {d : DropTail} {p : Packet}

/-- The queue and the new packet, split at the head. -/
structure AtHead (d : DropTail) (p a : Packet) (t : List Packet) : Prop where
  eq : (d.q.enque p).pkts = a :: t
  not_mem : a ∉ t
  mem : p ∈ a :: t
  last : t ≠ [] → p ∈ t

theorem atHead (h : d.q.Valid) (hp : ∀ x ∈ d.q.pkts, x.uid < p.uid) :
    ∃ a t, d.q.pkts ++ [p] = a :: t ∧ AtHead d p a t := by
  obtain ⟨a, t, hat⟩ : ∃ a t, d.q.pkts ++ [p] = a :: t :=
    List.exists_cons_of_ne_nil (by simp)
  have hq : (d.q.enque p).pkts = a :: t := by rw [enque_pkts, hat]
  refine ⟨a, t, hat, hq, fun hm => ?_, by rw [← hat]; simp, fun ht => ?_⟩
  · exact absurd (((h.enque hp).uid_ne (A := []) hq).2 a hm) (Nat.lt_irrefl _)
  · cases hl : d.q.pkts with
    | nil =>
        rw [hl] at hat
        exact absurd (by simpa using (List.cons.inj hat).2.symm) ht
    | cons x l =>
        rw [hl, List.cons_append] at hat
        rw [← (List.cons.inj hat).2]
        simp

theorem maxPrio_eq_head {a : Packet} {t : List Packet} (h : AtHead d p a t)
    (hbad : a.isBadPrio = true) :
    maxPrio cfg (d.q.enque p) p = a ↔ WinsPrio cfg (d.q.enque p) a t := by
  have ha : 0 ≤ a.prio := by
    have : a.prio ≥ 2 ^ 30 := by simpa [Packet.isBadPrio] using hbad
    omega
  rw [maxPrio_eq, h.eq, foldl_select_eq_head h.not_mem h.mem h.last, WinsPrio]
  simp [ha]

theorem maxCount_eq_head {a : Packet} {t : List Packet} (h : AtHead d p a t) :
    maxCount cfg d (d.q.enque p) p = a ↔ WinsCount cfg d a t := by
  rw [maxCount_eq, h.eq, foldl_select_eq_head h.not_mem h.mem h.last, WinsCount]
  refine or_congr Iff.rfl ?_
  have hpos : ((d.sqCounts (cfg.hash a.flow)).isSome && decide (0 < count cfg d a)) = true ↔
      0 < count cfg d a := by
    cases hs : d.sqCounts (cfg.hash a.flow) <;> simp [count, hs]
  rw [hpos]
  refine and_congr_right fun hk => forall₂_congr fun x _ => ?_
  cases hs : d.sqCounts (cfg.hash x.flow) <;> simp [count, hs]
  simpa [count] using Int.le_of_lt hk

/-- Whether the head is evicted, in the terms of `SlipsEnque`. -/
theorem slipsEnque_iff (h : d.q.Valid) (hp : ∀ x ∈ d.q.pkts, x.uid < p.uid) :
    SlipsEnque cfg d p ↔ ¬ Throws cfg d p ∧ EvictsBadHead cfg d p := by
  obtain ⟨a, t, hat, hh⟩ := atHead h hp
  have hhead : EvictsBadHead cfg d p ↔
      Evicts cfg d p ∧ a.isBadPrio = true ∧ victim cfg d p = a := by
    simp only [EvictsBadHead, hat, List.head?_cons, Option.some.injEq]
    constructor
    · rintro ⟨h₁, h₂, h₃⟩
      exact ⟨h₁, h₃ ▸ h₂, h₃.symm⟩
    · rintro ⟨h₁, h₂, h₃⟩
      exact ⟨h₁, h₃ ▸ h₂, h₃.symm⟩
  rw [hhead]
  constructor
  · rintro ⟨a', t', he, hbad, hov, hf, hw⟩
    obtain ⟨rfl, rfl⟩ := List.cons.inj (hat.symm.trans he)
    cases hdp : cfg.dropPrio with
    | true =>
        rw [hdp, if_pos rfl] at hw
        refine ⟨fun ht => ?_, ⟨hov, hf, .inl hdp⟩, hbad, ?_⟩
        · rcases hw.1 with hq | hl
          · exact absurd ht.2.2.2.1 (by simp [hq])
          · exact absurd ht.2.2.2.2 (not_le.mpr hl)
        · rw [victim, if_pos hdp, maxPrio_eq_head hh hbad]
          exact hw.2
    | false =>
        rw [hdp, if_neg (by simp)] at hw
        refine ⟨fun ht => absurd ht.2.2.1 (by simp [hdp]), ⟨hov, hf, .inr hw.1⟩, hbad, ?_⟩
        rw [victim, if_neg (by simp [hdp]), maxCount_eq_head hh]
        exact hw.2
  · rintro ⟨hnt, ⟨hov, hf, hd⟩, hbad, hv⟩
    refine ⟨a, t, hat, hbad, hov, hf, ?_⟩
    cases hdp : cfg.dropPrio with
    | true =>
        rw [if_pos rfl]
        rw [victim, if_pos hdp, maxPrio_eq_head hh hbad] at hv
        refine ⟨?_, hv⟩
        by_contra hne
        rw [not_or, not_lt, Bool.not_eq_true] at hne
        exact hnt ⟨hov, hf, hdp, hne.1, hne.2⟩
    | false =>
        rw [if_neg (by simp)]
        rw [victim, if_neg (by simp [hdp]), maxCount_eq_head hh] at hv
        exact ⟨hd.resolve_left (by simp [hdp]), hv⟩

theorem isFirstMin_unique {l : List Packet} {x y : Packet} (hx : IsFirstMin l x)
    (hy : IsFirstMin l y) : x = y :=
  isFirstMax_unique hx.isFirstMax hy.isFirstMax

variable (cfg) in
theorem sameFlowScan_mem (best : Packet) (l : List Packet) :
    (sameFlowScan cfg best l).1 ∈ best :: l ∧ (sameFlowScan cfg best l).2 ⊆ l := by
  induction l with
  | nil => simp [sameFlowScan]
  | cons x l ih =>
      have hmem : (sameFlowScan cfg best l).1 ∈ best :: x :: l := by
        rcases List.mem_cons.mp ih.1 with h | h <;> simp [h]
      unfold sameFlowScan
      split
      · simp
      split
      · split
        · exact ⟨hmem, List.cons_subset_cons _ ih.2⟩
        · split <;> simp
      · exact ⟨hmem, List.subset_cons_of_subset _ ih.2⟩

variable (cfg) in
/-- Whether the scan for `best` takes the head `a` out of the queue. -/
theorem sameFlowScan_head {best a : Packet} {t : List Packet} (hu : a.uid = best.uid → best = a)
    (hat : a ∉ t) (hbad : a.isBadPrio = true) :
    (a ∈ (sameFlowScan cfg best (a :: t)).2 ∨ (sameFlowScan cfg best (a :: t)).1 = a) ↔
      best = a ∨ (best.isSameFlow a = true ∧
        (cfg.keepOrder = true ∨ (cfg.dropLowPrio = true ∧ best.isBadPrio = false))) := by
  by_cases hba : best = a
  · simp [sameFlowScan, hba]
  have hau : a.uid ≠ best.uid := fun e => hba (hu e)
  rw [sameFlowScan, if_neg hau]
  by_cases hf : best.isSameFlow a = true
  · rw [if_pos hf]
    cases hdl : cfg.dropLowPrio <;> cases hbb : best.isBadPrio <;> cases hko : cfg.keepOrder <;>
      simp [hba, hf, hbad]
  · rw [if_neg hf]
    obtain ⟨h₁, h₂⟩ := sameFlowScan_mem cfg best t
    refine iff_of_false ?_ ?_
    · rintro (h | h)
      · exact hat (h₂ h)
      · rcases List.mem_cons.mp (h ▸ h₁) with e | e
        · exact hba e.symm
        · exact hat e
    · rintro (h | h)
      · exact hba h
      · exact hf h.1

/-- Whether the priority `deque` keeps the counter, in the terms of `SlipsDeque`. -/
theorem slipsDeque_iff {q' : BadTrackingPacketQueue} {best r : Packet} {D X Z : List Packet}
    (h : d.q.Valid) (hdq : cfg.dequePrio = true) (hb : IsFirstMin d.q.pkts best)
    (he : sameFlowScan cfg best d.q.pkts = (r, D)) (hh : Handed cfg d.q q' best r D X Z) :
    SlipsDeque cfg d ↔ ¬ q'.excess = d.q.excess := by
  obtain ⟨a, t, hat⟩ : ∃ a t, d.q.pkts = a :: t :=
    List.exists_cons_of_ne_nil (by rw [hh.split]; simp)
  have hbest : best ∈ a :: t := by
    obtain ⟨A, B, hq, -⟩ := hb
    rw [← hat, hq]
    simp
  have hscan : (a ∈ D ∨ r = a) = (a ∈ (sameFlowScan cfg best (a :: t)).2 ∨
      (sameFlowScan cfg best (a :: t)).1 = a) := by rw [← hat, he]
  have hhead := sameFlowScan_head cfg (t := t)
    (fun e => (h.uid_inj (by simp [hat]) (by rwa [hat]) e).symm)
    (fun hm => absurd ((h.uid_ne (A := []) hat).2 a hm) (Nat.lt_irrefl _))
  have hexact : ¬ q'.excess = d.q.excess ↔ a.isBadPrio = true ∧ (a ∈ D ∨ r = a) := by
    rw [hh.exact_iff, hat]
    simp only [List.head?_cons, ne_eq, Option.some.injEq]
    constructor
    · intro hne
      by_cases hD : a ∈ D
      · exact ⟨(hh.bad a hD).2.2.1, .inl hD⟩
      · by_contra hn
        refine hne ⟨fun x hx e => hD (e ▸ hx), fun ⟨hr, e⟩ => hn ⟨e ▸ hr, .inr e.symm⟩⟩
    · rintro ⟨hbad, hD | rfl⟩ ⟨h₁, h₂⟩
      · exact h₁ a hD rfl
      · exact h₂ ⟨hbad, rfl⟩
  rw [hexact]
  constructor
  · rintro ⟨a', t', best', hat', hbad, -, hb', hc⟩
    obtain ⟨rfl, rfl⟩ := List.cons.inj (hat.symm.trans hat')
    obtain rfl := isFirstMin_unique hb hb'
    exact ⟨hbad, hscan ▸ (hhead hbad).mpr hc⟩
  · rintro ⟨hbad, hc⟩
    exact ⟨a, t, best, hat, hbad, hdq, hb, (hhead hbad).mp (hscan ▸ hc)⟩

theorem dequeWithDropSmart_q : (d.dequeWithDropSmart cfg).state.q = d.q.deque.2 := by
  simp only [dequeWithDropSmart]
  split
  · rfl
  · split
    · split <;> rfl
    · rfl

variable (cfg) in
/-- `deque` always returns, and takes packets out of the queue. -/
theorem deque_spec (h : d.q.Valid) :
    ∃ x, d.deque cfg = some x ∧ x.state.q.Valid ∧ x.state.q.pkts.Sublist d.q.pkts ∧
      d.q.excess ≤ x.state.q.excess ∧ (x.state.q.excess = d.q.excess ↔ ¬ SlipsDeque cfg d) := by
  by_cases hdq : cfg.dequePrio = true
  · rw [DropTail.deque, if_pos hdq]
    by_cases hne : d.q.pkts = []
    · have hno : ¬ SlipsDeque cfg d := by
        rintro ⟨_, _, _, e, _⟩
        simp [hne] at e
      refine ⟨⟨d, [], none⟩, ?_, h, by simp, Int.le_refl _, by simp [hno]⟩
      rw [dequePriority, (findBestPacket_spec h).1.mpr hne]
    · obtain ⟨q', best, r, D, X, Z, -, hb, he, hs, hh⟩ := dequePriority_spec cfg h hne
      refine ⟨_, he, hh.valid, ?_, hh.le, ?_⟩
      · simp only [hh.left, hh.split]
        exact List.Sublist.append (List.filter_sublist) (List.sublist_cons_self _ _)
      · rw [slipsDeque_iff h hdq hb hs hh, not_not]
  · obtain ⟨-, hv, hp, hx⟩ := h.deque
    have hno : ¬ SlipsDeque cfg d := by
      rintro ⟨_, _, _, _, _, e, _⟩
      exact hdq e
    rw [DropTail.deque, if_neg hdq]
    split
    · refine ⟨_, rfl, ?_⟩
      rw [dequeWithDropSmart_q]
      exact ⟨hv, hp ▸ List.tail_sublist _, Int.le_of_eq hx.symm, by simp [hno, hx]⟩
    · exact ⟨_, rfl, hv, hp ▸ List.tail_sublist _, Int.le_of_eq hx.symm, by simp [hno, hx]⟩

variable {r r' : QueueRun} {op : QueueOp}

/-- A call keeps the queue valid, and the counter falls behind exactly when it slips. -/
theorem step_spec (h : r.Valid) (he : step cfg r op = some r') :
    r'.Valid ∧ r.d.q.excess ≤ r'.d.q.excess ∧
      (r'.d.q.excess = r.d.q.excess ↔ ¬ Slips cfg r op) := by
  cases op with
  | enque hd =>
      have hp : ∀ x ∈ r.d.q.pkts, x.uid < (r.arriving hd).uid := h.arrivals
      obtain ⟨hthrow, hret⟩ := enque_spec cfg h.queue hp
      have hnt : ¬ Throws cfg r.d (r.arriving hd) := fun e => by simp [step, hthrow e] at he
      obtain ⟨x, hx, -, hv, hk, hex⟩ := hret hnt
      simp only [step, hx, Option.map_some, Option.some.injEq] at he
      subst he
      refine ⟨⟨hv, fun y hy => ?_⟩, ?_, ?_⟩
      · obtain ⟨z, hz, hzu, -⟩ := hk y hy
        have hz' : z.uid ≤ r.arrivals := by
          rcases List.mem_append.mp hz with hz | hz
          · exact Nat.le_of_lt (h.arrivals z hz)
          · obtain rfl := List.mem_singleton.mp hz
            exact Nat.le_refl _
        exact Nat.lt_succ_of_le (hzu ▸ hz')
      · simp only [hex]
        split <;> omega
      · simp only [hex, Slips, slipsEnque_iff h.queue hp, hnt, not_false_eq_true, true_and]
        by_cases hev : EvictsBadHead cfg r.d (r.arriving hd)
        · rw [if_pos hev]
          exact iff_of_false (by omega) (not_not.mpr hev)
        · rw [if_neg hev]
          exact iff_of_true (Int.add_zero _) hev
  | deque =>
      obtain ⟨x, hx, hv, hs, hle, hiff⟩ := deque_spec cfg h.queue
      simp only [step, hx, Option.map_some, Option.some.injEq] at he
      subst he
      exact ⟨⟨hv, fun y hy => h.arrivals y (hs.mem hy)⟩, hle, hiff⟩

/-- A call that slips does return. -/
theorem step_of_slips (h : r.Valid) (hs : Slips cfg r op) : ∃ r', step cfg r op = some r' := by
  cases op with
  | enque hd =>
      have hp : ∀ x ∈ r.d.q.pkts, x.uid < (r.arriving hd).uid := h.arrivals
      obtain ⟨x, hx, -⟩ := (enque_spec cfg h.queue hp).2
        ((slipsEnque_iff h.queue hp).mp hs).1
      exact ⟨_, by rw [step, hx]; rfl⟩
  | deque =>
      obtain ⟨x, hx, -⟩ := deque_spec cfg h.queue
      exact ⟨_, by rw [step, hx]; rfl⟩

/-! ### Runs -/

theorem run_concat (cfg : DropTailConfig) (ops : List QueueOp) (op : QueueOp) :
    run cfg (ops ++ [op]) = (run cfg ops).bind fun r => step cfg r op := by
  simp [run, List.foldlM_append]

theorem run_valid {ops : List QueueOp} (he : run cfg ops = some r) : r.Valid := by
  induction ops using List.reverseRecOn generalizing r with
  | nil =>
      obtain rfl := Option.some.inj he
      exact init_valid
  | append_singleton ops op ih =>
      rw [run_concat] at he
      obtain ⟨r₀, h₀, h₁⟩ := Option.bind_eq_some_iff.mp he
      exact (step_spec (ih h₀) h₁).1

/-- **The counter over runs.**  It is the number of bad packets after every call of a run if and
only if no call of the run slips. -/
theorem count_exact_iff (cfg : DropTailConfig) (ops : List QueueOp) :
    (∀ pre r, pre <+: ops → run cfg pre = some r → r.Exact) ↔
      ∀ pre op r, pre ++ [op] <+: ops → run cfg pre = some r → ¬ Slips cfg r op := by
  constructor
  · intro hall pre op r hpre hr hs
    obtain ⟨r', hr'⟩ := step_of_slips (run_valid hr) hs
    have h₀ := exact_iff.mp (hall pre r ((List.prefix_append _ _).trans hpre) hr)
    have h₁ := exact_iff.mp (hall _ r' hpre (by rw [run_concat, hr]; exact hr'))
    exact (step_spec (run_valid hr) hr').2.2.mp (h₁.trans h₀.symm) hs
  · intro hall pre
    induction pre using List.reverseRecOn with
    | nil =>
        intro r _ he
        obtain rfl := Option.some.inj he
        rfl
    | append_singleton pre op ih =>
        intro r hpre he
        rw [run_concat] at he
        obtain ⟨r₀, h₀, h₁⟩ := Option.bind_eq_some_iff.mp he
        have hex := exact_iff.mp (ih r₀ ((List.prefix_append _ _).trans hpre) h₀)
        rw [exact_iff, (step_spec (run_valid h₀) h₁).2.2.mpr (hall pre op r₀ hpre h₀), hex]

/-- A queue with the options of pFabric, and limits that are not reached. -/
def pfabric : DropTailConfig where
  dropFront := false
  dropSmart := false
  dropPrio := true
  dequePrio := true
  keepOrder := true
  qib := false
  ecnEnable := false
  dropLowPrio := false
  goodPrioQlim := -1
  meanPktsize := 500
  sqLimit := 0
  thresh := 0
  qlim := 50
  hash := fun _ => 0

/-- One bad packet goes in and out of the queue, and the counter of the empty queue is `-1`. -/
theorem count_after_bad_head :
    ∃ r, run pfabric [.enque ⟨1500, 2 ^ 30, 0, 1, 0, false, false⟩, .deque] = some r ∧
      r.d.q.pkts = [] ∧ r.d.q.numBadPackets = -1 ∧ ¬ r.Exact := by
  refine ⟨_, rfl, rfl, rfl, ?_⟩
  unfold Exact
  decide

end QueueRun

end Afabric
