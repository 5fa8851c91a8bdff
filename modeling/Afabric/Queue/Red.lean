import Afabric.Queue.Priority
import Afabric.Support.MachineInt
import Mathlib.Data.List.Chain

/-!
# Queue — random early detection

`REDQueue` (`queue/red.cc`), with `cautious_` and `adaptive_` at 0, and the step marking that the
experiments want from it: a weight of 1, so that the average is the length, and both thresholds at
the same number of packets.

The drop probability is then 0 or 1, and 1 is not below the `mark_p_` of 1 that the experiments set.
So nothing is ever marked: the first arrival that finds the threshold reached is let in, and each
that follows it there is dropped (`red_step_marking_iff`).
-/

namespace Afabric

/-- The settings of a queue; `thresh` and `maxthresh` are in packets. -/
structure RedConfig where
  thresh : ℚ
  maxthresh : ℚ
  meanPktsize : ℤ
  qWeight : ℚ
  linterm : ℚ
  markP : ℚ
  /-- The packet time constant, which `reset` takes from the link. -/
  ptc : ℚ
  qlim : ℤ
  bytes : Bool
  queueInBytes : Bool
  wait : Bool
  setbit : Bool
  gentle : Bool
  useMarkP : Bool
  dropFront : Bool
  dropRand : Bool
  ns1Compat : Bool
deriving DecidableEq, Repr

/-- The queue, and the variables of `edp` and `edv` that change or that `reset` computes. -/
structure Red where
  q : PacketQueue
  thMin : ℚ
  thMax : ℚ
  vAve : ℚ
  vProb1 : ℚ
  vProb : ℚ
  vA : ℚ
  vB : ℚ
  vC : ℚ
  vD : ℚ
  curMaxP : ℚ
  count : ℤ
  countBytes : ℤ
  old : Bool
  idle : Bool
  idletime : ℚ
  curq : ℤ
deriving DecidableEq, Repr

/-- Whether a packet is dropped: on purpose, or since there is no room. -/
inductive DropType where
  | none
  | forced
  | unforced
deriving DecidableEq, Repr

/-- What an arrival comes to: whether it is marked, and the packet dropped. -/
structure RedResult where
  state : Red
  marked : Bool
  dropped : Option Packet

namespace PacketQueue

/-- `remove`, of the packet at a place of the queue. -/
def removeAt (q : PacketQueue) (i : ℕ) : Option Packet × PacketQueue :=
  match q.pkts[i]? with
  | some p => (some p, ⟨q.pkts.eraseIdx i, q.len - 1, q.bytes - p.size⟩)
  | none => (none, q)

end PacketQueue

namespace Red

variable (cfg : RedConfig) (s : Red)

/-- A queue after `reset` at the time `now`. -/
def init (now : ℚ) : Red :=
  let maxthresh := if cfg.maxthresh = 0 then 3 * cfg.thresh else cfg.maxthresh
  let thMin := if cfg.queueInBytes then cfg.thresh * cfg.meanPktsize else cfg.thresh
  let thMax := if cfg.queueInBytes then maxthresh * cfg.meanPktsize else maxthresh
  let thDiff := if thMax - thMin = 0 then 1 else thMax - thMin
  let curMaxP := 1 / cfg.linterm
  { q := .init, thMin, thMax, vAve := 0, vProb1 := 0, vProb := 0, vA := 1 / thDiff,
    vB := -thMin / thDiff, vC := if cfg.gentle then (1 - curMaxP) / thMax else 0,
    vD := if cfg.gentle then 2 * curMaxP - 1 else 0, curMaxP, count := 0, countBytes := 0,
    old := false, idle := true, idletime := now, curq := 0 }

/-- `estimator`; its loop runs `m - 1` times. -/
def estimator (nqueued m : ℤ) (ave qW : ℚ) : ℚ :=
  ave * (1 - qW) ^ (m - 1).toNat * (1 - qW) + qW * nqueued

/-- `calculate_p_new`. -/
def calculateP : ℚ :=
  let p :=
    if cfg.gentle ∧ s.vAve ≥ s.thMax then s.vC * s.vAve + s.vD
    else if !cfg.gentle ∧ s.vAve ≥ s.thMax then 1
    else (s.vA * s.vAve + s.vB) * s.curMaxP
  if p > 1 then 1 else p

/-- `modify_p`. -/
def modifyP (p : ℚ) (size : ℤ) : ℚ :=
  let count1 : ℚ := if cfg.bytes then (s.countBytes.tdiv cfg.meanPktsize : ℤ) else s.count
  let p :=
    if cfg.wait then
      if count1 * p < 1 then 0 else if count1 * p < 2 then p / (2 - count1 * p) else 1
    else if count1 * p < 1 then p / (1 - count1 * p) else 1
  let p := if cfg.bytes ∧ p < 1 then p * size / cfg.meanPktsize else p
  if p > 1 then 1 else p

/-- What `drop_early` comes to, for the random number `u`. -/
inductive Early where
  | pass
  | mark
  | drop
deriving DecidableEq, Repr

/-- `drop_early`. -/
def dropEarly (p : Packet) (u : ℚ) : Red × Early :=
  let s := { s with vProb1 := s.calculateP cfg }
  let s := { s with vProb := s.modifyP cfg s.vProb1 p.size }
  if u ≤ s.vProb then
    let s := { s with count := 0, countBytes := 0 }
    if cfg.setbit ∧ p.ect ∧ (!cfg.useMarkP ∨ s.vProb1 < cfg.markP) then (s, .mark) else (s, .drop)
  else (s, .pass)

/-- The number of packets or bytes in the queue. -/
def qlen : ℤ := if cfg.queueInBytes then s.q.bytes else s.q.len

def qlimit : ℤ := if cfg.queueInBytes then cfg.qlim * cfg.meanPktsize else cfg.qlim

/-- The arrival of a packet as the average and the counters see it. -/
def note (p : Packet) (now : ℚ) : Red :=
  let m := if s.idle then truncate (cfg.ptc * (now - s.idletime)) else 0
  { s with
    idle := false
    vAve := estimator (s.qlen cfg) (m + 1) s.vAve cfg.qWeight
    count := s.count + 1
    countBytes := s.countBytes + p.size
    curq := s.qlen cfg }

/-- The drop logic of `enque`, up to the limit of the queue, with whether the packet is marked. -/
def decideDrop (p : Packet) (u : ℚ) : Red × DropType × Bool :=
  if s.vAve ≥ s.thMin ∧ s.qlen cfg > 1 then
    if !cfg.useMarkP ∧ ((!cfg.gentle ∧ s.vAve ≥ s.thMax) ∨ (cfg.gentle ∧ s.vAve ≥ 2 * s.thMax)) then
      (s, .forced, false)
    else if !s.old then
      -- the average has just crossed the threshold
      ({ s with count := 1, countBytes := p.size, old := true }, .none, false)
    else
      match s.dropEarly cfg p u with
      | (s, .pass) => (s, .none, false)
      | (s, .mark) => (s, .none, true)
      | (s, .drop) => (s, .unforced, false)
  else ({ s with vProb := 0, old := false }, .none, false)

/-- The place of `pickPacketToDrop`; `pick` is the number drawn for `drop_rand_`. -/
def victim (pick : ℕ) : ℕ :=
  if cfg.dropFront then min 1 (s.q.pkts.length - 1)
  else if cfg.dropRand then pick % s.q.pkts.length
  else s.q.pkts.length - 1

/-- `enque`. -/
def enque (p : Packet) (now u : ℚ) (pick : ℕ) : RedResult :=
  let (s, droptype, marked) := (s.note cfg p now).decideDrop cfg p u
  let p := if marked then { p with ce := true } else p
  let droptype := if s.qlen cfg ≥ qlimit cfg then .forced else droptype
  match droptype with
  | .unforced => ⟨s, marked, some p⟩
  | .none => ⟨{ s with q := s.q.enque p }, marked, none⟩
  | .forced =>
      let s := { s with q := s.q.enque p }
      let (dropped, q) := s.q.removeAt (s.victim cfg pick)
      let s := { s with q }
      ⟨if cfg.ns1Compat then s else { s with count := 0, countBytes := 0 }, marked, dropped⟩

/-- `deque`. -/
def deque (now : ℚ) : Option Packet × Red :=
  match s.q.deque with
  | (some p, q) => (some p, { s with q, idle := false })
  | (none, q) => (none, { s with q, idle := true, idletime := now })

end Red

/-! ### Runs -/

/-- A call on the queue at the time `now`, with the random numbers an arrival may draw. -/
inductive RedOp where
  | enque (p : Packet) (now u : ℚ) (pick : ℕ)
  | deque (now : ℚ)

/-- ECN-capable packets, and numbers that `Random::uniform` returns. -/
def RedOp.Legal : RedOp → Prop
  | .enque p _ u _ => p.ect = true ∧ 0 ≤ u ∧ u < 1
  | .deque _ => True

/-- What an arrival came to, with the bytes it found in the queue. -/
structure RedArrival where
  seen : ℤ
  marked : Bool
  dropped : Option Packet
deriving DecidableEq, Repr

namespace Red

/-- The arrivals of a run, in order. -/
def arrivals (cfg : RedConfig) : Red → List RedOp → List RedArrival
  | _, [] => []
  | s, .deque now :: ops => arrivals cfg (s.deque now).2 ops
  | s, .enque p now u pick :: ops =>
      let r := s.enque cfg p now u pick
      ⟨s.q.bytes, r.marked, r.dropped⟩ :: arrivals cfg r.state ops

/-- The settings of the experiments for a threshold of `K` packets. -/
def spine (K linterm ptc : ℚ) (meanPktsize qlim : ℤ) : RedConfig where
  thresh := K
  maxthresh := K
  meanPktsize := meanPktsize
  qWeight := 1
  linterm := linterm
  markP := 1
  ptc := ptc
  qlim := qlim
  bytes := false
  queueInBytes := true
  wait := true
  setbit := true
  gentle := false
  useMarkP := true
  dropFront := false
  dropRand := false
  ns1Compat := false

/-- An arrival that finds the threshold reached. -/
def Above (cfg : RedConfig) (a : RedArrival) : Prop := cfg.thresh * cfg.meanPktsize ≤ a.seen

instance (cfg : RedConfig) : DecidablePred (Above cfg) :=
  fun a => inferInstanceAs (Decidable (_ ≤ (a.seen : ℚ)))

/-- Step marking: nothing is dropped below the limit of the queue, nothing is marked below the
threshold, and an arrival above the threshold after one above it is marked. -/
structure StepMarking (cfg : RedConfig) (l : List RedArrival) : Prop where
  lossless : ∀ a ∈ l, a.seen < cfg.qlim * cfg.meanPktsize → a.dropped = none
  below : ∀ a ∈ l, ¬ Above cfg a → a.marked = false
  above : l.IsChain fun a b => Above cfg a → Above cfg b → b.marked = true

/-! ### One arrival -/

/-- The invariant of a queue with these settings. -/
structure SpineInv (cfg : RedConfig) (s : Red) : Prop where
  thMin : s.thMin = cfg.thresh * cfg.meanPktsize
  thMax : s.thMax = cfg.thresh * cfg.meanPktsize
  count : 0 ≤ s.count

section Spine

variable {K linterm ptc : ℚ} {meanPktsize qlim : ℤ} {s : Red}

/-- With a weight of 1 the average is the length. -/
theorem estimator_one (nqueued m : ℤ) (ave : ℚ) : estimator nqueued m ave 1 = nqueued := by
  simp [estimator]

theorem note_spine (hi : SpineInv (spine K linterm ptc meanPktsize qlim) s) (p : Packet) (now : ℚ) :
    let s' := s.note (spine K linterm ptc meanPktsize qlim) p now
    SpineInv (spine K linterm ptc meanPktsize qlim) s' ∧ 1 ≤ s'.count ∧ s'.vAve = s.q.bytes ∧
      s'.old = s.old ∧ s'.q = s.q := by
  have hc := hi.count
  refine ⟨⟨hi.thMin, hi.thMax, ?_⟩, ?_, estimator_one _ _ _, rfl, rfl⟩
  · show 0 ≤ s.count + 1
    omega
  · show 1 ≤ s.count + 1
    omega

/-- At the thresholds the probability is 1. -/
theorem modifyP_spine (hc : 1 ≤ s.count) (size : ℤ) :
    s.modifyP (spine K linterm ptc meanPktsize qlim) 1 size = 1 := by
  have hc' : (1 : ℚ) ≤ s.count := by exact_mod_cast hc
  simp only [modifyP, spine, Bool.false_eq_true, if_false, if_true, mul_one, false_and]
  rw [if_neg (not_lt.mpr hc')]
  by_cases h2 : (s.count : ℚ) < 2
  · have h1 : s.count = 1 := by
      have : s.count < 2 := by exact_mod_cast h2
      omega
    rw [if_pos h2, h1]
    norm_num
  · rw [if_neg h2]
    norm_num

variable (K linterm ptc meanPktsize qlim) in
theorem dropEarly_spine (hv : s.thMax ≤ s.vAve) (hc : 1 ≤ s.count) (p : Packet) {u : ℚ}
    (hu : u < 1) :
    ∃ s', s.dropEarly (spine K linterm ptc meanPktsize qlim) p u = (s', .drop) ∧
      s'.thMin = s.thMin ∧ s'.thMax = s.thMax ∧ s'.count = 0 ∧ s'.old = s.old ∧ s'.q = s.q := by
  have hp : s.calculateP (spine K linterm ptc meanPktsize qlim) = 1 := by
    simp [calculateP, spine, hv]
  have hm : ({ s with vProb1 := 1 } : Red).modifyP (spine K linterm ptc meanPktsize qlim) 1 p.size
      = 1 := modifyP_spine hc p.size
  simp only [dropEarly, hp, hm, if_pos hu.le]
  refine ⟨_, if_neg ?_, rfl, rfl, rfl, rfl, rfl⟩
  rintro ⟨-, -, h | h⟩
  · exact absurd h Bool.false_ne_true
  · exact absurd h (lt_irrefl _)

/-- The drop logic with these settings: it never marks, and it drops above the threshold what does not
come first there. -/
theorem decideDrop_spine (hi : SpineInv (spine K linterm ptc meanPktsize qlim) s)
    (hK : 1 < K * meanPktsize) (hc : 1 ≤ s.count) (hv : s.vAve = s.q.bytes) (p : Packet) {u : ℚ}
    (hu : u < 1) :
    ∃ s' t, s.decideDrop (spine K linterm ptc meanPktsize qlim) p u = (s', t, false) ∧
      SpineInv (spine K linterm ptc meanPktsize qlim) s' ∧ s'.q = s.q ∧
      (s'.old = true ↔ K * meanPktsize ≤ s.q.bytes) ∧
      t = if s.old = true ∧ K * meanPktsize ≤ s.q.bytes then .unforced else .none := by
  have hmin : s.thMin = K * meanPktsize := hi.thMin
  have hmax : s.thMax = K * meanPktsize := hi.thMax
  have hcond : (s.vAve ≥ s.thMin ∧ s.qlen (spine K linterm ptc meanPktsize qlim) > 1) ↔
      K * meanPktsize ≤ s.q.bytes := by
    rw [hv, hmin]
    refine ⟨fun h => h.1, fun h => ⟨h, ?_⟩⟩
    have h1 : (1 : ℚ) < s.q.bytes := hK.trans_le h
    show (1 : ℤ) < s.q.bytes
    exact_mod_cast h1
  unfold decideDrop
  by_cases h : K * meanPktsize ≤ (s.q.bytes : ℚ)
  · rw [if_pos (hcond.mpr h), if_neg (by simp [spine])]
    -- the first arrival above the threshold only sets `old`, the next one is dropped early
    cases ho : s.old with
    | false =>
      refine ⟨_, _, rfl, ⟨hi.thMin, hi.thMax, ?_⟩, rfl, iff_of_true rfl h, by simp⟩
      exact Int.one_nonneg
    | true =>
      obtain ⟨s', he, e₁, e₂, e₃, e₄, e₅⟩ := dropEarly_spine K linterm ptc meanPktsize qlim
        (show s.thMax ≤ s.vAve by rw [hmax, hv]; exact h) hc p hu
      simp only [Bool.not_true, Bool.false_eq_true, if_false, he]
      exact ⟨s', .unforced, rfl, ⟨e₁.trans hi.thMin, e₂.trans hi.thMax, e₃.ge⟩, e₅,
        iff_of_true (e₄.trans ho) h, by simp [h]⟩
  · rw [if_neg (fun h' => h (hcond.mp h'))]
    exact ⟨_, _, rfl, ⟨hi.thMin, hi.thMax, hi.count⟩, rfl, iff_of_false (by simp) h, by simp [h]⟩

/-- One arrival. -/
theorem enque_spine (hi : SpineInv (spine K linterm ptc meanPktsize qlim) s)
    (hK : 1 < K * meanPktsize) (p : Packet) (now : ℚ) {u : ℚ} (hu : u < 1) (pick : ℕ) :
    let r := s.enque (spine K linterm ptc meanPktsize qlim) p now u pick
    SpineInv (spine K linterm ptc meanPktsize qlim) r.state ∧ r.marked = false ∧
      (r.state.old = true ↔ K * meanPktsize ≤ s.q.bytes) ∧
      (s.q.bytes < qlim * meanPktsize → r.dropped =
        if s.old = true ∧ K * meanPktsize ≤ s.q.bytes then some p else none) := by
  obtain ⟨hi₁, hc, hv, ho, hq⟩ := note_spine hi p now
  obtain ⟨s', t, he, hi', hq', ho', ht⟩ := decideDrop_spine hi₁ hK hc (hv.trans (by rw [hq])) p hu
  rw [ho, hq] at ht
  rw [hq] at ho' hq'
  have hlen : s'.qlen (spine K linterm ptc meanPktsize qlim) = s.q.bytes := by rw [← hq']; rfl
  have hlim : qlimit (spine K linterm ptc meanPktsize qlim) = qlim * meanPktsize := rfl
  simp only [enque, he, hlen, hlim, Bool.false_eq_true, if_false]
  by_cases hfull : s.q.bytes ≥ qlim * meanPktsize
  · rw [if_pos hfull]
    exact ⟨⟨hi'.thMin, hi'.thMax, le_rfl⟩, rfl, ho', fun h => absurd h (not_lt.mpr hfull)⟩
  · rw [if_neg hfull, ht]
    by_cases hd : s.old = true ∧ K * meanPktsize ≤ (s.q.bytes : ℚ)
    · rw [if_pos hd, if_pos hd]
      exact ⟨hi', rfl, ho', fun _ => rfl⟩
    · rw [if_neg hd, if_neg hd]
      exact ⟨⟨hi'.thMin, hi'.thMax, hi'.count⟩, rfl, ho', fun _ => rfl⟩

theorem deque_spine (hi : SpineInv (spine K linterm ptc meanPktsize qlim) s) (now : ℚ) :
    SpineInv (spine K linterm ptc meanPktsize qlim) (s.deque now).2 ∧
      (s.deque now).2.old = s.old := by
  unfold deque
  split
  · exact ⟨⟨hi.thMin, hi.thMax, hi.count⟩, rfl⟩
  · exact ⟨⟨hi.thMin, hi.thMax, hi.count⟩, rfl⟩

end Spine

/-! ### The arrivals of a run -/

/-- What a list of arrivals is like with these settings, after an arrival above the threshold
(`old`) or not. -/
inductive SpineTrace (cfg : RedConfig) : Bool → List RedArrival → Prop where
  | nil (old : Bool) : SpineTrace cfg old []
  | cons {old : Bool} {a : RedArrival} {l : List RedArrival} (marked : a.marked = false)
      (dropped : a.seen < cfg.qlim * cfg.meanPktsize →
        (a.dropped = none ↔ ¬ (old = true ∧ Above cfg a)))
      (rest : SpineTrace cfg (decide (Above cfg a)) l) : SpineTrace cfg old (a :: l)

variable {cfg : RedConfig} {old : Bool} {l : List RedArrival}

theorem SpineTrace.marked (h : SpineTrace cfg old l) : ∀ a ∈ l, a.marked = false := by
  induction h with
  | nil => simp
  | cons hm _ _ ih => exact List.forall_mem_cons.mpr ⟨hm, ih⟩

theorem SpineTrace.lossless (h : SpineTrace cfg old l)
    (hhead : ∀ a ∈ l.head?, ¬ (old = true ∧ Above cfg a))
    (hchain : l.IsChain fun a b => ¬ (Above cfg a ∧ Above cfg b)) :
    ∀ a ∈ l, a.seen < cfg.qlim * cfg.meanPktsize → a.dropped = none := by
  induction h with
  | nil => simp
  | cons _ hd _ ih =>
    obtain ⟨hnext, htail⟩ := List.isChain_cons.mp hchain
    refine List.forall_mem_cons.mpr ⟨fun hs => (hd hs).mpr (hhead _ rfl), ih ?_ htail⟩
    intro b hb
    simpa using hnext b hb

/-- The property and its condition, of a list of arrivals that nothing precedes. -/
theorem SpineTrace.stepMarking_iff (h : SpineTrace cfg false l) :
    StepMarking cfg l ↔ l.IsChain fun a b => ¬ (Above cfg a ∧ Above cfg b) := by
  constructor
  · intro hs
    refine hs.above.imp_of_mem_tail_imp ?_
    rintro a b - hb hab ⟨ha, hb'⟩
    have hm := h.marked b (List.mem_of_mem_tail hb)
    rw [hab ha hb'] at hm
    exact absurd hm (by decide)
  · intro hc
    refine ⟨h.lossless (fun _ _ h' => absurd h'.1 (by decide)) hc, fun a ha _ => h.marked a ha, ?_⟩
    exact hc.imp fun a b hn ha hb => absurd ⟨ha, hb⟩ hn

/-- The arrivals of a run are such a list. -/
theorem arrivals_spine {K linterm ptc : ℚ} {meanPktsize qlim : ℤ} (hK : 1 < K * meanPktsize)
    {s : Red} (hi : SpineInv (spine K linterm ptc meanPktsize qlim) s) (ops : List RedOp)
    (hops : ∀ op ∈ ops, op.Legal) :
    SpineTrace (spine K linterm ptc meanPktsize qlim) s.old
      (arrivals (spine K linterm ptc meanPktsize qlim) s ops) := by
  induction ops generalizing s with
  | nil => exact .nil _
  | cons op ops ih =>
    obtain ⟨hop, hrest⟩ := List.forall_mem_cons.mp hops
    cases op with
    | deque now =>
      obtain ⟨hi', ho⟩ := deque_spine hi now
      rw [arrivals, ← ho]
      exact ih hi' hrest
    | enque p now u pick =>
      obtain ⟨hi', hm, ho, hd⟩ := enque_spine hi hK p now hop.2.2 pick
      refine .cons hm (fun hs => ?_) ?_
      · rw [hd hs]
        by_cases hc : s.old = true ∧ K * meanPktsize ≤ (s.q.bytes : ℚ)
        · rw [if_pos hc]
          exact iff_of_false (by simp) (not_not.mpr hc)
        · rw [if_neg hc]
          exact iff_of_true rfl hc
      · have hold : (s.enque (spine K linterm ptc meanPktsize qlim) p now u pick).state.old =
            decide (Above (spine K linterm ptc meanPktsize qlim) ⟨s.q.bytes, false, none⟩) := by
          rw [Bool.eq_iff_iff, ho, decide_eq_true_eq]
          rfl
        have := ih hi' hrest
        rw [hold] at this
        exact this

theorem init_spine (K linterm ptc : ℚ) (meanPktsize qlim : ℤ) (now : ℚ) (hK : K ≠ 0) :
    SpineInv (spine K linterm ptc meanPktsize qlim)
      (init (spine K linterm ptc meanPktsize qlim) now) := by
  refine ⟨rfl, ?_, le_rfl⟩
  simp [init, spine, hK]

/-- **Step marking through RED.**  A run of ECN-capable packets is marked as by a step at `K`
packets, if and only if no arrival that finds them in the queue follows one that did. -/
theorem red_step_marking_iff (K linterm ptc : ℚ) (meanPktsize qlim : ℤ) (hK : 1 < K * meanPktsize)
    (now : ℚ) (ops : List RedOp) (hops : ∀ op ∈ ops, op.Legal) :
    StepMarking (spine K linterm ptc meanPktsize qlim)
        (arrivals (spine K linterm ptc meanPktsize qlim)
          (init (spine K linterm ptc meanPktsize qlim) now) ops) ↔
      (arrivals (spine K linterm ptc meanPktsize qlim)
          (init (spine K linterm ptc meanPktsize qlim) now) ops).IsChain fun a b =>
        ¬ (Above (spine K linterm ptc meanPktsize qlim) a ∧
          Above (spine K linterm ptc meanPktsize qlim) b) := by
  have hne : K ≠ 0 := by
    rintro rfl
    rw [zero_mul] at hK
    exact absurd hK (by norm_num)
  exact (arrivals_spine hK (init_spine K linterm ptc meanPktsize qlim now hne) ops
    hops).stepMarking_iff

/-- A full packet that can be marked. -/
def fullPacket (uid : ℕ) : Packet := ⟨⟨1500, 0, 1, 2, 0, true, false⟩, uid⟩

/-- Three packets through a queue with a threshold of two, the third after a departure. -/
theorem red_step_marking_short : StepMarking (spine 2 10 1000 1500 100)
    (arrivals (spine 2 10 1000 1500 100) (init (spine 2 10 1000 1500 100) 0)
      [.enque (fullPacket 0) 0 (1 / 2) 0, .enque (fullPacket 1) 0 (1 / 2) 0, .deque 1,
        .enque (fullPacket 2) 1 (1 / 2) 0]) :=
  (red_step_marking_iff 2 10 1000 1500 100 (by norm_num) 0
    [.enque (fullPacket 0) 0 (1 / 2) 0, .enque (fullPacket 1) 0 (1 / 2) 0, .deque 1,
      .enque (fullPacket 2) 1 (1 / 2) 0]
    (by simp [RedOp.Legal, fullPacket]; norm_num)).mpr (by decide +kernel)

/-- Four packets in a row: the third finds the threshold and is let in, the fourth is dropped, in a
queue with room for a hundred, and none is marked. -/
theorem red_drops_not_marks :
    ¬ StepMarking (spine 2 10 1000 1500 100)
      (arrivals (spine 2 10 1000 1500 100) (init (spine 2 10 1000 1500 100) 0)
        ((List.range 4).map fun i => .enque (fullPacket i) 0 (1 / 2) 0)) ∧
    arrivals (spine 2 10 1000 1500 100) (init (spine 2 10 1000 1500 100) 0)
        ((List.range 4).map fun i => .enque (fullPacket i) 0 (1 / 2) 0) =
      [⟨0, false, none⟩, ⟨1500, false, none⟩, ⟨3000, false, none⟩,
        ⟨4500, false, some (fullPacket 3)⟩] := by
  have hrun : arrivals (spine 2 10 1000 1500 100) (init (spine 2 10 1000 1500 100) 0)
      ((List.range 4).map fun i => .enque (fullPacket i) 0 (1 / 2) 0) =
    [⟨0, false, none⟩, ⟨1500, false, none⟩, ⟨3000, false, none⟩,
      ⟨4500, false, some (fullPacket 3)⟩] := by decide +kernel
  refine ⟨fun h => ?_, hrun⟩
  rw [hrun] at h
  have hd := h.lossless ⟨4500, false, some (fullPacket 3)⟩ (by simp) (by decide)
  cases hd

end Red

end Afabric
