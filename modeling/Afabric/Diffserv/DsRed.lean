import Afabric.Support.MachineInt
import Mathlib.Algebra.BigOperators.Intervals

/-!
# Diffserv — the router queue

`redQueue` (`diffserv/dsredq.cc`), one physical queue with its virtual ones, and `dsREDQueue`
(`diffserv/dsred.cc`), which puts a packet into the queue that the PHB table has for its code point
and serves the queues in turn, by weight or by priority.

Floats and doubles are rationals, and the arrays are functions, so that an index out of their bounds
is not seen.  `link_` is not set after the configuration, and the early drop target is one with the
drop target.
-/

namespace Afabric

/-- A packet; the drop precedence of its code point is that of its virtual queue. -/
structure DsRedPacket where
  uid : ℕ
  prio : ℤ
  size : ℕ
  ect : Bool
  ce : Bool
deriving DecidableEq

inductive MredMode where
  | rioC
  | rioD
  | wred
  | dropTail
deriving DecidableEq

/-- `qParam`, with its `edp_` and `edv_`. -/
structure QParam where
  thMin : ℚ
  thMax : ℚ
  maxPInv : ℚ
  qW : ℚ
  ptc : ℚ
  vAve : ℚ
  vProb : ℚ
  count : ℤ
  qlen : ℤ
  idletime : ℚ
  idle : Bool

structure RedQueue where
  numPrec : ℕ
  qlim : ℤ
  mredMode : MredMode
  /-- `q_`. -/
  q : List DsRedPacket
  qParam : ℕ → QParam

/-- The results of `redQueue::enque`. -/
inductive PktResult where
  | dropped
  | enqueued
  | edropped
  | marked
deriving DecidableEq

namespace RedQueue

/-- `qParam_[prec]` changed. -/
def modify (r : RedQueue) (prec : ℕ) (f : QParam → QParam) : RedQueue :=
  { r with qParam := Function.update r.qParam prec (f (r.qParam prec)) }

/-- The virtual queues from `lo` up to `hi` changed. -/
def modifyAll (r : RedQueue) (lo hi : ℕ) (f : QParam → QParam) : RedQueue :=
  { r with qParam := fun i => if lo ≤ i ∧ i < hi then f (r.qParam i) else r.qParam i }

def updateVREDLen (r : RedQueue) (prec : ℕ) : RedQueue :=
  r.modify prec fun v => { v with qlen := v.qlen - 1 }

def updateIdleFlag (r : RedQueue) (prec : ℕ) : RedQueue :=
  match r.mredMode with
  | .rioC => r.modifyAll prec r.numPrec fun v => { v with idle := false }
  | .rioD => r.modify prec fun v => { v with idle := false }
  | _ => r.modify 0 fun v => { v with idle := false }

/-- The loop of `updateREDStateVar` that ends at the first virtual queue with a packet. -/
def idleFrom (r : RedQueue) (now : ℚ) (i : ℕ) : ℕ → RedQueue
  | 0 => r
  | k + 1 =>
      if (r.qParam i).qlen = 0 then
        (r.modify i fun v => { v with idle := true, idletime := now }).idleFrom now (i + 1) k
      else r

def updateREDStateVar (r : RedQueue) (prec : ℕ) (now : ℚ) : RedQueue :=
  if (r.qParam prec).qlen = 0 then
    match r.mredMode with
    | .rioC =>
        if ∀ i < prec, (r.qParam i).qlen = 0 then r.idleFrom now prec (r.numPrec - prec) else r
    | .rioD => r.modify prec fun v => { v with idle := true, idletime := now }
    | .wred => r.modify 0 fun v => { v with idle := true, idletime := now }
    | .dropTail => r
  else r

def calcAvg (r : RedQueue) (prec : ℕ) (m : ℤ) : RedQueue :=
  let v := r.qParam prec
  let f := v.vAve * (1 - v.qW) ^ (m - 1).toNat * (1 - v.qW)
  let f :=
    match r.mredMode with
    | .rioC => f + ∑ i ∈ Finset.range (prec + 1), (r.qParam i).qW * (r.qParam i).qlen
    | .rioD => f + v.qW * v.qlen
    | _ => f + v.qW * r.q.length
  match r.mredMode with
  | .wred => r.modifyAll 0 r.numPrec fun v => { v with vAve := f }
  | _ => r.modify prec fun v => { v with vAve := f }

/-- `calcAvg` of a virtual queue that may have been idle. -/
def average (r : RedQueue) (now : ℚ) (i : ℕ) : RedQueue :=
  let v := r.qParam i
  r.calcAvg i ((if v.idle then truncate (v.ptc * (now - v.idletime)) else 0) + 1)

/-- The averages that `enque` brings up to date. -/
def averages (r : RedQueue) (prec : ℕ) (now : ℚ) : RedQueue :=
  match r.mredMode with
  | .dropTail => r
  | .rioC => (List.range' prec (r.numPrec - prec)).foldl (fun r i => r.average now i) r
  | .rioD => r.average now prec
  | .wred => r.average now 0

/-- The packet goes to the end of the queue, and counts for its virtual queue. -/
def append (r : RedQueue) (pkt : DsRedPacket) (prec : ℕ) : RedQueue :=
  { r.modify prec fun v => { v with qlen := v.qlen + 1 } with q := r.q ++ [pkt] }

/-- What the average and the draw `u` have to say: nothing, or that the packet is dropped early or
that the average is beyond the maximum threshold. -/
def decide (r : RedQueue) (prec : ℕ) (u : ℚ) : RedQueue × PktResult :=
  let v := r.qParam prec
  if v.vAve > v.thMin then
    if v.vAve ≤ v.thMax then
      let count := v.count + 1
      let pb := 1 / v.maxPInv * (v.vAve - v.thMin) / (v.thMax - v.thMin)
      let pa := pb / (1 - count * pb)
      if u ≤ pa then (r.modify prec fun v => { v with vProb := pb, count := 0 }, .edropped)
      else (r.modify prec fun v => { v with vProb := pb, count := count }, .enqueued)
    else (r.modify prec fun v => { v with count := 0 }, .dropped)
  else (r.modify prec fun v => { v with count := -1 }, .enqueued)

def enque (r : RedQueue) (pkt : DsRedPacket) (prec : ℕ) (ecn : Bool) (now u : ℚ) :
    RedQueue × PktResult :=
  if (r.q.length : ℤ) > r.qlim - 1 then (r, .dropped)
  else if r.mredMode = .dropTail ∧ (r.qParam prec).qlen ≥ (r.qParam prec).thMin then (r, .dropped)
  else
    let r := r.averages prec now
    -- With ECN the packet is in the queue before anything is decided.
    let r := if ecn then r.append pkt prec else r
    match r.decide prec u with
    | (r, .enqueued) =>
        if ecn then (r.updateIdleFlag prec, .enqueued)
        else ((r.append pkt prec).updateIdleFlag prec, .enqueued)
    | (r, result) => if ecn then (r.updateIdleFlag prec, .marked) else (r, result)

/-- `deque`. -/
def deque (r : RedQueue) : Option DsRedPacket × RedQueue :=
  match r.q with
  | [] => (none, r)
  | p :: q => (some p, { r with q := q })

end RedQueue

/-! ### The router -/

inductive SchedMode where
  | rr
  | wrr
  | wirr
  | pri
deriving DecidableEq

structure PhbParam where
  codePt : ℤ
  queue : ℕ
  prec : ℕ

/-- `statType`. -/
structure DsStats where
  drops : ℕ
  edrops : ℕ
  pkts : ℕ
  dropsCP : ℤ → ℕ
  edropsCP : ℤ → ℕ
  pktsCP : ℤ → ℕ

namespace DsStats

/-- A packet arrives, is dropped, or is dropped early. -/
def arrive (s : DsStats) (codePt : ℤ) : DsStats :=
  { s with pkts := s.pkts + 1, pktsCP := Function.update s.pktsCP codePt (s.pktsCP codePt + 1) }

def drop (s : DsStats) (codePt : ℤ) : DsStats :=
  { s with
    drops := s.drops + 1
    dropsCP := Function.update s.dropsCP codePt (s.dropsCP codePt + 1) }

def edrop (s : DsStats) (codePt : ℤ) : DsStats :=
  { s with
    edrops := s.edrops + 1
    edropsCP := Function.update s.edropsCP codePt (s.edropsCP codePt + 1) }

end DsStats

structure DsRed where
  redq : ℕ → RedQueue
  stats : DsStats
  qToDq : ℕ
  numQueues : ℕ
  phb : List PhbParam
  ecn : Bool
  schedMode : SchedMode
  queueWeight : ℕ → ℤ
  queueMaxRate : ℕ → ℚ
  queueAvgRate : ℕ → ℚ
  queueArrTime : ℕ → ℚ
  pktcount : ℕ → ℕ
  wirrTemp : ℕ → ℤ
  wirrqDone : ℕ → Bool
  queuesDone : ℕ

namespace DsRed

open Function

/-- `lookupPHBTable`; `none` for the assertion at its end. -/
def lookupPHBTable (d : DsRed) (codePt : ℤ) : Option PhbParam :=
  d.phb.find? fun e => e.codePt = codePt

/-- `addPHBEntry`; 40 is `MAX_CP`. -/
def addPHBEntry (d : DsRed) (e : PhbParam) : DsRed :=
  if d.phb.length = 40 then d else { d with phb := d.phb ++ [e] }

/-- `addQueueWeights`; 8 is `MAX_QUEUES`. -/
def addQueueWeights (d : DsRed) (queueNum : ℕ) (weight : ℤ) : DsRed :=
  if queueNum < 8 then { d with queueWeight := update d.queueWeight queueNum weight } else d

def addQueueRate (d : DsRed) (queueNum : ℕ) (rate : ℤ) : DsRed :=
  if queueNum < 8 then { d with queueMaxRate := update d.queueMaxRate queueNum (rate / 8) } else d

def setSchedularMode (d : DsRed) (mode : SchedMode) : DsRed := { d with schedMode := mode }

/-- `setMREDMode`, of one queue or of all. -/
def setMREDMode (d : DsRed) (mode : MredMode) : Option ℕ → DsRed
  | some i => { d with redq := update d.redq i { d.redq i with mredMode := mode } }
  | none =>
      { d with redq := fun i => if i < 8 then { d.redq i with mredMode := mode } else d.redq i }

/-- `applyTSWMeter`, with a window of a second. -/
def applyTSWMeter (d : DsRed) (qId pktSize : ℕ) (now : ℚ) : DsRed :=
  { d with
    queueAvgRate := update d.queueAvgRate qId
      ((d.queueAvgRate qId * 1 + pktSize) / (now - d.queueArrTime qId + 1))
    queueArrTime := update d.queueArrTime qId now }

/-- The packet that was accepted last has its `ce` bit set. -/
def markLast (r : RedQueue) : RedQueue :=
  { r with q := r.q.dropLast ++ r.q.getLast?.toList.map fun p => { p with ce := true } }

def enque (d : DsRed) (pkt : DsRedPacket) (now u : ℚ) : Option (DsRed × PktResult) := do
  let e ← d.lookupPHBTable pkt.prio
  let stats := d.stats.arrive pkt.prio
  let r := (d.redq e.queue).enque pkt e.prec (d.ecn && pkt.ect) now u
  match r.2 with
  | .enqueued => return ({ d with stats := stats, redq := update d.redq e.queue r.1 }, r.2)
  | .dropped =>
      return ({ d with
        stats := stats.drop pkt.prio, redq := update d.redq e.queue r.1 }, r.2)
  | .edropped =>
      return ({ d with
        stats := stats.edrop pkt.prio, redq := update d.redq e.queue r.1 }, r.2)
  | .marked =>
      return ({ d with stats := stats, redq := update d.redq e.queue (markLast r.1) }, r.2)

/-- `getRealLength() == 0`. -/
def Empty (d : DsRed) (i : ℕ) : Prop := (d.redq i).q.length = 0

instance (d : DsRed) (i : ℕ) : Decidable (d.Empty i) := inferInstanceAs (Decidable (_ = 0))

/-- The next queue in line. -/
def following (d : DsRed) : ℕ := (d.qToDq + 1) % d.numQueues

/-- The loop of the round robin. -/
def searchRR (d : DsRed) : ℕ → DsRed
  | 0 => d
  | k + 1 => if d.Empty d.qToDq then searchRR { d with qToDq := d.following } k else d

/-- The next queue with its weight of services. -/
def moveWRR (d : DsRed) : DsRed :=
  { d with
    qToDq := d.following
    wirrTemp := update d.wirrTemp d.following (d.queueWeight d.following - 1) }

/-- The loop of the weighted round robin. -/
def searchWRR (d : DsRed) : ℕ → DsRed
  | 0 => d
  | k + 1 =>
      if d.Empty d.qToDq then
        searchWRR (moveWRR { d with wirrTemp := update d.wirrTemp d.qToDq 0 }) k
      else d

/-- A queue is done for this round. -/
def finish (d : DsRed) (i : ℕ) : DsRed :=
  { d with queuesDone := d.queuesDone + 1, wirrqDone := update d.wirrqDone i true }

/-- The loop of the weighted interleaved round robin. -/
def searchWIRR (d : DsRed) : ℕ → DsRed
  | 0 => d
  | k + 1 =>
      if d.Empty d.qToDq ∨ d.wirrqDone d.qToDq = true then
        let d := if d.wirrqDone d.qToDq then d else d.finish d.qToDq
        searchWIRR { d with qToDq := d.following } k
      else d

/-- A new round when all queues are done. -/
def renew (d : DsRed) : DsRed :=
  if d.numQueues ≤ d.queuesDone then
    { d with
      queuesDone := 0
      wirrTemp := fun i => if i < d.numQueues then d.queueWeight i else d.wirrTemp i
      wirrqDone := fun i => if i < d.numQueues then false else d.wirrqDone i }
  else d

/-- Whether a queue is passed over for those of lower priority. -/
def Passed (d : DsRed) (i : ℕ) : Prop :=
  d.Empty i ∨ (d.queueMaxRate i ≠ 0 ∧ d.queueAvgRate i > d.queueMaxRate i)

instance (d : DsRed) (i : ℕ) : Decidable (d.Passed i) := inferInstanceAs (Decidable (_ ∨ _))

/-- The first queue with `i` for which the loop over the priorities ends. -/
def searchPRI (d : DsRed) (i : ℕ) : ℕ → ℕ
  | 0 => i
  | k + 1 => if d.Passed i then searchPRI d (i + 1) k else i

/-- `selectQueueToDeque`, with the queue in `qToDq`. -/
def selectQueueToDeque (d : DsRed) : DsRed :=
  match d.schedMode with
  | .rr => searchRR { d with qToDq := d.following } d.numQueues
  | .wrr =>
      let d := if d.wirrTemp d.qToDq ≤ 0 then d.moveWRR
        else { d with wirrTemp := update d.wirrTemp d.qToDq (d.wirrTemp d.qToDq - 1) }
      d.searchWRR d.numQueues
  | .wirr =>
      let d := searchWIRR { d with qToDq := d.following } d.numQueues
      let d := if d.wirrTemp d.qToDq = 1 then d.finish d.qToDq else d
      renew { d with wirrTemp := update d.wirrTemp d.qToDq (d.wirrTemp d.qToDq - 1) }
  | .pri =>
      let i := d.searchPRI 0 d.numQueues
      if i = d.numQueues then searchRR { d with qToDq := 0 } d.numQueues
      else { d with qToDq := i }

/-- The rates of all queues after a packet of `size` bytes has left the queue `dq`. -/
def meter (d : DsRed) (dq size : ℕ) (now : ℚ) : DsRed :=
  (List.range d.numQueues).foldl (fun d i =>
    if d.queueMaxRate i ≠ 0 then d.applyTSWMeter i (if i = dq then size else 0) now else d) d

/-- The packet `p` has left the queue `dq`, of which `r` remains. -/
def leave (d : DsRed) (dq : ℕ) (p : DsRedPacket) (r : RedQueue) (now : ℚ) : DsRed :=
  let d := { d with
    redq := update d.redq dq r, pktcount := update d.pktcount dq (d.pktcount dq + 1) }
  if d.schedMode = .pri then d.meter dq p.size now else d

/-- `deque`; `none` for the assertion of `lookupPHBTable`. -/
def deque (d : DsRed) (now : ℚ) : Option (DsRed × Option DsRedPacket) :=
  let d := d.selectQueueToDeque
  let dq := d.qToDq
  if dq < d.numQueues then
    match (d.redq dq).deque with
    | (none, _) => some (d, none)
    | (some p, r) =>
        let d := d.leave dq p r now
        (d.lookupPHBTable p.prio).map fun e =>
          let r := ((d.redq dq).updateVREDLen e.prec).updateREDStateVar e.prec now
          ({ d with redq := update d.redq dq r }, some p)
  else some (d, none)

/-- The calls on a router, with the time and the draw.  `configQ`, `setNumPrec`, `meanPktSize` and a
later `reset` are not among them. -/
inductive Op where
  | enque (pkt : DsRedPacket) (now u : ℚ)
  | deque (now : ℚ)
  | addPHBEntry (e : PhbParam)
  | addQueueWeights (queueNum : ℕ) (weight : ℤ)
  | addQueueRate (queueNum : ℕ) (rate : ℤ)
  | setSchedularMode (mode : SchedMode)
  | setMREDMode (mode : MredMode) (queue : Option ℕ)

/-- A router after `reset`, with all of its virtual queues configured. -/
structure Fresh (d : DsRed) : Prop where
  numQueues : 0 < d.numQueues
  q : ∀ i, (d.redq i).q = []
  qlen : ∀ i prec, ((d.redq i).qParam prec).qlen = 0
  stats : d.stats = ⟨0, 0, 0, fun _ => 0, fun _ => 0, fun _ => 0⟩
  qToDq : d.qToDq = 0
  pktcount : ∀ i, d.pktcount i = 0
  wirrTemp : ∀ i, d.wirrTemp i = 0
  wirrqDone : ∀ i, d.wirrqDone i = false

/-- A router with what happened to the packets; one that was accepted or served is listed with its
queue. -/
structure Run where
  router : DsRed
  arrived : List DsRedPacket
  accepted : List (ℕ × DsRedPacket)
  dropped : List DsRedPacket
  served : List (ℕ × DsRedPacket)

/-- The arrival of a packet. -/
def Run.enque (r : Run) (pkt : DsRedPacket) (now u : ℚ) : Option Run := do
  let e ← r.router.lookupPHBTable pkt.prio
  let x ← r.router.enque pkt now u
  let r := { r with router := x.1, arrived := r.arrived ++ [pkt] }
  match x.2 with
  | .enqueued => return { r with accepted := r.accepted ++ [(e.queue, pkt)] }
  | .marked => return { r with accepted := r.accepted ++ [(e.queue, { pkt with ce := true })] }
  | _ => return { r with dropped := r.dropped ++ [pkt] }

def Run.deque (r : Run) (now : ℚ) : Option Run := do
  let x ← r.router.deque now
  match x.2 with
  | none => return { r with router := x.1 }
  | some p => return { r with router := x.1, served := r.served ++ [(x.1.qToDq, p)] }

def Run.step (r : Run) : Op → Option Run
  | .enque pkt now u => r.enque pkt now u
  | .deque now => r.deque now
  | .addPHBEntry e => some { r with router := r.router.addPHBEntry e }
  | .addQueueWeights queueNum weight =>
      some { r with router := r.router.addQueueWeights queueNum weight }
  | .addQueueRate queueNum rate => some { r with router := r.router.addQueueRate queueNum rate }
  | .setSchedularMode mode => some { r with router := r.router.setSchedularMode mode }
  | .setMREDMode mode queue => some { r with router := r.router.setMREDMode mode queue }

inductive Reach : Run → Prop where
  | fresh {d : DsRed} (h : Fresh d) : Reach ⟨d, [], [], [], []⟩
  | step {r r' : Run} (op : Op) (h : Reach r) (hs : r.step op = some r') : Reach r'

def Run.steps (r : Run) : List Op → Option Run
  | [] => some r
  | op :: ops => (r.step op).bind fun r' => r'.steps ops

theorem Reach.steps {ops : List Op} : ∀ {r r' : Run}, Reach r → r.steps ops = some r' →
    Reach r' := by
  induction ops with
  | nil =>
    intro r r' h hs
    obtain rfl := Option.some.inj hs
    exact h
  | cons op ops ih =>
    intro r r' h hs
    obtain ⟨r₁, h₁, hs⟩ := Option.bind_eq_some_iff.mp hs
    exact ih (h.step op h₁) hs

end DsRed

end Afabric
