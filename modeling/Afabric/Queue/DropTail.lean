import Mathlib.Data.List.Basic
import Mathlib.Algebra.Order.Ring.Int

/-!
# Queue — the drop-tail queue with priorities

`DropTail` (`queue/drop-tail.cc`) over its `BadTrackingPacketQueue`, the FIFO of `queue/queue.cc`
that also counts the packets of bad priority.  The singly linked list of packets is a list, its
head first.  A packet carries the number of its arrival, which stands for its address: the source
tells packets apart by pointers.

`PacketQueue::remove` calls the virtual `deque` when its target is the head, so in
`BadTrackingPacketQueue` a packet removed from the head is noted twice: once by `remove`, once by
`deque`.  `Accounting.lean` is about what follows from that, `Order.lean` about the order in which
packets leave.

`none` is a call that does not return normally: `abort()`, or the exception of `drop_prio`.
`DropTail`'s statistics are not modelled.
-/

namespace Afabric

/-- The header fields the queue reads; `ce` is the mark it sets. -/
structure Header where
  size : Int
  prio : Int
  src : Int
  dst : Int
  fid : Int
  ect : Bool
  ce : Bool
deriving DecidableEq, Repr

/-- A packet, with the number of its arrival. -/
structure Packet extends Header where
  uid : Nat
deriving DecidableEq, Repr

/-- `FlowKey`. -/
structure FlowKey where
  src : Int
  dst : Int
  fid : Int
deriving DecidableEq, Repr

namespace Packet

def flow (p : Packet) : FlowKey := ⟨p.src, p.dst, p.fid⟩

/-- `is_bad_prio`. -/
def isBadPrio (p : Packet) : Bool := p.prio ≥ 2 ^ 30

/-- `is_same_flow`. -/
def isSameFlow (hp h : Packet) : Bool := h.src = hp.src ∧ h.dst = hp.dst ∧ h.fid = hp.fid

end Packet

/-! ### `BadTrackingPacketQueue` -/

structure BadTrackingPacketQueue where
  pkts : List Packet
  len : Int
  bytes : Int
  numBadPackets : Int
deriving DecidableEq, Repr

namespace BadTrackingPacketQueue

variable (q : BadTrackingPacketQueue)

/-- A queue as it is constructed. -/
def init : BadTrackingPacketQueue := ⟨[], 0, 0, 0⟩

def noteEnque (p : Packet) : BadTrackingPacketQueue :=
  if p.isBadPrio then { q with numBadPackets := q.numBadPackets + 1 } else q

def noteDeque (p : Packet) : BadTrackingPacketQueue :=
  if p.isBadPrio then { q with numBadPackets := q.numBadPackets - 1 } else q

def getNumGoodPackets : Int := q.len - q.numBadPackets

def enque (p : Packet) : BadTrackingPacketQueue :=
  let q := q.noteEnque p
  { q with pkts := q.pkts ++ [p], len := q.len + 1, bytes := q.bytes + p.size }

def deque : Option Packet × BadTrackingPacketQueue :=
  match q.pkts with
  | [] => (none, q)
  | p :: rest =>
      let q := { q with pkts := rest, len := q.len - 1, bytes := q.bytes - p.size }
      (some p, q.noteDeque p)

/-- `remove`; at the head `PacketQueue::remove` calls the virtual `deque`. -/
def remove (target : Packet) : Option BadTrackingPacketQueue :=
  let q := q.noteDeque target
  match q.pkts with
  | [] => none
  | p :: rest =>
      if p.uid = target.uid then some q.deque.2
      else
        (rest.find? fun x => x.uid = target.uid).map fun x =>
          { q with
            pkts := p :: rest.eraseP fun x => x.uid = target.uid
            len := q.len - 1
            bytes := q.bytes - x.size }

end BadTrackingPacketQueue

/-! ### `DropTail` -/

/-- The bound variables of `DropTail`; `hash` is `std::hash` on the bytes of a flow key. -/
structure DropTailConfig where
  dropFront : Bool
  dropSmart : Bool
  dropPrio : Bool
  dequePrio : Bool
  keepOrder : Bool
  qib : Bool
  ecnEnable : Bool
  dropLowPrio : Bool
  goodPrioQlim : Int
  meanPktsize : Int
  sqLimit : Nat
  thresh : Int
  qlim : Int
  hash : FlowKey → Nat

/-- `DropTail`, with `sq_counts_` as a partial map and the front of `sq_queue_` first. -/
structure DropTail where
  q : BadTrackingPacketQueue
  sqCounts : Nat → Option Int
  sqQueue : List Nat

/-- What leaves the queue: packets dropped, in order, and the packet handed out. -/
structure Departure where
  state : DropTail
  dropped : List Packet
  result : Option Packet

namespace DropTail

/-- A queue as it is constructed. -/
def init : DropTail := ⟨.init, fun _ => none, []⟩

variable (cfg : DropTailConfig) (d : DropTail)

def qlimInBytes : Int := cfg.qlim * cfg.meanPktsize

def willOverflow (p : Packet) : Bool :=
  if cfg.qib then d.q.bytes + p.size ≥ qlimInBytes cfg
  else if cfg.goodPrioQlim ≥ 0 then
    if p.isBadPrio then d.q.len + 1 ≥ cfg.qlim
    else d.q.getNumGoodPackets + 1 ≥ cfg.goodPrioQlim
  else d.q.len + 1 ≥ cfg.qlim

/-- `drop_front`. -/
def dropFront (p : Packet) : Departure :=
  let r := (d.q.enque p).deque
  ⟨{ d with q := r.2 }, r.1.toList, none⟩

/-- Whether `drop_prio` may drop the packet. -/
def eligible (q : BadTrackingPacketQueue) (pp : Packet) : Bool :=
  let mustDropGood := cfg.goodPrioQlim ≥ 0 ∧ q.getNumGoodPackets > cfg.goodPrioQlim
  (!cfg.qib && (!mustDropGood || !pp.isBadPrio)) || q.bytes - pp.size < qlimInBytes cfg

/-- The packet `drop_prio` selects: the last one of the greatest priority. -/
def maxPrio (q : BadTrackingPacketQueue) (p : Packet) : Packet :=
  (q.pkts.foldl (fun m pp =>
    if eligible cfg q pp ∧ pp.prio ≥ m.2 then (pp, pp.prio) else m) (p, 0)).1

/-- `drop_prio`, which throws if the limit on good packets is set and bytes are not counted. -/
def dropPrio (p : Packet) : Option Departure :=
  let q := d.q.enque p
  if !cfg.qib ∧ cfg.goodPrioQlim ≥ 0 then none
  else (q.remove (maxPrio cfg q p)).map fun q' => ⟨{ d with q := q' }, [maxPrio cfg q p], none⟩

/-- The packet `drop_smart` selects: the first one of the flow with the greatest count. -/
def maxCount (q : BadTrackingPacketQueue) (p : Packet) : Packet :=
  (q.pkts.foldl (fun m pp =>
    match d.sqCounts (cfg.hash pp.flow) with
    | some count => if count > m.2 then (pp, count) else m
    | none => m) (p, 0)).1

/-- `drop_smart`. -/
def dropSmart (p : Packet) : Option Departure :=
  let q := d.q.enque p
  (q.remove (maxCount cfg d q p)).map fun q' => ⟨{ d with q := q' }, [maxCount cfg d q p], none⟩

/-- `handle_overflow`, with the drop of the packet it returns. -/
def handleOverflow (p : Packet) : Option Departure :=
  if cfg.dropFront then some (d.dropFront p)
  else if cfg.dropPrio then d.dropPrio cfg p
  else if cfg.dropSmart then d.dropSmart cfg p
  else some ⟨d, [p], none⟩

/-- `find_extreme_packet`: the first packet that no later one beats. -/
def findExtremePacket (beats : Int → Int → Bool) : Option Packet :=
  if d.q.len = 0 then none
  else
    match d.q.pkts with
    | [] => none
    | p :: rest => some (rest.foldl (fun best pp => if beats pp.prio best.prio then pp else best) p)

/-- `find_best_packet`. -/
def findBestPacket : Option Packet := d.findExtremePacket fun a b => a < b

/-- `mark_ecn`. -/
def markEcn : DropTail :=
  match d.findExtremePacket fun a b => a > b with
  | some m =>
      if m.ect then
        { d with q := { d.q with
            pkts := d.q.pkts.map fun x => if x.uid = m.uid then { x with ce := true } else x } }
      else d
  | none => d

/-- The first half of `enque`: the packet enters the queue, or something is dropped for it. -/
def takeIn (p : Packet) : Option Departure :=
  if d.willOverflow cfg p then d.handleOverflow cfg p
  else some ⟨{ d with q := d.q.enque p }, [], none⟩

def enque (p : Packet) : Option Departure :=
  (d.takeIn cfg p).map fun r =>
    if cfg.ecnEnable ∧ r.state.q.len ≥ cfg.thresh then { r with state := r.state.markEcn } else r

/-- The loop of `handle_same_flow` over the packets before `packet`: what it returns, and the
packets to drop. -/
def sameFlowScan (packet : Packet) : List Packet → Packet × List Packet
  | [] => (packet, [])
  | pp :: rest =>
      if pp.uid = packet.uid then (packet, [])
      else if packet.isSameFlow pp then
        if cfg.dropLowPrio && pp.isBadPrio && !packet.isBadPrio then
          let r := sameFlowScan packet rest
          (r.1, pp :: r.2)
        else (if cfg.keepOrder then pp else packet, [])
      else sameFlowScan packet rest

/-- Removal of some packets, one after the other. -/
def removeAll (q : BadTrackingPacketQueue) : List Packet → Option BadTrackingPacketQueue
  | [] => some q
  | p :: ps => do removeAll (← q.remove p) ps

/-- `handle_same_flow`. -/
def handleSameFlow (packet : Packet) : Option Departure := do
  let r := sameFlowScan cfg packet d.q.pkts
  let q ← removeAll d.q r.2
  some ⟨{ d with q }, r.2, some r.1⟩

/-- `deque_priority`. -/
def dequePriority : Option Departure :=
  match d.findBestPacket with
  | none => some ⟨d, [], none⟩
  | some best => do
      let r ← if cfg.keepOrder || cfg.dropLowPrio then d.handleSameFlow cfg best
        else some ⟨d, [], some best⟩
      let packet ← r.result
      let q ← r.state.q.remove packet
      some { r with state := { r.state with q } }

/-- `deque_with_drop_smart`. -/
def dequeWithDropSmart : Departure :=
  let r := d.q.deque
  let d := { d with q := r.2 }
  match r.1 with
  | none => ⟨d, [], none⟩
  | some p =>
      let signature := cfg.hash p.flow
      let sqQueue := d.sqQueue ++ [signature]
      let sqCounts := Function.update d.sqCounts signature
        (some (match d.sqCounts signature with
          | some c => c + 1
          | none => 1))
      match sqQueue with
      | temp :: rest =>
          if sqQueue.length > cfg.sqLimit then
            let c := (sqCounts temp).getD 0 - 1
            ⟨{ d with
                sqQueue := rest
                sqCounts := Function.update sqCounts temp (if c = 0 then none else some c) },
              [], some p⟩
          else ⟨{ d with sqQueue, sqCounts }, [], some p⟩
      | [] => ⟨{ d with sqQueue, sqCounts }, [], some p⟩

def deque : Option Departure :=
  if cfg.dequePrio then d.dequePriority cfg
  else if cfg.dropSmart then some (d.dequeWithDropSmart cfg)
  else
    let r := d.q.deque
    some ⟨{ d with q := r.2 }, [], r.1⟩

end DropTail

/-! ### Runs -/

/-- A call on the queue. -/
inductive QueueOp where
  | enque (h : Header)
  | deque

/-- A queue in use: the number of arrivals so far, and the packets handed out, in order. -/
structure QueueRun where
  d : DropTail
  arrivals : Nat
  out : List Packet

namespace QueueRun

def init : QueueRun := ⟨.init, 0, []⟩

/-- The packet that arrives next. -/
def arriving (r : QueueRun) (h : Header) : Packet := { h with uid := r.arrivals }

def step (cfg : DropTailConfig) (r : QueueRun) : QueueOp → Option QueueRun
  | .enque h => (r.d.enque cfg (r.arriving h)).map fun x =>
      { r with d := x.state, arrivals := r.arrivals + 1 }
  | .deque => (r.d.deque cfg).map fun x => { r with d := x.state, out := r.out ++ x.result.toList }

/-- The calls one after the other, on a queue as it is constructed. -/
def run (cfg : DropTailConfig) (ops : List QueueOp) : Option QueueRun := ops.foldlM (step cfg) init

end QueueRun

end Afabric
