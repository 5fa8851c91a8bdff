import Afabric.Support.Circular
import Mathlib.Algebra.BigOperators.Intervals
import Mathlib.Algebra.BigOperators.Ring.Finset
import Mathlib.Algebra.Order.Ring.Int

/-!
# Queue — deficit round robin

`queue/drr.cc`: packets are hashed by source address into buckets.  The buckets with packets form a
circular list that starts at `curr`; `deque` serves the bucket there as far as its deficit counter
allows, `enque` drops from the bucket with most bytes as long as the limit is exceeded.

A bucket is its index, and `prev` and `next` of the buckets are two maps beside them.  An `int` is
an integer; for addresses below 2³⁰ the sums of `hash` stay within 32 bits.  A loop that has not
ended within its fuel, and a null pointer that is followed, have no result.
-/

namespace Afabric

structure DrrPacket where
  uid : ℕ
  size : ℤ
  saddr : ℕ

/-- The packet queue of a bucket and its counters. -/
structure PacketDRR where
  queue : List DrrPacket
  pkts : ℤ
  src : ℤ
  bcount : ℤ
  deficitCounter : ℤ
  turn : ℕ

structure DrrVars where
  buckets : ℕ
  blimit : ℤ
  quantum : ℤ
  mask : ℤ

structure DRR where
  bytecnt : ℤ
  pktcnt : ℤ
  flwcnt : ℤ
  curr : Option ℕ
  drr : ℕ → PacketDRR
  next : ℕ → Option ℕ
  prev : ℕ → Option ℕ

def PacketDRR.init : PacketDRR where
  queue := []
  pkts := 0
  src := -1
  bcount := 0
  deficitCounter := 0
  turn := 0

namespace DRR

def init : DRR where
  bytecnt := 0
  pktcnt := 0
  flwcnt := 0
  curr := none
  drr := fun _ => .init
  next := fun _ => none
  prev := fun _ => none

/-- The address that is hashed and compared. -/
def maskedAddr (v : DrrVars) (p : DrrPacket) : ℕ :=
  if v.mask ≠ 0 then p.saddr &&& 0xfff0 else p.saddr

def hash (v : DrrVars) (p : DrrPacket) : ℤ :=
  let i : ℤ := maskedAddr v p
  (i + i >>> (8 : ℕ) + ~~~(i >>> (4 : ℕ))).tmod ((2 <<< 23) - 1) + 1

/-- `hash(pkt) % buckets_`. -/
def bucketOf (v : DrrVars) (p : DrrPacket) : ℕ := ((hash v p).tmod v.buckets).toNat

def activate (x : ℕ) (d : DRR) : DRR :=
  match d.curr with
  | some head =>
      let prev := Function.update d.prev x (d.prev head)
      let next := Function.update d.next x (some head)
      { d with next := setLink next (d.prev head) (some x)
               prev := Function.update prev head (some x) }
  | none =>
      { d with prev := Function.update d.prev x (some x)
               next := Function.update d.next x (some x)
               curr := some x }

def idle (x : ℕ) (d : DRR) : DRR :=
  let unlinked := { d with next := setLink d.next (d.prev x) (d.next x)
                           prev := setLink d.prev (d.next x) (d.prev x) }
  if d.curr = some x then
    if d.next x = some x then { d with curr := none } else { unlinked with curr := d.next x }
  else unlinked

/-- The rest of the loop of `getMaxflow`, over `n` more buckets from `tmp`. -/
def maxflowFrom (d : DRR) : ℕ → ℕ → Option ℕ → Option ℕ
  | 0, maxflow, _ => some maxflow
  | _ + 1, _, none => none
  | n + 1, maxflow, some tmp =>
      maxflowFrom d n (if (d.drr maxflow).bcount < (d.drr tmp).bcount then tmp else maxflow)
        (d.next tmp)

def getMaxflow (d : DRR) : Option ℕ := d.curr.bind fun c => maxflowFrom d d.flwcnt.toNat c (some c)

/-- The head packet `p` leaves bucket `x`, whose other fields are those of `b`. -/
def release (x : ℕ) (b : PacketDRR) (p : DrrPacket) (rest : List DrrPacket) (d : DRR) : DRR :=
  { d with drr := Function.update d.drr x
             { b with queue := rest, pkts := b.pkts - 1, bcount := b.bcount - p.size }
           pktcnt := d.pktcnt - 1
           bytecnt := d.bytecnt - p.size }

/-- The packet is taken into its bucket. -/
def accept (v : DrrVars) (p : DrrPacket) (d : DRR) : DRR :=
  let x := bucketOf v p
  let q := d.drr x
  let q := { q with src := if q.src = -1 then (maskedAddr v p : ℤ) else q.src
                    queue := q.queue ++ [p]
                    pkts := q.pkts + 1
                    bcount := q.bcount + p.size }
  let d := { d with pktcnt := d.pktcnt + 1, bytecnt := d.bytecnt + p.size }
  if q.pkts = 1 then
    let d := activate x d
    { d with drr := Function.update d.drr x { q with deficitCounter := 0 }
             flwcnt := d.flwcnt + 1 }
  else { d with drr := Function.update d.drr x q }

/-- One drop. -/
def dropOne (d : DRR) : Option (DrrPacket × DRR) :=
  d.getMaxflow.bind fun remq =>
    match (d.drr remq).queue with
    | [] => none
    | p :: rest =>
        let d := release remq (d.drr remq) p rest d
        if (d.drr remq).pkts = 0 then
          let d := idle remq d
          some (p, { d with flwcnt := d.flwcnt - 1 })
        else some (p, d)

/-- `while (bytecnt > blimit_)`, with the packets dropped. -/
def shrink (v : DrrVars) : ℕ → DRR → Option (List DrrPacket × DRR)
  | 0, _ => none
  | fuel + 1, d =>
      if v.blimit < d.bytecnt then
        (dropOne d).bind fun r => (shrink v fuel r.2).map fun r' => (r.1 :: r'.1, r'.2)
      else some ([], d)

def enque (v : DrrVars) (fuel : ℕ) (p : DrrPacket) (d : DRR) : Option (List DrrPacket × DRR) :=
  shrink v fuel (accept v p d)

/-- A bucket with its quantum, if the visit has not had it. -/
def credited (v : DrrVars) (b : PacketDRR) : PacketDRR :=
  if b.turn = 0 then { b with deficitCounter := b.deficitCounter + v.quantum, turn := 1 } else b

/-- One round of the loop of `deque`: a packet, or the next bucket. -/
def serve (v : DrrVars) (d : DRR) : Option (Option DrrPacket × DRR) :=
  d.curr.bind fun c =>
    let b := credited v (d.drr c)
    match b.queue with
    | [] => none
    | p :: rest =>
        if p.size ≤ b.deficitCounter then
          let b := { b with deficitCounter := b.deficitCounter - p.size }
          let d := release c b p rest d
          let b := d.drr c
          if b.pkts = 0 then
            let d := { d with drr := Function.update d.drr c { b with turn := 0, deficitCounter := 0 }
                              flwcnt := d.flwcnt - 1 }
            some (some p, idle c d)
          else some (some p, d)
        else some (none, { d with drr := Function.update d.drr c { b with turn := 0 }
                                  curr := d.next c })

/-- `while (!pkt)`. -/
def serveLoop (v : DrrVars) : ℕ → DRR → Option (DrrPacket × DRR)
  | 0, _ => none
  | fuel + 1, d =>
      (serve v d).bind fun r => match r.1 with
        | some p => some (p, r.2)
        | none => serveLoop v fuel r.2

def deque (v : DrrVars) (fuel : ℕ) (d : DRR) : Option (Option DrrPacket × DRR) :=
  if d.bytecnt = 0 then some (none, d)
  else (serveLoop v fuel d).map fun r => (some r.1, r.2)

end DRR

end Afabric
