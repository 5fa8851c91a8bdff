import Afabric.Support.Circular
import Mathlib.Algebra.BigOperators.Intervals
import Mathlib.Algebra.Order.Ring.Int

/-!
# Queue — stochastic fair queueing

`queue/sfq.cc`: packets are hashed by the sum of their addresses into buckets.  The buckets with
packets form a circular list, which starts at `active`; `deque` takes a packet from the bucket there
and goes on to the next one.  The array of the buckets is made by the first call of `enque` or
`deque` (`initsfq`), and taken away by the command `buckets`.

A bucket is its index, and `prev` and `next` of the buckets are two maps beside them.  An `int` is
an integer.  `none` is a cell outside the array that is used, or an end of the program.
-/

namespace Afabric

structure SfqPacket where
  uid : ℕ
  saddr : ℤ
  daddr : ℤ
deriving DecidableEq

/-- The packet queue of a bucket and its counter. -/
structure PacketSFQ where
  queue : List SfqPacket
  pkts : ℤ
deriving DecidableEq

structure SFQ where
  maxqueue : ℤ
  buckets : ℕ
  /-- Whether `bucket` points to an array, which then has `buckets` cells. -/
  allocated : Bool
  bucket : ℕ → PacketSFQ
  next : ℕ → Option ℕ
  prev : ℕ → Option ℕ
  active : Option ℕ
  occupied : ℤ
  fairshare : ℤ

inductive SfqOp where
  | enque (p : SfqPacket)
  | deque

/-- What a call does with a packet. -/
inductive SfqOut where
  | taken (p : SfqPacket)
  | dropped (p : SfqPacket)
  | served (r : Option SfqPacket)
deriving DecidableEq

namespace SFQ

/-- A new queue, in which `occupied` and `fairshare` are what the memory holds. -/
def new (maxqueue : ℤ) (buckets : ℕ) (occupied fairshare : ℤ) : SFQ where
  maxqueue := maxqueue
  buckets := buckets
  allocated := false
  bucket := fun _ => ⟨[], 0⟩
  next := fun _ => none
  prev := fun _ => none
  active := none
  occupied := occupied
  fairshare := fairshare

def initsfq (s : SFQ) : SFQ :=
  { s with
    allocated := true
    bucket := fun _ => ⟨[], 0⟩
    next := fun _ => none
    prev := fun _ => none
    active := none
    occupied := 0
    fairshare := s.maxqueue.tdiv s.buckets }

/-- `if (!bucket) initsfq()`. -/
def ready (s : SFQ) : SFQ := if s.allocated = true then s else initsfq s

def hash (p : SfqPacket) : ℤ :=
  let k := p.saddr + p.daddr
  (k + k >>> (8 : ℕ) + ~~~(k >>> (4 : ℕ))).tmod ((2 <<< 19) - 1)

def activate (x : ℕ) (s : SFQ) : SFQ :=
  match s.active with
  | some head =>
      let prev := Function.update s.prev x (s.prev head)
      let next := Function.update s.next x (some head)
      { s with next := setLink next (s.prev head) (some x)
               prev := Function.update prev head (some x) }
  | none =>
      { s with prev := Function.update s.prev x (some x)
               next := Function.update s.next x (some x)
               active := some x }

def idle (x : ℕ) (s : SFQ) : SFQ :=
  if s.active = some x then
    if s.next x = some x then { s with active := none }
    else
      { s with prev := setLink s.prev (s.next x) (s.prev x)
               next := setLink s.next (s.prev x) (s.next x)
               active := s.next x }
  else s

/-- `hash(pkt) % buckets_`. -/
def which (s : SFQ) (p : SfqPacket) : ℤ := (hash p).tmod s.buckets

/-- The bucket has its share of the room that is left. -/
def Refused (s : SFQ) (x : ℕ) : Prop :=
  (s.bucket x).pkts ≥ (s.maxqueue - s.occupied) >>> (1 : ℕ) ∨
    (s.maxqueue - s.occupied < s.buckets ∧ (s.bucket x).pkts > s.fairshare) ∨
      s.maxqueue - s.occupied ≤ 0

instance (s : SFQ) (x : ℕ) : Decidable (s.Refused x) := inferInstanceAs (Decidable (_ ∨ _))

/-- The packet is taken into bucket `x`. -/
def accept (x : ℕ) (p : SfqPacket) (s : SFQ) : SFQ :=
  let q := s.bucket x
  let s := { s with bucket := Function.update s.bucket x ⟨q.queue ++ [p], q.pkts + 1⟩
                    occupied := s.occupied + 1 }
  if q.pkts + 1 = 1 then activate x s else s

def enque (p : SfqPacket) (s : SFQ) : Option (SFQ × SfqOut) :=
  let s := ready s
  if s.which p < 0 then none
  else if s.Refused (s.which p).toNat then some (s, .dropped p)
  else some (accept (s.which p).toNat p s, .taken p)

/-- A packet is taken from bucket `x`, the first of the circle. -/
def serve (x : ℕ) (s : SFQ) : SFQ :=
  let q := s.bucket x
  let s := { s with bucket := Function.update s.bucket x ⟨q.queue.tail, q.pkts - 1⟩
                    occupied := s.occupied - 1 }
  if q.pkts - 1 = 0 then idle x s else { s with active := s.next x }

def deque (s : SFQ) : SFQ × Option SfqPacket :=
  let s := ready s
  match s.active with
  | none => (s, none)
  | some x => (serve x s, (s.bucket x).queue.head?)

def step (s : SFQ) : SfqOp → Option (SFQ × SfqOut)
  | .enque p => enque p s
  | .deque => some (s.deque.1, .served s.deque.2)

def run (s : SFQ) : List SfqOp → Option (SFQ × List SfqOut)
  | [] => some (s, [])
  | op :: ops => do
      let (t, o) ← step s op
      let (u, os) ← run t ops
      return (u, o :: os)

/-! ### The commands -/

def limit (maxqueue : ℤ) (s : SFQ) : SFQ :=
  { s with maxqueue := maxqueue, fairshare := maxqueue.tdiv s.buckets }

/-- The loop of `clear`, with `n` cells of the array from `q` on; `i` is not counted down. -/
def clearLoop (s : SFQ) (i : ℕ) : ℕ → Option SFQ
  | 0 => if i = 0 then some { s with allocated := false } else none
  | n + 1 =>
      if i = 0 then some { s with allocated := false }
      else if (s.bucket (s.buckets - (n + 1))).pkts ≠ 0 then none
      else clearLoop s i n

def clear (s : SFQ) : Option SFQ :=
  if s.allocated = true then clearLoop s s.buckets s.buckets else some s

def setBuckets (n : ℕ) (s : SFQ) : Option SFQ :=
  (clear s).map fun s => { s with buckets := n }

end SFQ

end Afabric
