import Afabric.Queue.DropTail
import Mathlib.Data.List.FinRange
import Mathlib.Data.List.Sublists

/-!
# Queue — fair queueing over one queue a flow

`FQ` (`queue/fq.cc`).  The packets of a flow wait in a queue of their own, whose target is the
`FQ`; the first of them is in the slot `hol_`, the others are behind it in that queue.  `deque`
takes the packet of the least finish time out of its slot and calls the handler that came with it,
which is the `resume` of the flow's queue, and that hands the next packet to `recv`, all before
`deque` has returned: `recv` calls `deque`, and `deque` calls `recv`.  The depth of these calls is
the first argument of `recv`.

The queues of the flows are any that keep the order of the packets (`FifoQueue`; `DropTail` is
one), and times are any type with the operations that the finish times are made of, floating point
included.  `none` is the `abort()` of `recv`, a handler that was never set, or a depth used up.
-/

namespace Afabric

/-- A queue that keeps its packets in the order of their arrival.  It may drop some of them when a
packet arrives. -/
structure FifoQueue where
  Q : Type
  pkts : Q → List Packet
  enque : Q → Packet → Option Q
  deque : Q → Option (Option Packet × Q)
  enque_spec : ∀ q p, ∃ q', enque q p = some q' ∧ (pkts q').Sublist (pkts q ++ [p])
  deque_spec : ∀ q, ∃ q', deque q = some ((pkts q).head?, q') ∧ pkts q' = (pkts q).tail

/-- `flowState`: `q` says whether a queue is installed, and `handler` names the flow whose queue
gave it. -/
structure FlowState (R : Type) where
  q : Bool
  hol : Option Packet
  finishTime : R
  delta : R
  handler : Option (Fin 32)

/-- The queue of a flow, a `Queue` with the `FQ` as its target. -/
structure Upstream (D : FifoQueue) where
  q : D.Q
  blocked : Bool

/-- `FQ` with the queues of the flows and the link.  `inService` counts the packets given to the
link for which it has not called back, and `sent` are all of them.  `arrived` and `handed` are, for
each flow, the packets that came to its queue and those that its queue gave away. -/
structure FQ (D : FifoQueue) (R : Type) where
  fs : Fin 32 → FlowState R
  up : Fin 32 → Upstream D
  maxflow : Int
  secsPerByte : R
  blocked : Bool
  inService : Nat
  sent : List Packet
  arrived : Fin 32 → List Packet
  handed : Fin 32 → List Packet

namespace FQ

variable {D : FifoQueue} {R : Type}

/-- `deque` of the queue of flow `i`. -/
def upDeque (s : FQ D R) (i : Fin 32) : Option (Option Packet × FQ D R) :=
  (D.deque (s.up i).q).map fun r => (r.1, { s with
    up := Function.update s.up i { s.up i with q := r.2 }
    handed := Function.update s.handed i (s.handed i ++ r.1.toList) })

def setBlocked (s : FQ D R) (i : Fin 32) (b : Bool) : FQ D R :=
  { s with up := Function.update s.up i { s.up i with blocked := b } }

/-- `target_->recv(p, &qh_)` of the `FQ`. -/
def send (s : FQ D R) (p : Packet) : FQ D R :=
  { s with inService := s.inService + 1, sent := s.sent ++ [p] }

/-! ### `update` and `deque` -/

/-- One turn of the loop of `update`, with the number of active flows so far. -/
def updateFlow (r : FQ D R × Nat) (i : Fin 32) : Option (FQ D R × Nat) :=
  let s := r.1
  if (s.fs i).q then
    if (s.fs i).hol = none then
      (s.upDeque i).map fun x =>
        match x.1 with
        | some p =>
            ({ x.2 with fs := Function.update x.2.fs i { x.2.fs i with hol := some p } }, r.2 + 1)
        | none => (x.2, r.2)
    else some (s, r.2 + 1)
  else some (s, r.2)

/-- The flows up to `maxflow_`. -/
def flows (s : FQ D R) : List (Fin 32) := (List.finRange 32).filter fun i => i.val ≤ s.maxflow

def update (s : FQ D R) : Option (FQ D R × Nat) := s.flows.foldlM updateFlow (s, 0)

variable [LT R] [DecidableLT R] [Add R] [Mul R] [NatCast R] [IntCast R]

def finish (f : FlowState R) (nactive : Nat) : R := f.finishTime + f.delta * nactive

/-- One turn of the loop of `deque`: `target` and `best`. -/
def selectFlow (s : FQ D R) (nactive : Nat) (b : Option (Fin 32 × R)) (i : Fin 32) :
    Option (Fin 32 × R) :=
  if (s.fs i).hol ≠ none then
    match b with
    | none => some (i, finish (s.fs i) nactive)
    | some t => if finish (s.fs i) nactive < t.2 then some (i, finish (s.fs i) nactive) else b
  else b

def select (s : FQ D R) (nactive : Nat) : Option (Fin 32 × R) :=
  s.flows.foldl (s.selectFlow nactive) none

/-- `Queue::resume` of the queue of flow `i`, whose target's `recv` is `rcv`; `unblock_on_resume_`
is set, as it is by default. -/
def resumeUp (rcv : FQ D R → Packet → Fin 32 → Option (FQ D R)) (s : FQ D R) (i : Fin 32) :
    Option (FQ D R) := do
  let x ← s.upDeque i
  match x.1 with
  | some p => rcv x.2 p i
  | none => some (x.2.setBlocked i false)

/-- The slot of the target is emptied. -/
def leave (s : FQ D R) (t : Fin 32) (best : R) : FQ D R :=
  { s with fs := Function.update s.fs t { s.fs t with hol := none, finishTime := best } }

/-- `deque`. -/
def deque (rcv : FQ D R → Packet → Fin 32 → Option (FQ D R)) (s : FQ D R) :
    Option (Option Packet × FQ D R) := do
  let u ← s.update
  match u.1.select u.2 with
  | none => some (none, u.1)
  | some (t, best) => do
      let p := (u.1.fs t).hol
      -- let this upstream queue resume
      let h ← (u.1.fs t).handler
      let s ← (u.1.leave t best).resumeUp rcv h
      some (p, s)

/-! ### `recv` -/

/-- The packet is put at the head of the line, with its handler and the finish time. -/
def place (now : R) (s : FQ D R) (i : Fin 32) (p : Packet) (h : Fin 32) : FQ D R :=
  { s with fs := Function.update s.fs i { s.fs i with
      hol := some p
      finishTime := if now > (s.fs i).finishTime then now else (s.fs i).finishTime
      handler := some h
      delta := (p.size : R) * s.secsPerByte } }

/-- `recv`, with the handler of the queue of flow `h`. -/
def recv (now : R) : Nat → FQ D R → Packet → Fin 32 → Option (FQ D R)
  | 0, _, _, _ => none
  | n + 1, s, p, h =>
      if hf : 0 ≤ p.fid ∧ p.fid < 32 then
        let i : Fin 32 := ⟨p.fid.toNat, by omega⟩
        if (s.fs i).hol ≠ none then none
        else
          let s := s.place now i p h
          if !s.blocked then do
            let r ← s.deque (recv now n)
            match r.1 with
            | some p => some ({ r.2 with blocked := true }.send p)
            | none => some r.2
          else some s
      else none

/-! ### Runs -/

/-- The packet has entered the queue of flow `i`, which is now `q`. -/
def accept (s : FQ D R) (i : Fin 32) (q : D.Q) (p : Packet) : FQ D R :=
  { s with
    up := Function.update s.up i { s.up i with q }
    arrived := Function.update s.arrived i (s.arrived i ++ [p]) }

/-- If the queue of flow `i` is not blocked, it gets a packet and sends it on. -/
def pull (now : R) (n : Nat) (s : FQ D R) (i : Fin 32) : Option (FQ D R) :=
  if !(s.up i).blocked then do
    let r ← s.upDeque i
    match r.1 with
    | some p => recv now n (r.2.setBlocked i true) p i
    | none => some r.2
  else some s

/-- `Queue::recv` of the queue of flow `i`. -/
def arrive (now : R) (n : Nat) (s : FQ D R) (i : Fin 32) (p : Packet) : Option (FQ D R) := do
  let q ← D.enque (s.up i).q p
  (s.accept i q p).pull now n i

/-- `Queue::resume` of the `FQ`, with `unblock_on_resume_` set. -/
def resume (now : R) (n : Nat) (s : FQ D R) : Option (FQ D R) := do
  let r ← s.deque (recv now n)
  match r.1 with
  | some p => some (r.2.send p)
  | none => some { r.2 with blocked := false }

/-- `install`. -/
def install (s : FQ D R) (i : Fin 32) (q : D.Q) : FQ D R :=
  { s with
    fs := Function.update s.fs i { s.fs i with q := true }
    up := Function.update s.up i ⟨q, false⟩
    maxflow := if i.val > s.maxflow then i.val else s.maxflow }

/-- What happens: a queue is installed, a packet comes to the queue of a flow, or the link calls
back.  The last two happen at a time. -/
inductive Event (D : FifoQueue) (R : Type) where
  | install (i : Fin 32) (q : D.Q)
  | arrival (now : R) (i : Fin 32) (p : Packet)
  | ready (now : R)

def step (n : Nat) (s : FQ D R) : Event D R → Option (FQ D R)
  | .install i q => some (s.install i q)
  | .arrival now i p => s.arrive now n i p
  | .ready now => { s with inService := s.inService - 1 }.resume now n

/-- A flow has one queue, which is empty when it is installed; the packets that come to it are the
flow's; and the link calls back for a packet it has. -/
def Allows (s : FQ D R) : Event D R → Prop
  | .install i q => (s.fs i).q = false ∧ D.pkts q = []
  | .arrival _ i p => (s.fs i).q = true ∧ p.fid = i.val
  | .ready _ => 0 < s.inService

/-- An `FQ` as it is constructed. -/
structure Fresh (s : FQ D R) : Prop where
  q : ∀ i, (s.fs i).q = false
  hol : ∀ i, (s.fs i).hol = none
  empty : ∀ i, D.pkts (s.up i).q = []
  up : ∀ i, (s.up i).blocked = false
  blocked : s.blocked = false
  inService : s.inService = 0
  sent : s.sent = []
  arrived : ∀ i, s.arrived i = []
  handed : ∀ i, s.handed i = []

/-- The states reached, with calls of `recv` no deeper than `n`. -/
inductive Reach (n : Nat) : FQ D R → Prop
  | init {s : FQ D R} (h : s.Fresh) : Reach n s
  | step {s s' : FQ D R} (h : Reach n s) (e : Event D R) (ha : s.Allows e)
      (he : s.step n e = some s') : Reach n s'

end FQ

end Afabric
