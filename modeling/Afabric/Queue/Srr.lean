import Afabric.Queue.Wss

/-!
# Queue — smoothed round robin

`queue/srr.cc`: a queue with packets has a node in a column of the weight matrix for each bit of its
weight.  The columns are scanned in the order of the weight spread sequence, each from its head to
its tail, and a queue that is visited may send a quantum of `mtu` bytes more.  The last packet of a
queue leaves the counters, and the queue the matrix, at the next `deque`.

A queue is its index.  A column is the list of the queues that have a node in it, and a row the list
of the columns of a queue's nodes, so a node is known by its queue and its column.  `currColumns` is
`currMaxColumn + 1`.  Sizes and flow ids are natural numbers, and the counters do not overflow.
`bcount` and `flwcnt`, which are only written, are left out.
-/

namespace Afabric

structure SrrPacket where
  uid : ℕ
  size : ℕ
  flowid : ℕ
deriving DecidableEq, Repr

structure PacketSRR where
  queue : List SrrPacket
  pkts : ℤ
  deficitCounter : ℤ
  turn : ℕ

structure SrrVars where
  maxqueuenumber : ℤ
  qlim : ℤ
  mtu : ℤ
  granularity : ℕ
  maxColumn : ℕ
  f2q : ℕ → ℕ
  privateRate : ℕ → ℕ

/-- `private_rate[queueid] / granularity_`. -/
def SrrVars.weight (v : SrrVars) (queueid : ℕ) : ℕ := v.privateRate queueid / v.granularity

structure WmNode where
  queueid : ℕ
  weight : ℕ
deriving DecidableEq, Repr

structure SRR where
  bytecnt : ℤ
  pktcnt : ℤ
  lastQueueid : Option ℕ
  lastSize : ℕ
  srr : ℕ → PacketSRR
  /-- The pointer into the spread sequence. -/
  ptr : ℕ
  /-- The columns of the weight matrix. -/
  wm : ℕ → List ℕ
  row : ℕ → List ℕ
  pwmCurr : Option WmNode
  wmEmptyFlag : Bool
  currColumns : ℕ

/-- Where the program stops by itself, and a loop that has not ended within its fuel. -/
inductive SrrExit where
  | queueidTooBig
  | weightZero
  | weightTooBig
  | pktcntNegative
  | pwmCurrNull
  | wrongPlace
  | wrongQueueid
  | ptrTooLarge
  | emptyWM
  | fuel
deriving DecidableEq, Repr

/-- A queue that `getNextNode` moves to, and the terms of the spread sequence read for it. -/
structure SrrVisit where
  queueid : ℕ
  terms : ℕ
deriving DecidableEq, Repr

namespace SRR

def init : SRR where
  bytecnt := 0
  pktcnt := 0
  lastQueueid := none
  lastSize := 0
  srr := fun _ => ⟨[], 0, 0, 0⟩
  ptr := 0
  wm := fun _ => []
  row := fun _ => []
  pwmCurr := none
  wmEmptyFlag := true
  currColumns := 0

/-! ### The weight matrix -/

/-- What follows a queue in a column. -/
def after (q : ℕ) : List ℕ → List ℕ
  | [] => []
  | x :: l => if x = q then l else after q l

def insertBefore (q new : ℕ) : List ℕ → List ℕ
  | [] => [new]
  | x :: l => if x = q then new :: x :: l else x :: insertBefore q new l

/-- The bits of a weight, from column `maxColumn` down. -/
def bits (maxColumn weight : ℕ) : List ℕ :=
  (List.range (maxColumn + 1)).reverse.filter weight.testBit

/-- A column with a new node, which goes before the one in service if that is in the column. -/
def withNode (queueid i : ℕ) (s : SRR) : List ℕ :=
  match s.pwmCurr with
  | some n => if n.weight = i then insertBefore n.queueid queueid (s.wm i) else s.wm i ++ [queueid]
  | none => s.wm i ++ [queueid]

/-- The node in service after a new one: the new one, if it is the first. -/
def withCurr (queueid i : ℕ) (s : SRR) : Option WmNode :=
  if s.wmEmptyFlag ∧ s.pwmCurr = none then some ⟨queueid, i⟩ else s.pwmCurr

def addNode (queueid i : ℕ) (s : SRR) : SRR :=
  { s with row := Function.update s.row queueid (s.row queueid ++ [i])
           wm := Function.update s.wm i (withNode queueid i s)
           currColumns := if s.currColumns < i + 1 then i + 1 else s.currColumns
           pwmCurr := withCurr queueid i s
           wmEmptyFlag := false }

/-- The pointer at more columns. -/
def stretch (old : ℕ) (s : SRR) : SRR :=
  if old < s.currColumns ∧ 0 < old then
    { s with ptr := (s.ptr + 1) * 2 ^ (s.currColumns - old) - 1 }
  else s

def addToWM (v : SrrVars) (queueid weight : ℕ) (s : SRR) : Except SrrExit SRR :=
  if weight = 0 then .error .weightZero
  else if 2 ^ (v.maxColumn + 1) - 1 < weight then .error .weightTooBig
  else .ok (stretch s.currColumns
    ((bits v.maxColumn weight).foldl (fun s i => addNode queueid i s) s))

/-- The head of the next column of the spread sequence that has one, and the terms read. -/
def seek : ℕ → SRR → Except SrrExit (ℕ × SRR)
  | 0, _ => .error .fuel
  | fuel + 1, s =>
      match wssGet s.currColumns s.ptr with
      | none => .error .ptrTooLarge
      | some term =>
          let s := { s with ptr := wssInc s.currColumns s.ptr }
          match s.wm (s.currColumns - term) with
          | [] => (seek fuel s).map fun r => (r.1 + 1, r.2)
          | x :: _ => .ok (1, { s with pwmCurr := some ⟨x, s.currColumns - term⟩ })

/-- The number of columns up to the last that has a node, of the first `n`. -/
def columns (wm : ℕ → List ℕ) : ℕ → ℕ
  | 0 => 0
  | n + 1 => if wm n ≠ [] then n + 1 else columns wm n

/-- The pointer at fewer columns. -/
def shrunk (old new ptr : ℕ) : ℕ :=
  let pc := ptr + 1
  let mul := 2 ^ (old - new)
  if pc % mul = 0 then pc / mul - 1
  else if 2 ^ new - 1 < pc / mul + 1 then 1 - 1
  else pc / mul + 1 - 1

/-- The node in service before its queue is taken from the matrix. -/
def leave (queueid : ℕ) (n : WmNode) (s : SRR) : Option WmNode :=
  if n.queueid = queueid then
    match after n.queueid (s.wm n.weight) with
    | [] => none
    | x :: _ => some ⟨x, n.weight⟩
  else some n

/-- The row of a queue is taken from the columns. -/
def unlinkRow (queueid : ℕ) (s : SRR) : SRR :=
  { s with wm := (s.row queueid).foldl
             (fun wm i => Function.update wm i ((wm i).erase queueid)) s.wm
           row := Function.update s.row queueid [] }

def delFromWM (fuel queueid : ℕ) (s : SRR) : Except SrrExit SRR :=
  match s.pwmCurr with
  | none => .error .pwmCurrNull
  | some n =>
      let s := unlinkRow queueid { s with pwmCurr := leave queueid n s }
      let new := columns s.wm s.currColumns
      if new = 0 then
        .ok { s with wmEmptyFlag := true, currColumns := 0, pwmCurr := none, lastQueueid := none
                     ptr := 0 }
      else
        let s := { s with ptr := if new < s.currColumns then shrunk s.currColumns new s.ptr else s.ptr
                          currColumns := new }
        match s.pwmCurr with
        | none => (seek fuel s).map Prod.snd
        | some _ => .ok s

/-- `getNextNode`, with the terms read for the node it moves to; it stays if there are no bytes. -/
def getNextNode (fuel : ℕ) (s : SRR) : Except SrrExit (Option ℕ × SRR) :=
  if s.bytecnt = 0 then .ok (none, s)
  else
    match s.pwmCurr with
    | none => .error .pwmCurrNull
    | some n =>
        match after n.queueid (s.wm n.weight) with
        | x :: _ => .ok (some 0, { s with pwmCurr := some ⟨x, n.weight⟩ })
        | [] =>
            if s.currColumns = 0 then .error .emptyWM
            else (seek fuel s).map fun r => (some r.1, r.2)

/-! ### Packets -/

/-- A queue with one more packet. -/
def accept (p : SrrPacket) (q : PacketSRR) : PacketSRR :=
  { q with queue := q.queue ++ [p], pkts := q.pkts + 1 }

/-- The packet is in its queue, which is `q` now. -/
def arrive (queueid : ℕ) (q : PacketSRR) (p : SrrPacket) (s : SRR) : SRR :=
  { s with srr := Function.update s.srr queueid q
           pktcnt := s.pktcnt + 1
           bytecnt := s.bytecnt + p.size }

/-- A packet, and the packet that is dropped if it is. -/
def enque (v : SrrVars) (p : SrrPacket) (s : SRR) : Except SrrExit (Option SrrPacket × SRR) :=
  let queueid := v.f2q p.flowid
  if v.maxqueuenumber < queueid then .error .queueidTooBig
  else if (s.srr queueid).pkts = v.qlim then .ok (some p, s)
  else
    let q := accept p (s.srr queueid)
    let s := arrive queueid q p s
    if q.pkts = 1 then
      (addToWM v queueid (v.weight queueid) s).map fun s =>
        (none, { s with srr := Function.update s.srr queueid { q with deficitCounter := 0 } })
    else .ok (none, s)

/-- A queue without the packet sent last. -/
def sentOne (q : PacketSRR) : PacketSRR := { q with pkts := q.pkts - 1 }

/-- The packet sent last is counted no more, and its queue is `q` now. -/
def depart (queueid : ℕ) (q : PacketSRR) (s : SRR) : SRR :=
  { s with srr := Function.update s.srr queueid q
           pktcnt := s.pktcnt - 1
           bytecnt := s.bytecnt - s.lastSize }

/-- The packet sent last leaves the counters, and its queue the matrix if it was the only one. -/
def settle (fuel : ℕ) (s : SRR) : Except SrrExit SRR :=
  match s.lastQueueid with
  | none => .ok s
  | some queueid =>
      let q := sentOne (s.srr queueid)
      if q.pkts = 0 then
        delFromWM fuel queueid (depart queueid { q with turn := 0, deficitCounter := 0 } s)
      else .ok (depart queueid q s)

/-- A queue with its quantum, if the visit has not had it. -/
def credited (v : SrrVars) (q : PacketSRR) : PacketSRR :=
  if q.turn = 0 then { q with deficitCounter := q.deficitCounter + v.mtu, turn := 1 } else q

/-- A queue that sends its first packet. -/
def sendHead (p : SrrPacket) (rest : List SrrPacket) (q : PacketSRR) : PacketSRR :=
  { q with deficitCounter := q.deficitCounter - p.size, queue := rest }

/-- The packet is sent, and its queue is `q` now. -/
def release (queueid : ℕ) (q : PacketSRR) (p : SrrPacket) (s : SRR) : SRR :=
  { s with srr := Function.update s.srr queueid q
           lastSize := p.size
           lastQueueid := some queueid }

/-- The queue in service has had its turn. -/
def passOver (queueid : ℕ) (q : PacketSRR) (s : SRR) : SRR :=
  { s with srr := Function.update s.srr queueid { q with turn := 0 } }

/-- The visit that a move makes. -/
def visits : Option ℕ → Option WmNode → List SrrVisit
  | some terms, some n => [⟨n.queueid, terms⟩]
  | _, _ => []

/-- `while (!pkt)`, with the visits made. -/
def serve (v : SrrVars) : ℕ → SRR → Except SrrExit (List SrrVisit × SrrPacket × SRR)
  | 0, _ => .error .fuel
  | fuel + 1, s =>
      match s.pwmCurr with
      | none => .error .pwmCurrNull
      | some n =>
          match (s.srr n.queueid).queue with
          | [] => .error .wrongPlace
          | p :: rest =>
              let queueid := v.f2q p.flowid
              if queueid ≠ n.queueid then .error .wrongQueueid
              else
                let q := credited v (s.srr n.queueid)
                if (p.size : ℤ) ≤ q.deficitCounter then
                  .ok ([], p, release queueid (sendHead p rest q) p s)
                else
                  match getNextNode fuel (passOver n.queueid q s) with
                  | .error e => .error e
                  | .ok (moved, s) =>
                      (serve v fuel s).map fun r => (visits moved s.pwmCurr ++ r.1, r.2)

def deque (v : SrrVars) (fuel : ℕ) (s : SRR) :
    Except SrrExit (List SrrVisit × Option SrrPacket × SRR) :=
  match settle fuel s with
  | .error e => .error e
  | .ok s =>
      if s.pktcnt < 0 then .error .pktcntNegative
      else if s.pktcnt = 0 then .ok ([], none, { s with lastQueueid := none })
      else if s.pwmCurr = none then .error .pwmCurrNull
      else (serve v fuel s).map fun r => (r.1, some r.2.1, r.2.2)

end SRR

end Afabric
