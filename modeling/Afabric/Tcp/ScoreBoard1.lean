import Mathlib.Algebra.BigOperators.Group.List.Basic
import Mathlib.Algebra.Order.Ring.Int
import Mathlib.Data.List.TakeWhile

/-!
# Tcp — the scoreboard as a list of runs

`ScoreBoard1` (`tcp/scoreboard1.h`, `tcp/scoreboard1.cc`) keeps the packets above the cumulative
ack as a linked list of runs with one state each, two counters of the packets in them, and a
pointer to the next run to be sent again.

The list is a Lean list of nodes, each with its address; `nxt_to_retrx_` is an address, and a
pointer to a node that was deleted is an address that no node of the list has.  `none` is a
failed assertion, such a pointer followed, or a loop that does not end.  `fresh` is an address
not used so far.
-/

namespace Afabric

/-- `SKB_FLAG_INFLIGHT`, `SKB_FLAG_SACKED`, `SKB_FLAG_LOST`, `SKB_FLAG_RETRANSMITTED`. -/
inductive SkbFlag
  | inflight
  | sacked
  | lost
  | retransmitted
deriving DecidableEq, Repr

/-- `ScoreBoardNode1`, with its address.  `retran_` is set by `MarkRetran` only. -/
structure ScoreBoardNode1 where
  addr : ℕ
  flag : SkbFlag
  seq : ℤ
  nxt : ℤ
  retran : ℤ
deriving DecidableEq, Repr

namespace ScoreBoardNode1

/-- The constructor. -/
def new (addr : ℕ) (start stop : ℤ) (flag : SkbFlag) : ScoreBoardNode1 := ⟨addr, flag, start, stop, 0⟩

def getEnd (n : ScoreBoardNode1) : ℤ := if n.flag = .retransmitted then n.seq else n.nxt

def getLength (n : ScoreBoardNode1) : ℤ := if n.flag = .retransmitted then 1 else n.nxt + 1 - n.seq

def setFlag (n : ScoreBoardNode1) (flag : SkbFlag) : ScoreBoardNode1 :=
  { n with nxt := if n.flag = .retransmitted then n.seq else n.nxt, flag }

def inside (n : ScoreBoardNode1) (seq : ℤ) : Bool :=
  if n.flag = .retransmitted then seq = n.seq else n.seq ≤ seq ∧ seq ≤ n.nxt

def shouldClean (n : ScoreBoardNode1) (ackseq : ℤ) : ℤ :=
  if ackseq < n.seq then 0
  else if n.flag = .retransmitted ∨ ackseq ≥ n.nxt then -1
  else ackseq + 1 - n.seq

/-- `Mergable`, with the next node. -/
def mergable (n next : ScoreBoardNode1) : Bool :=
  next.flag ≠ .retransmitted ∧ next.flag = n.flag

/-- `Merge`, with the next node. -/
def merge (n next : ScoreBoardNode1) : ScoreBoardNode1 := { n with nxt := next.nxt }

/-- `Split`: the node, and the new one at `addr`. -/
def split (n : ScoreBoardNode1) (addr : ℕ) (seq : ℤ) : ScoreBoardNode1 × ScoreBoardNode1 :=
  ({ n with nxt := seq - 1 }, .new addr seq n.nxt n.flag)

/-- `MarkRetran`: the node, and the new one at `addr` if it is split. -/
def markRetran (n : ScoreBoardNode1) (addr : ℕ) (sndNxt retransId : ℤ) : List ScoreBoardNode1 :=
  let mark (m : ScoreBoardNode1) : ScoreBoardNode1 :=
    { m with flag := .retransmitted, nxt := sndNxt, retran := retransId }
  if n.nxt > n.seq then [mark (n.split addr (n.seq + 1)).1, (n.split addr (n.seq + 1)).2]
  else [mark n]

end ScoreBoardNode1

open ScoreBoardNode1

/-- The bits of the return value of `UpdateScoreBoard`. -/
structure SackFlags where
  unsureTstamp : Bool
  dataSacked : Bool
  dataLost : Bool
deriving DecidableEq, Repr

/-- `ScoreBoard1`. -/
structure ScoreBoard1 where
  nodes : List ScoreBoardNode1
  nxtToRetrx : Option ℕ
  ackedRtxId : ℤ
  rtxId : ℤ
  fack : ℤ
  fackOut : ℤ
  sackOut : ℤ
  lastRtxSeq : ℤ
  fresh : ℕ
deriving DecidableEq, Repr

namespace ScoreBoard1

/-- `ClearScoreBoard`. -/
def clearScoreBoard (s : ScoreBoard1) : ScoreBoard1 :=
  { s with
    nodes := [], nxtToRetrx := none, ackedRtxId := -1, rtxId := 0
    fack := 0, fackOut := 0, sackOut := 0 }

/-- The constructor. -/
def init : ScoreBoard1 := ⟨[], none, -1, 0, 0, 0, 0, -1, 0⟩

/-! ### `CleanRtxQueue` -/

/-- What the loop of `CleanRtxQueue` changes besides the list. -/
structure Cleaning where
  nxtToRetrx : Option ℕ
  ackedRtxId : ℤ
  fackOut : ℤ
  sackOut : ℤ
  changed : Bool
  flag : SackFlags

/-- The switch of `CleanRtxQueue`, without its assertions. -/
def Cleaning.deduct (c : Cleaning) (n : ScoreBoardNode1) (pktNum : ℤ) : Cleaning :=
  { c with
    sackOut := if n.flag = .sacked then c.sackOut - pktNum else c.sackOut
    fackOut := if n.flag = .lost then c.fackOut - pktNum else c.fackOut }

/-- A node that is deleted; `next` is the one after it. -/
def Cleaning.delete (c : Cleaning) (n : ScoreBoardNode1) (next : Option ℕ) : Cleaning :=
  let rtx := n.flag = .retransmitted
  let later := rtx ∧ n.retran > c.ackedRtxId
  { c with
    changed := c.changed || decide later
    ackedRtxId := if later then n.retran else c.ackedRtxId
    flag := { c.flag with unsureTstamp := c.flag.unsureTstamp || decide rtx }
    nxtToRetrx := if c.nxtToRetrx = some n.addr then next else c.nxtToRetrx }

/-- The loop of `CleanRtxQueue`. -/
def cleanFrom (lastAck : ℤ) :
    List ScoreBoardNode1 → Cleaning → Option (List ScoreBoardNode1 × Cleaning)
  | [], c => some ([], c)
  | n :: l, c =>
      let cmp := n.shouldClean lastAck
      if cmp = 0 then some (n :: l, c)
      else
        let c' := c.deduct n (if cmp < 0 then n.getLength else cmp)
        if n.flag = .sacked ∧ c'.sackOut < 0 ∨ n.flag = .lost ∧ c'.fackOut < 0 then none
        else if cmp < 0 then cleanFrom lastAck l (c'.delete n (l.head?.map (·.addr)))
        else some ({ n with seq := lastAck + 1 } :: l, c')

/-- `CleanRtxQueue`, with its return value and the bits it sets. -/
def cleanRtxQueue (s : ScoreBoard1) (lastAck : ℤ) : Option (ScoreBoard1 × Bool × SackFlags) :=
  (cleanFrom lastAck s.nodes ⟨s.nxtToRetrx, s.ackedRtxId, s.fackOut, s.sackOut, false,
    ⟨false, false, false⟩⟩).map fun r =>
      ({ s with
        nodes := r.1
        nxtToRetrx := r.2.nxtToRetrx
        ackedRtxId := r.2.ackedRtxId
        fackOut := r.2.fackOut
        sackOut := r.2.sackOut }, r.2.changed, r.2.flag)

/-! ### `UpdateScoreBoard` -/

/-- A SACK block is put in its place among the ones before it, the last first. -/
def insertSack (b : ℤ × ℤ) : List (ℤ × ℤ) → List (ℤ × ℤ)
  | [] => [b]
  | x :: l => if x.1 > b.1 then x :: insertSack b l else b :: x :: l

/-- The SACK blocks without the D-SACKs, sorted by left edge. -/
def sortSacks (lastAck : ℤ) (blocks : List (ℤ × ℤ)) : List (ℤ × ℤ) :=
  ((blocks.filter fun b => lastAck ≤ b.1).foldl (fun l b => insertSack b l) []).reverse

/-- The loop over the list: the nodes before `prev`, `prev`, the nodes from `now` on, and the
SACK blocks from `sack_index` on. -/
structure Sweep where
  done : List ScoreBoardNode1
  prev : Option ScoreBoardNode1
  todo : List ScoreBoardNode1
  sacks : List (ℤ × ℤ)
  thorough : Bool
  nxtToRetrx : Option ℕ
  ackedRtxId : ℤ
  fackOut : ℤ
  sackOut : ℤ
  flag : SackFlags
  fresh : ℕ

namespace Sweep

/-- `now->Split(seq)`. -/
def splitNow (t : Sweep) (seq : ℤ) : Sweep :=
  match t.todo with
  | [] => t
  | now :: rest =>
      { t with
        todo := (now.split t.fresh seq).1 :: (now.split t.fresh seq).2 :: rest
        fresh := t.fresh + 1 }

/-- `now` is covered by the SACK block. -/
def sackNow (t : Sweep) : Sweep :=
  match t.todo with
  | [] => t
  | now :: rest =>
      let rtx := now.flag = .retransmitted
      { t with
        fackOut := if now.flag = .lost then t.fackOut - now.getLength else t.fackOut
        ackedRtxId := if rtx then now.retran else t.ackedRtxId
        thorough := t.thorough || decide rtx
        flag := { t.flag with
          unsureTstamp := t.flag.unsureTstamp || decide rtx
          dataSacked := true }
        sackOut := t.sackOut + now.getLength
        todo := now.setFlag .sacked :: rest }

/-- `now` is deemed to be lost. -/
def loseNow (t : Sweep) : Sweep :=
  match t.todo with
  | [] => t
  | now :: rest =>
      { t with
        todo := now.setFlag .lost :: rest
        fackOut := t.fackOut + (now.setFlag .lost).getLength
        flag := { t.flag with dataLost := true }
        nxtToRetrx := t.nxtToRetrx.or (some now.addr) }

/-- "Find the sack that match now." -/
def findSack (t : Sweep) : Sweep :=
  match t.todo with
  | [] => t
  | now :: _ => { t with sacks := t.sacks.dropWhile (·.2 ≤ now.seq) }

/-- The part of `now` that the SACK block at hand covers is SACKed. -/
def matchSack (t : Sweep) : Sweep :=
  match t.todo, t.sacks with
  | now :: _, b :: _ =>
      if b.1 ≤ now.getEnd then
        if b.1 > now.seq then t.splitNow b.1
        else if b.2 ≤ now.getEnd then (t.splitNow b.2).sackNow
        else t.sackNow
      else t
  | _, _ => t

/-- The SACK block at hand is after `now`. -/
def beyond (t : Sweep) : Bool :=
  match t.todo, t.sacks with
  | now :: _, b :: _ => b.1 > now.getEnd
  | _, _ => true

/-- The switch that looks for losses. -/
def checkLost (t : Sweep) (fack dupthresh : ℤ) : Sweep :=
  match t.todo with
  | [] => t
  | now :: _ =>
      match now.flag with
      | .retransmitted =>
          if now.nxt ≤ fack ∨ now.retran + dupthresh + 1 < t.ackedRtxId then t.loseNow else t
      | .inflight =>
          let lostSeqThreshold := fack - (dupthresh + 1)
          if now.seq ≤ lostSeqThreshold then
            if lostSeqThreshold < now.getEnd then (t.splitNow (lostSeqThreshold + 1)).loseNow
            else t.loseNow
          else t
      | .lost => { t with nxtToRetrx := t.nxtToRetrx.or (some now.addr) }
      | .sacked => t

/-- `now` is not SACKed: it is compared with the SACK blocks, and what is left is looked at for
losses. -/
def examine (t : Sweep) (fack dupthresh : ℤ) : Sweep :=
  match t.todo with
  | [] => t
  | now :: _ =>
      if now.flag ≠ .sacked then
        let t' := t.findSack.matchSack
        if t'.beyond then t'.checkLost fack dupthresh else t'
      else t

/-- "Try to merge with previous node." -/
def mergePrev (t : Sweep) : Sweep :=
  match t.prev, t.todo with
  | some prev, now :: rest =>
      if prev.mergable now then { t with prev := some (prev.merge now), todo := rest }
      else { t with done := t.done ++ [prev], prev := some now, todo := rest }
  | none, now :: rest => { t with prev := some now, todo := rest }
  | _, [] => t

/-- "Extend the scoreboard." -/
def extend (t : Sweep) (fack : ℤ) : Sweep :=
  match t.prev, t.todo with
  | some prev, [] =>
      if prev.getEnd < fack then
        { t with todo := [.new t.fresh (prev.getEnd + 1) fack .inflight], fresh := t.fresh + 1 }
      else t
  | _, _ => t

/-- A round of the loop. -/
def round (t : Sweep) (fack dupthresh : ℤ) : Sweep :=
  ((t.examine fack dupthresh).mergePrev).extend fack

/-- The condition of the loop. -/
def more (t : Sweep) : Bool := t.todo ≠ [] ∧ (t.sacks ≠ [] ∨ t.thorough = true)

/-- The loop, for `n` rounds at most. -/
def run (fack dupthresh : ℤ) : ℕ → Sweep → Option Sweep
  | 0, t => if t.more then none else some t
  | n + 1, t => if t.more then run fack dupthresh n (t.round fack dupthresh) else some t

end Sweep

/-- A number of rounds that is enough: the nodes, and the packets from the first node on, to
`fack_` at least. -/
def rounds (nodes : List ScoreBoardNode1) (fack : ℤ) : ℕ :=
  match nodes.head?, nodes.getLast? with
  | some h, some l => nodes.length + (max fack l.getEnd + 1 - h.seq).toNat
  | _, _ => 0

/-- `UpdateScoreBoard` from the advance of `fack_` on. -/
def process (s : ScoreBoard1) (lastAck : ℤ) (sacks : List (ℤ × ℤ)) (thorough : Bool)
    (flag : SackFlags) (dupthresh : ℤ) : Option (ScoreBoard1 × SackFlags) :=
  let advances := sacks.getLast?.any fun b => s.fack < b.2 - 1
  let fack := if advances then (sacks.getLast?.elim s.fack fun b => b.2 - 1) else s.fack
  let nodes := if s.nodes = [] then [.new s.fresh (lastAck + 1) fack .inflight] else s.nodes
  let fresh := if s.nodes = [] then s.fresh + 1 else s.fresh
  (Sweep.run fack dupthresh (rounds nodes fack)
    { done := [], prev := none, todo := nodes, sacks, thorough := thorough || advances
      nxtToRetrx := none, ackedRtxId := s.ackedRtxId, fackOut := s.fackOut, sackOut := s.sackOut
      flag, fresh }).map fun t =>
    ({ s with
      nodes := t.done ++ t.prev.toList ++ t.todo
      nxtToRetrx := t.nxtToRetrx
      ackedRtxId := t.ackedRtxId
      fack
      fackOut := t.fackOut
      sackOut := t.sackOut
      fresh := t.fresh }, t.flag)

/-- `UpdateScoreBoard` once the queue is cleaned. -/
def update (s : ScoreBoard1) (lastAck : ℤ) (blocks : List (ℤ × ℤ)) (thorough : Bool)
    (flag : SackFlags) (dupthresh : ℤ) : Option (ScoreBoard1 × SackFlags) :=
  if thorough = false ∧ blocks = [] then some (s, flag)
  else if thorough = false ∧ sortSacks lastAck blocks = [] then some (s, flag)
  else s.process lastAck (sortSacks lastAck blocks) thorough flag dupthresh

/-- `UpdateScoreBoard`. -/
def updateScoreBoard (s : ScoreBoard1) (lastAck : ℤ) (blocks : List (ℤ × ℤ)) (dupthresh : ℤ) :
    Option (ScoreBoard1 × SackFlags) :=
  (s.cleanRtxQueue lastAck).bind fun r =>
    if r.1.nodes = [] then r.1.clearScoreBoard.update lastAck blocks false r.2.2 dupthresh
    else r.1.update lastAck blocks r.2.1 r.2.2 dupthresh

/-! ### `MarkLoss` -/

/-- The loop of `MarkLoss`. -/
structure Marking where
  done : List ScoreBoardNode1
  prev : Option ScoreBoardNode1
  todo : List ScoreBoardNode1
  lastLost : Bool
  nxtToRetrx : Option ℕ
  fackOut : ℤ
  fresh : ℕ

namespace Marking

/-- The first part of a round, `none` where `prev` is `NULL` and merged. -/
def markNow (t : Marking) : Option Marking :=
  match t.todo with
  | [] => some t
  | now :: rest =>
      if now.flag ≠ .sacked then
        let t' := { t with
          fackOut := if now.flag ≠ SkbFlag.lost then t.fackOut + (now.getEnd - now.seq + 1) else t.fackOut
          lastLost := true
          todo := rest }
        let now' := now.setFlag .lost
        if t.lastLost then t.prev.map fun prev => { t' with prev := some (prev.merge now') }
        else some { t' with
          done := t.done ++ t.prev.toList
          prev := some now'
          nxtToRetrx := t.nxtToRetrx.or (some now.addr) }
      else some { t with
        done := t.done ++ t.prev.toList, prev := some now, todo := rest, lastLost := false }

/-- "All the packets that we sent have lost." -/
def extend (t : Marking) (sndNxt : ℤ) : Marking :=
  match t.prev, t.todo with
  | some prev, [] =>
      if prev.getEnd + 1 < sndNxt then
        { t with
          todo := [.new t.fresh (prev.getEnd + 1) (sndNxt - 1) .inflight]
          fresh := t.fresh + 1 }
      else t
  | _, _ => t

/-- The loop, for `n` rounds at most. -/
def run (sndNxt : ℤ) : ℕ → Marking → Option Marking
  | 0, t => if t.todo ≠ [] then none else some t
  | n + 1, t =>
      if t.todo ≠ [] then t.markNow.bind fun t' => run sndNxt n (t'.extend sndNxt) else some t

end Marking

/-- `MarkLoss`. -/
def markLoss (s : ScoreBoard1) (sndUna sndNxt : ℤ) : Option ScoreBoard1 :=
  (Marking.run sndNxt (s.nodes.length + 1)
    ⟨[], none, s.nodes, false, none, s.fackOut, s.fresh⟩).map fun t =>
      let s' := { s with rtxId := 0, ackedRtxId := -1 }
      if t.prev = none ∧ sndUna < sndNxt then
        { s' with
          nodes := [.new t.fresh sndUna (sndNxt - 1) .lost]
          nxtToRetrx := some t.fresh
          fackOut := t.fackOut + (sndNxt - sndUna)
          fresh := t.fresh + 1 }
      else
        { s' with
          nodes := t.done ++ t.prev.toList
          nxtToRetrx := t.nxtToRetrx
          fackOut := t.fackOut
          fresh := t.fresh }

/-! ### `GetNextRetran` and `MarkRetran` -/

/-- `GetNextRetran`. -/
def getNextRetran (s : ScoreBoard1) : Option (ScoreBoard1 × ℤ) :=
  match s.nxtToRetrx with
  | none => some (s, -1)
  | some p =>
      if s.nodes.all (·.addr ≠ p) then none
      else
        match (s.nodes.dropWhile (·.addr ≠ p)).find? (·.flag = SkbFlag.lost) with
        | none => some ({ s with nxtToRetrx := none }, -1)
        | some n => some ({ s with nxtToRetrx := some n.addr }, n.seq)

/-- `MarkRetran`. -/
def markRetran (s : ScoreBoard1) (retranSeqno sndNxt : ℤ) : Option ScoreBoard1 :=
  match s.nxtToRetrx.bind fun p => s.nodes.find? (·.addr = p) with
  | none => none
  | some n =>
      if ¬ n.inside retranSeqno then none
      else if s.fackOut - 1 < 0 then none
      else some { s with
        fackOut := s.fackOut - 1
        nodes := s.nodes.flatMap fun m =>
          if m.addr = n.addr then m.markRetran s.fresh sndNxt s.rtxId else [m]
        fresh := s.fresh + 1
        rtxId := s.rtxId + 1
        lastRtxSeq := retranSeqno }

/-- The packet `GetNextRetran` recommends is marked, if there is one. -/
def retransmit (s : ScoreBoard1) (sndNxt : ℤ) : Option ScoreBoard1 :=
  s.getNextRetran.bind fun r => if r.2 = -1 then some r.1 else r.1.markRetran r.2 sndNxt

/-- A call.  `MarkRetran` is called with what `GetNextRetran` returned. -/
inductive Call
  | update (lastAck : ℤ) (blocks : List (ℤ × ℤ)) (dupthresh : ℤ)
  | clean (lastAck : ℤ)
  | markLoss (sndUna sndNxt : ℤ)
  | nextRetran
  | retransmit (sndNxt : ℤ)
  | clear

/-- What a call does. -/
def step (s : ScoreBoard1) : Call → Option ScoreBoard1
  | .update lastAck blocks dupthresh => (s.updateScoreBoard lastAck blocks dupthresh).map (·.1)
  | .clean lastAck => (s.cleanRtxQueue lastAck).map (·.1)
  | .markLoss sndUna sndNxt => s.markLoss sndUna sndNxt
  | .nextRetran => s.getNextRetran.map (·.1)
  | .retransmit sndNxt => s.retransmit sndNxt
  | .clear => some s.clearScoreBoard

end ScoreBoard1

end Afabric
