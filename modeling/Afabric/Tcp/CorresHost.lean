import Afabric.Tcp.Agent
import Afabric.Tcp.SessionSend
import Afabric.Tcp.SlistBase

/-!
# Tcp — the outstanding segments of a session

`CorresHost` (`chost.cc`) and what `TcpSessionAgent` (`tcp-session.cc`) and `IntTcpAgent`
(`tcp-int.cc`) do to its list of segments, over the links of `SlistBase`.  A segment is known by its
address; the record stays in `seg` when it is deleted, as an acknowledgement reads it once more.

Congestion control and the choice of the connection that sends (`SessionSched`) are left out: a turn
of the loop of `send_much` is an event for any connection with data.  A call of `send_much` at the
end of `recv` or `timeout` is the turns that follow.

`none` is a write behind `curArray_` and `prevArray_`.
-/

namespace Afabric

/-- `Segment` of `chost.h`. -/
structure HostSegment where
  sender : ℕ
  seqno : ℤ
  sessionSeqno : ℤ
  size : ℤ
  ts : ℚ
  dupacks : ℤ := 0
  laterAcks : ℤ := 0
  threshDupacks : Bool := false
  partialack : Bool := false
  rxmitted : Bool := false
deriving DecidableEq, Inhabited

/-- An `IntTcpAgent`, with what loss recovery uses. -/
structure HostConn extends IntTcpAgent where
  lastAck : ℤ := -1
  recover : ℤ := 0
  lastCwndAction : CwndAction := .none
  numdupacks : ℤ := 3
  numThreshDupackSegs : ℤ := 0
deriving DecidableEq, Inhabited

/-- What a `CorresHost` keeps besides its list, with the packets sent so far for the first time: the
connection, the sequence number and that of the session. -/
structure HostState where
  conn : ℕ → HostConn
  seg : ℕ → HostSegment
  fresh : ℕ
  ownd : ℚ
  owndCorrection : ℚ
  sessionSeqno : ℤ
  recover : ℤ
  lastCwndAction : CwndAction
  dontAdjustOwnd : Bool
  proxyopt : Bool
  disableIntLossRecov : Bool
  slowStartRestart : Bool
  sent : List (ℕ × ℤ × ℤ)

/-- With `seglist_`, and the segments taken out of it so far. -/
structure CorresHost extends HostState where
  seglist : SlistBase
  removed : List ℕ

/-- An acknowledgement, with `amt_data_acked`. -/
structure HostAck where
  sender : ℕ
  seqno : ℤ
  tsEcho : ℚ
  amt : ℤ

/-- The local variables of `rmv_old_segs`. -/
structure AckScan where
  done : Bool := false
  newDataAcked : ℤ := 0
  partialack : Bool := false
  latestSuspLoss : ℤ := -1

/-- What an acknowledgement says of a segment. -/
inductive AckCase where
  | later
  | acked
  | partialNew
  | dupack
  | nothing
deriving DecidableEq

/-- `TCP_TIMER_RTX`, and `TCP_TIMER_RESET` without and with a packet from before fast start. -/
inductive HostTimer where
  | rtx
  | reset
  | resetRtx
deriving DecidableEq

inductive HostEvent where
  /-- The application of a connection has sent up to here. -/
  | app (i : ℕ) (curseq : ℤ)
  | knobs (i : ℕ) (numdupacks : ℤ) (proxyopt disableIntLossRecov slowStartRestart : Bool)
  | quench (i : ℕ) (seqno : ℤ)
  /-- `recv` of a connection, with the times of what it retransmits, and fast start. -/
  | ack (i : ℕ) (seqno : ℤ) (tsEcho : ℚ) (stamp : ℕ → ℚ) (fs connBeforeFS : Bool)
  | timeout (t : HostTimer)
  /-- A turn of the loop of `send_much`, for a connection, with its time. -/
  | turn (i : ℕ) (ts : ℚ)

namespace HostState

def updateConn (i : ℕ) (f : HostConn → HostConn) (h : HostState) : HostState :=
  { h with conn := Function.update h.conn i (f (h.conn i)) }

def setSeg (x : ℕ) (g : HostSegment) (h : HostState) : HostState :=
  { h with seg := Function.update h.seg x g }

def adjustOwnd (size : ℤ) (h : HostState) : HostState :=
  { h with
    ownd := if h.owndCorrection < size then h.ownd - min h.ownd (size - h.owndCorrection)
      else h.ownd
    owndCorrection := h.owndCorrection - min h.owndCorrection size }

/-- Outstanding data that counts as a correction from now on. -/
def shiftOwnd (d : ℤ) (h : HostState) : HostState :=
  { h with owndCorrection := h.owndCorrection + min h.ownd d, ownd := h.ownd - min h.ownd d }

/-- The record that `CorresHost::add_pkts` makes. -/
def addSeg (g : HostSegment) (h : HostState) : HostState :=
  { h with seg := Function.update h.seg h.fresh g, fresh := h.fresh + 1, ownd := h.ownd + 1 }

/-! ### The scan of an acknowledgement -/

/-- The cases of `rmv_old_segs`. -/
def ackCase (A : HostAck) (h : HostState) (g : HostSegment) : AckCase :=
  if A.sender ≠ g.sender ∧ g.ts < A.tsEcho then .later
  else if A.sender = g.sender then
    if g.seqno ≤ A.seqno then .acked
    else if 0 < A.amt ∧ A.seqno = g.seqno - 1 ∧ g.seqno ≤ (h.conn A.sender).recover ∧
        (h.conn A.sender).lastCwndAction = .dupack then .partialNew
    else if A.amt = 0 ∧ g.rxmitted = false ∧ A.seqno = g.seqno - 1 then .dupack
    else .nothing
  else .nothing

/-- The segment after its case. -/
def mark (h : HostState) (g : HostSegment) : AckCase → HostSegment
  | .later => if h.disableIntLossRecov then g else { g with laterAcks := g.laterAcks + 1 }
  | .partialNew => { g with partialack := true }
  | .dupack => { g with dupacks := g.dupacks + 1 }
  | _ => g

/-- The local variables after the case of a segment. -/
def note (A : HostAck) (g : HostSegment) (sc : AckScan) : AckCase → AckScan
  | .later => { sc with latestSuspLoss := max sc.latestSuspLoss g.sessionSeqno }
  | .acked =>
      { sc with
        newDataAcked := sc.newDataAcked + g.size
        done := sc.done || decide (A.amt ≤ sc.newDataAcked + g.size) }
  | .partialNew =>
      { sc with
        partialack := true
        latestSuspLoss := max sc.latestSuspLoss g.sessionSeqno
        done := sc.done || decide (A.amt ≤ sc.newDataAcked) }
  | .dupack =>
      { sc with latestSuspLoss := max sc.latestSuspLoss g.sessionSeqno, done := true }
  | .nothing => sc

/-- A threshold number of acknowledgements, by the connection of this one. -/
def Reaches (A : HostAck) (h : HostState) (g : HostSegment) : Prop :=
  (h.conn A.sender).numdupacks ≤ g.dupacks + g.laterAcks

instance (A : HostAck) (h : HostState) (g : HostSegment) : Decidable (h.Reaches A g) :=
  inferInstanceAs (Decidable (_ ≤ _))

/-- The mark of the threshold; a segment that has been deleted gets it too. -/
def threshold (A : HostAck) (cur : ℕ) (g : HostSegment) (h : HostState) : HostState :=
  if h.Reaches A g ∧ g.threshDupacks = false then
    (h.updateConn g.sender fun c =>
      { c with numThreshDupackSegs := c.numThreshDupackSegs + 1 }).setSeg
        cur { g with threshDupacks := true }
  else h.setSeg cur g

/-- A pass of the loop of `rmv_old_segs`, apart from the list. -/
def visit (A : HostAck) (cur : ℕ) (sc : AckScan) (h : HostState) : AckScan × HostState :=
  let g := h.seg cur
  let k := h.ackCase A g
  let sc := note A g sc k
  let h' := if k = .acked then h.adjustOwnd g.size else h
  (if A.amt = 0 ∧ A.seqno = g.seqno - 1 then { sc with done := true } else sc,
    h'.threshold A cur (h.mark g k))

/-- The loop goes no further. -/
def Stops (A : HostAck) (sc : AckScan) (h : HostState) (cur : ℕ) : Prop :=
  sc.done = true ∧ ¬ (h.seg cur).ts < A.tsEcho

instance (A : HostAck) (sc : AckScan) (h : HostState) (cur : ℕ) : Decidable (h.Stops A sc cur) :=
  inferInstanceAs (Decidable (_ ∧ _))

/-- A segment that goes to `curArray_`. -/
def Suspect (A : HostAck) (h : HostState) (cur : ℕ) : Prop :=
  (h.seg cur).seqno = (h.conn (h.seg cur).sender).highestAck + 1 ∧
    (h.Reaches A (h.seg cur) ∨ (h.seg cur).partialack = true)

instance (A : HostAck) (h : HostState) (cur : ℕ) : Decidable (h.Suspect A cur) :=
  inferInstanceAs (Decidable (_ ∧ _))

/-! ### Retransmission -/

/-- A suspect that `clean_segs` sends again. -/
def Lost (h : HostState) (cur : ℕ) : Prop :=
  (h.seg cur).partialack = true ∨ 0 < (h.seg cur).dupacks ∨
    1 < (h.conn (h.seg cur).sender).numThreshDupackSegs

instance (h : HostState) (cur : ℕ) : Decidable (h.Lost cur) :=
  inferInstanceAs (Decidable (_ ∨ _))

/-- The mark of the threshold is taken back. -/
def unmark (cur : ℕ) (h : HostState) : HostState :=
  if (h.seg cur).threshDupacks = true then
    (h.updateConn (h.seg cur).sender fun c =>
      { c with numThreshDupackSegs := c.numThreshDupackSegs - 1 }).setSeg
        cur { h.seg cur with threshDupacks := false }
  else h

/-- A new loss window, if the segment is not of the present one. -/
def lossWindow (sessionSeqno : ℤ) (g : HostSegment) (h : HostState) : HostState :=
  let h := if g.sessionSeqno ≤ h.recover ∧ h.lastCwndAction ≠ .timeout then
      { h with dontAdjustOwnd := true }
    else h
  if h.recover < g.sessionSeqno ∨ h.lastCwndAction = .timeout ∨
      (h.proxyopt = true ∧ (h.conn g.sender).recover < g.seqno) ∨
      (h.proxyopt = true ∧ (h.conn g.sender).lastCwndAction = .timeout) then
    { h.updateConn g.sender fun c => { c with recover := c.maxseq, lastCwndAction := .dupack } with
      recover := sessionSeqno - 1
      lastCwndAction := .dupack
      dontAdjustOwnd := false }
  else h

/-- A suspect is sent again, apart from the list. -/
def resend (sessionSeqno : ℤ) (ts : ℚ) (cur : ℕ) (h : HostState) : HostState :=
  let g := h.seg cur
  let h := ((h.unmark cur).lossWindow sessionSeqno g).updateConn g.sender fun c =>
    { c with maxseq := max c.maxseq g.seqno }
  let h := (h.addSeg
    { sender := g.sender, seqno := g.seqno, sessionSeqno := g.sessionSeqno, size := 1, ts := ts
      rxmitted := true }).adjustOwnd g.size
  if h.dontAdjustOwnd = true then h else h.shiftOwnd g.dupacks

/-- The correction for a duplicate acknowledgement. -/
def correct (A : HostAck) (sc : AckScan) (h : HostState) : HostState :=
  if A.amt = 0 ∧ sc.latestSuspLoss ≤ h.recover ∧ h.dontAdjustOwnd = false ∧
      h.lastCwndAction ≠ .timeout then h.shiftOwnd 1
  else h

end HostState

namespace CorresHost

open HostState

/-- The loop of `rmv_old_segs` over the list, with the iterator at `ce`. -/
def rmvLoop (A : HostAck) : ℕ → Option ℕ → Option ℕ → AckScan → List (ℕ × Option ℕ) → CorresHost →
    Option (AckScan × List (ℕ × Option ℕ) × CorresHost)
  | 0, _, _, _, _, _ => none
  | fuel + 1, ce, prev, sc, suspects, s =>
      match s.seglist.iter ce with
      | (none, _) => some (sc, suspects, s)
      | (some cur, ce) =>
          if s.Stops A sc cur then some (sc, suspects, s)
          else
            let acked := s.ackCase A (s.seg cur) = .acked
            let (sc, h) := s.visit A cur sc
            if acked then
              let l := s.seglist.remove cur prev
              -- the iterator is set back before the link that is gone
              let ce := match ce with
                | none => none
                | some _ => prev.or l.last
              rmvLoop A fuel ce prev sc suspects
                { toHostState := h, seglist := l, removed := cur :: s.removed }
            else if h.Suspect A cur then
              if suspects.length < MAX_PARALLEL_CONN then
                rmvLoop A fuel ce (some cur) sc (suspects ++ [(cur, prev)])
                  { s with toHostState := h }
              else none
            else rmvLoop A fuel ce (some cur) sc suspects { s with toHostState := h }

/-- The entry of `prevArray_` for a suspect: the one before it, unless that was removed last; then
the one before that. -/
def putRight (gone : Option (ℕ × Option ℕ)) (prev : Option ℕ) : Option ℕ :=
  match gone with
  | none => prev
  | some (x, p) => if prev = some x then p else prev

/-- The loop of `clean_segs` over the suspects, with the one removed last and the one before it. -/
def cleanLoop (sessionSeqno : ℤ) (stamp : ℕ → ℚ) (gone : Option (ℕ × Option ℕ)) :
    List (ℕ × Option ℕ) → CorresHost → CorresHost
  | [], s => s
  | (cur, prev) :: rest, s =>
      let prev := putRight gone prev
      if s.Lost cur then
        cleanLoop sessionSeqno stamp (some (cur, prev)) rest
          { toHostState := s.resend sessionSeqno (stamp rest.length) cur
            seglist := (s.seglist.append s.fresh).remove cur prev
            removed := cur :: s.removed }
      else cleanLoop sessionSeqno stamp none rest s

/-- The list and the connections after a timeout. -/
def expire (reset : Bool) (s : CorresHost) : CorresHost :=
  if s.seglist.count = 0 ∧ s.slowStartRestart = false then s
  else
    { s with
      recover := s.sessionSeqno - 1
      lastCwndAction := .timeout
      ownd := 0
      owndCorrection := 0
      conn := fun i =>
        let c := s.conn i
        let maxseq := if reset then c.highestAck else c.maxseq
        { c with
          maxseq := maxseq
          tSeqno := c.highestAck + 1
          recover := maxseq
          lastCwndAction := .timeout }
      seg := fun x =>
        if x ∈ s.seglist.items then { s.seg x with size := 0 } else s.seg x }

/-- `timeout`, up to the call of `send_much`. -/
def timeout (s : CorresHost) : HostTimer → CorresHost
  | .rtx => s.expire false
  | .reset => s.expire true
  | .resetRtx => (s.expire true).expire false

def cleanSegs (A : HostAck) (stamp : ℕ → ℚ) (fs connBeforeFS : Bool) (s : CorresHost) :
    Option CorresHost := do
  let (sc, suspects, s) ←
    rmvLoop A (s.seglist.count.toNat + 1) s.seglist.last none {} [] s
  if sc.partialack = true ∧ fs = true then
    return s.timeout (if connBeforeFS then .resetRtx else .reset)
  else
    return cleanLoop s.sessionSeqno stamp none suspects
      { s with toHostState := s.correct A sc }

/-- What an acknowledgement says to a connection. -/
def ackOf (i : ℕ) (seqno : ℤ) (tsEcho : ℚ) (s : CorresHost) : HostAck :=
  ⟨i, seqno, tsEcho, if (s.conn i).lastAck < seqno then seqno - (s.conn i).lastAck else 0⟩

/-- `newack` of a connection, for new data. -/
def newack (i : ℕ) (seqno : ℤ) (s : CorresHost) : CorresHost :=
  if (s.conn i).lastAck < seqno then
    { s with toHostState := s.updateConn i fun c =>
      { c with lastAck := seqno, highestAck := seqno, tSeqno := max c.tSeqno (seqno + 1) } }
  else s

/-- `recv` of a connection. -/
def recv (i : ℕ) (seqno : ℤ) (tsEcho : ℚ) (stamp : ℕ → ℚ) (fs connBeforeFS : Bool)
    (s : CorresHost) : Option CorresHost :=
  cleanSegs (s.ackOf i seqno tsEcho) stamp fs connBeforeFS (s.newack i seqno)

/-- The least session number of the segments of a connection from `seqno` on. -/
def leastSession (i : ℕ) (seqno : ℤ) (s : CorresHost) : ℤ :=
  s.seglist.items.foldl (fun m x =>
    if i = (s.seg x).sender ∧ seqno ≤ (s.seg x).seqno ∧ (s.seg x).sessionSeqno < m then
      (s.seg x).sessionSeqno
    else m) s.sessionSeqno

def findSessionSeqno (i : ℕ) (seqno : ℤ) (s : CorresHost) : ℤ :=
  if s.leastSession i seqno = s.sessionSeqno then s.sessionSeqno - 1 else s.leastSession i seqno

/-- The first segment with a session number, and the one before it. -/
def findNumbered (seg : ℕ → HostSegment) (k : ℤ) : Option ℕ → List ℕ → Option (ℕ × Option ℕ)
  | _, [] => none
  | prev, x :: l =>
      if (seg x).sessionSeqno = k then some (x, prev) else findNumbered seg k (some x) l

def removeSessionSeqno (k : ℤ) (s : CorresHost) : CorresHost :=
  match findNumbered s.seg k none s.seglist.items with
  | none => s
  | some (cur, prev) =>
      { toHostState := s.adjustOwnd (s.seg cur).size
        seglist := s.seglist.remove cur prev
        removed := cur :: s.removed }

/-- `send_one`, with the `output` and the `add_pkts` that it calls. -/
def sendOne (i : ℕ) (k : ℤ) (ts : ℚ) (s : CorresHost) : CorresHost :=
  { s with
    toHostState := (s.updateConn i fun c =>
      { c with tSeqno := c.tSeqno + 1, maxseq := max c.maxseq c.tSeqno }).addSeg
        { sender := i, seqno := (s.conn i).tSeqno, sessionSeqno := k, size := 1, ts := ts }
    seglist := s.seglist.append s.fresh }

/-- The body of the loop of `send_much`, for a sender. -/
def turn (i : ℕ) (ts : ℚ) (s : CorresHost) : CorresHost :=
  if (s.conn i).tSeqno < (s.conn i).maxseq then
    let k := s.findSessionSeqno i (s.conn i).tSeqno
    (s.removeSessionSeqno k).sendOne i k ts
  else
    ({ s with
      sessionSeqno := s.sessionSeqno + 1
      sent := (i, (s.conn i).tSeqno, s.sessionSeqno) :: s.sent }).sendOne i s.sessionSeqno ts

def quench (i : ℕ) (seqno : ℤ) (s : CorresHost) : CorresHost :=
  if s.recover < s.findSessionSeqno i seqno then
    { s with
      toHostState :=
        { s.updateConn i fun c => { c with recover := c.maxseq, lastCwndAction := .ecn } with
          recover := s.sessionSeqno - 1
          lastCwndAction := .ecn } }
  else s

def handle (s : CorresHost) : HostEvent → Option CorresHost
  | .app i n => some { s with toHostState := s.updateConn i fun c => { c with curseq := n } }
  | .knobs i n p d r =>
      some { s with
        toHostState := { s.updateConn i fun c => { c with numdupacks := n } with
          proxyopt := p
          disableIntLossRecov := d
          slowStartRestart := r } }
  | .quench i n => some (s.quench i n)
  | .ack i n tsEcho stamp fs before => s.recv i n tsEcho stamp fs before
  | .timeout t => some (s.timeout t)
  | .turn i ts => some (if (s.conn i).dataLeft then s.turn i ts else s)

/-- A session before its first packet. -/
def init (conn : ℕ → HostConn) (proxyopt disableIntLossRecov slowStartRestart : Bool) :
    CorresHost where
  conn := fun i => { conn i with
    tSeqno := 0, maxseq := -1, highestAck := -1, lastAck := -1, numThreshDupackSegs := 0 }
  seg := fun _ => default
  fresh := 0
  ownd := 0
  owndCorrection := 0
  sessionSeqno := 0
  recover := 0
  lastCwndAction := .none
  dontAdjustOwnd := false
  proxyopt := proxyopt
  disableIntLossRecov := disableIntLossRecov
  slowStartRestart := slowStartRestart
  sent := []
  seglist := .empty
  removed := []

end CorresHost

/-- The states that a session gets to, where every event meets `C` in its state. -/
inductive HostRun (C : CorresHost → HostEvent → Prop) (s₀ : CorresHost) : CorresHost → Prop
  | start : HostRun C s₀ s₀
  | step {s t : CorresHost} {e : HostEvent} (h : HostRun C s₀ s) (hC : C s e)
      (he : s.handle e = some t) : HostRun C s₀ t

end Afabric
