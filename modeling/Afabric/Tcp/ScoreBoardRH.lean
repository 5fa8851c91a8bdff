import Afabric.Support.Loops
import Afabric.Support.Ring
import Mathlib.Algebra.BigOperators.Group.Finset.Basic
import Mathlib.Data.Int.Interval
import Mathlib.Tactic.Ring

/-!
# Tcp — the scoreboard of rate-halving

`ScoreBoardRH` (`tcp/scoreboard-rh.h`, `tcp/scoreboard-rh.cc`).  Packet `i` is in cell
`i % SBSIZE`; the window starts at the cell `first_` and has `length_` packets, the first of which
is the `seq_no_` of that cell.  Packets are numbered from 0.

An update makes an entry before it advances the left edge, and extends the window from the last
entry stored, whether or not the window still has that entry.
-/

namespace Afabric

namespace ScoreBoardRH

def SBSIZE : ℤ := 1024

end ScoreBoardRH

open ScoreBoardRH (SBSIZE)

/-- `ScoreBoardNode` of `ScoreBoardRH`. -/
structure ScoreBoardNodeRH where
  seqNo : ℤ
  ackFlag : Bool
  sackFlag : Bool
  retran : Bool
  sndNxt : ℤ
  sackCnt : ℤ
  rhId : ℤ
deriving DecidableEq, Repr

/-- A new entry for packet `i`. -/
def ScoreBoardNodeRH.new (i : ℤ) : ScoreBoardNodeRH := ⟨i, false, false, false, 0, 0, 0⟩

/-- Not acked and not SACKed. -/
def ScoreBoardNodeRH.hole (x : ScoreBoardNodeRH) : Bool := !x.ackFlag && !x.sackFlag

structure ScoreBoardRH where
  first : ℤ
  length : ℤ
  retranOccured : ℤ
  retranSacked : ℤ
  sbn : ℤ → ScoreBoardNodeRH

namespace ScoreBoardRH

/-- The constructor, on what was not written yet. -/
def init (sbn : ℤ → ScoreBoardNodeRH) (retranSacked : ℤ) : ScoreBoardRH :=
  ⟨0, 0, 0, retranSacked, sbn⟩

/-- `SBN[i%SBSIZE]`. -/
def node (s : ScoreBoardRH) (i : ℤ) : ScoreBoardNodeRH := s.sbn (i % SBSIZE)

/-- An assignment to `SBN[i%SBSIZE]`. -/
def set (s : ScoreBoardRH) (i : ℤ) (x : ScoreBoardNodeRH) : ScoreBoardRH :=
  { s with sbn := Ring.write (· % SBSIZE) s.sbn i x }

/-- `SBN[(first_)%SBSIZE].seq_no_`. -/
def firstSeq (s : ScoreBoardRH) : ℤ := (s.node s.first).seqNo

/-- `SBN[(first_+length_+SBSIZE-1)%SBSIZE].seq_no_`. -/
def lastSeq (s : ScoreBoardRH) : ℤ := (s.node (s.first + s.length + SBSIZE - 1)).seqNo

/-- The scoreboard and `retran_decr` in `UpdateScoreBoard`. -/
structure Updating extends ScoreBoardRH where
  retranDecr : ℤ

/-- The entry of a packet that has arrived is written: if it was sent again, that is over. -/
def Updating.arrived (rhId i : ℤ) (x : ScoreBoardNodeRH) (u : Updating) : Updating :=
  if x.retran then
    { u with
      sbn := (u.set i { x with retran := false, sndNxt := 0 }).sbn
      retranDecr := u.retranDecr + 1
      retranSacked := rhId }
  else { u with sbn := (u.set i x).sbn }

/-- "Advance the ACK", over one entry. -/
def Updating.ackEntry (rhId i : ℤ) (u : Updating) : Updating :=
  { u.arrived rhId i { u.node i with ackFlag := true, sackFlag := true } with
    first := (u.first + 1) % SBSIZE
    length := u.length - 1 }

/-- The loop that advances the left edge, at `i` with `n` rounds to go. -/
def advanceFrom (lastAck rhId : ℤ) : ℕ → ℤ → Updating → Option Updating
  | 0, _, u => some u
  | n + 1, i, u =>
      if (u.node i).seqNo ≤ lastAck then
        if u.first ≠ i % SBSIZE then none
        else if u.length - 1 < 0 then none
        else if u.length - 1 = 0 then some (u.ackEntry rhId i)
        else advanceFrom lastAck rhId n (i + 1) (u.ackEntry rhId i)
      else advanceFrom lastAck rhId n (i + 1) u

/-- "Advance the left edge of the block." -/
def advance (lastAck rhId : ℤ) (u : Updating) : Option Updating :=
  if u.firstSeq ≤ lastAck then
    advanceFrom lastAck rhId (lastAck + 1 - u.firstSeq).toNat u.firstSeq u
  else some u

/-- A new entry, `none` where "scoreboard too large". -/
def create (i : ℤ) (s : ScoreBoardRH) : Option ScoreBoardRH :=
  if s.length + 1 ≥ SBSIZE then none
  else some { s.set i (.new i) with length := s.length + 1 }

/-- "If there is no scoreboard, create one." -/
def createFirst (lastAck : ℤ) (s : ScoreBoardRH) : Option ScoreBoardRH :=
  if s.length = 0 then
    (s.create (lastAck + 1)).map fun s => { s with first := (lastAck + 1) % SBSIZE }
  else some s

/-- "Create new entries off the right side." -/
def extend (sackRight : ℤ) (s : ScoreBoardRH) : Option ScoreBoardRH :=
  if sackRight > s.lastSeq then
    intLoop (s.lastSeq + 1) sackRight (fun i s => s.bind (create i)) (some s)
  else some s

/-- "Check to see if this segment is now covered by the sack block." -/
def Updating.sackEntry (rhId sackLeft sackRight i : ℤ) (u : Updating) : Updating :=
  let x := u.node i
  if x.seqNo ≥ sackLeft ∧ x.seqNo < sackRight then u.arrived rhId i { x with sackFlag := true }
  else u

/-- A round of the loop over the SACK blocks. -/
def sackBlock (rhId : ℤ) (u : Updating) (b : ℤ × ℤ) : Option Updating :=
  (extend b.2 u.toScoreBoardRH).map fun s =>
    intLoop s.firstSeq b.2 (Updating.sackEntry rhId b.1 b.2) { u with toScoreBoardRH := s }

/-- "Check to see if this segment is a hole." -/
def Updating.countEntry (i : ℤ) (u : Updating) : Updating :=
  let x := u.node i
  if x.hole then { u with sbn := (u.set i { x with sackCnt := x.sackCnt + 1 }).sbn } else u

/-- "Check to see if this segment's snd_nxt_ is now covered by the sack block." -/
def Updating.checkEntry (sackMax i : ℤ) (u : Updating) : Updating :=
  let x := u.node i
  if x.retran ∧ x.sndNxt < sackMax then
    { u with
      sbn := (u.set i { x with retran := false, sndNxt := 0, sackCnt := 1 }).sbn
      retranDecr := u.retranDecr + 1 }
  else u

/-- `sack_max`. -/
def sackMax (blocks : List (ℤ × ℤ)) : ℤ := blocks.foldl (fun m b => if b.2 > m then b.2 else m) 0

/-- "Update sack_cnt on holes which still exist", and `CheckSndNxt`, whose `num_lost` counts on. -/
def recount (sackMax : ℤ) (u : Updating) : Updating :=
  if u.length ≠ 0 then
    let u := intLoop u.firstSeq sackMax Updating.countEntry u
    intLoop u.firstSeq sackMax (Updating.checkEntry sackMax) u
  else u

/-- `UpdateScoreBoard`, `none` where it exits. -/
def updateScoreBoard (lastAck : ℤ) (blocks : List (ℤ × ℤ)) (rhId : ℤ) (s : ScoreBoardRH) :
    Option Updating :=
  if blocks = [] ∧ s.length = 0 then some { s with retranDecr := 0 }
  else
    (createFirst lastAck s).bind fun s =>
      (advance lastAck rhId { s with retranDecr := 0 }).bind fun u =>
        (blocks.foldlM (sackBlock rhId) u).map (recount (sackMax blocks))

/-- The loop of `GetNextRetran`, at `i` with `n` rounds to go. -/
def nextRetranFrom (numdupacks : ℤ) (s : ScoreBoardRH) : ℕ → ℤ → ℤ
  | 0, _ => -1
  | n + 1, i =>
      let x := s.node i
      if x.hole ∧ x.retran = false ∧ x.sackCnt ≥ numdupacks then i
      else nextRetranFrom numdupacks s n (i + 1)

/-- `GetNextRetran`. -/
def getNextRetran (numdupacks : ℤ) (s : ScoreBoardRH) : ℤ :=
  if s.length ≠ 0 then nextRetranFrom numdupacks s s.length.toNat s.firstSeq else -1

/-- `MarkRetran`. -/
def markRetran (retranSeqno sndNxt rhId : ℤ) (s : ScoreBoardRH) : ScoreBoardRH :=
  { s.set retranSeqno { s.node retranSeqno with retran := true, sndNxt := sndNxt, rhId := rhId } with
    retranOccured := rhId }

/-- `GetNewHoles`. -/
def getNewHoles (s : ScoreBoardRH) : ℕ :=
  (List.range s.length.toNat).countP fun k : ℕ =>
    (s.node (s.firstSeq + k)).hole && (s.node (s.firstSeq + k)).sackCnt == 1

/-- "Clear retran flag on everything": on a hole, which is to be sent again. -/
def clearEntry (numdupacks i : ℤ) (s : ScoreBoardRH) : ScoreBoardRH :=
  let x := s.node i
  if x.hole then s.set i { x with retran := false, sndNxt := 0, sackCnt := numdupacks } else s

/-- "Check the first segment in case of a renege." -/
def renege (numdupacks : ℤ) (s : ScoreBoardRH) : ScoreBoardRH :=
  let i := s.firstSeq
  let x := s.node i
  if x.ackFlag = false ∧ x.sackFlag then
    s.set i { x with sackFlag := false, retran := false, sndNxt := 0, sackCnt := numdupacks }
  else s

/-- `TimeoutScoreBoard`, `none` where it exits. -/
def timeoutScoreBoard (sndNxt numdupacks : ℤ) (s : ScoreBoardRH) : Option ScoreBoardRH :=
  if s.length = 0 then some s
  else
    (extend sndNxt s).map fun s =>
      (intLoop s.firstSeq (s.firstSeq + s.length) (clearEntry numdupacks) s).renege numdupacks

/-- A call. -/
inductive Call
  | update (lastAck : ℤ) (blocks : List (ℤ × ℤ)) (rhId : ℤ)
  | markRetran (retranSeqno sndNxt rhId : ℤ)
  | timeout (sndNxt numdupacks : ℤ)

/-- What a call does, with the `retran_decr` it returns; `none` where it exits. -/
def step (s : ScoreBoardRH) : Call → Option Updating
  | .update lastAck blocks rhId => s.updateScoreBoard lastAck blocks rhId
  | .markRetran retranSeqno sndNxt rhId =>
    some { s.markRetran retranSeqno sndNxt rhId with retranDecr := 0 }
  | .timeout sndNxt numdupacks =>
    (s.timeoutScoreBoard sndNxt numdupacks).map fun s => { s with retranDecr := 0 }

end ScoreBoardRH

end Afabric
