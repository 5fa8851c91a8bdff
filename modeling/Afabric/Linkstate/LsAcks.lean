import Afabric.Sched.Timer
import Afabric.Support.OrdMap

/-!
# Linkstate — messages and their acknowledgement

`linkstate/ls.cc`: the message centre gives a message its id, which is its sequence number unless the
message is a link-state advertisement that a node regenerates for another.  `LsRetransmissionManager`
keeps for each peer the last topology map and, by origin, the last advertisement that the peer has
not acknowledged, and a timer.

An id is a natural number, so that it does not wrap, and 0 is `LS_INVALID_MESSAGE_ID`.  The contents
of messages and the timeouts are left out.  A timer is the status of `TimerHandler`; what aborts has
no result.
-/

namespace Afabric

inductive LsMessageType where
  | invalid
  | lsa
  | tpm
  | lsaAck
  | tpmAck
  | lsm
deriving DecidableEq, Repr

structure LsMessage where
  type : LsMessageType
  messageId : ℕ
  sequenceNumber : ℕ
  originNodeId : ℕ
deriving DecidableEq, Repr

/-- The messages that are not acknowledgements. -/
structure LsMessageCenter where
  currentLsaId : ℕ
  lsaMessages : OrdMap LsMessage

namespace LsMessageCenter

def init : LsMessageCenter := ⟨1, .empty⟩

/-- `newMessage`, for an advertisement or a topology map. -/
def newMessage (nodeId : ℕ) (type : LsMessageType) (c : LsMessageCenter) :
    LsMessage × LsMessageCenter :=
  let msg : LsMessage := ⟨type, c.currentLsaId, c.currentLsaId, nodeId⟩
  (msg, ⟨c.currentLsaId + 2, c.lsaMessages.set c.currentLsaId msg⟩)

/-- The message that `regenAndSend` makes from a link-state list with this sequence number. -/
def regenerate (origin seq : ℕ) (c : LsMessageCenter) : LsMessage × LsMessageCenter :=
  let r := c.newMessage origin .lsa
  let msg := { r.1 with sequenceNumber := seq, originNodeId := origin }
  (msg, { r.2 with lsaMessages := r.2.lsaMessages.set msg.messageId msg })

end LsMessageCenter

structure LsIdSeq where
  msgId : ℕ
  seq : ℕ
deriving DecidableEq, Repr

structure LsUnackPeer where
  timer : TimerStatus
  tpmSeq : ℕ
  lsaMap : OrdMap LsIdSeq

namespace LsUnackPeer

def init : LsUnackPeer := ⟨.idle, 0, .empty⟩

/-- No pending acknowledgement. -/
def Quiet (p : LsUnackPeer) : Prop := p.tpmSeq = 0 ∧ p.lsaMap.entries = []

instance (p : LsUnackPeer) : Decidable p.Quiet := inferInstanceAs (Decidable (_ ∧ _))

end LsUnackPeer

abbrev LsRetransmissionManager := OrdMap LsUnackPeer

namespace LsRetransmissionManager

variable (peerId : ℕ) (msg : LsMessage) (mgr : LsRetransmissionManager)

/-- `force_cancel` of the timer, and no record. -/
def cancelTimer : LsRetransmissionManager :=
  match mgr.find peerId with
  | none => mgr
  | some p =>
      mgr.set peerId
        { timer := if p.timer = .pending then .idle else p.timer, tpmSeq := 0, lsaMap := .empty }

/-- The record of a message that is sent. -/
def recorded (p : LsUnackPeer) : LsUnackPeer :=
  match msg.type with
  | .tpm => { p with tpmSeq := msg.sequenceNumber }
  | .lsa => { p with lsaMap := p.lsaMap.set msg.originNodeId ⟨msg.messageId, msg.sequenceNumber⟩ }
  | _ => p

/-- `messageOut`, which reschedules the timer. -/
def messageOut : LsRetransmissionManager :=
  let p := (mgr.find peerId).getD .init
  mgr.set peerId { recorded msg p with timer := .pending }

/-- The record after an acknowledgement. -/
def acknowledged (p : LsUnackPeer) : LsUnackPeer :=
  match msg.type with
  | .tpmAck => if p.tpmSeq = msg.sequenceNumber then { p with tpmSeq := 0 } else p
  | .lsaAck =>
      match p.lsaMap.find msg.originNodeId with
      | some r =>
          if r.seq = msg.sequenceNumber then { p with lsaMap := p.lsaMap.erase msg.originNodeId }
          else p
      | none => p
  | _ => p

/-- `ackIn`; `cancel` of a timer that is not pending aborts. -/
def ackIn : Option LsRetransmissionManager :=
  match mgr.find peerId with
  | none => some mgr
  | some p =>
      if p.Quiet then some mgr
      else
        let p := acknowledged msg p
        if p.Quiet then
          if p.timer = .pending then some (mgr.set peerId { p with timer := .idle }) else none
        else some (mgr.set peerId p)

/-- The ids that `resendMessages` sends again. -/
def unackedIds (p : LsUnackPeer) : List ℕ :=
  (if p.tpmSeq ≠ 0 then [p.tpmSeq] else []) ++ p.lsaMap.entries.map fun e => e.2.msgId

/-- `resendMessages`, which reschedules the timer. -/
def resendMessages : Option (List ℕ × LsRetransmissionManager) :=
  (mgr.find peerId).map fun p => (unackedIds p, mgr.set peerId { p with timer := .pending })

/-- The timer expires. -/
def expire : Option (List ℕ × LsRetransmissionManager) :=
  (mgr.find peerId).bind fun p =>
    if p.timer = .pending then resendMessages peerId (mgr.set peerId { p with timer := .handling })
    else none

end LsRetransmissionManager

/-- The acknowledgement by `receiveLSA` or `receiveTopo` of a message from `senderId`. -/
def sendAck (senderId : ℕ) (msg : LsMessage) (ackId : ℕ) : LsMessage :=
  if msg.type = .lsa then ⟨.lsaAck, ackId, msg.messageId, msg.originNodeId⟩
  else ⟨.tpmAck, ackId, msg.sequenceNumber, senderId⟩

end Afabric
