import Afabric.Linkstate.LsAcks
import Afabric.Linkstate.LsPaths

/-!
# Linkstate — flooding

`LsRouting` of `linkstate/ls.cc` as far as it spreads link states: the database with its `update`,
the two histories, advertisements, topology maps, and the buffer in which a node keeps what it sends
when its links change.  The routes are those of `computeRoutes`; the acknowledgements and the
messages sent again are those of `LsAcks`, and are left out here with the eviction of old messages.

An advertisement has its link-state list; one that `regenAndSend` makes has none, as in the source.
A topology map is a pointer to the database of its originator, and so holds what this database holds
when it arrives.  `none` is an abort, or a first element of an empty list that is read.
-/

namespace Afabric

/-- `LS_WRAPAROUND_THRESHOLD`. -/
def lsWraparoundThreshold : ℕ := 2 ^ 30

/-- A message and the list that its content pointer leads to. -/
structure LsUpdate where
  msg : LsMessage
  lsl : Option (List LsLinkState)
deriving DecidableEq

/-- The sequence number of the first link. -/
def firstSeqno : List LsLinkState → ℕ
  | [] => 0
  | l :: _ => l.sequenceNumber

namespace LsTopoMap

/-- The old link to the same neighbor takes the status and the cost of `new`, and unless it is the
node's own the sequence number; if there is none, `new` is added. -/
def mergeLink (own : Bool) (new : LsLinkState) : List LsLinkState → List LsLinkState × Bool
  | [] => ([new], true)
  | old :: rest =>
      if new.neighborId = old.neighborId then
        ({ old with
           status := new.status
           cost := new.cost
           sequenceNumber := if own then old.sequenceNumber else new.sequenceNumber } :: rest,
          decide (new.status ≠ old.status) || decide (new.cost ≠ old.cost))
      else
        let r := mergeLink own new rest
        (old :: r.1, r.2)

def mergeRound (own : Bool) (s : List LsLinkState × Bool) (new : LsLinkState) :
    List LsLinkState × Bool :=
  let r := mergeLink own new s.1
  (r.1, s.2 || r.2)

def merge (own : Bool) (lsl old : List LsLinkState) : List LsLinkState × Bool :=
  lsl.foldl (mergeRound own) (old, false)

/-- `update`, and whether anything has changed. -/
def update (myNodeId nodeId : ℕ) (lsl : List LsLinkState) (db : LsTopoMap) : LsTopoMap × Bool :=
  match db.find nodeId with
  | none => (db.set nodeId lsl, true)
  | some old =>
      let r := merge (nodeId = myNodeId) lsl old
      (db.set nodeId r.1, r.2)

end LsTopoMap

abbrev LsMessageHistory := OrdMap ℕ

namespace LsMessageHistory

/-- What `isNewMessage` finds. -/
def IsNew (msg : LsMessage) (h : LsMessageHistory) : Prop :=
  ∀ seq ∈ h.find msg.originNodeId,
    seq < msg.sequenceNumber ∨ lsWraparoundThreshold < seq - msg.sequenceNumber

instance (msg : LsMessage) (h : LsMessageHistory) : Decidable (IsNew msg h) :=
  inferInstanceAs (Decidable (∀ seq ∈ h.find msg.originNodeId, _))

/-- What `isNewMessage` saves of a new message. -/
def saved (msg : LsMessage) (h : LsMessageHistory) : LsMessageHistory :=
  h.set msg.originNodeId msg.sequenceNumber

end LsMessageHistory

structure LsRouting where
  myNodeId : ℕ
  peerIdList : List ℕ
  /-- The links of the node as they are now. -/
  linkStateList : List LsLinkState
  database : LsTopoMap
  lsaHistory : LsMessageHistory
  tpmHistory : LsMessageHistory
  messageBuffer : List (ℕ × LsUpdate)

/-- What is sent, each message with its receiver. -/
abbrev LsOut := List (ℕ × LsUpdate)

namespace LsRouting

open LsMessageHistory

/-- `init`. -/
def init (myNodeId : ℕ) (peers : List ℕ) (links : List LsLinkState) : LsRouting :=
  ⟨myNodeId, peers, links, OrdMap.empty.set myNodeId links, .empty, .empty, []⟩

def isUp (n : LsRouting) (neighborId : ℕ) : Bool :=
  (n.linkStateList.find? fun l => l.neighborId = neighborId).any fun l => l.status = .up

def bufferedSend (out : LsOut) (n : LsRouting) : LsRouting :=
  { n with messageBuffer := n.messageBuffer ++ out }

/-- A message for each peer whose link is up and that is not among `but`. -/
def toPeers (but : List ℕ) (u : LsUpdate) (n : LsRouting) : LsOut :=
  (n.peerIdList.filter fun p => p ∉ but ∧ n.isUp p).map fun p => (p, u)

/-! ### Link states -/

/-- `sendLinkStates`: the node with its new sequence number, what it sends at once, and the message
center. -/
def sendLinkStates (buffer : Bool) (c : LsMessageCenter) (n : LsRouting) :
    LsRouting × LsOut × LsMessageCenter :=
  match n.database.find n.myNodeId with
  | none => (n, [], c)
  | some lsl =>
      if n.peerIdList = [] ∨ lsl = [] then (n, [], c)
      else
        let m := c.newMessage n.myNodeId .lsa
        let lsl := lsl.map fun l => { l with sequenceNumber := m.1.sequenceNumber }
        let n := { n with database := n.database.set n.myNodeId lsl }
        if buffer then (n.bufferedSend (n.toPeers [] ⟨m.1, some lsl⟩), [], m.2)
        else (n, n.toPeers [] ⟨m.1, some lsl⟩, m.2)

/-- `sendTopo`. -/
def sendTopo (s : LsRouting × LsMessageCenter) (neighborId : ℕ) : LsRouting × LsMessageCenter :=
  let m := s.2.newMessage s.1.myNodeId .tpm
  (s.1.bufferedSend [(neighborId, ⟨m.1, none⟩)], m.2)

/-- The neighbors of the links that were down and are up; the two lists must be aligned. -/
def resumed : List LsLinkState → List LsLinkState → Option (List ℕ)
  | [], _ => some []
  | _ :: _, [] => none
  | new :: news, old :: olds =>
      if new.neighborId ≠ old.neighborId then none
      else (resumed news olds).map fun ps =>
        if new.status = .down ∨ old.status = .up then ps else new.neighborId :: ps

/-- `linkStateChanged`. -/
def linkStateChanged (c : LsMessageCenter) (n : LsRouting) : Option (LsRouting × LsMessageCenter) :=
  match n.database.find n.myNodeId with
  | none => none
  | some old =>
      let r := n.database.update n.myNodeId n.myNodeId n.linkStateList
      let n := { n with database := r.1 }
      let s := if r.2 then ((n.sendLinkStates true c).1, (n.sendLinkStates true c).2.2) else (n, c)
      (resumed n.linkStateList old).map fun ps => ps.foldl sendTopo s

/-- `rtProtoLS::intfChanged`, when the links have the given status and cost. -/
def intfChanged (now : ℕ → LsStatus × ℕ) (c : LsMessageCenter) (n : LsRouting) :
    Option (LsRouting × LsMessageCenter) :=
  linkStateChanged c
    { n with
      linkStateList := n.linkStateList.map fun l =>
        { l with status := (now l.neighborId).1, cost := (now l.neighborId).2 } }

/-- `sendBufferedMessages`. -/
def sendBufferedMessages (n : LsRouting) : LsRouting × LsOut :=
  ({ n with messageBuffer := [] }, n.messageBuffer)

/-! ### Messages received -/

/-- `receiveLSA`. -/
def receiveLSA (senderId : ℕ) (u : LsUpdate) (n : LsRouting) : LsRouting × LsOut :=
  if u.msg.originNodeId = n.myNodeId ∨ ¬ IsNew u.msg n.lsaHistory then (n, [])
  else
    let out := n.toPeers [u.msg.originNodeId, senderId] u
    let n := { n with lsaHistory := saved u.msg n.lsaHistory }
    match u.lsl with
    | none => (n, out)
    | some lsl =>
        ({ n with database := (n.database.update n.myNodeId u.msg.originNodeId lsl).1 }, out)

/-- `regenAndSend`, which does not put the list it copies in the message. -/
def regenAndSend (exception origin : ℕ) (lsl : List LsLinkState) (s : LsRouting × LsMessageCenter) :
    LsRouting × LsMessageCenter :=
  let m := s.2.regenerate origin (firstSeqno lsl)
  (s.1.bufferedSend (s.1.toPeers [origin, exception] ⟨m.1, none⟩), m.2)

/-- The node has no record of `origin`, an empty one, or one older than the sequence number. -/
def Outdated (origin seq : ℕ) (n : LsRouting) : Prop :=
  ∀ my ∈ n.database.find origin, my ≠ [] →
    firstSeqno my < seq ∨ lsWraparoundThreshold < firstSeqno my - seq

instance (origin seq : ℕ) (n : LsRouting) : Decidable (n.Outdated origin seq) :=
  inferInstanceAs (Decidable (∀ my ∈ n.database.find origin, _))

/-- A record of a topology map. -/
def takeRecord (neighborId : ℕ) (s : LsRouting × LsMessageCenter) (e : ℕ × List LsLinkState) :
    Option (LsRouting × LsMessageCenter) :=
  if e.1 = s.1.myNodeId then some s
  else if e.2 = [] then none
  else if s.1.Outdated e.1 (firstSeqno e.2) then
    some (regenAndSend neighborId e.1 e.2
      ({ s.1 with database := s.1.database.set e.1 e.2 }, s.2))
  else some s

/-- `receiveTopo`, when the database of the originator is `topo`. -/
def receiveTopo (neighborId : ℕ) (u : LsUpdate) (topo : LsTopoMap) (c : LsMessageCenter)
    (n : LsRouting) : Option (LsRouting × LsMessageCenter) :=
  if IsNew u.msg n.tpmHistory then
    topo.entries.foldlM (takeRecord neighborId)
      ({ n with tpmHistory := saved u.msg n.tpmHistory }, c)
  else some (n, c)

end LsRouting

end Afabric
