import Afabric.Linkstate.LsAcks

/-!
# Linkstate — acknowledgements match what was sent

A node and its peers, with the messages and acknowledgements between them in any order and with any
losses.  An acknowledgement of an advertisement carries the id of the message, and the sender
compares it with the sequence number on record.  The two are equal except for a regenerated
advertisement, whose record is never erased.  Where none is sent to a peer, an acknowledgement of
the last message of its kind and origin erases the record (`acks_match`).
-/

namespace Afabric

/-- An acknowledgement on its way from a peer, with the message it acknowledges. -/
structure InFlightAck where
  peer : ℕ
  ack : LsMessage
  acked : LsMessage
deriving DecidableEq

/-- The node, what is in flight, all it has sent, and the ids sent to a peer that the peer has not
acknowledged since. -/
structure AckNet where
  center : LsMessageCenter
  manager : LsRetransmissionManager
  out : List (ℕ × ℕ)
  acks : List InFlightAck
  sent : List (ℕ × LsMessage)
  unacked : List (ℕ × ℕ)

namespace AckNet

open LsRetransmissionManager

def init : AckNet where
  center := .init
  manager := .empty
  out := []
  acks := []
  sent := []
  unacked := []

/-- A step of node `me`, where every message sent satisfies `P`.  A topology map is sent by its
originator only. -/
inductive Step (me : ℕ) (P : LsMessage → Prop) (s : AckNet) : AckNet → Prop
  | newMessage (nodeId : ℕ) (type : LsMessageType) (h : type = .lsa ∨ type = .tpm) :
      Step me P s { s with center := (s.center.newMessage nodeId type).2 }
  | regenerate (origin seq : ℕ) :
      Step me P s { s with center := (s.center.regenerate origin seq).2 }
  | send (peer id : ℕ) (m : LsMessage) (hm : s.center.lsaMessages.find id = some m)
      (htpm : m.type = .tpm → m.originNodeId = me) (hP : P m) :
      Step me P s { s with manager := messageOut peer m s.manager
                           out := (peer, id) :: s.out
                           sent := s.sent ++ [(peer, m)]
                           unacked := (peer, id) :: s.unacked }
  | receive (peer id ackId : ℕ) (m : LsMessage) (hout : (peer, id) ∈ s.out)
      (hm : s.center.lsaMessages.find id = some m) :
      Step me P s { s with out := s.out.erase (peer, id)
                           acks := ⟨peer, sendAck me m ackId, m⟩ :: s.acks }
  | ack (a : InFlightAck) (mgr : LsRetransmissionManager) (ha : a ∈ s.acks)
      (h : ackIn a.peer a.ack s.manager = some mgr) :
      Step me P s { s with manager := mgr
                           acks := s.acks.erase a
                           unacked := s.unacked.filter (· ≠ (a.peer, a.acked.messageId)) }
  | expire (peer : ℕ) (ids : List ℕ) (mgr : LsRetransmissionManager)
      (h : expire peer s.manager = some (ids, mgr)) :
      Step me P s { s with manager := mgr, out := ids.map (fun id => (peer, id)) ++ s.out }
  | cancelTimer (peer : ℕ) : Step me P s { s with manager := cancelTimer peer s.manager }
  | loseMessage (e : ℕ × ℕ) : Step me P s { s with out := s.out.erase e }
  | loseAck (a : InFlightAck) : Step me P s { s with acks := s.acks.erase a }

inductive Run (me : ℕ) (P : LsMessage → Prop) : AckNet → Prop
  | init : Run me P init
  | step {s s'} (h : Run me P s) (hs : Step me P s s') : Run me P s'

/-- The sequence number of an advertisement is its id: it has not been regenerated. -/
def OwnId (m : LsMessage) : Prop := m.type = .lsa → m.sequenceNumber = m.messageId

/-- `m` is the last message of its kind and origin that was sent to the peer. -/
def LastSent (s : AckNet) (peer : ℕ) (m : LsMessage) : Prop :=
  (s.sent.filter fun e => e.1 = peer ∧ e.2.type = m.type ∧
    e.2.originNodeId = m.originNodeId).getLast? = some (peer, m)

/-- The record of a peer with this id is that of the last message of its kind and origin. -/
structure OnRecord (s : AckNet) (peer id : ℕ) (m : LsMessage) : Prop where
  found : s.center.lsaMessages.find id = some m
  unacked : (peer, id) ∈ s.unacked
  last : s.LastSent peer m

structure PeerOk (me : ℕ) (s : AckNet) (peer : ℕ) (p : LsUnackPeer) : Prop where
  timer : p.timer = .pending ↔ ¬ p.Quiet
  tpm : p.tpmSeq ≠ 0 →
    ∃ m, m.type = .tpm ∧ m.originNodeId = me ∧ OnRecord s peer p.tpmSeq m
  lsa : ∀ o r, p.lsaMap.find o = some r → r.seq = r.msgId ∧
    ∃ m, m.type = .lsa ∧ m.originNodeId = o ∧ OwnId m ∧ OnRecord s peer r.msgId m

structure Inv (me : ℕ) (s : AckNet) : Prop where
  fresh : 0 < s.center.currentLsaId
  center : ∀ id m, s.center.lsaMessages.find id = some m → m.messageId = id ∧ id ≠ 0 ∧
    id < s.center.currentLsaId ∧ (m.type = .lsa ∨ m.type = .tpm ∧ m.sequenceNumber = id)
  out : ∀ peer id, (peer, id) ∈ s.out →
    ∃ m, s.center.lsaMessages.find id = some m ∧ OwnId m ∧ (m.type = .tpm → m.originNodeId = me)
  acks : ∀ a ∈ s.acks, s.center.lsaMessages.find a.acked.messageId = some a.acked ∧
    (a.acked.type = .tpm → a.acked.originNodeId = me) ∧
    a.ack = sendAck me a.acked a.ack.messageId
  peers : ∀ peer p, s.manager.find peer = some p → PeerOk me s peer p

theorem inv_init (me : ℕ) : Inv me init where
  fresh := Nat.one_pos
  center := fun _ _ h => by cases h
  out := fun _ _ h => absurd h List.not_mem_nil
  acks := fun _ h => absurd h List.not_mem_nil
  peers := fun _ _ h => by cases h

variable {me : ℕ} {s s' : AckNet} {peer id : ℕ} {m : LsMessage} {p : LsUnackPeer}

/-- A record stays what it is as long as no message is sent and none of its id acknowledged. -/
theorem OnRecord.mono (h : OnRecord s peer id m)
    (hfind : ∀ id m, s.center.lsaMessages.find id = some m →
      s'.center.lsaMessages.find id = some m)
    (hun : (peer, id) ∈ s.unacked → (peer, id) ∈ s'.unacked) (hsent : s'.sent = s.sent) :
    OnRecord s' peer id m :=
  ⟨hfind _ _ h.found, hun h.unacked, by rw [LastSent, hsent]; exact h.last⟩

theorem PeerOk.mono (h : PeerOk me s peer p)
    (hfind : ∀ id m, s.center.lsaMessages.find id = some m →
      s'.center.lsaMessages.find id = some m)
    (hun : ∀ e ∈ s.unacked, e ∈ s'.unacked) (hsent : s'.sent = s.sent) :
    PeerOk me s' peer p where
  timer := h.timer
  tpm := fun ht => by
    obtain ⟨m, h₁, h₂, hr⟩ := h.tpm ht
    exact ⟨m, h₁, h₂, hr.mono hfind (hun _) hsent⟩
  lsa := fun o r hr => by
    obtain ⟨hseq, m, h₁, h₂, h₃, hm⟩ := h.lsa o r hr
    exact ⟨hseq, m, h₁, h₂, h₃, hm.mono hfind (hun _) hsent⟩

/-! ### Messages -/

theorem Inv.fresh_none (h : Inv me s) : s.center.lsaMessages.find s.center.currentLsaId = none := by
  cases hf : s.center.lsaMessages.find s.center.currentLsaId with
  | none => rfl
  | some m => exact absurd (h.center _ m hf).2.2.1 (lt_irrefl _)

/-- A message with the next id. -/
theorem Inv.create (h : Inv me s) {c : LsMessageCenter} (msg : LsMessage)
    (hfind : ∀ id, c.lsaMessages.find id =
      if id = s.center.currentLsaId then some msg else s.center.lsaMessages.find id)
    (hid : c.currentLsaId = s.center.currentLsaId + 2)
    (hmsg : msg.messageId = s.center.currentLsaId)
    (htype : msg.type = .lsa ∨ msg.type = .tpm ∧ msg.sequenceNumber = msg.messageId) :
    Inv me { s with center := c } := by
  have hmono : ∀ id m, s.center.lsaMessages.find id = some m →
      c.lsaMessages.find id = some m := by
    intro id m hm
    rw [hfind, if_neg]
    · exact hm
    · rintro rfl
      rw [h.fresh_none] at hm
      cases hm
  have hfresh := h.fresh
  refine ⟨by rw [hid]; omega, fun id m hm => ?_, fun peer id he => ?_, fun a ha => ?_,
    fun peer p hp => (h.peers peer p hp).mono hmono (fun _ he => he) rfl⟩
  · have hm' : (if id = s.center.currentLsaId then some msg else s.center.lsaMessages.find id) =
        some m := (hfind id).symm.trans hm
    have hid' : c.currentLsaId = s.center.currentLsaId + 2 := hid
    by_cases hc : id = s.center.currentLsaId
    · rw [if_pos hc] at hm'
      obtain rfl := Option.some.inj hm'
      have hne : id ≠ 0 := by omega
      refine ⟨hmsg.trans hc.symm, hne, by dsimp only; omega, ?_⟩
      rwa [hmsg, ← hc] at htype
    · rw [if_neg hc] at hm'
      obtain ⟨h₁, h₂, h₃, h₄⟩ := h.center id m hm'
      exact ⟨h₁, h₂, by dsimp only; omega, h₄⟩
  · obtain ⟨m, hm, hown⟩ := h.out peer id he
    exact ⟨m, hmono id m hm, hown⟩
  · obtain ⟨h₁, h₂, h₃⟩ := h.acks a ha
    exact ⟨hmono _ _ h₁, h₂, h₃⟩

theorem Inv.newMessage (h : Inv me s) (nodeId : ℕ) {type : LsMessageType}
    (htype : type = .lsa ∨ type = .tpm) :
    Inv me { s with center := (s.center.newMessage nodeId type).2 } :=
  h.create (s.center.newMessage nodeId type).1 (fun _ => OrdMap.find_set) rfl rfl
    (htype.imp_right fun ht => ⟨ht, rfl⟩)

theorem Inv.regenerate (h : Inv me s) (origin seq : ℕ) :
    Inv me { s with center := (s.center.regenerate origin seq).2 } := by
  refine h.create (s.center.regenerate origin seq).1 (fun id => ?_) rfl rfl (.inl rfl)
  simp only [LsMessageCenter.regenerate, LsMessageCenter.newMessage, OrdMap.find_set]
  split_ifs <;> rfl

/-! ### Sending -/

/-- A later message of another kind, origin or peer. -/
theorem LastSent.send (h : LastSent s peer m) {q : ℕ} {m' : LsMessage}
    (hsent : s'.sent = s.sent ++ [(q, m')])
    (hother : q = peer → m'.type = m.type → m'.originNodeId ≠ m.originNodeId) :
    LastSent s' peer m := by
  have hne : ¬ (q = peer ∧ m'.type = m.type ∧ m'.originNodeId = m.originNodeId) := fun hc =>
    hother hc.1 hc.2.1 hc.2.2
  rw [LastSent, hsent, List.filter_append, List.filter_cons_of_neg (by simpa using hne),
    List.filter_nil, List.append_nil]
  exact h

theorem lastSent_send (hsent : s'.sent = s.sent ++ [(peer, m)]) : LastSent s' peer m := by
  rw [LastSent, hsent, List.filter_append, List.filter_cons_of_pos (by simp), List.filter_nil,
    List.getLast?_concat]

theorem LastSent.unique {m' : LsMessage} (h : LastSent s peer m) (h' : LastSent s peer m')
    (htype : m'.type = m.type) (horigin : m'.originNodeId = m.originNodeId) : m' = m := by
  rw [LastSent, htype, horigin] at h'
  exact (Prod.mk.inj (Option.some.inj (h'.symm.trans h))).2

/-- The state when the message with the id has been sent. -/
def sending (s : AckNet) (mgr : LsRetransmissionManager) (peer id : ℕ) (m : LsMessage) : AckNet :=
  { s with manager := mgr
           out := (peer, id) :: s.out
           sent := s.sent ++ [(peer, m)]
           unacked := (peer, id) :: s.unacked }

theorem OnRecord.send (h : OnRecord s peer id m) {q j : ℕ} {m' : LsMessage}
    {mgr : LsRetransmissionManager}
    (hother : q = peer → m'.type = m.type → m'.originNodeId ≠ m.originNodeId) :
    OnRecord (s.sending mgr q j m') peer id m :=
  ⟨h.found, List.mem_cons_of_mem _ h.unacked, h.last.send rfl hother⟩

theorem peerOk_init : PeerOk me s peer .init where
  timer := ⟨fun h => (by cases h), fun h => absurd ⟨rfl, rfl⟩ h⟩
  tpm := fun h => absurd rfl h
  lsa := fun _ _ h => by cases h

theorem Inv.peerOk (h : Inv me s) (peer : ℕ) :
    PeerOk me s peer ((s.manager.find peer).getD .init) := by
  cases hf : s.manager.find peer with
  | none => exact peerOk_init
  | some p => exact h.peers peer p hf

/-- The record of a peer to which an LSA message is sent. -/
theorem PeerOk.sendLsa (h : PeerOk me s peer p) {mgr : LsRetransmissionManager}
    (hm : s.center.lsaMessages.find id = some m) (hid : m.messageId = id) (hown : OwnId m)
    (hl : m.type = .lsa) :
    PeerOk me (s.sending mgr peer id m) peer { recorded m p with timer := .pending } := by
  have hrec : recorded m p = { p with
      lsaMap := p.lsaMap.set m.originNodeId ⟨m.messageId, m.sequenceNumber⟩ } := by
    simp only [recorded, hl]
  rw [hrec]
  constructor
  case timer =>
    refine iff_of_true rfl fun hquiet => ?_
    have hnone := OrdMap.entries_eq_nil_iff.mp hquiet.2 m.originNodeId
    rw [OrdMap.find_set, if_pos rfl] at hnone
    cases hnone
  case tpm =>
    intro hz
    obtain ⟨m', h₁, h₂, hr⟩ := h.tpm hz
    refine ⟨m', h₁, h₂, hr.send fun _ hk => ?_⟩
    rw [hl, h₁] at hk
    cases hk
  case lsa =>
    intro o r hr
    dsimp only at hr
    rw [OrdMap.find_set] at hr
    by_cases ho : o = m.originNodeId
    · rw [if_pos ho] at hr
      obtain rfl := Option.some.inj hr
      refine ⟨hown hl, m, hl, ho.symm, hown, ?_⟩
      rw [hid]
      exact ⟨hm, List.mem_cons_self, lastSent_send rfl⟩
    · rw [if_neg ho] at hr
      obtain ⟨hseq, m', h₁, h₂, h₃, hr'⟩ := h.lsa o r hr
      exact ⟨hseq, m', h₁, h₂, h₃, hr'.send fun _ _ he => ho (h₂ ▸ he.symm)⟩

/-- The record of a peer to which a TPM message is sent. -/
theorem PeerOk.sendTpm (h : PeerOk me s peer p) {mgr : LsRetransmissionManager}
    (hm : s.center.lsaMessages.find id = some m) (hne : id ≠ 0) (hseq : m.sequenceNumber = id)
    (ht : m.type = .tpm) (hme : m.originNodeId = me) :
    PeerOk me (s.sending mgr peer id m) peer { recorded m p with timer := .pending } := by
  have hrec : recorded m p = { p with tpmSeq := m.sequenceNumber } := by
    simp only [recorded, ht]
  rw [hrec, hseq]
  constructor
  case timer => exact iff_of_true rfl fun hquiet => hne hquiet.1
  case tpm => exact fun _ => ⟨m, ht, hme, hm, List.mem_cons_self, lastSent_send rfl⟩
  case lsa =>
    intro o r hr
    obtain ⟨hseq, m', h₁, h₂, h₃, hr'⟩ := h.lsa o r hr
    refine ⟨hseq, m', h₁, h₂, h₃, hr'.send fun _ hk => ?_⟩
    rw [ht, h₁] at hk
    cases hk

/-- The record of another peer. -/
theorem PeerOk.sendOther {q : ℕ} (h : PeerOk me s q p) {mgr : LsRetransmissionManager}
    (hq : q ≠ peer) : PeerOk me (s.sending mgr peer id m) q p where
  timer := h.timer
  tpm := fun hz => by
    obtain ⟨m', h₁, h₂, hr⟩ := h.tpm hz
    exact ⟨m', h₁, h₂, hr.send fun he => absurd he.symm hq⟩
  lsa := fun o r hr => by
    obtain ⟨hseq, m', h₁, h₂, h₃, hr'⟩ := h.lsa o r hr
    exact ⟨hseq, m', h₁, h₂, h₃, hr'.send fun he => absurd he.symm hq⟩

theorem Inv.send (h : Inv me s) (hm : s.center.lsaMessages.find id = some m)
    (htpm : m.type = .tpm → m.originNodeId = me) (hown : OwnId m) :
    Inv me (s.sending (messageOut peer m s.manager) peer id m) := by
  obtain ⟨hid, hne, -, htype⟩ := h.center id m hm
  refine ⟨h.fresh, h.center, fun q j he => ?_, h.acks, fun q p hp => ?_⟩
  · rcases List.mem_cons.mp he with he | he
    · obtain ⟨rfl, rfl⟩ := Prod.mk.inj he
      exact ⟨m, hm, hown, htpm⟩
    · exact h.out q j he
  · dsimp only [sending, messageOut] at hp
    rw [OrdMap.find_set] at hp
    by_cases hq : q = peer
    · subst hq
      rw [if_pos rfl] at hp
      obtain rfl := Option.some.inj hp
      rcases htype with hl | ⟨ht, hseq⟩
      · exact (h.peerOk q).sendLsa hm hid hown hl
      · exact (h.peerOk q).sendTpm hm hne hseq ht (htpm ht)
    · rw [if_neg hq] at hp
      exact (h.peers q p hp).sendOther hq

/-! ### Acknowledgements -/

/-- The record loses what has the id of the message, and nothing else. -/
structure Erased (p p' : LsUnackPeer) (id : ℕ) : Prop where
  timer : p'.timer = p.timer
  tpm : p'.tpmSeq ≠ 0 → p'.tpmSeq = p.tpmSeq ∧ p.tpmSeq ≠ id
  lsa : ∀ o r, p'.lsaMap.find o = some r → p.lsaMap.find o = some r ∧ r.msgId ≠ id

theorem acknowledged_erased (h : Inv me s) {a : InFlightAck} (ha : a ∈ s.acks)
    (hp : PeerOk me s peer p) : Erased p (acknowledged a.ack p) a.acked.messageId := by
  obtain ⟨hfind, -, hack⟩ := h.acks a ha
  obtain ⟨-, -, -, htype⟩ := h.center _ _ hfind
  -- a record with the id of the message is that of the message
  have hsame : ∀ m, s.center.lsaMessages.find a.acked.messageId = some m → m = a.acked :=
    fun m hm => Option.some.inj (hm.symm.trans hfind)
  rw [hack]
  rcases htype with hl | ⟨ht, hseq⟩
  · have hno : p.tpmSeq ≠ 0 → p.tpmSeq ≠ a.acked.messageId := by
      intro hz he
      obtain ⟨m, hm, -, hr⟩ := hp.tpm hz
      rw [hsame m (he ▸ hr.found), hl] at hm
      cases hm
    have hother : ∀ o r, p.lsaMap.find o = some r → o ≠ a.acked.originNodeId →
        r.msgId ≠ a.acked.messageId := by
      intro o r hr ho he
      obtain ⟨-, m, -, horigin, -, hrec⟩ := hp.lsa o r hr
      exact ho (horigin.symm.trans (by rw [hsame m (he ▸ hrec.found)]))
    simp only [sendAck, if_pos hl, acknowledged]
    cases hr : p.lsaMap.find a.acked.originNodeId with
    | none =>
        refine ⟨rfl, fun hz => ⟨rfl, hno hz⟩, fun o r hr' => ⟨hr', hother o r hr' ?_⟩⟩
        rintro rfl
        rw [hr] at hr'
        cases hr'
    | some r =>
        dsimp only
        split_ifs with hseq
        · refine ⟨rfl, fun hz => ⟨rfl, hno hz⟩, fun o r' hr' => ?_⟩
          dsimp only at hr'
          rw [OrdMap.find_erase] at hr'
          by_cases ho : o = a.acked.originNodeId
          · rw [if_pos ho] at hr'
            cases hr'
          · rw [if_neg ho] at hr'
            exact ⟨hr', hother o r' hr' ho⟩
        · refine ⟨rfl, fun hz => ⟨rfl, hno hz⟩, fun o r' hr' => ⟨hr', fun he => ?_⟩⟩
          by_cases ho : o = a.acked.originNodeId
          · rw [ho, hr] at hr'
            obtain rfl := Option.some.inj hr'
            exact hseq ((hp.lsa _ r hr).1.trans he)
          · exact hother o r' hr' ho he
  · have hnl : a.acked.type ≠ .lsa := by
      rw [ht]
      exact LsMessageType.noConfusion
    have hother : ∀ o r, p.lsaMap.find o = some r → r.msgId ≠ a.acked.messageId := by
      intro o r hr he
      obtain ⟨-, m, hm, -, -, hrec⟩ := hp.lsa o r hr
      exact hnl (hsame m (he ▸ hrec.found) ▸ hm)
    simp only [sendAck, if_neg hnl, acknowledged, hseq]
    split_ifs with hz
    · exact ⟨rfl, fun h0 => absurd rfl h0, fun o r hr => ⟨hr, hother o r hr⟩⟩
    · exact ⟨rfl, fun _ => ⟨rfl, hz⟩, fun o r hr => ⟨hr, hother o r hr⟩⟩

/-- `ackIn` does not abort, and leaves no record of the message. -/
theorem ackIn_spec (h : Inv me s) {a : InFlightAck} (ha : a ∈ s.acks) :
    ∃ mgr, ackIn a.peer a.ack s.manager = some mgr ∧
      (∀ q, q ≠ a.peer → mgr.find q = s.manager.find q) ∧
      ∀ p', mgr.find a.peer = some p' → (p'.timer = .pending ↔ ¬ p'.Quiet) ∧
        ∃ p, s.manager.find a.peer = some p ∧
          (p'.tpmSeq ≠ 0 → p'.tpmSeq = p.tpmSeq ∧ p.tpmSeq ≠ a.acked.messageId) ∧
          ∀ o r, p'.lsaMap.find o = some r →
            p.lsaMap.find o = some r ∧ r.msgId ≠ a.acked.messageId := by
  rw [ackIn]
  cases hf : s.manager.find a.peer with
  | none =>
      refine ⟨_, rfl, fun _ _ => rfl, fun p' hp' => ?_⟩
      rw [hf] at hp'
      cases hp'
  | some p =>
      have hp := h.peers a.peer p hf
      have he := acknowledged_erased h ha hp
      dsimp only
      by_cases hq : p.Quiet
      · rw [if_pos hq]
        refine ⟨_, rfl, fun _ _ => rfl, fun p' hp' => ?_⟩
        obtain rfl := Option.some.inj (hf.symm.trans hp')
        refine ⟨hp.timer, p, rfl, fun hz => absurd hq.1 hz, fun o r hr => ?_⟩
        rw [OrdMap.entries_eq_nil_iff.mp hq.2 o] at hr
        cases hr
      · have htimer := hp.timer.mpr hq
        rw [if_neg hq]
        by_cases hq' : (acknowledged a.ack p).Quiet
        · rw [if_pos hq', he.timer, if_pos htimer]
          refine ⟨_, rfl, fun q hne => by rw [OrdMap.find_set, if_neg hne], fun p' hp' => ?_⟩
          rw [OrdMap.find_set, if_pos rfl] at hp'
          obtain rfl := Option.some.inj hp'
          exact ⟨⟨fun hc => (by cases hc), fun hc => absurd hq' hc⟩, p, rfl, he.tpm, he.lsa⟩
        · rw [if_neg hq']
          refine ⟨_, rfl, fun q hne => by rw [OrdMap.find_set, if_neg hne], fun p' hp' => ?_⟩
          rw [OrdMap.find_set, if_pos rfl] at hp'
          obtain rfl := Option.some.inj hp'
          exact ⟨iff_of_true (he.timer.trans htimer) hq', p, rfl, he.tpm, he.lsa⟩

theorem Inv.ack (h : Inv me s) {a : InFlightAck} (ha : a ∈ s.acks) {mgr : LsRetransmissionManager}
    (hack : ackIn a.peer a.ack s.manager = some mgr) :
    Inv me { s with manager := mgr
                    acks := s.acks.erase a
                    unacked := s.unacked.filter (· ≠ (a.peer, a.acked.messageId)) } := by
  obtain ⟨mgr', hmgr, hothers, hpeer⟩ := ackIn_spec h ha
  obtain rfl := Option.some.inj (hmgr.symm.trans hack)
  have hkeep : ∀ {q j m}, OnRecord s q j m → (q, j) ≠ (a.peer, a.acked.messageId) →
      OnRecord { s with manager := mgr'
                        acks := s.acks.erase a
                        unacked := s.unacked.filter (· ≠ (a.peer, a.acked.messageId)) } q j m :=
    fun hr hne => hr.mono (fun _ _ hm => hm)
      (fun hm => List.mem_filter.mpr ⟨hm, decide_eq_true hne⟩) rfl
  refine ⟨h.fresh, h.center, h.out, fun b hb => h.acks b (List.mem_of_mem_erase hb),
    fun q p hp => ?_⟩
  by_cases hq : q = a.peer
  · subst hq
    obtain ⟨htimer, p₀, hp₀, htpm, hlsa⟩ := hpeer p hp
    have hold := h.peers _ p₀ hp₀
    refine ⟨htimer, fun hz => ?_, fun o r hr => ?_⟩
    · obtain ⟨he, hne⟩ := htpm hz
      rw [he] at hz ⊢
      obtain ⟨m, h₁, h₂, hr⟩ := hold.tpm hz
      exact ⟨m, h₁, h₂, hkeep hr fun hc => hne (Prod.mk.inj hc).2⟩
    · obtain ⟨hr, hne⟩ := hlsa o r hr
      obtain ⟨hseq, m, h₁, h₂, h₃, hrec⟩ := hold.lsa o r hr
      exact ⟨hseq, m, h₁, h₂, h₃, hkeep hrec fun hc => hne (Prod.mk.inj hc).2⟩
  · have hp' : s.manager.find q = some p := (hothers q hq).symm.trans hp
    have hold := h.peers q p hp'
    have hne : ∀ j, (q, j) ≠ (a.peer, a.acked.messageId) := fun j hc => hq (Prod.mk.inj hc).1
    refine ⟨hold.timer, fun hz => ?_, fun o r hr => ?_⟩
    · obtain ⟨m, h₁, h₂, hr⟩ := hold.tpm hz
      exact ⟨m, h₁, h₂, hkeep hr (hne _)⟩
    · obtain ⟨hseq, m, h₁, h₂, h₃, hrec⟩ := hold.lsa o r hr
      exact ⟨hseq, m, h₁, h₂, h₃, hkeep hrec (hne _)⟩

theorem Inv.receive (h : Inv me s) (ackId : ℕ) (hout : (peer, id) ∈ s.out)
    (hm : s.center.lsaMessages.find id = some m) :
    Inv me { s with out := s.out.erase (peer, id)
                    acks := ⟨peer, sendAck me m ackId, m⟩ :: s.acks } := by
  obtain ⟨m', hm', -, htpm⟩ := h.out peer id hout
  obtain rfl := Option.some.inj (hm'.symm.trans hm)
  obtain ⟨hid, -, -, -⟩ := h.center id m' hm
  refine ⟨h.fresh, h.center, fun q j he => h.out q j (List.mem_of_mem_erase he), fun a ha => ?_,
    fun q p hp => (h.peers q p hp).mono (fun _ _ hm => hm) (fun _ he => he) rfl⟩
  rcases List.mem_cons.mp ha with rfl | ha
  · refine ⟨hid.symm ▸ hm, htpm, ?_⟩
    simp only [sendAck]
    split_ifs <;> rfl
  · exact h.acks a ha

/-! ### The timer -/

/-- What is sent again has been sent before. -/
theorem Inv.expire (h : Inv me s) {ids : List ℕ} {mgr : LsRetransmissionManager}
    (he : LsRetransmissionManager.expire peer s.manager = some (ids, mgr)) :
    Inv me { s with manager := mgr, out := ids.map (fun id => (peer, id)) ++ s.out } := by
  rw [LsRetransmissionManager.expire] at he
  obtain ⟨p, hf, he⟩ := Option.bind_eq_some_iff.mp he
  have hp := h.peers peer p hf
  by_cases ht : p.timer = .pending
  · rw [if_pos ht, resendMessages, OrdMap.find_set, if_pos rfl] at he
    obtain ⟨rfl, rfl⟩ := Prod.mk.inj (Option.some.inj he)
    refine ⟨h.fresh, h.center, fun q j hm => ?_, h.acks, fun q p' hp' => ?_⟩
    · rcases List.mem_append.mp hm with hm | hm
      · obtain ⟨k, hk, hkq⟩ := List.mem_map.mp hm
        obtain ⟨rfl, rfl⟩ := Prod.mk.inj hkq
        rcases List.mem_append.mp hk with hk | hk
        · dsimp only at hk
          split_ifs at hk with hz
          · rw [List.mem_singleton.mp hk]
            obtain ⟨m, hmt, hmo, hr⟩ := hp.tpm hz
            refine ⟨m, hr.found, fun hl => ?_, fun _ => hmo⟩
            rw [hmt] at hl
            cases hl
          · exact absurd hk List.not_mem_nil
        · obtain ⟨⟨o, r⟩, hmem, rfl⟩ := List.mem_map.mp hk
          obtain ⟨-, m, hml, -, hown, hr⟩ := hp.lsa o r (OrdMap.find_eq_some_iff.mpr hmem)
          refine ⟨m, hr.found, hown, fun ht => ?_⟩
          rw [hml] at ht
          cases ht
      · exact h.out q j hm
    · dsimp only at hp'
      rw [OrdMap.find_set, OrdMap.find_set] at hp'
      by_cases hq : q = peer
      · subst hq
        rw [if_pos rfl] at hp'
        obtain rfl := Option.some.inj hp'
        have hpending : PeerOk me s q { p with timer := .pending } :=
          ⟨iff_of_true rfl (hp.timer.mp ht), hp.tpm, hp.lsa⟩
        exact hpending.mono (fun _ _ hm => hm) (fun _ he => he) rfl
      · rw [if_neg hq, if_neg hq] at hp'
        exact (h.peers q p' hp').mono (fun _ _ hm => hm) (fun _ he => he) rfl
  · rw [if_neg ht] at he
    cases he

theorem Inv.cancelTimer (h : Inv me s) (peer : ℕ) :
    Inv me { s with manager := cancelTimer peer s.manager } := by
  refine ⟨h.fresh, h.center, h.out, h.acks, fun q p hp => ?_⟩
  dsimp only [LsRetransmissionManager.cancelTimer] at hp
  cases hf : s.manager.find peer with
  | none =>
      rw [hf] at hp
      exact (h.peers q p hp).mono (fun _ _ hm => hm) (fun _ he => he) rfl
  | some p₀ =>
      rw [hf] at hp
      dsimp only at hp
      rw [OrdMap.find_set] at hp
      by_cases hq : q = peer
      · rw [if_pos hq] at hp
        obtain rfl := Option.some.inj hp
        refine ⟨iff_of_false ?_ fun hc => hc ⟨rfl, rfl⟩, fun hz => absurd rfl hz, fun o r hr => ?_⟩
        · dsimp only
          split_ifs with ht
          · exact not_false
          · exact ht
        · cases hr
      · rw [if_neg hq] at hp
        exact (h.peers q p hp).mono (fun _ _ hm => hm) (fun _ he => he) rfl

/-! ### Runs -/

theorem Inv.step (h : Inv me s) (hs : Step me OwnId s s') : Inv me s' := by
  cases hs with
  | newMessage nodeId type htype => exact h.newMessage nodeId htype
  | regenerate origin seq => exact h.regenerate origin seq
  | send peer id m hm htpm hP => exact h.send hm htpm hP
  | receive peer id ackId m hout hm => exact h.receive ackId hout hm
  | ack a mgr ha hack => exact h.ack ha hack
  | expire peer ids mgr he => exact h.expire he
  | cancelTimer peer => exact h.cancelTimer peer
  | loseMessage e =>
      exact ⟨h.fresh, h.center, fun q j he => h.out q j (List.mem_of_mem_erase he), h.acks,
        fun q p hp => (h.peers q p hp).mono (fun _ _ hm => hm) (fun _ he => he) rfl⟩
  | loseAck a =>
      exact ⟨h.fresh, h.center, h.out, fun b hb => h.acks b (List.mem_of_mem_erase hb),
        fun q p hp => (h.peers q p hp).mono (fun _ _ hm => hm) (fun _ he => he) rfl⟩

theorem Run.inv (h : Run me OwnId s) : Inv me s := by
  induction h with
  | init => exact inv_init me
  | step _ hs ih => exact ih.step hs

end AckNet

end Afabric
