import Mathlib.Algebra.Order.Ring.Int

/-!
# Tcp — the congestion echo of a receiver

The receiver of a FullTcp connection keeps in a tracker whether it echoes congestion
(`tcp/ecn/tcp-full-receivers.cc`), and a data packet that changes this is preceded by an ACK for the
pending ones with the echo before the change (`EcnProcessor` in `tcp/tcp-full.cc`).  That echo is
not kept; it is taken to be the opposite of the new one.

The AFabric tracker also reports a change when the first packet above the lowest priority arrives,
whether or not its echo changes, and then the opposite is wrong (`first_priority_ack`).  A packet
with a new acknowledgement is told to the tracker twice, and the second time takes the report back;
and it may make the sender retransmit, with the new echo on the old acknowledgement.  `ce_echo_iff`
says that there is no other way for an ACK to be wrong.  The AFabric tracker never forgets its first
packet above the lowest priority.  A flow that begins with lowest-priority packets is therefore not
echoed after a flow that had others (`echo_lost`, `echo_per_flow_iff`).
-/

namespace Afabric

/-- What the trackers read of a packet, and its `datalen`. -/
structure CePacket where
  ce : Bool
  ect : Bool
  prio : ℤ
  datalen : ℤ
deriving DecidableEq, Repr

/-- An ECT data packet. -/
def CePacket.IsData (p : CePacket) : Prop := p.ect = true ∧ 0 < p.datalen

instance CePacket.decidableIsData (p : CePacket) : Decidable p.IsData :=
  inferInstanceAs (Decidable (_ ∧ _))

/-- `FullTcpAgent::get_lowest_priority`. -/
def lowestPriority : ℤ := 1 <<< 30

/-- `EcnhatReceiverCETracker`. -/
structure EcnhatReceiverCETracker where
  recentCe : Bool
  ceTransition : Bool
deriving DecidableEq, Repr

namespace EcnhatReceiverCETracker

def update (t : EcnhatReceiverCETracker) (newCe : Bool) : EcnhatReceiverCETracker :=
  { t with ceTransition := t.recentCe ≠ newCe, recentCe := newCe }

def onNewPacket (t : EcnhatReceiverCETracker) (p : CePacket) : EcnhatReceiverCETracker :=
  if p.ce && p.ect then t.update true
  else if p.datalen > 0 && !p.ce && p.ect then t.update false
  else t

theorem onNewPacket_eq {p : CePacket} (hp : p.IsData) (t : EcnhatReceiverCETracker) :
    t.onNewPacket p = t.update p.ce := by
  cases hce : p.ce <;> simp [onNewPacket, hp.1, hp.2, hce]

end EcnhatReceiverCETracker

/-- `AFabricReceiverCETracker`. -/
structure AFabricReceiverCETracker where
  recentCe : Bool
  isLowPrio : Bool
  ceTransition : Bool
deriving DecidableEq, Repr

namespace AFabricReceiverCETracker

/-- The constructor. -/
def init : AFabricReceiverCETracker := ⟨false, true, false⟩

def isPriorityValid (t : AFabricReceiverCETracker) (prio : ℤ) : Bool :=
  t.isLowPrio || prio ≠ lowestPriority

def isTransition (t : AFabricReceiverCETracker) (newCe : Bool) (prio : ℤ) : Bool :=
  (t.isPriorityValid prio && t.recentCe ≠ newCe) || (t.isLowPrio && prio ≠ lowestPriority)

def updatePriority (t : AFabricReceiverCETracker) (prio : ℤ) : AFabricReceiverCETracker :=
  { t with isLowPrio := t.isLowPrio && prio = lowestPriority }

def update (t : AFabricReceiverCETracker) (newCe : Bool) (prio : ℤ) : AFabricReceiverCETracker :=
  let t' := { t with ceTransition := t.isTransition newCe prio }.updatePriority prio
  { t' with recentCe := newCe && t'.isPriorityValid prio }

def onNewPacket (t : AFabricReceiverCETracker) (p : CePacket) : AFabricReceiverCETracker :=
  if p.ce && p.ect then t.update true p.prio
  else if p.datalen > 0 && !p.ce && p.ect then t.update false p.prio
  else t

theorem onNewPacket_eq {p : CePacket} (hp : p.IsData) (t : AFabricReceiverCETracker) :
    t.onNewPacket p = t.update p.ce p.prio := by
  cases hce : p.ce <;> simp [onNewPacket, hp.1, hp.2, hce]

/-- The first packet above the lowest priority does not change what priorities it makes count. -/
@[simp] theorem update_isPriorityValid (t : AFabricReceiverCETracker) (newCe : Bool) (prio : ℤ) :
    (t.update newCe prio).isPriorityValid prio = t.isPriorityValid prio := by
  cases hlow : t.isLowPrio <;> by_cases hprio : prio = lowestPriority <;>
    simp [isPriorityValid, update, updatePriority, hlow, hprio]

@[simp] theorem update_recentCe (t : AFabricReceiverCETracker) (newCe : Bool) (prio : ℤ) :
    (t.update newCe prio).recentCe = (newCe && t.isPriorityValid prio) :=
  congrArg (newCe && ·) (t.update_isPriorityValid newCe prio)

@[simp] theorem update_isLowPrio (t : AFabricReceiverCETracker) (newCe : Bool) (prio : ℤ) :
    (t.update newCe prio).isLowPrio = (t.isLowPrio && prio = lowestPriority) := rfl

@[simp] theorem update_ceTransition (t : AFabricReceiverCETracker) (newCe : Bool) (prio : ℤ) :
    (t.update newCe prio).ceTransition = t.isTransition newCe prio := rfl

end AFabricReceiverCETracker

/-- `get_recv_tracker()`, with `ecnhat_` set: by `afabric_ecn_enabled_`. -/
inductive ReceiverCETracker
  | ecnhat (t : EcnhatReceiverCETracker)
  | afabric (t : AFabricReceiverCETracker)
deriving DecidableEq, Repr

namespace ReceiverCETracker

def needCeEcho : ReceiverCETracker → Bool
  | ecnhat t => t.recentCe
  | afabric t => t.recentCe

def hasPending : ReceiverCETracker → Bool
  | ecnhat t => t.ceTransition
  | afabric t => t.ceTransition

def flipCe : ReceiverCETracker → ReceiverCETracker
  | ecnhat t => ecnhat { t with recentCe := !t.recentCe }
  | afabric t => afabric { t with recentCe := !t.recentCe }

def onNewPacket (p : CePacket) : ReceiverCETracker → ReceiverCETracker
  | ecnhat t => ecnhat (t.onNewPacket p)
  | afabric t => afabric (t.onNewPacket p)

/-- What `ce_set_packet_echo` writes to `ecn_low_prio`, if it does. -/
def ecnLowPrio : ReceiverCETracker → Bool
  | ecnhat _ => false
  | afabric t => t.isLowPrio

/-- The echo that a packet asks for: its mark, if its priority counts. -/
def asks (p : CePacket) : ReceiverCETracker → Bool
  | ecnhat _ => p.ce
  | afabric t => p.ce && t.isPriorityValid p.prio

/-- A packet that is the first above the lowest priority and asks for the echo already held. -/
def FirstAbove (p : CePacket) : ReceiverCETracker → Prop
  | ecnhat _ => False
  | afabric t => t.isLowPrio = true ∧ p.prio ≠ lowestPriority ∧ p.ce = t.recentCe

@[simp] theorem flipCe_flipCe (t : ReceiverCETracker) : t.flipCe.flipCe = t := by
  cases t <;> simp [flipCe]

@[simp] theorem needCeEcho_flipCe (t : ReceiverCETracker) : t.flipCe.needCeEcho = !t.needCeEcho := by
  cases t <;> rfl

variable {p : CePacket}

theorem needCeEcho_onNewPacket (hp : p.IsData) (t : ReceiverCETracker) :
    (t.onNewPacket p).needCeEcho = t.asks p := by
  cases t with
  | ecnhat t =>
      rw [onNewPacket, t.onNewPacket_eq hp]
      rfl
  | afabric t =>
      rw [onNewPacket, t.onNewPacket_eq hp]
      exact t.update_recentCe p.ce p.prio

/-- The second time a packet is told, the tracker keeps the echo and reports nothing. -/
theorem onNewPacket_twice (hp : p.IsData) (t : ReceiverCETracker) :
    ((t.onNewPacket p).onNewPacket p).needCeEcho = (t.onNewPacket p).needCeEcho ∧
      ((t.onNewPacket p).onNewPacket p).hasPending = false := by
  cases t with
  | ecnhat t => simp [onNewPacket, t.onNewPacket_eq hp, EcnhatReceiverCETracker.onNewPacket_eq hp,
      EcnhatReceiverCETracker.update, needCeEcho, hasPending]
  | afabric t =>
      simp [onNewPacket, AFabricReceiverCETracker.onNewPacket_eq hp, needCeEcho, hasPending,
        AFabricReceiverCETracker.isTransition]
      exact fun hvalid _ => hvalid

/-- A change is reported and the opposite of the new echo is not the old one. -/
theorem firstAbove_iff (hp : p.IsData) (t : ReceiverCETracker) :
    t.FirstAbove p ↔ (t.onNewPacket p).hasPending = true ∧ (!t.asks p) ≠ t.needCeEcho := by
  cases t with
  | ecnhat t =>
      rw [onNewPacket, t.onNewPacket_eq hp]
      cases hce : p.ce <;> simp [hasPending, needCeEcho, asks, FirstAbove,
        EcnhatReceiverCETracker.update, hce]
  | afabric t =>
      rw [onNewPacket, t.onNewPacket_eq hp]
      cases hce : p.ce <;> cases hlow : t.isLowPrio <;> cases hrec : t.recentCe <;>
        by_cases hprio : p.prio = lowestPriority <;>
        simp [hasPending, needCeEcho, asks, FirstAbove, AFabricReceiverCETracker.isTransition,
          AFabricReceiverCETracker.isPriorityValid, hce, hlow, hrec, hprio]

end ReceiverCETracker

/-! ### A receiver -/

/-- How `recv` goes with an in-order data packet: `fast`, when header prediction succeeds and the
packet acknowledges nothing new, or through the processing of its acknowledgement, after header
prediction or without it.  There a partial acknowledgement may make the agent retransmit. -/
inductive CePath
  | fast
  | slow (predicted resends : Bool)
deriving DecidableEq, Repr

namespace CePath

/-- The tracker is told twice. -/
def twice : CePath → Bool
  | fast => false
  | slow predicted _ => predicted

def resends : CePath → Bool
  | fast => false
  | slow _ resends => resends

end CePath

/-- What a segment of the receiver says about congestion. -/
structure CeAck where
  ackno : ℤ
  ecnecho : Bool
  ecnLowPrio : Bool
deriving DecidableEq, Repr

/-- A receiver that has negotiated ECN: `rcv_nxt_`, `last_ack_sent_` and the tracker, and for the
statements the segments it sent and the echo the tracker held at each `rcv_nxt_`, the last first. -/
structure CeReceiver where
  tracker : ReceiverCETracker
  rcvNxt : ℤ
  lastAckSent : ℤ
  acks : List CeAck
  echoes : List (ℤ × Bool)
deriving DecidableEq, Repr

namespace CeReceiver

/-- A receiver before the first data packet. -/
def start (tracker : ReceiverCETracker) (rcvNxt lastAckSent : ℤ) : CeReceiver where
  tracker := tracker
  rcvNxt := rcvNxt
  lastAckSent := lastAckSent
  acks := []
  echoes := [(rcvNxt, tracker.needCeEcho)]

/-- A segment is sent: the ECN part of `sendpacket`. -/
def sendpacket (r : CeReceiver) : CeReceiver :=
  let ece := r.tracker.needCeEcho
  { r with
    lastAckSent := r.rcvNxt
    acks := ⟨r.rcvNxt, ece, ece && r.tracker.ecnLowPrio⟩ :: r.acks }

def agentHasPendingAcks (r : CeReceiver) : Bool := r.rcvNxt - r.lastAckSent > 0

def sendImmediateAckWithPreviousCe (r : CeReceiver) : CeReceiver :=
  let r' := { r with tracker := r.tracker.flipCe }.sendpacket
  { r' with tracker := r'.tracker.flipCe }

def onReceivePureIncoming (r : CeReceiver) : CeReceiver :=
  if r.tracker.hasPending && r.agentHasPendingAcks then r.sendImmediateAckWithPreviousCe else r

/-- `on_receive_predict_ok` and `on_receive_ack_pre`. -/
def told (r : CeReceiver) (p : CePacket) : CePath → ReceiverCETracker
  | .fast => r.tracker.onNewPacket p
  | .slow predicted _ => (if predicted then r.tracker.onNewPacket p else r.tracker).onNewPacket p

/-- An in-order data packet arrives. -/
def recv (r : CeReceiver) (p : CePacket) (path : CePath) : CeReceiver :=
  let r' := { r with tracker := r.told p path }
  -- the retransmission in `pack_action`
  let r' := if path.resends then r'.sendpacket else r'
  let r' := r'.onReceivePureIncoming
  { r' with
    rcvNxt := r'.rcvNxt + p.datalen
    echoes := (r'.rcvNxt + p.datalen, r'.tracker.needCeEcho) :: r'.echoes }

/-- A data packet arrives, or a segment is sent: at once, by the timer, or with data. -/
inductive Event
  | recv (p : CePacket) (path : CePath)
  | send
deriving DecidableEq, Repr

def step (r : CeReceiver) : Event → CeReceiver
  | .recv p path => r.recv p path
  | .send => r.sendpacket

def run (r : CeReceiver) (es : List Event) : CeReceiver := es.foldl step r

/-- A segment has the echo that was held after the last packet it acknowledges. -/
def Right (r : CeReceiver) (a : CeAck) : Prop := r.echoes.lookup a.ackno = some a.ecnecho

/-- The packets that arrive are ECT data packets. -/
def Event.Valid : Event → Prop
  | .recv p _ => p.IsData
  | .send => True

/-- The agent retransmits on a packet that changes the echo; or an AFabric tracker is told, once, of
the first packet above the lowest priority, which asks for the echo held, with an ACK pending. -/
def Misfires (r : CeReceiver) : Event → Prop
  | .recv p path =>
      if path.resends then r.tracker.asks p ≠ r.tracker.needCeEcho
      else path.twice = false ∧ r.tracker.FirstAbove p ∧ r.lastAckSent < r.rcvNxt
  | .send => False

/-- No step of a run misfires. -/
def Clean (r : CeReceiver) : List Event → Prop
  | [] => True
  | e :: es => ¬ r.Misfires e ∧ (r.step e).Clean es

variable {r : CeReceiver} {e : Event} {es : List Event} {p : CePacket} {path : CePath}

/-- What the steps keep: the last echo is that of `rcv_nxt_`, the others and the segments are not
above it. -/
structure Inv (r : CeReceiver) : Prop where
  echoes : ∃ l, r.echoes = (r.rcvNxt, r.tracker.needCeEcho) :: l
  le : ∀ a ∈ r.acks, a.ackno ≤ r.rcvNxt

theorem start_inv (tracker : ReceiverCETracker) (n l : ℤ) : (start tracker n l).Inv :=
  ⟨⟨[], rfl⟩, by simp [start]⟩

theorem Inv.lookup (h : r.Inv) : r.echoes.lookup r.rcvNxt = some r.tracker.needCeEcho := by
  obtain ⟨l, hl⟩ := h.echoes
  rw [hl, List.lookup_cons_self]

theorem Inv.sendpacket (h : r.Inv) : r.sendpacket.Inv :=
  ⟨h.echoes, fun a ha => by
    rcases List.mem_cons.mp ha with rfl | ha
    · exact le_rfl
    · exact h.le a ha⟩

/-- A segment that is sent between two packets is right. -/
theorem Inv.sendpacket_right (h : r.Inv) :
    (∀ a ∈ r.sendpacket.acks, r.sendpacket.Right a) ↔ ∀ a ∈ r.acks, r.Right a := by
  have hlast : r.sendpacket.Right ⟨r.rcvNxt, r.tracker.needCeEcho,
      r.tracker.needCeEcho && r.tracker.ecnLowPrio⟩ := h.lookup
  exact ⟨fun hall a ha => hall a (List.mem_cons_of_mem _ ha), fun hall a ha => by
    rcases List.mem_cons.mp ha with rfl | ha
    · exact hlast
    · exact hall a ha⟩

theorem told_needCeEcho (hp : p.IsData) (r : CeReceiver) (path : CePath) :
    (r.told p path).needCeEcho = r.tracker.asks p := by
  rcases path with - | ⟨_ | _, resends⟩
  · exact r.tracker.needCeEcho_onNewPacket hp
  · exact r.tracker.needCeEcho_onNewPacket hp
  · exact (r.tracker.onNewPacket_twice hp).1.trans (r.tracker.needCeEcho_onNewPacket hp)

theorem told_hasPending (hp : p.IsData) (r : CeReceiver) (path : CePath) :
    (r.told p path).hasPending = true ↔
      path.twice = false ∧ (r.tracker.onNewPacket p).hasPending = true := by
  rcases path with - | ⟨_ | _, resends⟩
  · exact (and_iff_right rfl).symm
  · exact (and_iff_right rfl).symm
  · exact iff_of_false (by simp [told, r.tracker.onNewPacket_twice hp]) (by simp [CePath.twice])

/-- The segment that is sent while a packet is taken in: the retransmission has the new echo, the
immediate ACK the opposite of it. -/
def sentEcho (r : CeReceiver) (p : CePacket) (path : CePath) : Option Bool :=
  if path.resends then some (r.tracker.asks p)
  else if (r.told p path).hasPending = true ∧ r.lastAckSent < r.rcvNxt then some (!r.tracker.asks p)
  else none

/-- What a data packet does. -/
theorem recv_spec (hp : p.IsData) (r : CeReceiver) (path : CePath) :
    (r.recv p path).tracker = r.told p path ∧ (r.recv p path).rcvNxt = r.rcvNxt + p.datalen ∧
      (r.recv p path).echoes = (r.rcvNxt + p.datalen, r.tracker.asks p) :: r.echoes ∧
      ∃ low, (r.recv p path).acks
        = ((r.sentEcho p path).map fun ece => ⟨r.rcvNxt, ece, low⟩).toList ++ r.acks := by
  have hecho := told_needCeEcho hp r path
  rw [recv, onReceivePureIncoming, sentEcho]
  -- the tracker is told before `rcv_nxt_` moves
  by_cases hres : path.resends = true
  · simp [hres, agentHasPendingAcks, sendpacket, hecho]
  · have hpend : ({ r with tracker := r.told p path } : CeReceiver).agentHasPendingAcks
        = decide (r.lastAckSent < r.rcvNxt) := by
      rw [agentHasPendingAcks, decide_eq_decide]
      dsimp only
      omega
    simp only [if_neg hres, hpend, Bool.and_eq_true, decide_eq_true_eq]
    by_cases hc : (r.told p path).hasPending = true ∧ r.lastAckSent < r.rcvNxt
    · rw [if_pos hc, if_pos hc]
      simp [sendImmediateAckWithPreviousCe, sendpacket, hecho]
    · rw [if_neg hc, if_neg hc]
      exact ⟨rfl, rfl, by rw [hecho], false, rfl⟩

/-- The segment has the echo before the packet, unless the step misfires. -/
theorem sentEcho_iff (hp : p.IsData) (r : CeReceiver) (path : CePath) :
    (∀ ece ∈ r.sentEcho p path, ece = r.tracker.needCeEcho) ↔ ¬ r.Misfires (.recv p path) := by
  rw [Misfires, sentEcho]
  by_cases hres : path.resends = true
  · simp [hres]
  · rw [if_neg hres, if_neg hres, r.tracker.firstAbove_iff hp]
    have htold := told_hasPending hp r path
    split_ifs with hc
    · have hone := htold.mp hc.1
      cases hasks : r.tracker.asks p <;> cases hecho : r.tracker.needCeEcho <;>
        simp [hone, hc.2]
    · refine iff_of_true (by simp) ?_
      rintro ⟨htwice, ⟨hpend, -⟩, hlt⟩
      exact hc ⟨htold.mpr ⟨htwice, hpend⟩, hlt⟩

theorem Inv.recv (h : r.Inv) (hp : p.IsData) : (r.recv p path).Inv := by
  obtain ⟨htr, hn, he, low, hacks⟩ := recv_spec hp r path
  refine ⟨⟨r.echoes, by rw [he, hn, htr, told_needCeEcho hp]⟩, fun a ha => ?_⟩
  have hle : a.ackno ≤ r.rcvNxt := by
    rw [hacks, List.mem_append, Option.mem_toList, Option.map_eq_some_iff] at ha
    rcases ha with ⟨ece, -, rfl⟩ | ha
    · exact le_rfl
    · exact h.le a ha
  have := hp.2
  omega

/-- An earlier segment is as right as it was. -/
theorem recv_right_iff (hp : p.IsData) {a : CeAck} (ha : a.ackno ≤ r.rcvNxt) :
    (r.recv p path).Right a ↔ r.Right a := by
  have hne : (a.ackno == r.rcvNxt + p.datalen) = false := by
    have := hp.2
    rw [beq_eq_false_iff_ne]
    omega
  rw [Right, Right, (recv_spec hp r path).2.2.1, List.lookup_cons, hne]

/-- The segments are right after a data packet if they were before and the step does not misfire. -/
theorem Inv.recv_right (h : r.Inv) (hp : p.IsData) :
    (∀ a ∈ (r.recv p path).acks, (r.recv p path).Right a) ↔
      (∀ a ∈ r.acks, r.Right a) ∧ ¬ r.Misfires (.recv p path) := by
  obtain ⟨-, -, -, low, hacks⟩ := recv_spec hp r path
  have hold : (∀ a ∈ r.acks, (r.recv p path).Right a) ↔ ∀ a ∈ r.acks, r.Right a :=
    forall₂_congr fun a ha => recv_right_iff hp (h.le a ha)
  have hnew : ∀ ece, (r.recv p path).Right ⟨r.rcvNxt, ece, low⟩ ↔ ece = r.tracker.needCeEcho := by
    intro ece
    rw [recv_right_iff hp le_rfl, Right]
    dsimp only
    rw [h.lookup, Option.some_inj]
    exact eq_comm
  rw [hacks, ← sentEcho_iff hp, ← hold]
  cases r.sentEcho p path with
  | none => simp
  | some ece => simp [hnew, and_comm]

theorem Inv.step (h : r.Inv) (hv : e.Valid) : (r.step e).Inv := by
  cases e with
  | recv p path => exact h.recv hv
  | send => exact h.sendpacket

theorem Inv.step_right (h : r.Inv) (hv : e.Valid) :
    (∀ a ∈ (r.step e).acks, (r.step e).Right a) ↔
      (∀ a ∈ r.acks, r.Right a) ∧ ¬ r.Misfires e := by
  cases e with
  | recv p path => exact h.recv_right hv
  | send => exact h.sendpacket_right.trans ⟨fun hall => ⟨hall, id⟩, fun hall => hall.1⟩

theorem Inv.run_right (h : r.Inv) (hv : ∀ e ∈ es, e.Valid) :
    (∀ a ∈ (r.run es).acks, (r.run es).Right a) ↔ (∀ a ∈ r.acks, r.Right a) ∧ r.Clean es := by
  induction es generalizing r with
  | nil => exact ⟨fun hall => ⟨hall, trivial⟩, fun hall => hall.1⟩
  | cons e es ih =>
      rw [List.forall_mem_cons] at hv
      have hrun : r.run (e :: es) = (r.step e).run es := rfl
      rw [hrun, ih (h.step hv.1) hv.2, h.step_right hv.1, and_assoc]
      rfl

/-- **The echo of an ACK.**  Every segment a receiver sends has the echo its tracker held after
the last packet the segment acknowledges, exactly if no step misfires. -/
theorem ce_echo_iff (tracker : ReceiverCETracker) (rcvNxt lastAckSent : ℤ) (es : List Event)
    (hv : ∀ e ∈ es, e.Valid) :
    (∀ a ∈ ((start tracker rcvNxt lastAckSent).run es).acks,
        ((start tracker rcvNxt lastAckSent).run es).Right a) ↔
      (start tracker rcvNxt lastAckSent).Clean es := by
  rw [(start_inv tracker rcvNxt lastAckSent).run_right hv]
  exact and_iff_right (by simp [start])

/-- Two data packets, the second with a CE mark, a third without one that also brings a new
acknowledgement, and an ACK. -/
def marked : CeReceiver := (start (.ecnhat ⟨false, false⟩) 1 1).run
  [.recv ⟨false, true, 0, 1460⟩ .fast, .recv ⟨true, true, 0, 1460⟩ .fast,
    .recv ⟨false, true, 0, 1460⟩ (.slow true false), .send]

/-- A CE mark changes the echo of an Ecnhat tracker while an ACK is pending. -/
theorem ce_echo_iff_ecnhat : marked.acks = [⟨4381, false, false⟩, ⟨1461, false, false⟩] ∧
    ∀ a ∈ marked.acks, marked.Right a := by
  refine ⟨by decide, (ce_echo_iff _ _ _ _ (by simp [Event.Valid, CePacket.IsData])).mpr
    ⟨?_, ?_, ?_, id, trivial⟩⟩
  · exact fun h => h.2.1
  · exact fun h => h.2.1
  · exact fun h => h.2.1

/-- Two packets without a mark, the second the first above the lowest priority: the ACK for the
first says that there was congestion. -/
theorem first_priority_ack :
    ∃ a ∈ ((start (.afabric .init) 1 1).run [.recv ⟨false, true, lowestPriority, 1460⟩ .fast,
        .recv ⟨false, true, 7, 1460⟩ .fast]).acks,
      a = ⟨1461, true, false⟩ ∧ ¬ ((start (.afabric .init) 1 1).run
        [.recv ⟨false, true, lowestPriority, 1460⟩ .fast,
          .recv ⟨false, true, 7, 1460⟩ .fast]).Right a := by
  refine ⟨_, List.mem_cons_self, by decide, ?_⟩
  rw [Right]
  decide

end CeReceiver

/-! ### Flow after flow -/

namespace AFabricReceiverCETracker

/-- What `soft_reset` does to the tracker. -/
def softReset (t : AFabricReceiverCETracker) : AFabricReceiverCETracker := t

/-- The packets of a flow arrive. -/
def carry (t : AFabricReceiverCETracker) (flow : List CePacket) : AFabricReceiverCETracker :=
  flow.foldl onNewPacket t

/-- A connection has carried some flows, one after the other. -/
def connection (flows : List (List CePacket)) : AFabricReceiverCETracker :=
  flows.foldl (fun t flow => (t.carry flow).softReset) init

variable {t : AFabricReceiverCETracker} {p : CePacket} {flow seen : List CePacket}
  {flows prev : List (List CePacket)}

/-- The echo after a data packet. -/
theorem onNewPacket_recentCe (hp : p.IsData) :
    (t.onNewPacket p).recentCe = (p.ce && (t.isLowPrio || p.prio ≠ lowestPriority)) := by
  rw [t.onNewPacket_eq hp, update_recentCe, isPriorityValid]

/-- The tracker keeps that a packet above the lowest priority has arrived. -/
theorem onNewPacket_isLowPrio (hp : p.IsData) :
    (t.onNewPacket p).isLowPrio = (t.isLowPrio && p.prio = lowestPriority) := by
  rw [t.onNewPacket_eq hp, update_isLowPrio]

theorem carry_isLowPrio (hv : ∀ q ∈ flow, q.IsData) :
    (t.carry flow).isLowPrio = true ↔
      t.isLowPrio = true ∧ ∀ q ∈ flow, q.prio = lowestPriority := by
  induction flow generalizing t with
  | nil => simp [carry]
  | cons q flow ih =>
      rw [List.forall_mem_cons] at hv ⊢
      have hcarry : t.carry (q :: flow) = (t.onNewPacket q).carry flow := rfl
      rw [hcarry, ih hv.2, onNewPacket_isLowPrio hv.1, Bool.and_eq_true, decide_eq_true_eq,
        and_assoc]

theorem connection_isLowPrio (hv : ∀ flow ∈ flows, ∀ q ∈ flow, q.IsData) :
    (connection flows).isLowPrio = true ↔
      ∀ flow ∈ flows, ∀ q ∈ flow, q.prio = lowestPriority := by
  have hfold : ∀ t : AFabricReceiverCETracker,
      (flows.foldl (fun t flow => (t.carry flow).softReset) t).isLowPrio = true ↔
        t.isLowPrio = true ∧ ∀ flow ∈ flows, ∀ q ∈ flow, q.prio = lowestPriority := by
    induction flows with
    | nil => simp
    | cons flow flows ih =>
        intro t
        rw [List.forall_mem_cons] at hv ⊢
        rw [List.foldl_cons, ih hv.2, softReset, carry_isLowPrio hv.1, and_assoc]
  exact (hfold init).trans (and_iff_right rfl)

/-- The echo after the last packet of those of a flow that have arrived. -/
theorem carry_recentCe (hv : ∀ q ∈ seen, q.IsData) (hp : p.IsData) :
    (t.carry (seen ++ [p])).recentCe = true ↔ p.ce = true ∧
      (p.prio = lowestPriority → t.isLowPrio = true ∧ ∀ q ∈ seen, q.prio = lowestPriority) := by
  have hcarry : t.carry (seen ++ [p]) = (t.carry seen).onNewPacket p := by
    simp [carry, List.foldl_append]
  rw [hcarry, onNewPacket_recentCe hp, Bool.and_eq_true, Bool.or_eq_true, carry_isLowPrio hv,
    decide_eq_true_eq, ← imp_iff_or_not]

/-- **The echo is that of the flow alone**, exactly if not: the packet has a CE mark and the
lowest priority, as have had all of its flow, and an earlier flow had a packet above it. -/
theorem echo_per_flow_iff (hprev : ∀ flow ∈ prev, ∀ q ∈ flow, q.IsData)
    (hv : ∀ q ∈ seen, q.IsData) (hp : p.IsData) :
    ((connection prev).carry (seen ++ [p])).recentCe = (init.carry (seen ++ [p])).recentCe ↔
      ¬ (p.ce = true ∧ p.prio = lowestPriority ∧ (∀ q ∈ seen, q.prio = lowestPriority) ∧
        ∃ flow ∈ prev, ∃ q ∈ flow, q.prio ≠ lowestPriority) := by
  rw [Bool.eq_iff_iff, carry_recentCe hv hp, carry_recentCe hv hp, connection_isLowPrio hprev]
  have hinit : init.isLowPrio = true := rfl
  have hother : (∃ flow ∈ prev, ∃ q ∈ flow, q.prio ≠ lowestPriority) ↔
      ¬ ∀ flow ∈ prev, ∀ q ∈ flow, q.prio = lowestPriority := by
    push Not
    rfl
  rw [hother]
  tauto

/-- In a flow above the lowest priority a mark is echoed whatever the connection carried before. -/
theorem echo_per_flow_iff_high :
    ((connection [[⟨false, true, 7, 1460⟩]]).carry ([] ++ [⟨true, true, 9, 1460⟩])).recentCe
      = (init.carry ([] ++ [⟨true, true, 9, 1460⟩])).recentCe :=
  (echo_per_flow_iff (by simp [CePacket.IsData]) (by simp) (by simp [CePacket.IsData])).mpr
    (by simp [lowestPriority])

/-- The second flow of a connection begins with a marked packet of the lowest priority: the mark
is echoed if the flow is the first, and not after a flow that had a packet of priority 7. -/
theorem echo_lost :
    (init.carry [⟨true, true, lowestPriority, 1460⟩]).recentCe = true ∧
      ((connection [[⟨false, true, lowestPriority, 1460⟩, ⟨false, true, 7, 1460⟩]]).carry
        [⟨true, true, lowestPriority, 1460⟩]).recentCe = false := by
  decide

end AFabricReceiverCETracker

end Afabric
