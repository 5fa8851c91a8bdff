import Afabric.Linkstate.LsFlooding

/-!
# Linkstate — a network of flooding nodes

Every node runs `LsRouting` over the links of a topology.  The status and the cost of the links of a
node change at any time, and at its two ends at different times; a message that has been sent is
delivered some time, in any order.  `origin` is a ghost: the lists that a node has advertised.
-/

namespace Afabric

/-- Nodes with their peers and their links as they are at first. -/
structure LsTopology where
  peers : ℕ → List ℕ
  links : ℕ → List LsLinkState
  mem_peers : ∀ u v, v ∈ peers u ↔ v ∈ (links u).map LsLinkState.neighborId
  nodup : ∀ u, ((links u).map LsLinkState.neighborId).Nodup
  symm : ∀ u v, v ∈ peers u → u ∈ peers v
  irrefl : ∀ u, u ∉ peers u

structure LsNet where
  node : ℕ → LsRouting
  msgctr : LsMessageCenter
  /-- Sender, receiver and message. -/
  flight : List (ℕ × ℕ × LsUpdate)
  origin : ℕ → List (List LsLinkState)

namespace LsNet

open LsMessageHistory

inductive Event where
  /-- `intfChanged`. -/
  | changed (u : ℕ) (now : ℕ → LsStatus × ℕ)
  /-- `sendUpdates`, at the start and then now and again. -/
  | sendUpdates (u : ℕ)
  | sendBuffered (u : ℕ)
  | deliver (src dst : ℕ) (m : LsUpdate)

def init (T : LsTopology) : LsNet where
  node := fun u => .init u (T.peers u) (T.links u)
  msgctr := .init
  flight := []
  origin := fun _ => []

/-- The list of `u` is one that it has advertised, if `n` has another than before. -/
def note (u : ℕ) (s : LsNet) (n : LsRouting) : ℕ → List (List LsLinkState) :=
  if n.database.find u = (s.node u).database.find u then s.origin
  else Function.update s.origin u ((n.database.find u).toList ++ s.origin u)

/-- The network after `u` has become `n` and sent `out`. -/
def after (u : ℕ) (s : LsNet) (n : LsRouting) (out : LsOut) (c : LsMessageCenter) : LsNet where
  node := Function.update s.node u n
  msgctr := c
  flight := s.flight ++ out.map fun m => (u, m)
  origin := note u s n

/-- `receiveMessage`. -/
def receiveMessage (src dst : ℕ) (m : LsUpdate) (s : LsNet) : Option LsNet :=
  match m.msg.type with
  | .lsa =>
      let r := (s.node dst).receiveLSA src m
      some (after dst s r.1 r.2 s.msgctr)
  | .tpm =>
      let topo := (s.node m.msg.originNodeId).database
      ((s.node dst).receiveTopo src m topo s.msgctr).map fun r =>
        after dst s r.1 [] r.2
  | _ => some s

def step (s : LsNet) : Event → Option LsNet
  | .changed u now =>
      ((s.node u).intfChanged now s.msgctr).map fun r => after u s r.1 [] r.2
  | .sendUpdates u =>
      let r := (s.node u).sendLinkStates false s.msgctr
      some (after u s r.1 r.2.1 r.2.2)
  | .sendBuffered u =>
      let r := (s.node u).sendBufferedMessages
      some (after u s r.1 r.2 s.msgctr)
  | .deliver src dst m =>
      if (src, dst, m) ∈ s.flight then
        receiveMessage src dst m { s with flight := s.flight.erase (src, dst, m) }
      else none

/-- The states of the runs in which every event meets `P`. -/
inductive Reach (T : LsTopology) (P : LsNet → Event → Prop) : LsNet → Prop
  | init : Reach T P (init T)
  | next {s s' : LsNet} (e : Event) (h : Reach T P s) (hP : P s e) (hs : step s e = some s') :
      Reach T P s'

variable {T : LsTopology} {P : LsNet → Event → Prop} {s s' : LsNet} {e : Event}

/-- The state after a list of events that meet `P`. -/
def run (P : LsNet → Event → Prop) [∀ s e, Decidable (P s e)] (s : LsNet) :
    List Event → Option LsNet
  | [] => some s
  | e :: es => if P s e then (step s e).bind fun s' => run P s' es else none

theorem Reach.run [∀ s e, Decidable (P s e)] (h : Reach T P s) {es : List Event}
    (hr : run P s es = some s') : Reach T P s' := by
  induction es generalizing s with
  | nil => exact Option.some.inj hr ▸ h
  | cons e es ih =>
      rw [LsNet.run] at hr
      split_ifs at hr with hP
      obtain ⟨t, ht, hr'⟩ := Option.bind_eq_some_iff.mp hr
      exact ih (h.next e hP ht) hr'

def database (s : LsNet) (u : ℕ) : LsTopoMap := (s.node u).database

end LsNet

end Afabric
