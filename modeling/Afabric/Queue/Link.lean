import Afabric.Queue.Conservation

/-!
# Queue — the queue and its link

`Queue::recv` and `Queue::resume` (`queue/queue.cc`).  A packet is handed to the link by
`target_->recv(p, &qh_)`, and is in service until the link calls the handler back, which resumes
the queue.  That call is the last thing `recv` and `resume` do, so what the link does in it, also
to this queue, comes after them: a run is a sequence of arrivals and callbacks.

The queue discipline is a parameter (`Discipline`), with the one law that `deque` returns null
exactly when the queue holds no packet.  `DropTail` is an instance.
-/

namespace Afabric

/-- A queue discipline: `α` are the packets that arrive, `β` those handed out.  `none` is a call
that does not return. -/
structure Discipline (α β : Type) where
  Q : Type
  /-- The queue holds no packet. -/
  Empty : Q → Prop
  enque : Q → α → Option Q
  deque : Q → Option (Option β × Q)
  null_iff : ∀ {q r q'}, deque q = some (r, q') → (r = none ↔ Empty q)
  null_empty : ∀ {q q'}, deque q = some (none, q') → Empty q'

/-- A `Queue` and its link: `inService` counts the packets handed to the link for which it has not
called back, and `sent` are all packets handed to it. -/
structure LinkQueue {α β : Type} (D : Discipline α β) where
  q : D.Q
  blocked : Bool
  inService : Nat
  sent : List β

namespace LinkQueue

variable {α β : Type} {D : Discipline α β}

/-- `target_->recv(p, &qh_)`. -/
def send (s : LinkQueue D) (p : β) : LinkQueue D :=
  { s with inService := s.inService + 1, sent := s.sent ++ [p] }

/-- `recv`. -/
def recv (s : LinkQueue D) (p : α) : Option (LinkQueue D) := do
  let q ← D.enque s.q p
  if !s.blocked then do
    let r ← D.deque q
    match r.1 with
    | some p => some ({ s with q := r.2, blocked := true }.send p)
    | none => some { s with q := r.2 }
  else some { s with q }

/-- `resume`. -/
def resume (unblockOnResume : Bool) (s : LinkQueue D) : Option (LinkQueue D) := do
  let r ← D.deque s.q
  match r.1 with
  | some p => some ({ s with q := r.2 }.send p)
  | none => some { s with q := r.2, blocked := !unblockOnResume }

/-- What happens to a queue: a packet arrives, or the link calls back. -/
inductive Event (α : Type) where
  | arrival (p : α)
  | ready

/-- The link calls back only for a packet that is in service. -/
def step (unblockOnResume : Bool) (s : LinkQueue D) : Event α → Option (LinkQueue D)
  | .arrival p => s.recv p
  | .ready =>
      if s.inService = 0 then none
      else { s with inService := s.inService - 1 }.resume unblockOnResume

def run (unblockOnResume : Bool) (s : LinkQueue D) (evs : List (Event α)) : Option (LinkQueue D) :=
  evs.foldlM (step unblockOnResume) s

/-- A queue as it is constructed. -/
structure Fresh (s : LinkQueue D) : Prop where
  empty : D.Empty s.q
  blocked : s.blocked = false
  inService : s.inService = 0

/-- A blocked queue has one packet in service; one that is not blocked has none, and is empty. -/
def Inv (s : LinkQueue D) : Prop :=
  if s.blocked then s.inService = 1 else s.inService = 0 ∧ D.Empty s.q

theorem Fresh.inv {s : LinkQueue D} (h : s.Fresh) : s.Inv := by
  rw [Inv, h.blocked]
  exact ⟨h.inService, h.empty⟩

theorem Inv.recv {s s' : LinkQueue D} (h : s.Inv) {p : α} (he : s.recv p = some s') : s'.Inv := by
  obtain ⟨q, -, he⟩ := Option.bind_eq_some_iff.mp he
  rw [Inv] at h
  cases hb : s.blocked with
  | true =>
      rw [hb] at h he
      obtain rfl := Option.some.inj he
      exact h
  | false =>
      rw [hb] at h he
      obtain ⟨⟨r, q'⟩, hr, he⟩ := Option.bind_eq_some_iff.mp he
      cases r with
      | some p =>
          obtain rfl := Option.some.inj he
          have hone : s.inService + 1 = 1 := by rw [h.1]
          exact hone
      | none =>
          obtain rfl := Option.some.inj he
          exact ⟨h.1, D.null_empty hr⟩

theorem Inv.ready {s s' : LinkQueue D} (h : s.Inv) (he : s.step true .ready = some s') :
    s'.Inv := by
  rw [step] at he
  split at he
  · exact absurd he (by simp)
  case isFalse hs =>
    have hb : s.blocked = true := by
      by_contra hb
      rw [Inv, if_neg hb] at h
      exact hs h.1
    rw [Inv, if_pos hb] at h
    obtain ⟨⟨r, q'⟩, hr, he⟩ := Option.bind_eq_some_iff.mp he
    cases r with
    | some p =>
        obtain rfl := Option.some.inj he
        have hone : s.inService - 1 + 1 = 1 := by omega
        rw [Inv]
        exact if_pos hb ▸ hone
    | none =>
        obtain rfl := Option.some.inj he
        refine ⟨?_, D.null_empty hr⟩
        show s.inService - 1 = 0
        omega

theorem Inv.run {s s' : LinkQueue D} (h : s.Inv) {evs : List (Event α)}
    (he : s.run true evs = some s') : s'.Inv := by
  induction evs generalizing s with
  | nil =>
      obtain rfl := Option.some.inj he
      exact h
  | cons e evs ih =>
      rw [LinkQueue.run, List.foldlM_cons] at he
      obtain ⟨s₁, h₁, he⟩ := Option.bind_eq_some_iff.mp he
      refine ih ?_ he
      cases e with
      | arrival p => exact h.recv h₁
      | ready => exact h.ready h₁

/-- **The link is work conserving.**  Over every interleaving of arrivals and callbacks of the link,
at most one packet is in service, a queue that is not blocked is empty, and so no packet waits
while the link is idle. -/
theorem work_conserving (D : Discipline α β) (s : LinkQueue D) (hs : s.Fresh)
    (evs : List (Event α)) (s' : LinkQueue D) (he : s.run true evs = some s') :
    s'.inService ≤ 1 ∧ (s'.blocked = false → D.Empty s'.q) ∧
      (s'.inService = 0 → s'.blocked = false ∧ D.Empty s'.q) := by
  have h := hs.inv.run he
  rw [Inv] at h
  cases hb : s'.blocked with
  | true =>
      rw [hb] at h
      have h : s'.inService = 1 := h
      exact ⟨Nat.le_of_eq h, by simp, fun h0 => by omega⟩
  | false =>
      rw [hb] at h
      exact ⟨by rw [h.1]; exact Nat.zero_le 1, fun _ => h.2, fun _ => ⟨rfl, h.2⟩⟩

end LinkQueue

/-! ### `DropTail` -/

namespace Ledger

open DropTail BadTrackingPacketQueue

/-- `DropTail`'s `deque` returns null exactly when the queue is empty. -/
theorem deque_null_iff {cfg : DropTailConfig} {d : DropTail} (h : d.q.Valid) {x : Departure}
    (he : d.deque cfg = some x) : x.result = none ↔ d.q.pkts = [] := by
  rw [DropTail.deque] at he
  split at he
  · by_cases hne : d.q.pkts = []
    · rw [dequePriority, (findBestPacket_spec h).1.mpr hne] at he
      obtain rfl := Option.some.inj he
      exact iff_of_true rfl hne
    · obtain ⟨q', best, r, D, X, Z, -, -, he', -⟩ := dequePriority_spec cfg h hne
      obtain rfl := Option.some.inj (he'.symm.trans he)
      exact iff_of_false (by simp) hne
  split at he
  · obtain rfl := Option.some.inj he
    rw [(dequeWithDropSmart_eq cfg d).1, h.deque.1, List.head?_eq_none_iff]
  · obtain rfl := Option.some.inj he
    show d.q.deque.1 = none ↔ _
    rw [h.deque.1, List.head?_eq_none_iff]

/-- The `DropTail` queue as a discipline: a ledger that balances. -/
def discipline (cfg : DropTailConfig) : Discipline Header Packet where
  Q := { l : Ledger // l.Balanced }
  Empty := fun l => l.1.d.q.pkts = []
  enque := fun l h => (l.1.step (cfg, .enque h)).attach.map fun l' => ⟨l'.1, l.2.step l'.2⟩
  deque := fun l => (l.1.d.deque cfg).attach.map fun x =>
    (x.1.result, ⟨l.1.enter x.1, l.2.enter (deque_leaves l.2.valid x.2)⟩)
  null_iff := by
    intro q r q' he
    obtain ⟨x, -, hx⟩ := Option.map_eq_some_iff.mp he
    obtain ⟨rfl, -⟩ := Prod.mk.inj hx
    exact deque_null_iff q.2.valid x.2
  null_empty := by
    intro q q' he
    obtain ⟨x, -, hx⟩ := Option.map_eq_some_iff.mp he
    obtain ⟨hr, rfl⟩ := Prod.mk.inj hx
    have hq := (deque_null_iff q.2.valid x.2).mp hr
    have hl := (deque_leaves q.2.valid x.2).length
    rw [hq, List.length_nil] at hl
    exact List.length_eq_zero_iff.mp (by show x.1.state.q.pkts.length = 0; omega)

/-- The link of a `DropTail` queue that nothing has arrived at. -/
def link (cfg : DropTailConfig) : LinkQueue (discipline cfg) :=
  ⟨⟨Ledger.init, init_balanced⟩, false, 0, []⟩

theorem link_fresh (cfg : DropTailConfig) : (link cfg).Fresh := ⟨rfl, rfl, rfl⟩

/-- Two packets arrive, and the link calls back for each. -/
def twoPackets : List (LinkQueue.Event Header) :=
  [.arrival ⟨1500, 9, 0, 1, 0, false, false⟩, .arrival ⟨1500, 1, 0, 1, 0, false, false⟩, .ready,
    .ready]

theorem work_conserving_pfabric :
    ∃ s, (link QueueRun.pfabric).run true twoPackets = some s ∧ s.inService = 0 ∧
      s.blocked = false ∧ (discipline QueueRun.pfabric).Empty s.q := by
  obtain ⟨s, hs, h₀⟩ : ∃ s, (link QueueRun.pfabric).run true twoPackets = some s ∧
    s.inService = 0 := ⟨_, rfl, rfl⟩
  exact ⟨s, hs, h₀, (LinkQueue.work_conserving _ _ (link_fresh _) _ s hs).2.2 h₀⟩

end Ledger

end Afabric
