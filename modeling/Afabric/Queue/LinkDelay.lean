import Afabric.Sched.Scheduler
import Mathlib.Tactic.Linarith
import Mathlib.Tactic.Ring

/-!
# Queue — a link with a delay

`LinkDelay` (`link/delay.cc`) over a `Scheduler`.  A packet is known by its address, which is also
that of its event; `txt` and `delay_` are rationals, and an event is dispatched to the link itself
in dynamic mode, else to its target.  A run has any calls of other components in between.

What a run does to the packets is recorded, and the records are those of a queue that is first in,
first out (`replay`) as long as, in dynamic mode, no packet is handed over that would arrive before
one in transit (`link_in_order`).
-/

namespace Afabric

/-- The handlers and the event that a link uses: itself, its target, the queue before it, and
`intr_`. -/
structure LinkWiring where
  link : Nat
  target : Nat
  queue : Nat
  intr : Nat
  link_ne_target : link ≠ target
  queue_ne_link : queue ≠ link
  queue_ne_target : queue ≠ target

/-- The ways in which a call ends the program. -/
inductive LinkAbort where
  | sched (a : Abort)
  /-- The assertion of `handle`. -/
  | assertion
  /-- `itq_` is empty in `handle`. -/
  | null
deriving DecidableEq

structure LinkDelay (σ : Type) where
  sched : Scheduler σ
  bandwidth : ℚ
  delay : ℚ
  dynamic : Bool
  avoidReordering : Bool
  latestTime : ℚ
  /-- `itq_`, the packets in transit in dynamic mode. -/
  itq : List Nat

/-- What happened to a packet; a packet that is handed over has a time before which it must not
arrive. -/
inductive LinkRecord where
  | handed (p : Nat) (due : ℚ)
  | delivered (p : Nat) (clock : ℚ)
  | dropped (p : Nat)
deriving DecidableEq

inductive LinkCall where
  | recv (p size : Nat)
  | setBandwidth (bandwidth : ℚ)
  | setDelay (delay : ℚ)
  | reset
  | dispatch
  /-- Another component schedules or cancels an event. -/
  | schedule (h e : Nat) (delay : ℚ)
  | cancel (e : Nat)

namespace LinkDelay

variable {σ : Type} (Q : EventQueue σ) (W : LinkWiring)

def init (bandwidth delay : ℚ) (dynamic avoidReordering : Bool) : LinkDelay σ where
  sched := .init Q
  bandwidth := bandwidth
  delay := delay
  dynamic := dynamic
  avoidReordering := avoidReordering
  latestTime := 0
  itq := []

def txtime (m : LinkDelay σ) (size : Nat) : ℚ := 8 * size / m.bandwidth

/-- `s.schedule(h, e, delay)`. -/
def schedule (m : LinkDelay σ) (h e : Nat) (delay : ℚ) : Except LinkAbort (LinkDelay σ) :=
  match Scheduler.schedule Q m.sched (some h) e delay with
  | .error a => .error (.sched a)
  | .ok s => .ok { m with sched := s }

/-- `s.cancel(e)`. -/
def cancel (m : LinkDelay σ) (e : Nat) : Except LinkAbort (LinkDelay σ) :=
  match Scheduler.cancel Q m.sched e with
  | .error a => .error (.sched a)
  | .ok s => .ok { m with sched := s }

/-- `recv`, up to the event for the queue. -/
def transmit (m : LinkDelay σ) (p size : Nat) : Except LinkAbort (LinkDelay σ) :=
  let txt := m.txtime size
  if m.dynamic then schedule Q { m with itq := m.itq ++ [p] } W.link p (txt + m.delay)
  else if m.avoidReordering then
    if txt + m.delay < m.latestTime - m.sched.clock ∧ m.latestTime > 0 then
      schedule Q { m with latestTime := m.latestTime + txt } W.target p
        (m.latestTime + txt - m.sched.clock)
    else
      schedule Q { m with latestTime := m.sched.clock + txt + m.delay } W.target p (txt + m.delay)
  else schedule Q m W.target p (txt + m.delay)

/-- `recv`. -/
def recv (m : LinkDelay σ) (p size : Nat) : Except LinkAbort (List LinkRecord × LinkDelay σ) := do
  let m' ← transmit Q W m p size
  let m'' ← schedule Q m' W.queue W.intr (m.txtime size)
  .ok ([.handed p (m.sched.clock + m.txtime size + m.delay)], m'')

/-- The loop of `reset` over the packets of `itq_`. -/
def drain (m : LinkDelay σ) : List Nat → Except LinkAbort (List LinkRecord × LinkDelay σ)
  | [] => .ok ([], { m with itq := [] })
  | p :: ps => do
      let m' ← cancel Q m p
      let r ← drain m' ps
      .ok (.dropped p :: r.1, r.2)

/-- `reset`. -/
def reset (m : LinkDelay σ) : Except LinkAbort (List LinkRecord × LinkDelay σ) :=
  drain Q m m.itq

/-- `handle`, with the event `e`. -/
def handle (m : LinkDelay σ) (e : Nat) : Except LinkAbort (List LinkRecord × LinkDelay σ) :=
  match m.itq with
  | [] => .error .null
  | p :: itq =>
      if (m.sched.event p).time = (m.sched.event e).time then
        .ok ([.delivered p m.sched.clock], { m with itq := itq })
      else .error .assertion

/-- One round of the loop of `Scheduler::run`, with the call of the handler. -/
def dispatch (m : LinkDelay σ) : Except LinkAbort (List LinkRecord × LinkDelay σ) :=
  match Scheduler.next Q m.sched with
  | .error a => .error (.sched a)
  | .ok (none, s) => .ok ([], { m with sched := s })
  | .ok (some x, s) =>
      let m := { m with sched := s }
      if (s.event x.obj).handler = some W.link then m.handle x.obj
      else if (s.event x.obj).handler = some W.target then .ok ([.delivered x.obj s.clock], m)
      else .ok ([], m)

def step (m : LinkDelay σ) : LinkCall → Except LinkAbort (List LinkRecord × LinkDelay σ)
  | .recv p size => recv Q W m p size
  | .setBandwidth bandwidth => .ok ([], { m with bandwidth := bandwidth })
  | .setDelay delay => .ok ([], { m with delay := delay })
  | .reset => reset Q m
  | .dispatch => dispatch Q W m
  | .schedule h e delay => (schedule Q m h e delay).map fun m => ([], m)
  | .cancel e => (cancel Q m e).map fun m => ([], m)

/-- The object is in the event queue. -/
def Pending (m : LinkDelay σ) (e : Nat) : Prop := 0 < (m.sched.event e).uid

instance (m : LinkDelay σ) (e : Nat) : Decidable (m.Pending e) := inferInstanceAs (Decidable (_ < _))

/-- The event is on its way through the link. -/
def OfLink (m : LinkDelay σ) (e : Nat) : Prop :=
  (m.sched.event e).handler = some W.link ∨ (m.sched.event e).handler = some W.target

instance (m : LinkDelay σ) (e : Nat) : Decidable (m.OfLink W e) := inferInstanceAs (Decidable (_ ∨ _))

/-- A packet is handed over when the one before it has been transmitted, and other components use
their own handlers and events. -/
def Proper (m : LinkDelay σ) : LinkCall → Prop
  | .recv p _ => p ≠ W.intr ∧ ¬ m.Pending p ∧ ¬ m.Pending W.intr
  | .setBandwidth bandwidth => 0 < bandwidth
  | .setDelay delay => 0 ≤ delay
  | .reset | .dispatch => True
  | .schedule h e delay => h ≠ W.link ∧ h ≠ W.target ∧ e ≠ W.intr ∧ ¬ m.Pending e ∧ 0 ≤ delay
  | .cancel e => e ≠ W.intr ∧ ¬ (m.Pending e ∧ m.OfLink W e)

/-- In dynamic mode, a packet that is handed over arrives no earlier than those in transit. -/
def InTime (m : LinkDelay σ) : LinkCall → Prop
  | .recv _ size => m.dynamic = true → ∀ q ∈ m.itq,
      (m.sched.event q).time ≤ m.sched.clock + (m.txtime size + m.delay)
  | _ => True

instance (m : LinkDelay σ) : ∀ c, Decidable (m.Proper W c)
  | .recv p _ => inferInstanceAs (Decidable (p ≠ W.intr ∧ ¬ m.Pending p ∧ ¬ m.Pending W.intr))
  | .setBandwidth bandwidth => inferInstanceAs (Decidable (0 < bandwidth))
  | .setDelay delay => inferInstanceAs (Decidable (0 ≤ delay))
  | .reset | .dispatch => .isTrue trivial
  | .schedule h e delay => inferInstanceAs
      (Decidable (h ≠ W.link ∧ h ≠ W.target ∧ e ≠ W.intr ∧ ¬ m.Pending e ∧ 0 ≤ delay))
  | .cancel e => inferInstanceAs (Decidable (e ≠ W.intr ∧ ¬ (m.Pending e ∧ m.OfLink W e)))

/-- The runs of calls that meet `P`, in one of the two modes. -/
inductive Reach (P : LinkDelay σ → LinkCall → Prop) : List LinkRecord → LinkDelay σ → Prop where
  | init {bandwidth delay : ℚ} {dynamic avoidReordering : Bool} (hb : 0 < bandwidth)
      (hd : 0 ≤ delay) (hm : dynamic = true ∨ avoidReordering = true) :
      Reach P [] (init Q bandwidth delay dynamic avoidReordering)
  | step {rs r : List LinkRecord} {m m' : LinkDelay σ} (c : LinkCall) (h : Reach P rs m)
      (hp : m.Proper W c) (hP : P m c) (hs : step Q W m c = .ok (r, m')) : Reach P (rs ++ r) m'

/-! ### First in, first out -/

/-- A record on the packets in transit, each with the time when it is due. -/
def fifo : List (Nat × ℚ) → LinkRecord → Option (List (Nat × ℚ))
  | tr, .handed p due => some (tr ++ [(p, due)])
  | [], _ => none
  | x :: tr, .delivered p clock => if p = x.1 ∧ x.2 ≤ clock then some tr else none
  | x :: tr, .dropped p => if p = x.1 then some tr else none

/-- The packets in transit after some records, if those are the records of a queue. -/
def replay (rs : List LinkRecord) : Option (List (Nat × ℚ)) := rs.foldlM fifo []

variable {Q W} {R : σ → EventList → Prop} {s s' : Scheduler σ} {l : EventList} {hd : Nat}
  {tr : List (Event × ℚ)} {rs : List LinkRecord} {m : LinkDelay σ}

theorem replay_append {rs r : List LinkRecord} {tr : List (Nat × ℚ)} (h : replay rs = some tr) :
    replay (rs ++ r) = r.foldlM fifo tr := by
  rw [replay, List.foldlM_append]
  exact congrArg (fun o => o >>= fun t => r.foldlM fifo t) h

/-! ### The packets in transit -/

/-- The packets in transit are pending for `hd`, in the order in which they were handed over, each
not before it is due; nothing else that is pending is of the link. -/
structure Flight (W : LinkWiring) (R : σ → EventList → Prop) (s : Scheduler σ) (hd : Nat)
    (l : EventList) (tr : List (Event × ℚ)) : Prop where
  holds : Scheduler.Holds R s l
  mem : ∀ x ∈ tr, x.1 ∈ l.events
  order : (tr.map Prod.fst).Pairwise Event.Before
  handler : ∀ x ∈ tr, (s.event x.1.obj).handler = some hd
  ofLink : ∀ y ∈ l.events,
    (s.event y.obj).handler = some W.link ∨ (s.event y.obj).handler = some W.target →
      y ∈ tr.map Prod.fst
  due : ∀ x ∈ tr, x.2 ≤ x.1.time
  ahead : ∀ y ∈ l.events, s.clock ≤ y.time
  clock : 0 ≤ s.clock

namespace Flight

variable (hQ : Refines Q (fun l e => l.now ≤ e.time) R)

include hQ in
theorem init : Flight W R (Scheduler.init Q) hd .init [] where
  holds := .init hQ
  mem := fun _ hx => absurd hx List.not_mem_nil
  order := .nil
  handler := fun _ hx => absurd hx List.not_mem_nil
  ofLink := fun _ hy => absurd hy List.not_mem_nil
  due := fun _ hx => absurd hx List.not_mem_nil
  ahead := fun _ hy => absurd hy List.not_mem_nil
  clock := le_rfl

/-- What a call of `schedule` writes: a new event, after those that are not later. -/
structure Scheduled (R : σ → EventList → Prop) (s s' : Scheduler σ) (l : EventList) (h : Nat)
    (x : Event) : Prop where
  holds : Scheduler.Holds R s' (l.after (.insert x))
  clock : s'.clock = s.clock
  handler : (s'.event x.obj).handler = some h
  event : ∀ k, k ≠ x.obj → s'.event k = s.event k
  fresh : ∀ y ∈ l.events, y.obj ≠ x.obj
  before : ∀ y ∈ l.events, y.time ≤ x.time → y.Before x

include hQ in
theorem schedule_cases (hf : Flight W R s hd l tr) {h e : Nat} {delay : ℚ}
    (hp : ¬ 0 < (s.event e).uid) (hdelay : 0 ≤ delay) :
    Scheduler.schedule Q s (some h) e delay = .error .exhausted ∨
      ∃ s' x, Scheduler.schedule Q s (some h) e delay = .ok s' ∧ x.obj = e ∧
        x.time = s.clock + delay ∧ Scheduled R s s' l h x := by
  have hnow : l.now ≤ s.clock + delay := by
    rw [← hf.holds.clock]
    exact le_add_of_nonneg_right hdelay
  rcases Scheduler.schedule_spec hQ hf.holds h e hnow with ⟨hpend, -⟩ | ⟨-, -, he⟩ |
    ⟨-, hfresh, s', he, hs'⟩
  · exact absurd ((hf.holds.pending_iff e).mp hpend) hp
  · exact .inl he
  · obtain ⟨-, -, hev⟩ := Scheduler.schedule_event he
    refine .inr ⟨s', _, he, rfl, rfl, hs', ?_, ?_, fun k hk => ?_, hfresh.2, fun y hy hle => ?_⟩
    · exact hs'.clock.trans hf.holds.clock.symm
    · rw [hev, Scheduler.setEvent_event, if_pos rfl]
    · rw [hev, Scheduler.setEvent_event, if_neg hk]
    · rcases hle.lt_or_eq with hlt | heq
      · exact .inl hlt
      · exact .inr ⟨heq, Nat.lt_succ_of_le (hf.holds.ok.uids y hy)⟩

/-- An event of another component is scheduled. -/
theorem other (hf : Flight W R s hd l tr) {h : Nat} {x : Event} (hs : Scheduled R s s' l h x)
    (hlink : h ≠ W.link) (htarget : h ≠ W.target) (hx : s.clock ≤ x.time) :
    Flight W R s' hd (l.after (.insert x)) tr where
  holds := hs.holds
  mem := fun y hy => ListScheduler.mem_insert.mpr (.inr (hf.mem y hy))
  order := hf.order
  handler := by
    intro y hy
    rw [hs.event _ (hs.fresh _ (hf.mem y hy))]
    exact hf.handler y hy
  ofLink := by
    intro y hy hof
    rcases ListScheduler.mem_insert.mp hy with rfl | hy
    · rw [hs.handler] at hof
      exact absurd hof fun h => h.elim (fun h => hlink (Option.some.inj h))
        fun h => htarget (Option.some.inj h)
    · rw [hs.event _ (hs.fresh _ hy)] at hof
      exact hf.ofLink y hy hof
  due := hf.due
  ahead := by
    intro y hy
    rw [hs.clock]
    rcases ListScheduler.mem_insert.mp hy with rfl | hy
    · exact hx
    · exact hf.ahead y hy
  clock := hs.clock ▸ hf.clock

/-- A packet is handed over that arrives no earlier than those in transit. -/
theorem hand (hf : Flight W R s hd l tr) {x : Event} (hs : Scheduled R s s' l hd x) {due : ℚ}
    (hx : s.clock ≤ x.time) (hdue : due ≤ x.time) (hle : ∀ y ∈ tr, y.1.time ≤ x.time) :
    Flight W R s' hd (l.after (.insert x)) (tr ++ [(x, due)]) where
  holds := hs.holds
  mem := by
    intro y hy
    rcases List.mem_append.mp hy with hy | hy
    · exact ListScheduler.mem_insert.mpr (.inr (hf.mem y hy))
    · exact ListScheduler.mem_insert.mpr (.inl (List.mem_singleton.mp hy ▸ rfl))
  order := by
    rw [List.map_append, List.pairwise_append]
    refine ⟨hf.order, List.pairwise_singleton _ _, fun y hy z hz => ?_⟩
    obtain ⟨w, hw, rfl⟩ := List.mem_map.mp hy
    obtain rfl := List.mem_singleton.mp hz
    exact hs.before w.1 (hf.mem w hw) (hle w hw)
  handler := by
    intro y hy
    rcases List.mem_append.mp hy with hy | hy
    · rw [hs.event _ (hs.fresh _ (hf.mem y hy))]
      exact hf.handler y hy
    · obtain rfl := List.mem_singleton.mp hy
      exact hs.handler
  ofLink := by
    intro y hy hof
    rw [List.map_append]
    rcases ListScheduler.mem_insert.mp hy with rfl | hy
    · exact List.mem_append_right _ List.mem_cons_self
    · rw [hs.event _ (hs.fresh _ hy)] at hof
      exact List.mem_append_left _ (hf.ofLink y hy hof)
  due := by
    intro y hy
    rcases List.mem_append.mp hy with hy | hy
    · exact hf.due y hy
    · obtain rfl := List.mem_singleton.mp hy
      exact hdue
  ahead := by
    intro y hy
    rw [hs.clock]
    rcases ListScheduler.mem_insert.mp hy with rfl | hy
    · exact hx
    · exact hf.ahead y hy
  clock := hs.clock ▸ hf.clock

/-- What taking an event off the queue writes. -/
structure Removed (R : σ → EventList → Prop) (s s' : Scheduler σ) (l l' : EventList) (x : Event) :
    Prop where
  holds : Scheduler.Holds R s' l'
  events : l'.events = l.events.erase x
  event : ∀ k, k ≠ x.obj → s'.event k = s.event k
  clock : s.clock ≤ s'.clock
  ahead : ∀ y ∈ l'.events, s'.clock ≤ y.time

theorem Removed.mem_iff {l' : EventList} {x y : Event} (hr : Removed R s s' l l' x)
    (hl : l.Ok) : y ∈ l'.events ↔ y ≠ x ∧ y ∈ l.events := by
  rw [hr.events, hl.nodup.mem_erase_iff]

theorem removed {l' : EventList} {x : Event} {tr' : List (Event × ℚ)} (hf : Flight W R s hd l tr)
    (hr : Removed R s s' l l' x) (hx : x ∈ l.events) (hsub : tr'.Sublist tr)
    (hx' : x ∉ tr'.map Prod.fst) (hkeep : ∀ y ∈ tr.map Prod.fst, y ≠ x → y ∈ tr'.map Prod.fst) :
    Flight W R s' hd l' tr' := by
  have hne (y : Event × ℚ) (hy : y ∈ tr') : y.1 ≠ x := fun he => hx' (he ▸ List.mem_map_of_mem hy)
  have hobj (y : Event) (hy : y ∈ l.events) (hyx : y ≠ x) : y.obj ≠ x.obj :=
    hf.holds.obj_ne hx hy hyx
  refine ⟨hr.holds, fun y hy => ?_, hf.order.sublist (hsub.map _), fun y hy => ?_, fun y hy hof => ?_,
    fun y hy => hf.due y (hsub.subset hy), hr.ahead, hf.clock.trans hr.clock⟩
  · exact (hr.mem_iff hf.holds.ok).mpr ⟨hne y hy, hf.mem y (hsub.subset hy)⟩
  · rw [hr.event _ (hobj y.1 (hf.mem y (hsub.subset hy)) (hne y hy))]
    exact hf.handler y (hsub.subset hy)
  · obtain ⟨hyx, hyl⟩ := (hr.mem_iff hf.holds.ok).mp hy
    rw [hr.event _ (hobj y hyl hyx)] at hof
    exact hkeep y (hf.ofLink y hyl hof) hyx

theorem mem_map_tail {x : Event × ℚ} {y : Event} (hy : y ∈ (x :: tr).map Prod.fst) (hne : y ≠ x.1) :
    y ∈ tr.map Prod.fst := by
  rw [List.map_cons, List.mem_cons] at hy
  exact hy.resolve_left hne

/-- The first packet in transit leaves. -/
theorem removed_head {l' : EventList} {x : Event × ℚ} (hf : Flight W R s hd l (x :: tr))
    (hr : Removed R s s' l l' x.1) : Flight W R s' hd l' tr := by
  have horder := hf.order
  rw [List.map_cons, List.pairwise_cons] at horder
  refine hf.removed hr (hf.mem x List.mem_cons_self) (List.sublist_cons_self x tr) ?_
    fun y hy hne => mem_map_tail hy hne
  exact fun hx => Event.Before.irrefl _ (horder.1 x.1 hx)

/-- An event leaves that is not of the link. -/
theorem removed_other {l' : EventList} {x : Event} (hf : Flight W R s hd l tr)
    (hr : Removed R s s' l l' x) (hx : x ∈ l.events) (hnot : x ∉ tr.map Prod.fst) :
    Flight W R s' hd l' tr :=
  hf.removed hr hx (List.Sublist.refl tr) hnot fun _ hy _ => hy

include hQ in
/-- An event is cancelled. -/
theorem cancel_cases (hf : Flight W R s hd l tr) (e : Nat) :
    (¬ 0 < (s.event e).uid ∧ Scheduler.cancel Q s e = .ok s) ∨
      ∃ x ∈ l.events, x.obj = e ∧ ∃ s', Scheduler.cancel Q s e = .ok s' ∧ s'.clock = s.clock ∧
        Removed R s s' l (l.after (.cancel x)) x := by
  rcases Scheduler.cancel_spec hQ hf.holds e with ⟨hp, he⟩ | ⟨x, hx, rfl, s', he, hs'⟩
  · exact .inl ⟨fun hu => hp (hf.holds.pending e hu), he⟩
  · obtain ⟨-, -, hev⟩ := Scheduler.cancel_event he
    have hclock : s'.clock = s.clock := hs'.clock.trans hf.holds.clock.symm
    refine .inr ⟨x, hx, rfl, s', he, hclock, hs', rfl, hev, hclock.ge, fun y hy => ?_⟩
    rw [hclock]
    exact hf.ahead y (List.mem_of_mem_erase hy)

include hQ in
/-- An event is dispatched. -/
theorem next_cases (hf : Flight W R s hd l tr) :
    (∃ s', Scheduler.next Q s = .ok (none, s') ∧ Flight W R s' hd l tr ∧ s'.event = s.event ∧
        s'.clock = s.clock) ∨
      ∃ x t s', l.events = x :: t ∧ Scheduler.next Q s = .ok (some x, s') ∧ s'.clock = x.time ∧
        (∀ k, (s'.event k).handler = (s.event k).handler ∧ (s'.event k).time = (s.event k).time) ∧
          Removed R s s' l (l.after .deque) x := by
  rcases Scheduler.next_spec hQ hf.holds with ⟨-, s', he, hev, hs'⟩ |
    ⟨x, t, hl, ⟨hlt, -⟩ | ⟨hle, s', he, hs'⟩⟩
  · have hclock : s'.clock = s.clock := hs'.clock.trans hf.holds.clock.symm
    refine .inl ⟨s', he, ⟨hs', hf.mem, hf.order, ?_, ?_, hf.due, ?_, ?_⟩, hev, hclock⟩
    · rw [hev]
      exact hf.handler
    · rw [hev]
      exact hf.ofLink
    · rw [hclock]
      exact hf.ahead
    · rw [hclock]
      exact hf.clock
  · exact absurd (hf.ahead x (hl ▸ List.mem_cons_self)) (not_le.mpr hlt)
  · have hev := Scheduler.next_event he
    have hclock : s'.clock = x.time := by
      rw [hs'.clock, EventList.after, hl]
      rfl
    refine .inr ⟨x, t, s', hl, he, hclock, fun k => ?_, hs', ?_, fun k hk => ?_, ?_, fun y hy => ?_⟩
    · rw [hev, Scheduler.setEvent_event]
      split_ifs with hk
      · rw [hk]
        exact ⟨rfl, rfl⟩
      · exact ⟨rfl, rfl⟩
    · rw [EventList.after, hl, List.erase_cons_head]
      rfl
    · rw [hev, Scheduler.setEvent_event, if_neg hk]
    · rw [hclock]
      exact hle
    · rw [hclock]
      have hsorted := hf.holds.ok.sorted
      rw [EventList.after, hl] at hy
      rw [hl, List.pairwise_cons] at hsorted
      exact (hsorted.1 y hy).time_le

/-- The packet that is dispatched is the first of those in transit. -/
theorem head_of_next (hf : Flight W R s hd l tr) {x : Event} {t : List Event} (hl : l.events = x :: t)
    (hx : x ∈ tr.map Prod.fst) : ∃ due tr', tr = (x, due) :: tr' := by
  cases tr with
  | nil => exact absurd hx List.not_mem_nil
  | cons y tr' =>
      have horder := hf.order
      rw [List.map_cons, List.pairwise_cons] at horder
      rcases List.mem_cons.mp hx with rfl | hx
      · exact ⟨y.2, tr', rfl⟩
      · have hsorted := hf.holds.ok.sorted
        rw [hl, List.pairwise_cons] at hsorted
        have hyl := hf.mem y List.mem_cons_self
        rw [hl] at hyl
        rcases List.mem_cons.mp hyl with hyx | hyt
        · exact ⟨y.2, tr', by rw [← hyx]⟩
        · exact absurd (horder.1 x hx) (hsorted.1 y.1 hyt).asymm

end Flight

/-! ### The calls -/

/-- The handler of the packets in transit. -/
def handlerOf (W : LinkWiring) (m : LinkDelay σ) : Nat := if m.dynamic then W.link else W.target

/-- The invariant of the runs; without `itq_`, the packets in transit are behind `latest_time_`. -/
structure Inv (W : LinkWiring) (R : σ → EventList → Prop) (rs : List LinkRecord) (m : LinkDelay σ)
    (l : EventList) (tr : List (Event × ℚ)) : Prop where
  flight : Flight W R m.sched (m.handlerOf W) l tr
  itq : m.itq = if m.dynamic then tr.map fun x => x.1.obj else []
  latest : m.dynamic = false → ∀ x ∈ tr, x.1.time ≤ m.latestTime
  latest_nonneg : 0 ≤ m.latestTime
  bandwidth : 0 < m.bandwidth
  delay : 0 ≤ m.delay
  mode : m.dynamic = true ∨ m.avoidReordering = true
  replay : replay rs = some (tr.map fun x => (x.1.obj, x.2))

/-- A call ends as it should, or the numbers of the events are used up. -/
def Ends (P : List LinkRecord → LinkDelay σ → Prop) :
    Except LinkAbort (List LinkRecord × LinkDelay σ) → Prop
  | .ok r => P r.1 r.2
  | .error a => a = .sched .exhausted

variable (hQ : Refines Q (fun l e => l.now ≤ e.time) R)

theorem Inv.txtime_nonneg (hi : Inv W R rs m l tr) (size : Nat) : 0 ≤ m.txtime size :=
  div_nonneg (mul_nonneg (by decide) (Nat.cast_nonneg size)) hi.bandwidth.le

/-- The time of a packet in transit, as its object has it. -/
theorem Inv.time_eq (hi : Inv W R rs m l tr) {x : Event × ℚ} (hx : x ∈ tr) :
    (m.sched.event x.1.obj).time = x.1.time :=
  (hi.flight.holds.event x.1 (hi.flight.mem x hx)).2

/-- The scheduler alone has changed. -/
theorem Inv.sched (hi : Inv W R rs m l tr) {s' : Scheduler σ} {l' : EventList}
    (hf : Flight W R s' (m.handlerOf W) l' tr) : Inv W R rs { m with sched := s' } l' tr :=
  ⟨hf, hi.itq, hi.latest, hi.latest_nonneg, hi.bandwidth, hi.delay, hi.mode, hi.replay⟩

/-- A packet is handed over. -/
theorem Inv.hand (hi : Inv W R rs m l tr) {m' : LinkDelay σ} {x : Event} {due : ℚ}
    (hs : Flight.Scheduled R m.sched m'.sched l (m.handlerOf W) x) (hx : m.sched.clock ≤ x.time)
    (hdue : due ≤ x.time) (hle : ∀ y ∈ tr, y.1.time ≤ x.time)
    (hitq : m'.itq = if m.dynamic then m.itq ++ [x.obj] else m.itq)
    (hlatest : m.dynamic = false → m'.latestTime = x.time)
    (hnonneg : 0 ≤ m'.latestTime) (hb : m'.bandwidth = m.bandwidth) (hd : m'.delay = m.delay)
    (hdyn : m'.dynamic = m.dynamic) (hav : m'.avoidReordering = m.avoidReordering) :
    Inv W R (rs ++ [.handed x.obj due]) m' (l.after (.insert x)) (tr ++ [(x, due)]) := by
  refine ⟨?_, ?_, fun hf y hy => ?_, hnonneg, hb ▸ hi.bandwidth, hd ▸ hi.delay, ?_, ?_⟩
  · rw [handlerOf, hdyn]
    exact hi.flight.hand hs hx hdue hle
  · rw [hitq, hdyn, hi.itq, List.map_append]
    split_ifs <;> rfl
  · rw [hdyn] at hf
    rw [hlatest hf]
    rcases List.mem_append.mp hy with hy | hy
    · exact hle y hy
    · exact (List.mem_singleton.mp hy ▸ le_rfl)
  · rw [hdyn, hav]
    exact hi.mode
  · rw [replay_append hi.replay, List.map_append]
    rfl

include hQ in
theorem Inv.transmit (hi : Inv W R rs m l tr) {p size : Nat} (hp : ¬ m.Pending p)
    (ht : m.InTime (.recv p size)) :
    transmit Q W m p size = .error (.sched .exhausted) ∨
      ∃ m' x, transmit Q W m p size = .ok m' ∧ (∀ k, k ≠ p → m'.sched.event k = m.sched.event k) ∧
        m'.sched.clock = m.sched.clock ∧ m'.handlerOf W = m.handlerOf W ∧
          m'.bandwidth = m.bandwidth ∧
            Inv W R (rs ++ [.handed p (m.sched.clock + m.txtime size + m.delay)]) m'
              (l.after (.insert x)) (tr ++ [(x, m.sched.clock + m.txtime size + m.delay)]) := by
  have htx := hi.txtime_nonneg size
  have hd := hi.delay
  have hclock := hi.flight.clock
  rw [LinkDelay.transmit]
  cases hdyn : m.dynamic with
  | true =>
      have hhd : m.handlerOf W = W.link := by rw [handlerOf, hdyn]; rfl
      rw [if_pos rfl, LinkDelay.schedule]
      rcases hi.flight.schedule_cases hQ (h := W.link) hp (add_nonneg htx hd) with
        he | ⟨s', x, he, rfl, hxt, hs⟩
      · rw [he]
        exact .inl rfl
      · rw [he]
        refine .inr ⟨_, x, rfl, hs.event, hs.clock, hhd.symm, rfl, ?_⟩
        refine hi.hand (hhd ▸ hs) ?_ ?_ (fun y hy => ?_) ?_ ?_ hi.latest_nonneg rfl rfl hdyn.symm rfl
        · rw [hxt]
          linarith
        · rw [hxt]
          linarith
        · rw [hxt, ← hi.time_eq hy]
          refine ht hdyn _ ?_
          rw [hi.itq, if_pos hdyn]
          exact List.mem_map_of_mem hy
        · rw [hdyn]
          rfl
        · intro hf
          rw [hdyn] at hf
          cases hf
  | false =>
      have hhd : m.handlerOf W = W.target := by rw [handlerOf, hdyn]; rfl
      have hav : m.avoidReordering = true := hi.mode.resolve_left (by rw [hdyn]; decide)
      have hbehind := hi.latest hdyn
      have hlatest := hi.latest_nonneg
      rw [if_neg Bool.false_ne_true, if_pos hav]
      by_cases hcase : m.txtime size + m.delay < m.latestTime - m.sched.clock ∧ m.latestTime > 0
      · -- the packet would overtake: it follows the one before it
        rw [if_pos hcase, LinkDelay.schedule]
        have hdelay : 0 ≤ m.latestTime + m.txtime size - m.sched.clock := by linarith [hcase.1]
        rcases hi.flight.schedule_cases hQ (h := W.target) hp hdelay with
          he | ⟨s', x, he, rfl, hxt, hs⟩
        · rw [he]
          exact .inl rfl
        · rw [he]
          have hxt' : x.time = m.latestTime + m.txtime size := by rw [hxt]; ring
          refine .inr ⟨_, x, rfl, hs.event, hs.clock, hhd.symm, rfl, ?_⟩
          refine hi.hand (hhd ▸ hs) ?_ ?_ (fun y hy => ?_) ?_ (fun _ => hxt'.symm) ?_ rfl rfl hdyn.symm
            rfl
          · rw [hxt']
            linarith [hcase.1]
          · rw [hxt']
            linarith [hcase.1]
          · rw [hxt']
            linarith [hbehind y hy]
          · rw [hdyn]
            rfl
          · exact add_nonneg hlatest htx
      · rw [if_neg hcase, LinkDelay.schedule]
        rcases hi.flight.schedule_cases hQ (h := W.target) hp (add_nonneg htx hd) with
          he | ⟨s', x, he, rfl, hxt, hs⟩
        · rw [he]
          exact .inl rfl
        · rw [he]
          have hover : m.latestTime ≤ x.time := by
            rw [hxt]
            rcases hlatest.lt_or_eq with hpos | hzero
            · linarith [not_lt.mp fun h => hcase ⟨h, hpos⟩]
            · linarith
          refine .inr ⟨_, x, rfl, hs.event, hs.clock, hhd.symm, rfl, ?_⟩
          refine hi.hand (hhd ▸ hs) ?_ ?_ (fun y hy => (hbehind y hy).trans hover) ?_ (fun _ => ?_) ?_
            rfl rfl hdyn.symm rfl
          · rw [hxt]
            linarith
          · rw [hxt]
            linarith
          · rw [hdyn]
            rfl
          · rw [hxt]
            exact add_assoc _ _ _
          · exact add_nonneg (add_nonneg hclock htx) hd

/-- The records of a call keep the invariant, for some packets in transit. -/
def Keeps (W : LinkWiring) (R : σ → EventList → Prop) (rs r : List LinkRecord)
    (m : LinkDelay σ) : Prop :=
  ∃ l tr, Inv W R (rs ++ r) m l tr

theorem Inv.keeps (hi : Inv W R rs m l tr) : Keeps W R rs [] m := by
  refine ⟨l, tr, ?_⟩
  rw [List.append_nil]
  exact hi

include hQ in
theorem Inv.recv (hi : Inv W R rs m l tr) {p size : Nat} (hp : m.Proper W (.recv p size))
    (ht : m.InTime (.recv p size)) : Ends (Keeps W R rs) (recv Q W m p size) := by
  obtain ⟨hne, hpend, hintr⟩ := hp
  rw [LinkDelay.recv]
  rcases hi.transmit hQ hpend ht with he | ⟨m', x, he, hev, hclock, hhd, hb, hi'⟩
  · rw [he]
    exact rfl
  · rw [he]
    have hintr' : ¬ 0 < (m'.sched.event W.intr).uid := by
      rw [hev W.intr hne.symm]
      exact hintr
    have htx := hi.txtime_nonneg size
    show Ends _ (schedule Q m' W.queue W.intr (m.txtime size) >>= _)
    rw [LinkDelay.schedule]
    rcases hi'.flight.schedule_cases hQ (h := W.queue) hintr' htx with he' | ⟨s', y, he', -, hyt, hs⟩
    · rw [he']
      exact rfl
    · rw [he']
      refine ⟨_, _, hi'.sched (hi'.flight.other hs W.queue_ne_link W.queue_ne_target ?_)⟩
      rw [hyt]
      exact le_add_of_nonneg_right htx

include hQ in
/-- The packets in transit are cancelled and dropped. -/
theorem drain_eq (hf : Flight W R m.sched hd l tr) :
    ∃ s' l', drain Q m (tr.map fun x => x.1.obj) =
        .ok (tr.map fun x => .dropped x.1.obj, { m with sched := s', itq := [] }) ∧
      Flight W R s' hd l' [] := by
  induction tr generalizing m l with
  | nil => exact ⟨m.sched, l, rfl, hf⟩
  | cons x tr ih =>
      have hx := hf.mem x List.mem_cons_self
      have hpos : 0 < (m.sched.event x.1.obj).uid := (hf.holds.pending_iff _).mp ⟨x.1, hx, rfl⟩
      rcases hf.cancel_cases hQ x.1.obj with ⟨hnot, -⟩ | ⟨y, hy, hobj, s₁, he, -, hr⟩
      · exact absurd hpos hnot
      · obtain rfl := hf.holds.ok.eq_of_obj hy hx hobj
        obtain ⟨s', l', hdrain, hf'⟩ := ih (m := { m with sched := s₁ }) (hf.removed_head hr)
        refine ⟨s', l', ?_, hf'⟩
        rw [List.map_cons, drain, LinkDelay.cancel, he]
        show (drain Q { m with sched := s₁ } (tr.map fun x => x.1.obj) >>= _) = _
        rw [hdrain]
        rfl

theorem foldlM_dropped (tr : List (Event × ℚ)) :
    (tr.map fun x => LinkRecord.dropped x.1.obj).foldlM fifo (tr.map fun x => (x.1.obj, x.2)) =
      some [] := by
  induction tr with
  | nil => rfl
  | cons x tr ih =>
      rw [List.map_cons, List.map_cons, List.foldlM_cons, fifo, if_pos rfl]
      exact ih

include hQ in
theorem Inv.reset (hi : Inv W R rs m l tr) : Ends (Keeps W R rs) (reset Q m) := by
  rw [LinkDelay.reset, hi.itq]
  cases hdyn : m.dynamic with
  | true =>
      obtain ⟨s', l', he, hf⟩ := drain_eq hQ hi.flight
      rw [if_pos rfl, he]
      refine ⟨l', [], hf, ?_, fun _ _ hx => absurd hx List.not_mem_nil, hi.latest_nonneg,
        hi.bandwidth, hi.delay, hi.mode, ?_⟩
      · show [] = if m.dynamic = true then _ else _
        rw [if_pos hdyn]
        rfl
      · rw [replay_append hi.replay]
        exact foldlM_dropped tr
  | false =>
      -- there is no `itq_`: nothing is dropped
      have hnil : m.itq = [] := by
        rw [hi.itq, hdyn]
        rfl
      have he : drain Q m [] = .ok ([], m) := by
        rw [drain, ← hnil]
      rw [if_neg Bool.false_ne_true, he]
      exact hi.keeps

/-- A packet in transit is dispatched to the handler of those. -/
theorem Inv.handler_eq (hi : Inv W R rs m l tr) {x : Event} (hx : x ∈ tr.map Prod.fst) :
    (m.sched.event x.obj).handler = some (m.handlerOf W) := by
  obtain ⟨y, hy, rfl⟩ := List.mem_map.mp hx
  exact hi.flight.handler y hy

/-- The first packet in transit is delivered. -/
theorem Inv.deliver {x : Event} {due : ℚ} (hi : Inv W R rs m l ((x, due) :: tr)) {s' : Scheduler σ}
    {l' : EventList} (hr : Flight.Removed R m.sched s' l l' x) (hclock : s'.clock = x.time) :
    Inv W R (rs ++ [.delivered x.obj s'.clock]) { m with sched := s', itq := m.itq.tail } l' tr := by
  refine ⟨hi.flight.removed_head hr, ?_, fun hf y hy => ?_, hi.latest_nonneg, hi.bandwidth, hi.delay,
    hi.mode, ?_⟩
  · show m.itq.tail = if m.dynamic = true then _ else _
    rw [hi.itq]
    split_ifs <;> rfl
  · exact hi.latest hf y (List.mem_cons_of_mem _ hy)
  · have hdue : due ≤ x.time := hi.flight.due (x, due) List.mem_cons_self
    rw [replay_append hi.replay, hclock, List.map_cons, List.foldlM_cons, fifo, if_pos ⟨rfl, hdue⟩]
    rfl

include hQ in
theorem Inv.dispatch (hi : Inv W R rs m l tr) : Ends (Keeps W R rs) (dispatch Q W m) := by
  rw [LinkDelay.dispatch]
  rcases hi.flight.next_cases hQ with ⟨s', he, hf, -, -⟩ | ⟨x, t, s', hl, he, hclock, hkeep, hr⟩
  · rw [he]
    exact (hi.sched hf).keeps
  · have hxl : x ∈ l.events := hl ▸ List.mem_cons_self
    rw [he]
    simp only
    rw [(hkeep x.obj).1]
    by_cases hof : (m.sched.event x.obj).handler = some W.link ∨
        (m.sched.event x.obj).handler = some W.target
    · have hx := hi.flight.ofLink x hxl hof
      have hhd := hi.handler_eq hx
      obtain ⟨due, tr', rfl⟩ := hi.flight.head_of_next hl hx
      have hdel := hi.deliver hr hclock
      rw [hhd]
      by_cases hdyn : m.dynamic = true
      · have hitq : m.itq = x.obj :: tr'.map fun x => x.1.obj := by
          rw [hi.itq, if_pos hdyn]
          rfl
        rw [handlerOf, if_pos hdyn, if_pos rfl, handle, hitq]
        simp only [if_true]
        rw [hitq] at hdel
        exact ⟨_, _, hdel⟩
      · have hnil : m.itq = [] := by rw [hi.itq, if_neg hdyn]
        have htail : m.itq.tail = m.itq := by rw [hnil]; rfl
        have hne : ¬ some W.target = some W.link := fun h => W.link_ne_target (Option.some.inj h).symm
        rw [handlerOf, if_neg hdyn, if_neg hne, if_pos rfl]
        rw [htail] at hdel
        exact ⟨_, _, hdel⟩
    · have hnot : x ∉ tr.map Prod.fst := by
        intro hx
        refine hof ?_
        rw [hi.handler_eq hx, handlerOf]
        split_ifs
        · exact .inl rfl
        · exact .inr rfl
      rw [if_neg fun h => hof (.inl h), if_neg fun h => hof (.inr h)]
      exact (hi.sched (hi.flight.removed_other hr hxl hnot)).keeps

include hQ in
theorem Inv.step (hi : Inv W R rs m l tr) {c : LinkCall} (hp : m.Proper W c) (ht : m.InTime c) :
    Ends (Keeps W R rs) (step Q W m c) := by
  cases c with
  | recv p size => exact hi.recv hQ hp ht
  | setBandwidth bandwidth =>
      have hi' : Inv W R rs { m with bandwidth := bandwidth } l tr :=
        ⟨hi.flight, hi.itq, hi.latest, hi.latest_nonneg, hp, hi.delay, hi.mode, hi.replay⟩
      exact hi'.keeps
  | setDelay delay =>
      have hi' : Inv W R rs { m with delay := delay } l tr :=
        ⟨hi.flight, hi.itq, hi.latest, hi.latest_nonneg, hi.bandwidth, hp, hi.mode, hi.replay⟩
      exact hi'.keeps
  | reset => exact hi.reset hQ
  | dispatch => exact hi.dispatch hQ
  | schedule h e delay =>
      obtain ⟨hlink, htarget, -, hpend, hdelay⟩ := hp
      rw [LinkDelay.step, LinkDelay.schedule]
      rcases hi.flight.schedule_cases hQ (h := h) hpend hdelay with he | ⟨s', x, he, -, hxt, hs⟩
      · rw [he]
        exact rfl
      · rw [he]
        have hx : m.sched.clock ≤ x.time := by
          rw [hxt]
          exact le_add_of_nonneg_right hdelay
        exact (hi.sched (hi.flight.other hs hlink htarget hx)).keeps
  | cancel e =>
      rw [LinkDelay.step, LinkDelay.cancel]
      rcases hi.flight.cancel_cases hQ e with ⟨-, he⟩ | ⟨x, hx, rfl, s', he, -, hr⟩
      · rw [he]
        exact (hi.sched hi.flight).keeps
      · rw [he]
        have hpos : 0 < (m.sched.event x.obj).uid :=
          (hi.flight.holds.pending_iff _).mp ⟨x, hx, rfl⟩
        have hnot : x ∉ tr.map Prod.fst := by
          intro hm
          refine hp.2 ⟨hpos, ?_⟩
          rw [OfLink, hi.handler_eq hm, handlerOf]
          split_ifs
          · exact .inl rfl
          · exact .inr rfl
        exact (hi.sched (hi.flight.removed_other hr hx hnot)).keeps

/-! ### Runs -/

include hQ in
theorem Reach.inv (h : Reach Q W (fun m c => m.InTime c) rs m) : ∃ l tr, Inv W R rs m l tr := by
  induction h with
  | init hb hd hm =>
      refine ⟨.init, [], Flight.init hQ, ?_, fun _ _ hx => absurd hx List.not_mem_nil, le_rfl, hb, hd,
        hm, rfl⟩
      show [] = if _ then _ else _
      split_ifs <;> rfl
  | step c _ hp ht hs ih =>
      obtain ⟨l, tr, hi⟩ := ih
      have hstep := hi.step hQ hp ht
      rw [hs] at hstep
      exact hstep

/-- The calls one after the other, as long as they are proper and meet `P`. -/
def run (Q : EventQueue σ) (W : LinkWiring) (P : LinkDelay σ → LinkCall → Prop)
    [∀ m c, Decidable (P m c)] (m : LinkDelay σ) :
    List LinkCall → Option (List LinkRecord × LinkDelay σ)
  | [] => some ([], m)
  | c :: cs =>
      if m.Proper W c ∧ P m c then do
        let r ← (step Q W m c).toOption
        let t ← run Q W P r.2 cs
        some (r.1 ++ t.1, t.2)
      else none

theorem Reach.run {P : LinkDelay σ → LinkCall → Prop} [∀ m c, Decidable (P m c)]
    {r : List LinkRecord} {m' : LinkDelay σ} {cs : List LinkCall} (h : Reach Q W P rs m)
    (hr : run Q W P m cs = some (r, m')) : Reach Q W P (rs ++ r) m' := by
  induction cs generalizing rs r m with
  | nil =>
      obtain ⟨rfl, rfl⟩ := Prod.mk.inj (Option.some.inj hr)
      rw [List.append_nil]
      exact h
  | cons c cs ih =>
      rw [LinkDelay.run] at hr
      split_ifs at hr with hc
      obtain ⟨⟨r₁, m₁⟩, hs, hr⟩ := Option.bind_eq_some_iff.mp hr
      obtain ⟨⟨r₂, m₂⟩, ht, hr⟩ := Option.bind_eq_some_iff.mp hr
      obtain ⟨rfl, rfl⟩ := Prod.mk.inj (Option.some.inj hr)
      rw [← List.append_assoc]
      refine ih (h.step c hc.1 hc.2 ?_) ht
      cases he : LinkDelay.step Q W m c with
      | error a =>
          rw [he] at hs
          cases hs
      | ok p =>
          rw [he] at hs
          exact congrArg Except.ok (Option.some.inj hs)

instance (m : LinkDelay σ) : ∀ c, Decidable (m.InTime c)
  | .recv _ size => inferInstanceAs (Decidable (m.dynamic = true → ∀ q ∈ m.itq,
      (m.sched.event q).time ≤ m.sched.clock + (m.txtime size + m.delay)))
  | .setBandwidth _ | .setDelay _ | .reset | .dispatch | .schedule _ _ _ | .cancel _ => .isTrue trivial

end LinkDelay

end Afabric
