import Afabric.Sched.Scheduler

/-!
# Sched — `TimerHandler`

A timer (`common/timer-handler.cc`) owns one event and keeps a status beside it.  It is pending when
its event is in the queue of the scheduler, and both say so through the calls of all timers, of the
other events, and of the handlers that run in between (`timers_agree`).

The `expire` of a timer is the code of a client.  It runs between `handle`, which is called at the
end of a dispatch, and `ret`, where `handle` looks at the status again; what it calls stands between
them in a run, a dispatch of its own included.
-/

namespace Afabric

inductive TimerStatus where
  | idle
  | pending
  | handling
deriving DecidableEq, Repr

/-- The timers, each known by its event, with the scheduler and the timers whose `handle` has not
returned. -/
structure Timers (σ : Type) where
  sched : Scheduler σ
  status : Nat → TimerStatus
  stack : List Nat

namespace Timers

variable {σ : Type} (Q : EventQueue σ)

def init : Timers σ := ⟨.init Q, fun _ => .idle, []⟩

def setStatus (m : Timers σ) (t : Nat) (v : TimerStatus) : Timers σ :=
  { m with status := fun k => if k = t then v else m.status k }

/-- `_sched`. -/
def schedEvent (m : Timers σ) (t : Nat) (delay : ℚ) : Except Abort (Timers σ) := do
  let s ← Scheduler.schedule Q m.sched (some t) t delay
  .ok { m with sched := s }

/-- `_cancel`. -/
def cancelEvent (m : Timers σ) (t : Nat) : Except Abort (Timers σ) := do
  let s ← Scheduler.cancel Q m.sched t
  .ok { m with sched := s }

/-- `cancel`. -/
def cancel (m : Timers σ) (t : Nat) : Except Abort (Timers σ) :=
  if m.status t ≠ .pending then .error (.timerCancel t)
  else do
    let m' ← cancelEvent Q m t
    .ok (m'.setStatus t .idle)

/-- `force_cancel`. -/
def forceCancel (m : Timers σ) (t : Nat) : Except Abort (Timers σ) :=
  if m.status t = .pending then do
    let m' ← cancelEvent Q m t
    .ok (m'.setStatus t .idle)
  else .ok m

/-- `sched`. -/
def schedTimer (m : Timers σ) (t : Nat) (delay : ℚ) : Except Abort (Timers σ) :=
  if m.status t ≠ .idle then .error (.timerSched t)
  else do
    let m' ← schedEvent Q m t delay
    .ok (m'.setStatus t .pending)

/-- `resched`. -/
def resched (m : Timers σ) (t : Nat) (delay : ℚ) : Except Abort (Timers σ) := do
  let m' ← if m.status t = .pending then cancelEvent Q m t else .ok m
  let m'' ← schedEvent Q m' t delay
  .ok (m''.setStatus t .pending)

/-- `handle`, up to the call of `expire`. -/
def handle (m : Timers σ) (t : Nat) : Except Abort (Timers σ) :=
  if m.status t ≠ .pending then .error (.timerHandle t)
  else .ok { m.setStatus t .handling with stack := t :: m.stack }

/-- The rest of the last `handle`, after `expire` has returned. -/
def ret (m : Timers σ) : Timers σ :=
  match m.stack with
  | [] => m
  | t :: stack =>
      if m.status t = .handling then { m.setStatus t .idle with stack := stack }
      else { m with stack := stack }

/-- One round of the loop of `run`, with the call of the handler; `T` are the timers among the
handlers. -/
def dispatch (T : Nat → Prop) [DecidablePred T] (m : Timers σ) : Except Abort (Timers σ) := do
  let r ← Scheduler.next Q m.sched
  let m' := { m with sched := r.2 }
  match r.1.bind fun p => (r.2.event p.obj).handler with
  | none => .ok m'
  | some h => if T h then m'.handle h else .ok m'

/-- A call on a timer, on another event, a dispatch, or the return from a `handle`. -/
inductive TimerCall where
  | sched (t : Nat) (delay : ℚ)
  | resched (t : Nat) (delay : ℚ)
  | cancel (t : Nat)
  | forceCancel (t : Nat)
  | schedule (h e : Nat) (delay : ℚ)
  | cancelOther (e : Nat)
  | dispatch
  | ret

variable (T : Nat → Prop)

def step [DecidablePred T] (m : Timers σ) : TimerCall → Except Abort (Timers σ)
  | .sched t delay => schedTimer Q m t delay
  | .resched t delay => resched Q m t delay
  | .cancel t => cancel Q m t
  | .forceCancel t => forceCancel Q m t
  | .schedule h e delay => do
      let s ← Scheduler.schedule Q m.sched (some h) e delay
      .ok { m with sched := s }
  | .cancelOther e => cancelEvent Q m e
  | .dispatch => dispatch Q T m
  | .ret => .ok m.ret

def run [DecidablePred T] (m : Timers σ) : List TimerCall → Except Abort (Timers σ)
  | [] => .ok m
  | c :: cs => do
      let m' ← step Q T m c
      run m' cs

/-- The event of a timer is private to it, and an event is scheduled for a time that the queue
accepts. -/
def TimerCall.Permits (G : EventList → Event → Prop) : TimerCall → Prop
  | .sched t delay => T t ∧ (0 ≤ delay ∨ ∀ l e, G l e)
  | .resched t delay => T t ∧ (0 ≤ delay ∨ ∀ l e, G l e)
  | .cancel t => T t
  | .forceCancel t => T t
  | .schedule h e delay => (¬ T h ∧ ¬ T e) ∧ (0 ≤ delay ∨ ∀ l e, G l e)
  | .cancelOther e => ¬ T e
  | .dispatch => True
  | .ret => True

/-! ### The invariant -/

/-- The status of a timer, but that of `t`, agrees with the number of its event, and only a timer
handles its event. -/
structure AgreesOff (R : σ → EventList → Prop) (m : Timers σ) (t : Nat) : Prop where
  holds : ∃ l, Scheduler.Holds R m.sched l
  status : ∀ k, T k → k ≠ t → (m.status k = .pending ↔ 0 < (m.sched.event k).uid)
  handler : ∀ e, 0 < (m.sched.event e).uid → ∃ h, (m.sched.event e).handler = some h ∧
    (T h ∨ T e → h = e)

/-- The status of each timer agrees with the number of its event. -/
def Agrees (R : σ → EventList → Prop) (m : Timers σ) : Prop :=
  ∀ t, AgreesOff T R m t

/-- A call ends with agreement, or in an abort that is neither of the two. -/
def Safe (R : σ → EventList → Prop) : Except Abort (Timers σ) → Prop
  | .ok m => Agrees T R m
  | .error a => ∀ t, T t → a ≠ .timerHandle t ∧ a ≠ .uid t

variable {Q T} {G : EventList → Event → Prop} {R : σ → EventList → Prop} {m : Timers σ}

theorem Agrees.status (h : Agrees T R m) {t : Nat} (ht : T t) :
    m.status t = .pending ↔ 0 < (m.sched.event t).uid :=
  (h (t + 1)).status t ht (by omega)

theorem AgreesOff.agrees {t : Nat} (h : AgreesOff T R m t)
    (ht : T t → (m.status t = .pending ↔ 0 < (m.sched.event t).uid)) : Agrees T R m := by
  refine fun _ => ⟨h.holds, fun k hk _ => ?_, h.handler⟩
  by_cases hkt : k = t
  · subst hkt
    exact ht hk
  · exact h.status k hk hkt

theorem AgreesOff.setStatus {t : Nat} (h : AgreesOff T R m t) {v : TimerStatus}
    (hv : T t → (v = .pending ↔ 0 < (m.sched.event t).uid)) : Agrees T R (m.setStatus t v) := by
  have hoff : AgreesOff T R (m.setStatus t v) t := by
    refine ⟨h.holds, fun k hk hkt => ?_, h.handler⟩
    simpa [Timers.setStatus, hkt] using h.status k hk hkt
  refine hoff.agrees fun ht => ?_
  simpa [Timers.setStatus] using hv ht

/-! ### The steps -/

theorem init_agrees (hQ : Refines Q G R) : Agrees T R (init Q) := fun _ =>
  ⟨⟨_, .init hQ⟩, fun _ _ _ => ⟨nofun, fun h => absurd h (Int.lt_irrefl 0)⟩,
    fun _ h => absurd h (Int.lt_irrefl 0)⟩

/-- Cancelling an event, whatever the status of its timer. -/
theorem AgreesOff.cancel (hQ : Refines Q G R) {e : Nat} (h : AgreesOff T R m e) :
    ∃ m', cancelEvent Q m e = .ok m' ∧ AgreesOff T R m' e ∧ m'.status = m.status ∧
      (m'.sched.event e).uid ≤ 0 := by
  obtain ⟨l, hl⟩ := h.holds
  obtain ⟨s, l', hs, hl'⟩ : ∃ s l', Scheduler.cancel Q m.sched e = .ok s ∧
      Scheduler.Holds R s l' := by
    rcases Scheduler.cancel_spec hQ hl e with ⟨-, he⟩ | ⟨x, -, -, s, he, hs⟩
    · exact ⟨_, l, he, hl⟩
    · exact ⟨s, _, he, hs⟩
  obtain ⟨hu, hh, hk⟩ := Scheduler.cancel_event hs
  refine ⟨{ m with sched := s }, by rw [cancelEvent, hs]; rfl, ⟨⟨l', hl'⟩, fun k ht hke => ?_,
    fun k hpos => ?_⟩, rfl, hu⟩
  · show m.status k = .pending ↔ 0 < (s.event k).uid
    rw [hk k hke]
    exact h.status k ht hke
  · have hke : k ≠ e := by
      rintro rfl
      exact absurd hpos (Int.not_lt.mpr hu)
    show ∃ h, (s.event k).handler = some h ∧ _
    rw [hh k]
    exact h.handler k (by rw [← hk k hke]; exact hpos)

/-- Scheduling an event without a number. -/
theorem AgreesOff.schedule (hQ : Refines Q G R) (hG : ∀ l e, l.now ≤ e.time → G l e) {e hd : Nat}
    {delay : ℚ} (h : AgreesOff T R m e) (hu : (m.sched.event e).uid ≤ 0)
    (hown : T hd ∨ T e → hd = e) (hdelay : 0 ≤ delay ∨ ∀ l e, G l e) :
    Scheduler.schedule Q m.sched (some hd) e delay = .error .exhausted ∨
      ∃ s, Scheduler.schedule Q m.sched (some hd) e delay = .ok s ∧
        AgreesOff T R { m with sched := s } e ∧ 0 < (s.event e).uid := by
  obtain ⟨l, hl⟩ := h.holds
  have hg : G l ⟨e, l.uids + 1, m.sched.clock + delay⟩ := by
    rcases hdelay with hdelay | hall
    · refine hG _ _ ?_
      rw [← hl.clock]
      exact le_add_of_nonneg_right hdelay
    · exact hall _ _
  rcases Scheduler.schedule_spec hQ hl hd e hg with ⟨hp, -⟩ | ⟨-, -, he⟩ | ⟨-, -, s, he, hs⟩
  · exact absurd ((hl.pending_iff e).mp hp) (Int.not_lt.mpr hu)
  · exact .inl he
  obtain ⟨-, hneg, hev⟩ := Scheduler.schedule_event he
  have hpos : 0 < (s.event e).uid :=
    (hs.pending_iff e).mp ⟨_, ListScheduler.mem_insert.mpr (.inl rfl), rfl⟩
  refine .inr ⟨s, he, ⟨⟨_, hs⟩, fun k ht hke => ?_, fun k hk => ?_⟩, hpos⟩
  · show m.status k = .pending ↔ 0 < (s.event k).uid
    rw [hev, Scheduler.setEvent_event, if_neg hke]
    exact h.status k ht hke
  · show ∃ h, (s.event k).handler = some h ∧ _
    replace hk : 0 < (s.event k).uid := hk
    rw [hev, Scheduler.setEvent_event] at hk ⊢
    by_cases hke : k = e
    · rw [if_pos hke]
      exact ⟨hd, rfl, by rw [hke]; exact hown⟩
    · rw [if_neg hke] at hk ⊢
      exact h.handler k hk

/-- Setting a timer whose event has no number. -/
theorem AgreesOff.sched (hQ : Refines Q G R) (hG : ∀ l e, l.now ≤ e.time → G l e) {t : Nat}
    {delay : ℚ} (h : AgreesOff T R m t) (hu : (m.sched.event t).uid ≤ 0)
    (hdelay : 0 ≤ delay ∨ ∀ l e, G l e) :
    Safe T R (do let m' ← schedEvent Q m t delay; .ok (m'.setStatus t .pending)) := by
  rcases h.schedule hQ hG hu (fun _ => rfl) hdelay with he | ⟨s, he, hs, hpos⟩
  · rw [schedEvent, he]
    exact fun _ _ => ⟨by simp, by simp⟩
  · rw [schedEvent, he]
    exact hs.setStatus fun _ => ⟨fun _ => hpos, fun _ => rfl⟩

theorem Agrees.uid_le (h : Agrees T R m) {t : Nat} (ht : T t) (hs : m.status t ≠ .pending) :
    (m.sched.event t).uid ≤ 0 := Int.not_lt.mp fun hpos => hs ((h.status ht).mpr hpos)

theorem Agrees.dispatch [DecidablePred T] (hQ : Refines Q G R) (h : Agrees T R m) :
    Safe T R (dispatch Q T m) := by
  obtain ⟨l, hl⟩ := (h 0).holds
  rcases Scheduler.next_spec hQ hl with ⟨-, s, he, hev, hs⟩ | ⟨x, t, hlx, ⟨-, he⟩ | ⟨-, s, he, hs⟩⟩
  · rw [Timers.dispatch, he]
    show Agrees T R { m with sched := s }
    refine fun k => ⟨⟨l, hs⟩, ?_, ?_⟩
    · show ∀ k', T k' → k' ≠ k → (m.status k' = .pending ↔ 0 < (s.event k').uid)
      rw [hev]
      exact (h k).status
    · show ∀ e, 0 < (s.event e).uid → ∃ h, (s.event e).handler = some h ∧ _
      rw [hev]
      exact (h k).handler
  · rw [Timers.dispatch, he]
    exact fun _ _ => ⟨by simp, by simp⟩
  · -- an event is taken off: its number is negative while its handler runs
    have hev := Scheduler.next_event he
    have hx : x ∈ l.events := by rw [hlx]; exact List.mem_cons_self
    have hpos := (hl.pending_iff x.obj).mp ⟨x, hx, rfl⟩
    obtain ⟨hd, hhd, hown⟩ := (h 0).handler x.obj hpos
    have hhd' : (s.event x.obj).handler = some hd := by
      rw [hev, Scheduler.setEvent_event, if_pos rfl]
      exact hhd
    have hoff : AgreesOff T R { m with sched := s } x.obj := by
      refine ⟨⟨_, hs⟩, fun k ht hkx => ?_, fun k hk => ?_⟩
      · show m.status k = .pending ↔ 0 < (s.event k).uid
        rw [hev, Scheduler.setEvent_event, if_neg hkx]
        exact h.status ht
      · replace hk : 0 < (s.event k).uid := hk
        show ∃ h, (s.event k).handler = some h ∧ _
        rw [hev, Scheduler.setEvent_event] at hk ⊢
        by_cases hkx : k = x.obj
        · rw [if_pos hkx] at hk
          simp only at hk
          omega
        · rw [if_neg hkx] at hk ⊢
          exact (h 0).handler k hk
    have hneg : ¬ 0 < (s.event x.obj).uid := by
      rw [hev, Scheduler.setEvent_event, if_pos rfl]
      simp only
      omega
    rw [Timers.dispatch, he]
    show Safe T R (match (s.event x.obj).handler with
      | none => .ok { m with sched := s }
      | some h => if T h then handle { m with sched := s } h else .ok { m with sched := s })
    rw [hhd']
    -- a timer that expires is HANDLING until its function returns
    by_cases hT : T hd
    · obtain rfl := hown (.inl hT)
      have hst : m.status x.obj = .pending := (h.status hT).mpr hpos
      simp only [if_pos hT]
      rw [handle, if_neg (not_not_intro hst)]
      have hset := hoff.setStatus (v := .handling) fun _ => ⟨nofun, fun hp => absurd hp hneg⟩
      exact fun k => ⟨(hset k).holds, (hset k).status, (hset k).handler⟩
    · simp only [if_neg hT]
      exact hoff.agrees fun hTx => absurd (hown (.inr hTx) ▸ hTx) hT

theorem Agrees.ret (h : Agrees T R m) : Agrees T R m.ret := by
  unfold Timers.ret
  split
  case h_1 => exact h
  case h_2 t stack hst =>
    by_cases hh : m.status t = .handling
    · rw [if_pos hh]
      have hset : Agrees T R (m.setStatus t .idle) := (h t).setStatus fun hT =>
        ⟨nofun, fun hpos => absurd hpos (Int.not_lt.mpr (h.uid_le hT (by rw [hh]; decide)))⟩
      exact fun k => ⟨(hset k).holds, (hset k).status, (hset k).handler⟩
    · rw [if_neg hh]
      exact fun k => ⟨(h k).holds, (h k).status, (h k).handler⟩

/-- Cancelling a timer. -/
theorem Agrees.cancel (hQ : Refines Q G R) (h : Agrees T R m) (t : Nat) :
    Safe T R (do let m' ← cancelEvent Q m t; .ok (m'.setStatus t .idle)) := by
  obtain ⟨m', he, hoff, -, hu⟩ := (h t).cancel hQ
  rw [he]
  exact hoff.setStatus fun _ => ⟨nofun, fun hpos => absurd hpos (Int.not_lt.mpr hu)⟩

theorem Agrees.step [DecidablePred T] (hQ : Refines Q G R) (hG : ∀ l e, l.now ≤ e.time → G l e)
    (h : Agrees T R m) {c : TimerCall} (hc : c.Permits T G) : Safe T R (step Q T m c) := by
  cases c with
  | sched t delay =>
      show Safe T R (schedTimer Q m t delay)
      unfold schedTimer
      by_cases hs : m.status t ≠ .idle
      · rw [if_pos hs]
        exact fun _ _ => ⟨nofun, nofun⟩
      · rw [if_neg hs]
        have hu := h.uid_le hc.1 (by rw [not_not.mp hs]; decide)
        exact (h t).sched hQ hG hu hc.2
  | resched t delay =>
      show Safe T R (resched Q m t delay)
      unfold resched
      by_cases hs : m.status t = .pending
      · obtain ⟨m', he, hoff, -, hu⟩ := (h t).cancel hQ
        rw [if_pos hs, he]
        exact hoff.sched hQ hG hu hc.2
      · rw [if_neg hs]
        exact (h t).sched hQ hG (h.uid_le hc.1 hs) hc.2
  | cancel t =>
      show Safe T R (Timers.cancel Q m t)
      unfold Timers.cancel
      by_cases hs : m.status t ≠ .pending
      · rw [if_pos hs]
        exact fun _ _ => ⟨nofun, nofun⟩
      · rw [if_neg hs]
        exact h.cancel hQ t
  | forceCancel t =>
      show Safe T R (forceCancel Q m t)
      unfold forceCancel
      by_cases hs : m.status t = .pending
      · rw [if_pos hs]
        exact h.cancel hQ t
      · rw [if_neg hs]
        exact h
  | schedule hd e delay =>
      obtain ⟨⟨hTh, hTe⟩, hdelay⟩ := hc
      by_cases hu : (m.sched.event e).uid ≤ 0
      · have hown : T hd ∨ T e → hd = e := fun hT => (hT.elim hTh hTe).elim
        rcases (h e).schedule hQ hG hu hown hdelay with he | ⟨s, he, hs, -⟩
        · rw [Timers.step, he]
          exact fun _ _ => ⟨nofun, nofun⟩
        · rw [Timers.step, he]
          exact hs.agrees fun hT => absurd hT hTe
      · have he : Scheduler.schedule Q m.sched (some hd) e delay = .error (.uid e) :=
          if_pos (Int.not_le.mp hu)
        rw [Timers.step, he]
        refine fun t ht => ⟨nofun, fun heq => hTe ?_⟩
        cases heq
        exact ht
  | cancelOther e =>
      obtain ⟨m', he, hoff, -, -⟩ := (h e).cancel hQ
      rw [Timers.step, he]
      exact hoff.agrees fun hT => absurd hT hc
  | dispatch => exact h.dispatch hQ
  | ret => exact h.ret

theorem Agrees.run [DecidablePred T] (hQ : Refines Q G R) (hG : ∀ l e, l.now ≤ e.time → G l e)
    (h : Agrees T R m) {cs : List TimerCall} (hc : ∀ c ∈ cs, c.Permits T G) :
    Safe T R (run Q T m cs) := by
  induction cs generalizing m with
  | nil => exact h
  | cons c cs ih =>
      rw [List.forall_mem_cons] at hc
      have hstep := h.step hQ hG hc.1
      rw [Timers.run]
      cases hs : Timers.step Q T m c with
      | error a =>
          rw [hs] at hstep
          exact hstep
      | ok m' =>
          rw [hs] at hstep
          exact ih hstep hc.2

/-- **A timer is pending when its event is in the queue.**  After every sequence of calls, from
inside the handlers or outside, the status of each timer says whether its event is in the queue,
which holds it at most once; and the sequence does not abort because a timer is handled that is not
pending, or because the event of a timer is already scheduled. -/
theorem timers_agree [DecidablePred T] (hQ : Refines Q G R)
    (hG : ∀ l e, l.now ≤ e.time → G l e) {cs : List TimerCall} (hc : ∀ c ∈ cs, c.Permits T G) :
    (∀ m, run Q T (init Q) cs = .ok m → ∃ l, R m.sched.queue l ∧
      (∀ t, T t → (m.status t = .pending ↔ Scheduler.Pending l t)) ∧
      l.events.Pairwise fun x y => x.obj ≠ y.obj) ∧
    ∀ a, run Q T (init Q) cs = .error a → ∀ t, T t → a ≠ .timerHandle t ∧ a ≠ .uid t := by
  have hrun := (init_agrees hQ).run hQ hG hc
  refine ⟨fun m hm => ?_, fun a ha => ?_⟩
  · rw [hm] at hrun
    obtain ⟨l, hl⟩ := (hrun 0).holds
    exact ⟨l, hl.rep, fun t ht => (hrun.status ht).trans (hl.pending_iff t).symm, hl.ok.objs⟩
  · rw [ha] at hrun
    exact hrun

/-- A timer that sets itself again in its `expire`, and is cancelled and set twice. -/
theorem timers_agree_resched :
    let cs := [.resched 0 5, .dispatch, .resched 0 1, .ret, .forceCancel 0, .resched 0 2,
      .resched 0 3]
    ∃ m, run listScheduler (· = 0) (init listScheduler) cs = .ok m ∧
      ∃ l : EventList, m.sched.queue = l.events ∧ (m.status 0 = .pending ↔ Scheduler.Pending l 0) := by
  intro cs
  have hc : ∀ c ∈ cs, c.Permits (· = 0) fun _ _ => True := by
    intro c hc
    simp only [cs, List.mem_cons, List.not_mem_nil, or_false] at hc
    rcases hc with rfl | rfl | rfl | rfl | rfl | rfl | rfl <;> simp [TimerCall.Permits]
  obtain ⟨hok, -⟩ := timers_agree (T := (· = 0)) listScheduler_refines (fun _ _ _ => trivial) hc
  have hrun : ((run listScheduler (· = 0) (init listScheduler) cs).toOption.map
      fun m => m.status 0) = some .pending := by decide +kernel
  cases hr : run listScheduler (· = 0) (init listScheduler) cs with
  | error a => rw [hr] at hrun; cases hrun
  | ok m =>
      obtain ⟨l, hl, hst, -⟩ := hok m hr
      exact ⟨m, rfl, l, hl, hst 0 rfl⟩

end Timers

end Afabric
