import Afabric.Sched.EventList

/-!
# Sched — `Scheduler`

`Scheduler` (`common/scheduler.cc`) numbers the events as they are scheduled and dispatches them
from an event queue, whose operations are those of a subclass.  An event object is pending while
its `uid_` is positive: `schedule` gives it a fresh number, and `dispatch` and `cancel` turn the
sign.

A handler is called at the end of `dispatch`, so what it calls comes after the dispatch in a run,
at the same clock.  A run is thus any sequence of calls, those of the handlers included.
-/

namespace Afabric

/-- The calls of `abort`. -/
inductive Abort where
  /-- A null handler. -/
  | handler
  /-- "Event UID not valid": the event is already scheduled. -/
  | uid (e : Nat)
  /-- "UID space exhausted". -/
  | exhausted
  /-- "scheduler going backwards in time". -/
  | backwards
  /-- An operation of the event queue. -/
  | queue
  /-- A timer is cancelled that is not pending. -/
  | timerCancel (t : Nat)
  /-- A timer is set that is not idle. -/
  | timerSched (t : Nat)
  /-- A timer is handled that is not pending. -/
  | timerHandle (t : Nat)
deriving DecidableEq, Repr

/-- The fields of an `Event` object. -/
structure EventObj where
  handler : Option Nat
  time : ℚ
  uid : Int
deriving Inhabited

/-- A `Scheduler` with the event objects; `uid` is the next number. -/
structure Scheduler (σ : Type) where
  queue : σ
  clock : ℚ
  uid : Int
  event : Nat → EventObj

namespace Scheduler

variable {σ : Type} (Q : EventQueue σ)

def init : Scheduler σ where
  queue := Q.init
  clock := 0
  uid := 1
  event := fun _ => ⟨none, 0, 0⟩

/-- The object gets new fields. -/
def setEvent (s : Scheduler σ) (e : Nat) (o : EventObj) : Scheduler σ :=
  { s with event := fun k => if k = e then o else s.event k }

/-- The pending event of an object, as the queue knows it. -/
def toEvent (s : Scheduler σ) (e : Nat) : Event := ⟨e, (s.event e).uid.toNat, (s.event e).time⟩

/-- `schedule`; a negative delay is only reported. -/
def schedule (s : Scheduler σ) (h : Option Nat) (e : Nat) (delay : ℚ) :
    Except Abort (Scheduler σ) :=
  match h with
  | none => .error .handler
  | some h =>
      if 0 < (s.event e).uid then .error (.uid e)
      else if s.uid < 0 then .error .exhausted
      else
        let s' := { s.setEvent e ⟨some h, s.clock + delay, s.uid⟩ with
          uid := (s.uid + 1).bmod (2 ^ 64) }
        match Q.insert s'.queue (s'.toEvent e) with
        | none => .error .queue
        | some q => .ok { s' with queue := q }

/-- `cancel`, with the test that all subclasses begin with. -/
def cancel (s : Scheduler σ) (e : Nat) : Except Abort (Scheduler σ) :=
  if (s.event e).uid ≤ 0 then .ok s
  else
    match Q.cancel s.queue (s.toEvent e) with
    | none => .error .queue
    | some q => .ok { s.setEvent e { s.event e with uid := -(s.event e).uid } with queue := q }

/-- `dispatch`, up to the call of the handler. -/
def dispatch (s : Scheduler σ) (p : Event) (t : ℚ) : Except Abort (Scheduler σ) :=
  if t < s.clock then .error .backwards
  else .ok { s.setEvent p.obj { s.event p.obj with uid := -(s.event p.obj).uid } with clock := t }

/-- One round of the loop of `run`, with the event that is dispatched. -/
def next (s : Scheduler σ) : Except Abort (Option Event × Scheduler σ) :=
  match Q.deque s.queue with
  | none => .error .queue
  | some (none, q) => .ok (none, { s with queue := q })
  | some (some p, q) => do
      let s' ← dispatch { s with queue := q } p p.time
      .ok (some p, s')

/-! ### What the operations write -/

section Events

variable {Q} {s s' : Scheduler σ}

@[simp] theorem setEvent_event (s : Scheduler σ) (e k : Nat) (o : EventObj) :
    (s.setEvent e o).event k = if k = e then o else s.event k := rfl

@[simp] theorem setEvent_queue (s : Scheduler σ) (e : Nat) (o : EventObj) :
    (s.setEvent e o).queue = s.queue := rfl

theorem schedule_event {h e : Nat} {delay : ℚ} (hs : schedule Q s (some h) e delay = .ok s') :
    ¬ 0 < (s.event e).uid ∧ ¬ s.uid < 0 ∧
      s'.event = (s.setEvent e ⟨some h, s.clock + delay, s.uid⟩).event := by
  unfold schedule at hs
  by_cases hp : 0 < (s.event e).uid
  · simp only [if_pos hp] at hs
    cases hs
  by_cases hu : s.uid < 0
  · simp only [if_neg hp, if_pos hu] at hs
    cases hs
  simp only [if_neg hp, if_neg hu] at hs
  split at hs
  · cases hs
  · cases hs
    exact ⟨hp, hu, rfl⟩

theorem cancel_event {e : Nat} (hs : cancel Q s e = .ok s') :
    (s'.event e).uid ≤ 0 ∧ (∀ k, (s'.event k).handler = (s.event k).handler) ∧
      ∀ k, k ≠ e → s'.event k = s.event k := by
  unfold cancel at hs
  by_cases hu : (s.event e).uid ≤ 0
  · rw [if_pos hu] at hs
    cases hs
    exact ⟨hu, fun _ => rfl, fun _ _ => rfl⟩
  rw [if_neg hu] at hs
  split at hs
  · cases hs
  · cases hs
    refine ⟨?_, fun k => ?_, fun k hk => if_neg hk⟩
    · simp only [setEvent_event, if_pos]
      omega
    · by_cases hk : k = e
      · simp [hk]
      · simp [hk]

theorem next_event {p : Event} (hs : next Q s = .ok (some p, s')) :
    s'.event = (s.setEvent p.obj { s.event p.obj with uid := -(s.event p.obj).uid }).event := by
  unfold next at hs
  split at hs
  · cases hs
  · cases hs
  · rename_i p' q _
    by_cases hlt : p'.time < s.clock
    · simp only [dispatch, if_pos hlt] at hs
      cases hs
    · simp only [dispatch, if_neg hlt] at hs
      cases hs
      rfl

end Events

/-! ### The operations on the event list -/

variable {Q} {G : EventList → Event → Prop} {R : σ → EventList → Prop}

/-- The object is in the queue. -/
def Pending (l : EventList) (e : Nat) : Prop := ∃ x ∈ l.events, x.obj = e

/-- The scheduler stands for the event list. -/
structure Holds (R : σ → EventList → Prop) (s : Scheduler σ) (l : EventList) : Prop where
  rep : R s.queue l
  ok : l.Ok
  clock : s.clock = l.now
  uid : s.uid = l.uids + 1 ∧ s.uid < 2 ^ 63 ∨ s.uid < 0 ∧ 2 ^ 63 ≤ l.uids + 1
  pos : ∀ x ∈ l.events, 0 < x.uid
  event : ∀ x ∈ l.events, (s.event x.obj).uid = x.uid ∧ (s.event x.obj).time = x.time
  pending : ∀ e, 0 < (s.event e).uid → Pending l e

namespace Holds

variable {s : Scheduler σ} {l : EventList}

theorem init (hQ : Refines Q G R) : Holds R (Scheduler.init Q) .init where
  rep := hQ.init
  ok := EventList.init_ok
  clock := rfl
  uid := .inl ⟨rfl, by show (1 : Int) < 2 ^ 63; omega⟩
  pos := fun _ hx => absurd hx List.not_mem_nil
  event := fun _ hx => absurd hx List.not_mem_nil
  pending := fun _ h => absurd h (Int.lt_irrefl 0)

/-- An object is pending while its number is positive. -/
theorem pending_iff (h : Holds R s l) (e : Nat) : Pending l e ↔ 0 < (s.event e).uid := by
  refine ⟨?_, h.pending e⟩
  rintro ⟨x, hx, rfl⟩
  rw [(h.event x hx).1]
  exact Int.natCast_pos.mpr (h.pos x hx)

theorem toEvent (h : Holds R s l) {x : Event} (hx : x ∈ l.events) : s.toEvent x.obj = x := by
  obtain ⟨hu, ht⟩ := h.event x hx
  rw [Scheduler.toEvent, hu, ht]
  rfl

theorem obj_ne (h : Holds R s l) {x y : Event} (hx : x ∈ l.events) (hy : y ∈ l.events)
    (hne : y ≠ x) : y.obj ≠ x.obj := fun ho => hne (h.ok.eq_of_obj hy hx ho)

end Holds

/-- The next number, or a negative one when the numbers are used up. -/
theorem uid_succ {u : Int} (h₀ : 0 ≤ u) (h : u < 2 ^ 63) :
    (u + 1).bmod (2 ^ 64) = u + 1 ∧ u + 1 < 2 ^ 63 ∨
      (u + 1).bmod (2 ^ 64) < 0 ∧ 2 ^ 63 ≤ u + 1 := by
  rw [Int.bmod_def]
  split <;> omega

variable {s : Scheduler σ} {l : EventList}

theorem schedule_spec (hQ : Refines Q G R) (h : Holds R s l) (hd e : Nat) {delay : ℚ}
    (hG : G l ⟨e, l.uids + 1, s.clock + delay⟩) :
    Pending l e ∧ schedule Q s (some hd) e delay = .error (.uid e) ∨
      ¬ Pending l e ∧ s.uid < 0 ∧ schedule Q s (some hd) e delay = .error .exhausted ∨
      ¬ Pending l e ∧ l.Fresh ⟨e, l.uids + 1, s.clock + delay⟩ ∧
        ∃ s', schedule Q s (some hd) e delay = .ok s' ∧
          Holds R s' (l.after (.insert ⟨e, l.uids + 1, s.clock + delay⟩)) := by
  unfold schedule
  by_cases hp : Pending l e
  · exact .inl ⟨hp, if_pos ((h.pending_iff e).mp hp)⟩
  have hpos : ¬ 0 < (s.event e).uid := fun hu => hp (h.pending e hu)
  by_cases hu : s.uid < 0
  · exact .inr (.inl ⟨hp, hu, by simp only [if_neg hpos, if_pos hu]⟩)
  obtain ⟨hu₁, hu₂⟩ := h.uid.resolve_right fun hneg => hu hneg.1
  have hev : Scheduler.toEvent { s.setEvent e ⟨some hd, s.clock + delay, s.uid⟩ with
      uid := (s.uid + 1).bmod (2 ^ 64) } e = ⟨e, l.uids + 1, s.clock + delay⟩ := by
    simp [Scheduler.toEvent, hu₁]
  have hfresh : l.Fresh ⟨e, l.uids + 1, s.clock + delay⟩ := ⟨rfl, fun x hx ho => hp ⟨x, hx, ho⟩⟩
  obtain ⟨q, hq, hr⟩ := hQ.insert h.rep h.ok hfresh hG
  refine .inr (.inr ⟨hp, hfresh, ?_⟩)
  simp only [if_neg hpos, if_neg hu]
  rw [hev]
  simp only [setEvent_queue, hq]
  refine ⟨_, rfl, hr, h.ok.insert hfresh, h.clock, ?_, ?_, ?_, ?_⟩
  · show (s.uid + 1).bmod (2 ^ 64) = ((l.uids + 1 : Nat) : Int) + 1 ∧
      (s.uid + 1).bmod (2 ^ 64) < 2 ^ 63 ∨
      (s.uid + 1).bmod (2 ^ 64) < 0 ∧ 2 ^ 63 ≤ l.uids + 1 + 1
    have := uid_succ (u := s.uid) (by omega) hu₂
    omega
  · intro x hx
    rcases ListScheduler.mem_insert.mp hx with rfl | hx
    · exact Nat.succ_pos _
    · exact h.pos x hx
  · intro x hx
    rcases ListScheduler.mem_insert.mp hx with rfl | hx
    · simp [hu₁]
    · have hne : x.obj ≠ e := fun ho => hp ⟨x, hx, ho⟩
      simpa [hne] using h.event x hx
  · intro k hk
    by_cases hke : k = e
    · exact ⟨_, ListScheduler.mem_insert.mpr (.inl rfl), hke.symm⟩
    · obtain ⟨x, hx, ho⟩ := h.pending k (by simpa [hke] using hk)
      exact ⟨x, ListScheduler.mem_insert.mpr (.inr hx), ho⟩

/-- Turning the sign of a number takes the event off the list. -/
theorem Holds.remove (h : Holds R s l) {x : Event} (hx : x ∈ l.events) {s' : Scheduler σ}
    {m : EventList} (hr : R s'.queue m) (hm : m.events = l.events.erase x) (hu : m.uids = l.uids)
    (hc : s'.clock = m.now) (hsu : s'.uid = s.uid)
    (he : s'.event = (s.setEvent x.obj { s.event x.obj with uid := -(s.event x.obj).uid }).event) :
    Holds R s' m := by
  have hsub : m.events.Sublist l.events := hm ▸ List.erase_sublist
  have hnd := h.ok.nodup
  have hmem : ∀ y ∈ m.events, y ∈ l.events ∧ y ≠ x := fun y hy => by
    rw [hm, hnd.mem_erase_iff] at hy
    exact ⟨hy.2, hy.1⟩
  refine ⟨hr, ⟨h.ok.sorted.sublist hsub, fun y hy => ?_, h.ok.objs.sublist hsub⟩, hc,
    by rw [hsu, hu]; exact h.uid, fun y hy => h.pos y (hsub.mem hy), fun y hy => ?_, fun k hk => ?_⟩
  · rw [hu]
    exact h.ok.uids y (hsub.mem hy)
  · obtain ⟨hyl, hne⟩ := hmem y hy
    have := h.event y hyl
    rw [he]
    simpa [h.obj_ne hx hyl hne] using this
  · rw [he] at hk
    by_cases hkx : k = x.obj
    · have := (h.pending_iff x.obj).mp ⟨x, hx, rfl⟩
      simp [hkx] at hk
      omega
    · obtain ⟨y, hy, hyk⟩ := h.pending k (by simpa [hkx] using hk)
      refine ⟨y, ?_, hyk⟩
      rw [hm, hnd.mem_erase_iff]
      exact ⟨fun hEq => hkx (hyk ▸ hEq ▸ rfl), hy⟩

theorem cancel_spec (hQ : Refines Q G R) (h : Holds R s l) (e : Nat) :
    ¬ Pending l e ∧ cancel Q s e = .ok s ∨
      ∃ x ∈ l.events, x.obj = e ∧ ∃ s', cancel Q s e = .ok s' ∧
        Holds R s' (l.after (.cancel x)) := by
  unfold cancel
  by_cases hp : Pending l e
  · obtain ⟨x, hx, rfl⟩ := hp
    have hu : ¬ (s.event x.obj).uid ≤ 0 := by
      have := (h.pending_iff x.obj).mp ⟨x, hx, rfl⟩
      omega
    obtain ⟨q, hq, hr⟩ := hQ.cancel h.rep h.ok hx
    refine .inr ⟨x, hx, rfl, ?_⟩
    simp only [if_neg hu, h.toEvent hx, hq]
    exact ⟨_, rfl, h.remove hx hr rfl rfl h.clock rfl rfl⟩
  · have hu : (s.event e).uid ≤ 0 := by
      have hu : ¬ 0 < (s.event e).uid := fun hu => hp (h.pending e hu)
      omega
    exact .inl ⟨hp, if_pos hu⟩

theorem next_spec (hQ : Refines Q G R) (h : Holds R s l) :
    l.events = [] ∧ (∃ s', next Q s = .ok (none, s') ∧ s'.event = s.event ∧ Holds R s' l) ∨
      ∃ x t, l.events = x :: t ∧
        (x.time < s.clock ∧ next Q s = .error .backwards ∨
          s.clock ≤ x.time ∧ ∃ s', next Q s = .ok (some x, s') ∧
            Holds R s' (l.after .deque)) := by
  unfold next
  obtain ⟨q, hq, hr⟩ := hQ.deque h.rep h.ok
  rw [hq]
  cases hl : l.events with
  | nil =>
      have hafter : l.after .deque = l := by
        obtain ⟨events, now, uids⟩ := l
        subst hl
        rfl
      rw [hafter] at hr
      exact .inl ⟨rfl, _, rfl, rfl, hr, h.ok, h.clock, h.uid, h.pos, h.event, h.pending⟩
  | cons x t =>
      refine .inr ⟨x, t, rfl, ?_⟩
      have hx : x ∈ l.events := by rw [hl]; exact List.mem_cons_self
      have hafter : (l.after .deque).events = l.events.erase x ∧ (l.after .deque).now = x.time := by
        simp [EventList.after, hl]
      by_cases hlt : x.time < s.clock
      · refine .inl ⟨hlt, ?_⟩
        simp only [List.head?_cons, dispatch, if_pos hlt]
        rfl
      · refine .inr ⟨not_lt.mp hlt, ?_⟩
        simp only [List.head?_cons, dispatch, if_neg hlt]
        exact ⟨_, rfl, h.remove hx hr hafter.1 rfl hafter.2.symm rfl rfl⟩

end Scheduler

end Afabric
