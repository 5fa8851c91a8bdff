import Afabric.Sched.Scheduler

/-!
# Sched — every event fires once

The runs of a `Scheduler` over an event queue that refines the ordered list, for delays that are
not negative.  What happens to the events is recorded (`Record`), and over every run each scheduled
event is either pending, or was dispatched once, or was cancelled once (`FiresOnce`).
-/

namespace Afabric

namespace Scheduler

/-- A call on a scheduler. -/
inductive SchedCall where
  | schedule (h e : Nat) (delay : ℚ)
  | cancel (e : Nat)
  | next

/-- What happened to an event, and the clock. -/
inductive Record where
  | scheduled (e : Event) (clock delay : ℚ)
  | fired (e : Event) (clock : ℚ)
  | cancelled (e : Event)

/-- The events that were scheduled. -/
def scheduledIn (rs : List Record) : List Event :=
  rs.filterMap fun | .scheduled e _ _ => some e | _ => none

/-- The events that were dispatched. -/
def firedIn (rs : List Record) : List Event :=
  rs.filterMap fun | .fired e _ => some e | _ => none

/-- The events that were cancelled. -/
def cancelledIn (rs : List Record) : List Event :=
  rs.filterMap fun | .cancelled e => some e | _ => none

variable {σ : Type} (Q : EventQueue σ)

/-- A call, with its record. -/
def step (s : Scheduler σ) : SchedCall → Except Abort (List Record × Scheduler σ)
  | .schedule h e delay => do
      let s' ← schedule Q s (some h) e delay
      .ok ([.scheduled (s'.toEvent e) s.clock delay], s')
  | .cancel e => do
      let s' ← cancel Q s e
      .ok (if 0 < (s.event e).uid then [.cancelled (s.toEvent e)] else [], s')
  | .next => do
      let r ← next Q s
      .ok (r.1.toList.map fun p => .fired p r.2.clock, r.2)

/-- The calls one after the other, with their records. -/
def run (s : Scheduler σ) : List SchedCall → Except Abort (List Record × Scheduler σ)
  | [] => .ok ([], s)
  | c :: cs => do
      let r ← step Q s c
      let t ← run r.2 cs
      .ok (r.1 ++ t.1, t.2)

/-- The delay is not negative. -/
def SchedCall.Forward : SchedCall → Prop
  | .schedule _ _ delay => 0 ≤ delay
  | _ => True

instance : DecidablePred SchedCall.Forward
  | .schedule _ _ delay => inferInstanceAs (Decidable (0 ≤ delay))
  | .cancel _ => inferInstanceAs (Decidable True)
  | .next => inferInstanceAs (Decidable True)

/-- The states that are reached, with the records. -/
inductive Reach : List Record → Scheduler σ → Prop where
  | init : Reach [] (init Q)
  | step {rs r : List Record} {s s' : Scheduler σ} {c : SchedCall} (h : Reach rs s)
      (hc : c.Forward) (hs : step Q s c = .ok (r, s')) : Reach (rs ++ r) s'

/-- The records of a run in which the events of `pending` are still to come. -/
structure FiresOnce (rs : List Record) (pending : List Event) : Prop where
  /-- The events are numbered as they are scheduled. -/
  numbered : (scheduledIn rs).map (·.uid) = List.range' 1 (scheduledIn rs).length
  /-- An event that was scheduled is pending, or fired once, or was cancelled once. -/
  once : (scheduledIn rs).Perm (pending ++ firedIn rs ++ cancelledIn rs)
  /-- An event is due after its delay. -/
  due : ∀ e clock delay, .scheduled e clock delay ∈ rs → e.time = clock + delay
  /-- An event fires when it is due. -/
  onTime : ∀ e clock, .fired e clock ∈ rs → clock = e.time
  /-- The events fire by time, and as they were scheduled. -/
  inOrder : (firedIn rs).Pairwise Event.Before

/-- The invariant of the runs. -/
structure Inv (R : σ → EventList → Prop) (rs : List Record) (s : Scheduler σ) (l : EventList) :
    Prop where
  holds : Holds R s l
  fires : FiresOnce rs l.events
  count : (scheduledIn rs).length = l.uids
  ahead : ∀ x ∈ l.events, s.clock ≤ x.time
  past : ∀ x ∈ firedIn rs, ∀ y ∈ l.events, x.Before y
  behind : ∀ x ∈ firedIn rs, x.time ≤ s.clock ∧ x.uid ≤ l.uids

/-! ### The steps -/

@[simp] theorem scheduledIn_append (rs rs' : List Record) :
    scheduledIn (rs ++ rs') = scheduledIn rs ++ scheduledIn rs' := List.filterMap_append

@[simp] theorem firedIn_append (rs rs' : List Record) :
    firedIn (rs ++ rs') = firedIn rs ++ firedIn rs' := List.filterMap_append

@[simp] theorem cancelledIn_append (rs rs' : List Record) :
    cancelledIn (rs ++ rs') = cancelledIn rs ++ cancelledIn rs' := List.filterMap_append

variable {Q} {R : σ → EventList → Prop} {rs : List Record} {s : Scheduler σ} {l : EventList}

/-- One more record: an event is scheduled, with the next number, or leaves those that are pending,
and fires only when it is due and after the others. -/
theorem FiresOnce.record {p p' : List Event} (h : FiresOnce rs p) {r : Record}
    (hp : (scheduledIn [r] ++ p).Perm (p' ++ firedIn [r] ++ cancelledIn [r]))
    (hs : ∀ e clock delay, r = .scheduled e clock delay →
      e.uid = (scheduledIn rs).length + 1 ∧ e.time = clock + delay)
    (hf : ∀ e clock, r = .fired e clock → clock = e.time ∧ ∀ y ∈ firedIn rs, y.Before e) :
    FiresOnce (rs ++ [r]) p' := by
  refine ⟨?_, ?_, fun e k d he => ?_, fun e k he => ?_, ?_⟩
  · rw [scheduledIn_append, List.map_append, h.numbered, List.length_append]
    cases r with
    | scheduled e clock delay =>
        show _ ++ [e.uid] = List.range' 1 ((scheduledIn rs).length + 1)
        rw [List.range'_concat, (hs e clock delay rfl).1, Nat.one_mul, Nat.add_comm 1]
    | fired e clock => exact List.append_nil _
    | cancelled e => exact List.append_nil _
  · have ho := h.once
    rw [scheduledIn_append, firedIn_append, cancelledIn_append]
    rw [List.perm_iff_count] at hp ho ⊢
    intro y
    have hp := hp y
    have ho := ho y
    simp only [List.count_append] at *
    omega
  · rcases List.mem_append.mp he with he | he
    · exact h.due e k d he
    · exact (hs e k d (List.mem_singleton.mp he).symm).2
  · rcases List.mem_append.mp he with he | he
    · exact h.onTime e k he
    · exact (hf e k (List.mem_singleton.mp he).symm).1
  · rw [firedIn_append, List.pairwise_append]
    refine ⟨h.inOrder, ?_, fun y hy z hz => ?_⟩
    · cases r <;> simp [firedIn]
    · cases r with
      | scheduled e clock delay => simp [firedIn] at hz
      | fired e clock =>
          rw [List.mem_singleton.mp hz]
          exact (hf e clock rfl).2 y hy
      | cancelled e => simp [firedIn] at hz

namespace Inv

theorem init (hQ : Refines Q (fun l e => l.now ≤ e.time) R) : Inv R [] (Scheduler.init Q) .init where
  holds := .init hQ
  fires := ⟨rfl, .nil, by simp, by simp, .nil⟩
  count := rfl
  ahead := fun _ hx => absurd hx List.not_mem_nil
  past := fun _ hx => absurd hx List.not_mem_nil
  behind := fun _ hx => absurd hx List.not_mem_nil

theorem schedule (hi : Inv R rs s l) {x : Event} (hx : l.Fresh x) {delay : ℚ} (hd : 0 ≤ delay)
    (ht : x.time = s.clock + delay) {s' : Scheduler σ}
    (h : Holds R s' (l.after (.insert x))) :
    Inv R (rs ++ [.scheduled x s.clock delay]) s' (l.after (.insert x)) := by
  have hclock : s'.clock = s.clock := h.clock.trans hi.holds.clock.symm
  have hle : s.clock ≤ x.time := by rw [ht]; exact le_add_of_nonneg_right hd
  refine ⟨h, hi.fires.record ?_ (fun e k d he => ?_) (fun e k he => by cases he), ?_, ?_, ?_, ?_⟩
  · show (x :: l.events).Perm (ListScheduler.insert x l.events ++ [] ++ [])
    rw [List.append_nil, List.append_nil]
    exact (ListScheduler.insert_perm x l.events).symm
  · cases he
    exact ⟨by rw [hi.count]; exact hx.1, ht⟩
  · rw [scheduledIn_append, List.length_append, hi.count]
    exact hx.1.symm
  · intro y hy
    rw [hclock]
    rcases ListScheduler.mem_insert.mp hy with rfl | hy
    · exact hle
    · exact hi.ahead y hy
  · intro y hy z hz
    rw [firedIn_append] at hy
    replace hy : y ∈ firedIn rs := by simpa [firedIn] using hy
    rcases ListScheduler.mem_insert.mp hz with rfl | hz
    · obtain ⟨hyt, hyu⟩ := hi.behind y hy
      rcases (hyt.trans hle).lt_or_eq with hlt | heq
      · exact .inl hlt
      · exact .inr ⟨heq, by rw [hx.1]; exact Nat.lt_succ_of_le hyu⟩
    · exact hi.past y hy z hz
  · intro y hy
    rw [firedIn_append] at hy
    replace hy : y ∈ firedIn rs := by simpa [firedIn] using hy
    obtain ⟨hyt, hyu⟩ := hi.behind y hy
    refine ⟨hclock ▸ hyt, ?_⟩
    show y.uid ≤ x.uid
    rw [hx.1]
    exact Nat.le_succ_of_le hyu

theorem cancel (hi : Inv R rs s l) {x : Event} (hx : x ∈ l.events) {s' : Scheduler σ}
    (h : Holds R s' (l.after (.cancel x))) :
    Inv R (rs ++ [.cancelled x]) s' (l.after (.cancel x)) := by
  have hclock : s'.clock = s.clock := h.clock.trans hi.holds.clock.symm
  have hsub : ∀ y ∈ (l.after (.cancel x)).events, y ∈ l.events := fun y hy =>
    List.mem_of_mem_erase hy
  have hf : firedIn (rs ++ [.cancelled x]) = firedIn rs := by simp [firedIn]
  refine ⟨h, hi.fires.record ?_ (fun e k d he => by cases he) (fun e k he => by cases he), ?_,
    fun y hy => ?_, fun y hy z hz => ?_, fun y hy => ?_⟩
  · show l.events.Perm (l.events.erase x ++ [] ++ [x])
    rw [List.append_nil]
    exact (List.perm_cons_erase hx).trans (List.perm_append_singleton _ _).symm
  · rw [scheduledIn_append]
    exact (congrArg List.length (List.append_nil _)).trans hi.count
  · rw [hclock]
    exact hi.ahead y (hsub y hy)
  · rw [hf] at hy
    exact hi.past y hy z (hsub z hz)
  · rw [hf] at hy
    rw [hclock]
    exact hi.behind y hy

theorem fire (hi : Inv R rs s l) {x : Event} {t : List Event} (hl : l.events = x :: t)
    {s' : Scheduler σ} (h : Holds R s' (l.after .deque)) :
    Inv R (rs ++ [.fired x x.time]) s' (l.after .deque) := by
  have htail : (l.after .deque).events = t := by simp [EventList.after, hl]
  have hnow : s'.clock = x.time := by
    rw [h.clock]
    simp [EventList.after, hl]
  have hx : x ∈ l.events := by rw [hl]; exact List.mem_cons_self
  have hsub : ∀ y ∈ t, y ∈ l.events := fun y hy => by rw [hl]; exact List.mem_cons_of_mem x hy
  have hfirst : ∀ y ∈ t, x.Before y := by
    have := hi.holds.ok.sorted
    rw [hl, List.pairwise_cons] at this
    exact this.1
  have hf : firedIn (rs ++ [.fired x x.time]) = firedIn rs ++ [x] := firedIn_append _ _
  refine ⟨h, ?_, ?_, ?_, ?_, ?_⟩
  · rw [htail]
    refine hi.fires.record ?_ (fun e k d he => by cases he) fun e k he => ?_
    · show l.events.Perm (t ++ [x] ++ [])
      rw [hl, List.append_nil]
      exact (List.perm_append_singleton x t).symm
    · cases he
      exact ⟨rfl, fun y hy => hi.past y hy x hx⟩
  · rw [scheduledIn_append]
    exact (congrArg List.length (List.append_nil _)).trans hi.count
  · intro y hy
    rw [htail] at hy
    rw [hnow]
    exact (hfirst y hy).time_le
  · intro y hy z hz
    rw [htail] at hz
    rw [hf] at hy
    rcases List.mem_append.mp hy with hy | hy
    · exact hi.past y hy z (hsub z hz)
    · rw [List.mem_singleton.mp hy]
      exact hfirst z hz
  · intro y hy
    rw [hf] at hy
    rw [hnow]
    rcases List.mem_append.mp hy with hy | hy
    · exact ⟨(hi.past y hy x hx).time_le, (hi.behind y hy).2⟩
    · rw [List.mem_singleton.mp hy]
      exact ⟨le_rfl, hi.holds.ok.uids x hx⟩

/-- A call that succeeds: the clock is not turned back, and what left the pending ones is not pending. -/
def Goes (Q : EventQueue σ) (R : σ → EventList → Prop) (rs : List Record) (s : Scheduler σ)
    (c : SchedCall) : Prop :=
  ∃ r s' l', Scheduler.step Q s c = .ok (r, s') ∧ Inv R (rs ++ r) s' l' ∧ s.clock ≤ s'.clock ∧
    ∀ x, x ∈ firedIn r ∨ x ∈ cancelledIn r → ¬ Pending l' x.obj

theorem step_schedule (hQ : Refines Q (fun l e => l.now ≤ e.time) R) (hi : Inv R rs s l) {h e : Nat}
    {delay : ℚ} (hd : 0 ≤ delay) : Goes Q R rs s (.schedule h e delay) ∨
      Pending l e ∧ Scheduler.step Q s (.schedule h e delay) = .error (.uid e) ∨
      ¬ Pending l e ∧ Scheduler.step Q s (.schedule h e delay) = .error .exhausted ∧
        2 ^ 63 ≤ l.uids + 1 := by
  have hG : l.now ≤ s.clock + delay := by
    rw [hi.holds.clock]
    exact le_add_of_nonneg_right hd
  rcases schedule_spec hQ hi.holds h e hG with ⟨hp, he⟩ | ⟨hp, hu, he⟩ | ⟨hp, hx, s', he, hs'⟩
  · exact .inr (.inl ⟨hp, by rw [Scheduler.step, he]; rfl⟩)
  · refine .inr (.inr ⟨hp, by rw [Scheduler.step, he]; rfl, ?_⟩)
    have := hi.holds.uid
    omega
  · have hev : s'.toEvent e = ⟨e, l.uids + 1, s.clock + delay⟩ :=
      hs'.toEvent (ListScheduler.mem_insert.mpr (.inl rfl))
    have hclock : s'.clock = s.clock := hs'.clock.trans hi.holds.clock.symm
    refine .inl ⟨_, s', _, ?_, hi.schedule hx hd rfl hs', hclock.ge, ?_⟩
    · rw [Scheduler.step, he]
      show Except.ok _ = _
      rw [hev]
    · rintro x (hx | hx)
      · simp [firedIn] at hx
      · simp [cancelledIn] at hx

theorem step_cancel (hQ : Refines Q (fun l e => l.now ≤ e.time) R) (hi : Inv R rs s l) (e : Nat) :
    Goes Q R rs s (.cancel e) := by
  rcases cancel_spec hQ hi.holds e with ⟨hp, he⟩ | ⟨x, hx, rfl, s', he, hs'⟩
  · have hu : ¬ 0 < (s.event e).uid := fun hu => hp (hi.holds.pending e hu)
    refine ⟨[], s, l, ?_, by rw [List.append_nil]; exact hi, le_rfl, ?_⟩
    · rw [Scheduler.step, he]
      show Except.ok _ = _
      rw [if_neg hu]
    · rintro x (hx | hx)
      · simp [firedIn] at hx
      · simp [cancelledIn] at hx
  · have hu := (hi.holds.pending_iff x.obj).mp ⟨x, hx, rfl⟩
    have hclock : s'.clock = s.clock := hs'.clock.trans hi.holds.clock.symm
    refine ⟨[.cancelled x], s', _, ?_, hi.cancel hx hs', hclock.ge, ?_⟩
    · rw [Scheduler.step, he]
      show Except.ok _ = _
      rw [if_pos hu, hi.holds.toEvent hx]
    · rintro y (hy | hy)
      · simp [firedIn] at hy
      · rw [List.mem_singleton.mp hy]
        rintro ⟨z, hz, ho⟩
        exact hi.holds.ok.obj_erase hx hz ho

theorem step_next (hQ : Refines Q (fun l e => l.now ≤ e.time) R) (hi : Inv R rs s l) :
    Goes Q R rs s .next := by
  rcases next_spec hQ hi.holds with ⟨-, s', he, -, hs'⟩ | ⟨x, t, hl, ⟨hlt, -⟩ | ⟨hle, s', he, hs'⟩⟩
  · have hclock : s'.clock = s.clock := hs'.clock.trans hi.holds.clock.symm
    refine ⟨[], s', l, by rw [Scheduler.step, he]; rfl, ?_, hclock.ge, ?_⟩
    · rw [List.append_nil]
      exact ⟨hs', hi.fires, hi.count, by rw [hclock]; exact hi.ahead, hi.past,
        by rw [hclock]; exact hi.behind⟩
    · rintro x (hx | hx)
      · simp [firedIn] at hx
      · simp [cancelledIn] at hx
  · -- no pending event lies behind the clock
    have hx : x ∈ l.events := by rw [hl]; exact List.mem_cons_self
    exact absurd hlt (not_lt.mpr (hi.ahead x hx))
  · have hx : x ∈ l.events := by rw [hl]; exact List.mem_cons_self
    have htail : (l.after .deque).events = l.events.erase x := by simp [EventList.after, hl]
    have hnow : s'.clock = x.time := by
      rw [hs'.clock]
      simp [EventList.after, hl]
    refine ⟨[.fired x x.time], s', _, ?_, hi.fire hl hs', hnow ▸ hle, ?_⟩
    · rw [Scheduler.step, he]
      show Except.ok ([Record.fired x s'.clock], s') = _
      rw [hnow]
    · rintro y (hy | hy)
      · rw [List.mem_singleton.mp hy]
        rintro ⟨z, hz, ho⟩
        rw [htail] at hz
        exact hi.holds.ok.obj_erase hx hz ho
      · simp [cancelledIn] at hy

/-- A call succeeds, unless it schedules a pending object or the numbers are used up. -/
theorem step (hQ : Refines Q (fun l e => l.now ≤ e.time) R) (hi : Inv R rs s l) {c : SchedCall}
    (hc : c.Forward) : Goes Q R rs s c ∨
      ∃ h e delay, c = .schedule h e delay ∧
        (Pending l e ∧ Scheduler.step Q s c = .error (.uid e) ∨
          ¬ Pending l e ∧ Scheduler.step Q s c = .error .exhausted ∧ 2 ^ 63 ≤ l.uids + 1) := by
  cases c with
  | schedule h e delay =>
      exact (hi.step_schedule hQ hc).imp_right fun herr => ⟨h, e, delay, rfl, herr⟩
  | cancel e => exact .inl (hi.step_cancel hQ e)
  | next => exact .inl (hi.step_next hQ)

end Inv

/-! ### Every run -/

theorem Reach.inv (hQ : Refines Q (fun l e => l.now ≤ e.time) R) (h : Reach Q rs s) :
    ∃ l, Inv R rs s l := by
  induction h with
  | init => exact ⟨_, .init hQ⟩
  | step h hc hs ih =>
      obtain ⟨l, hi⟩ := ih
      rcases hi.step hQ hc with ⟨r, s', l', he, hi', -⟩ | ⟨hd, e, delay, -, ⟨-, he⟩ | ⟨-, he, -⟩⟩
      · rw [he] at hs
        obtain ⟨rfl, rfl⟩ := Prod.mk.inj (Except.ok.inj hs)
        exact ⟨l', hi'⟩
      · rw [he] at hs
        cases hs
      · rw [he] at hs
        cases hs

/-- **Every event fires once, in order.**  In each state that is reached, an event that was
scheduled is pending, fired once when it was due, or was cancelled once, and those that fired did so
by time and in the order of scheduling.  From there no call turns the clock back, an object that was
dispatched or cancelled has no number, no call aborts but one that schedules a pending object or
the `2 ^ 63`-th event, and the loop ends only when nothing is pending. -/
theorem fires_once (hQ : Refines Q (fun l e => l.now ≤ e.time) R) (h : Reach Q rs s) :
    ∃ l, R s.queue l ∧ FiresOnce rs l.events ∧
      (∀ c r s', c.Forward → step Q s c = .ok (r, s') → s.clock ≤ s'.clock ∧
        ∀ x, x ∈ firedIn r ∨ x ∈ cancelledIn r → (s'.event x.obj).uid ≤ 0) ∧
      (∀ c a, c.Forward → step Q s c = .error a → ∃ h e delay, c = .schedule h e delay ∧
        (a = .uid e ∧ Pending l e ∨ a = .exhausted ∧ 2 ^ 63 ≤ (scheduledIn rs).length + 1)) ∧
      ∀ s', next Q s = .ok (none, s') → l.events = [] := by
  obtain ⟨l, hi⟩ := h.inv hQ
  refine ⟨l, hi.holds.rep, hi.fires, fun c r s' hc hs => ?_, fun c a hc hs => ?_, fun s' hs => ?_⟩
  · rcases hi.step hQ hc with ⟨r₁, s₁, l₁, he, hi₁, hle, hnot⟩ |
      ⟨hd, e, delay, -, ⟨-, he⟩ | ⟨-, he, -⟩⟩ <;> rw [he] at hs
    · obtain ⟨rfl, rfl⟩ := Prod.mk.inj (Except.ok.inj hs)
      refine ⟨hle, fun x hx => ?_⟩
      have := fun hp => hnot x hx ((hi₁.holds.pending_iff x.obj).mpr hp)
      exact not_lt.mp this
    · cases hs
    · cases hs
  · rcases hi.step hQ hc with ⟨r₁, s₁, l₁, he, -⟩ |
      ⟨hd, e, delay, hc', ⟨hp, he⟩ | ⟨-, he, hu⟩⟩ <;> rw [he] at hs
    · cases hs
    · exact ⟨hd, e, delay, hc', .inl ⟨(Except.error.inj hs).symm, hp⟩⟩
    · exact ⟨hd, e, delay, hc', .inr ⟨(Except.error.inj hs).symm, by rw [hi.count]; exact hu⟩⟩
  · rcases next_spec hQ hi.holds with ⟨hnil, -⟩ | ⟨x, t, -, ⟨-, he⟩ | ⟨-, s₁, he, -⟩⟩
    · exact hnil
    · rw [he] at hs
      cases hs
    · rw [he] at hs
      cases Prod.mk.inj (Except.ok.inj hs) |>.1

theorem Reach.run {cs : List SchedCall} (hc : ∀ c ∈ cs, c.Forward) {r : List Record}
    {s' : Scheduler σ} (h : Reach Q rs s) (hr : run Q s cs = .ok (r, s')) : Reach Q (rs ++ r) s' := by
  induction cs generalizing rs s r with
  | nil =>
      obtain ⟨rfl, rfl⟩ := Prod.mk.inj (Except.ok.inj hr)
      rw [List.append_nil]
      exact h
  | cons c cs ih =>
      rw [List.forall_mem_cons] at hc
      rw [Scheduler.run] at hr
      cases hs : Scheduler.step Q s c with
      | error a => rw [hs] at hr; cases hr
      | ok p =>
          obtain ⟨r₁, s₁⟩ := p
          rw [hs] at hr
          cases ht : Scheduler.run Q s₁ cs with
          | error a => simp [ht, bind, Except.bind] at hr
          | ok p =>
              obtain ⟨r₂, s₂⟩ := p
              simp only [bind, Except.bind, ht] at hr
              obtain ⟨rfl, rfl⟩ := Prod.mk.inj (Except.ok.inj hr)
              rw [← List.append_assoc]
              exact ih hc.2 (h.step hc.1 hs) ht

/-- Two events, the first of which is cancelled and scheduled again by the handler of the other. -/
theorem fires_once_again : ∃ rs s, Reach listScheduler rs s ∧
    scheduledIn rs = [⟨0, 1, 2⟩, ⟨1, 2, 1⟩, ⟨0, 3, 1⟩] ∧ firedIn rs = [⟨1, 2, 1⟩, ⟨0, 3, 1⟩] ∧
    ∃ l : EventList, s.queue = l.events ∧ FiresOnce rs l.events := by
  have hQ := listScheduler_refines.imp (G := fun l e => l.now ≤ e.time) fun _ _ _ => trivial
  obtain ⟨cs, hcs⟩ : ∃ cs : List SchedCall, cs = [.schedule 7 0 2, .schedule 7 1 1, .cancel 0, .next,
      .schedule 7 0 0, .next] := ⟨_, rfl⟩
  have hc : ∀ c ∈ cs, c.Forward := by rw [hcs]; decide +kernel
  have hrun : (run listScheduler (init listScheduler) cs).toOption.map
      (fun r => (scheduledIn r.1, firedIn r.1))
        = some ([⟨0, 1, 2⟩, ⟨1, 2, 1⟩, ⟨0, 3, 1⟩], [⟨1, 2, 1⟩, ⟨0, 3, 1⟩]) := by
    rw [hcs]
    decide +kernel
  cases hr : run listScheduler (init listScheduler) cs with
  | error a => rw [hr] at hrun; cases hrun
  | ok p =>
      obtain ⟨rs, s⟩ := p
      rw [hr] at hrun
      obtain ⟨hs, hf⟩ := Prod.mk.inj (Option.some.inj hrun)
      have hreach := Reach.run hc (.init (Q := listScheduler)) hr
      obtain ⟨l, hl, hfires, -⟩ := fires_once hQ hreach
      exact ⟨rs, s, hreach, hs, hf, l, hl, hfires⟩

end Scheduler

end Afabric
