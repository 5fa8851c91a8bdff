import Afabric.Sched.CalendarHead

/-!
# Sched — the calendar refines the list

`deque` and `cancel` take an event out of its bucket and count it out, and with `insert` the calendar
does what the list does (`calendarScheduler_refines`), through all its resizes.
-/

namespace Afabric

/-! ### Taking events out of a bucket -/

theorem ring_eq {b : Bucket} {e : Event} {u v : List Event} (hb : b.list = u ++ e :: v)
    (hu : ∀ x ∈ u, x.obj ≠ e.obj) : b.ring e = some (v ++ u, u, v) := by
  have hspan : b.list.span (fun x => decide (x.obj ≠ e.obj)) = (u, e :: v) := by
    rw [hb]
    exact span_split (fun x hx => by simpa using hu x hx) fun x hx => by
      cases hx
      simp
  rw [Bucket.ring, hspan]

/-- Counting an event out. -/
theorem card_times_sub (e : Event) (l : List Event) :
    ((times l).card : Int) = (times (e :: l)).card - if e.time ∉ times l then 1 else 0 := by
  have := card_times_cons e l
  omega

theorem ite_sub_one (p : Prop) [Decidable p] (n : Int) :
    (if p then n - 1 else n) = n - if p then 1 else 0 := by
  split
  · rfl
  · exact (sub_zero n).symm

/-- An event is taken out of its bucket and counted out. -/
theorem Filled.remove {s s' : Calendar} {l m : List Event} (h : Filled s l) {e : Event} {b : Bucket}
    (hm : l.Perm (e :: m)) (hb : b.list = m.filter fun x => s.hash x.time = s.hash e.time)
    (hoff : ∀ i, i ≠ s.hash e.time → l.filter (fun x => s.hash x.time = i)
      = m.filter fun x => s.hash x.time = i)
    (hc : b.count = (s.buckets (s.hash e.time)).count - if e.time ∉ times b.list then 1 else 0)
    (hbs : s'.buckets = (s.setBucket (s.hash e.time) b).buckets) (hh : s'.hash = s.hash)
    (hq : s'.qsize = s.qsize - 1)
    (hst : s'.statQsize = s.statQsize - if e.time ∉ times b.list then 1 else 0) : Filled s' m := by
  have hbe : (s.buckets (s.hash e.time)).list.Perm (e :: b.list) := by
    rw [hb, h.list]
    refine (hm.filter _).trans ?_
    rw [List.filter_cons_of_pos (by simp)]
  have htime : e.time ∈ times b.list ↔ e.time ∈ times m := by
    rw [hb]
    simp only [Afabric.mem_times, List.mem_filter, decide_eq_true_iff]
    constructor
    · rintro ⟨x, hx, hxt⟩
      exact ⟨x, hx.1, hxt⟩
    · rintro ⟨x, hx, hxt⟩
      exact ⟨x, ⟨hx, by rw [hxt]⟩, hxt⟩
  refine ⟨fun i => ?_, fun i => ?_, ?_, ?_⟩
  · rw [hbs, hh]
    show (if i = s.hash e.time then b else s.buckets i).list = _
    by_cases hi : i = s.hash e.time
    · rw [if_pos hi, hb, hi]
    · rw [if_neg hi, h.list i, hoff i hi]
  · rw [hbs]
    show (if i = s.hash e.time then b else s.buckets i).count
      = (times (if i = s.hash e.time then b else s.buckets i).list).card
    by_cases hi : i = s.hash e.time
    · rw [if_pos hi, hc, h.count, times_perm hbe, card_times_sub e b.list]
    · rw [if_neg hi]
      exact h.count i
  · rw [hq, h.qsize, hm.length_eq, List.length_cons]
    omega
  · rw [hst, h.stat, times_perm hm, card_times_sub e m]
    simp only [htime]

namespace CalendarRep

variable {s : Calendar} {l : EventList}

/-- The event at the head of its bucket that is not later than the others is the first one. -/
theorem isHead_first (h : CalendarRep s l) (hl : l.Ok) {e : Event} {i : Nat} (hh : IsHead s l e i) :
    l.events.head? = some e ∧ i = s.hash e.time := by
  have hmem := List.mem_of_head? hh.1
  rw [h.filled.list, List.mem_filter, decide_eq_true_iff] at hmem
  refine ⟨?_, hmem.2.symm⟩
  cases hev : l.events with
  | nil => rw [hev] at hmem; simp at hmem
  | cons x t =>
      have hx : x ∈ l.events := by rw [hev]; exact List.mem_cons_self
      have ht := hl.timed
      rw [hev] at ht
      have hxe : x.time ≤ e.time := by
        have he := hmem.1
        rw [hev] at he
        rcases List.mem_cons.mp he with rfl | he
        · exact le_rfl
        · exact (List.pairwise_cons.mp ht).1 e he
      have htime : x.time = e.time := le_antisymm hxe (hh.2 x hx)
      have hfirst := hh.1
      rw [h.filled.list, hev, List.filter_cons_of_pos (by simpa [htime] using hmem.2)] at hfirst
      exact hfirst

/-- `head` moves the clock to the first event. -/
theorem head (h : CalendarRep s l) (hl : l.Ok) :
    l.events = [] ∧ s.head = some (none, s) ∨
      ∃ e s', l.events.head? = some e ∧ s.head = some (some e, s') ∧
        CalendarRep s' { l with now := e.time } := by
  unfold Calendar.head
  by_cases hev : l.events = []
  · have hq : s.qsize = 0 := by rw [h.filled.qsize, hev]; rfl
    exact .inl ⟨hev, if_pos hq⟩
  · have hq : ¬ s.qsize = 0 := by
      have := List.length_pos_iff.mpr hev
      rw [h.filled.qsize]
      omega
    obtain ⟨e, i, n, hf, hh⟩ := h.findHead hl hev
    obtain ⟨hfirst, hi⟩ := h.isHead_first hl hh
    have he := List.mem_of_head? hfirst
    rw [if_neg hq, hf]
    refine .inr ⟨e, _, hfirst, rfl, ?_⟩
    exact ⟨{ h.shape with }, { h.filled with }, rfl, h.nonneg.trans (h.ahead e he), hi, hh.2⟩

theorem adjust {P : CalendarParams} (hP : ∀ x, 0 < x → 0 < P.sqrt x) (h : CalendarRep s l)
    (hl : l.Ok) (e : Event) : ∃ s', s.adjust P e = some s' ∧ CalendarRep s' l := by
  unfold Calendar.adjust
  by_cases h₀ : P.adjustNewWidthInterval = 0
  · rw [if_pos h₀]
    exact ⟨s, rfl, h⟩
  rw [if_neg h₀]
  by_cases hfirst : s.lastTime < 0
  · rw [if_pos hfirst]
    exact ⟨_, rfl, { h with shape := { h.shape with }, filled := { h.filled with } }⟩
  rw [if_neg hfirst]
  by_cases hgap : s.gapNum + 1 < s.qsize
  · rw [if_pos hgap]
    exact ⟨_, rfl, { h with shape := { h.shape with }, filled := { h.filled with } }⟩
  rw [if_neg hgap]
  have h₁ : CalendarRep (s.endWindow e) l :=
    { h with shape := { h.shape with }, filled := { h.filled with } }
  obtain ⟨s₁, hs₁⟩ : ∃ s₁, s.endWindow e = s₁ := ⟨_, rfl⟩
  rw [hs₁] at h₁
  simp only [hs₁]
  split
  · obtain ⟨s₂, hs₂, h₂⟩ := h₁.resize hP hl h₁.pos
    rw [hs₂]
    exact ⟨_, rfl, { h₂ with shape := { h₂.shape with }, filled := { h₂.filled with } }⟩
  split
  · exact ⟨_, rfl, { h₁ with shape := { h₁.shape with }, filled := { h₁.filled with } }⟩
  · exact ⟨s₁, rfl, h₁⟩

/-- `deque` unlinks the event that `head` has found. -/
theorem unlink (h : CalendarRep s l) (hl : l.Ok) {e : Event} {t : List Event}
    (hev : l.events = e :: t) (hnow : l.now = e.time) :
    ∃ s', s.unlink e = some s' ∧ CalendarRep s' { l with events := t } := by
  have hlast : s.lastbucket = s.hash e.time := by rw [h.last, hnow]
  have hsorted := hl.timed
  rw [hev] at hsorted
  obtain ⟨hfirst, ht⟩ := List.pairwise_cons.mp hsorted
  obtain ⟨v, hv⟩ : ∃ v, v = t.filter fun x => s.hash x.time = s.hash e.time := ⟨_, rfl⟩
  have hlist : (s.buckets (s.hash e.time)).list = [] ++ e :: v := by
    rw [h.filled.list, hev, List.filter_cons_of_pos (by simp), hv]
    rfl
  have hvt : Timed v := hv ▸ ht.sublist List.filter_sublist
  have huniq := unique_head (e := e) hvt fun x hx =>
    hfirst x (List.mem_of_mem_filter (hv ▸ hx))
  unfold Calendar.unlink
  dsimp only
  rw [hlast, ring_eq hlist (by simp)]
  simp only [Option.bind_eq_bind, Option.bind_some, List.append_nil, huniq, decide_eq_true_iff]
  refine ⟨_, rfl, { h.shape with }, ?_, h.clock, h.nonneg, h.last, fun x hx => ?_⟩
  · refine h.filled.remove (e := e) (b := ⟨v, if e.time ∉ times v
      then (s.buckets (s.hash e.time)).count - 1 else (s.buckets (s.hash e.time)).count⟩)
      (by rw [hev]) hv (fun i hi => ?_) (ite_sub_one _ _) rfl rfl rfl (ite_sub_one _ _)
    rw [hev, List.filter_cons_of_neg]
    simpa using Ne.symm hi
  · exact h.ahead x (by rw [hev]; exact List.mem_cons_of_mem e hx)

theorem deque {P : CalendarParams} (hP : ∀ x, 0 < x → 0 < P.sqrt x) (h : CalendarRep s l)
    (hl : l.Ok) :
    ∃ s', s.deque P = some (l.events.head?, s') ∧ CalendarRep s' (l.after .deque) := by
  unfold Calendar.deque
  rcases h.head hl with ⟨hev, hs⟩ | ⟨e, s₁, hev, hs, h₁⟩
  · have hafter : l.after .deque = l := by
      obtain ⟨events, now, uids⟩ := l
      cases hev
      rfl
    rw [hs, hev, hafter]
    exact ⟨s, rfl, h⟩
  · obtain ⟨t, ht⟩ := List.head?_eq_some_iff.mp hev
    have hafter : l.after .deque = { l with events := t, now := e.time } := by
      simp [EventList.after, ht]
    have hl₁ : ({ l with now := e.time } : EventList).Ok := { hl with }
    obtain ⟨s₂, hs₂, h₂⟩ := h₁.adjust hP hl₁ e
    obtain ⟨s₃, hs₃, h₃⟩ := h₂.unlink hl₁ ht rfl
    have hl₃ : (l.after .deque).Ok := hl.after (c := .deque) (G := fun _ _ => True) trivial
    rw [hs, hev, hafter]
    rw [hafter] at hl₃
    simp only [Option.bind_eq_bind, Option.bind_some, hs₂, hs₃]
    split
    · have hpos : 0 < s₃.nbuckets / 2 := by
        have := h₃.shape.nbuckets
        omega
      obtain ⟨s₄, hs₄, h₄⟩ := h₃.resize hP hl₃ hpos
      rw [hs₄]
      exact ⟨s₄, rfl, h₄⟩
    · exact ⟨s₃, rfl, h₃⟩

/-- The neighbours of an event in the ring of its bucket tell whether its time is unique. -/
theorem unique_ring {e : Event} {u v : List Event} (ht : Timed (u ++ e :: v)) :
    (((v ++ u).head?.all fun next => decide (next.time ≠ e.time)) &&
      (v ++ u).getLast?.all fun prev => decide (prev.time ≠ e.time))
        = decide (e.time ∉ times (u ++ v)) := by
  obtain ⟨hu, hv, huv⟩ := List.pairwise_append.mp ht
  obtain ⟨hev, hv⟩ := List.pairwise_cons.mp hv
  rw [Bool.eq_iff_iff, Bool.and_eq_true, decide_eq_true_iff, Option.all_eq_true, Option.all_eq_true,
    mem_times]
  simp only [decide_eq_true_iff]
  refine ⟨fun ⟨hnext, hprev⟩ ⟨x, hx, hxe⟩ => ?_, fun hnot => ⟨fun x hx hxe => ?_, fun x hx hxe => ?_⟩⟩
  · rcases List.mem_append.mp hx with hx | hx
    · rcases List.eq_nil_or_concat' u with rfl | ⟨u', y, rfl⟩
      · simp at hx
      · have hxy : x.time ≤ y.time := by
          rcases List.mem_append.mp hx with hx | hx
          · exact (List.pairwise_append.mp hu).2.2 x hx y List.mem_cons_self
          · exact List.mem_singleton.mp hx ▸ le_rfl
        refine hprev y (by rw [← List.append_assoc, List.getLast?_concat]) (le_antisymm ?_ ?_)
        · exact huv y (by simp) e List.mem_cons_self
        · exact hxe ▸ hxy
    · cases v with
      | nil => simp at hx
      | cons y v =>
          have hyx : y.time ≤ x.time := by
            rcases List.mem_cons.mp hx with rfl | hx
            · exact le_rfl
            · exact (List.pairwise_cons.mp hv).1 x hx
          exact hnext y rfl (le_antisymm (hxe ▸ hyx) (hev y List.mem_cons_self))
  · have hmem := List.mem_of_head? hx
    exact hnot ⟨x, List.mem_append.mpr (List.mem_append.mp hmem).symm, hxe⟩
  · have hmem := List.mem_of_getLast? hx
    exact hnot ⟨x, List.mem_append.mpr (List.mem_append.mp hmem).symm, hxe⟩

theorem cancel (h : CalendarRep s l) (hl : l.Ok) {e : Event} (he : e ∈ l.events) :
    ∃ s', s.cancel e = some s' ∧ CalendarRep s' (l.after (.cancel e)) := by
  obtain ⟨A, B, hev⟩ := List.append_of_mem he
  have hobjs := hl.objs
  rw [hev] at hobjs
  have hA : ∀ x ∈ A, x.obj ≠ e.obj := fun x hx =>
    (List.pairwise_append.mp hobjs).2.2 x hx e List.mem_cons_self
  have herase : l.events.erase e = A ++ B := by
    rw [hev, List.erase_append_right _ fun hmem => hA e hmem rfl, List.erase_cons_head]
  obtain ⟨u, hu⟩ : ∃ u, u = A.filter fun x => s.hash x.time = s.hash e.time := ⟨_, rfl⟩
  obtain ⟨v, hv⟩ : ∃ v, v = B.filter fun x => s.hash x.time = s.hash e.time := ⟨_, rfl⟩
  have hlist : (s.buckets (s.hash e.time)).list = u ++ e :: v := by
    rw [h.filled.list, hev, List.filter_append, List.filter_cons_of_pos (by simp), hu, hv]
  have ht := h.filled.timed hl.timed (s.hash e.time)
  rw [hlist] at ht
  have hring := ring_eq hlist fun x hx => hA x (List.mem_of_mem_filter (hu ▸ hx))
  obtain ⟨b, hb⟩ : ∃ b : Bucket, b = ⟨u ++ v, if e.time ∉ times (u ++ v)
      then (s.buckets (s.hash e.time)).count - 1 else (s.buckets (s.hash e.time)).count⟩ := ⟨_, rfl⟩
  obtain ⟨s', hs'⟩ : ∃ s', s' = { s.setBucket (s.hash e.time) b with
      qsize := s.qsize - 1
      statQsize := if e.time ∉ times (u ++ v) then s.statQsize - 1 else s.statQsize } := ⟨_, rfl⟩
  have hbl : b.list = u ++ v := by rw [hb]
  have hfilled : Filled s' (A ++ B) := by
    refine h.filled.remove (e := e) (b := b) (by rw [hev]; exact List.perm_middle) ?_
      (fun i hi => ?_) ?_ (by rw [hs']) (by rw [hs']; rfl) (by rw [hs']) ?_
    · rw [hbl, List.filter_append, hu, hv]
    · rw [hev, List.filter_append, List.filter_append, List.filter_cons_of_neg]
      simpa using Ne.symm hi
    · rw [hbl, hb, ite_sub_one]
    · rw [hbl, hs', ite_sub_one]
  have hcount : b.count = (times b.list).card := by
    have := hfilled.count (s.hash e.time)
    rw [hs'] at this
    simpa [Calendar.setBucket] using this
  have hstat := hfilled.stat
  -- the assertions are about numbers of times, and none of these is negative
  have hok : ¬ (e.time ∉ times (u ++ v) ∧ (s'.statQsize < 0 ∨ b.count < 0) ∨
      b.count = 0 ∧ b.list ≠ []) := by
    rintro (⟨-, hneg | hneg⟩ | ⟨hzero, hne⟩)
    · omega
    · omega
    · obtain ⟨x, hx⟩ := List.exists_mem_of_ne_nil _ hne
      have hpos : 0 < (times b.list).card := Finset.card_pos.mpr ⟨x.time, mem_times.mpr ⟨x, hx, rfl⟩⟩
      omega
  refine ⟨s', ?_, ?_⟩
  · unfold Calendar.cancel
    simp only [hring, Option.bind_eq_bind, Option.bind_some, unique_ring ht, decide_eq_true_iff]
    subst hs' hb
    exact if_neg hok
  · have hm : Filled s' (l.after (.cancel e)).events := by
      show Filled s' (l.events.erase e)
      rw [herase]
      exact hfilled
    refine ⟨?_, hm, ?_, h.nonneg, ?_, fun x hx => h.ahead x (List.mem_of_mem_erase hx)⟩
    · rw [hs']
      exact { h.shape with }
    · rw [hs']
      exact h.clock
    · rw [hs']
      exact h.last

end CalendarRep

theorem calendarScheduler_refines {P : CalendarParams} (hP : ∀ x, 0 < x → 0 < P.sqrt x) :
    Refines (calendarScheduler P) (fun l e => l.now ≤ e.time) CalendarRep where
  init := .init P
  insert := fun hr hl he hnow => hr.insert hP hl he hnow
  cancel := fun hr hl he => hr.cancel hl he
  deque := fun hr hl => hr.deque hP hl

/-- **The calendar returns what the list returns**, over every sequence of calls in which no event is
inserted before the clock; no assertion fails, and the counters are the number of the events and of
their times, in all and in each bucket. -/
theorem calendar_dispatch {P : CalendarParams} (hP : ∀ x, 0 < x → 0 < P.sqrt x) {cs : List Call}
    (hc : EventList.init.Allows (fun l e => l.now ≤ e.time) cs) :
    ∃ outs s, (calendarScheduler P).run (.init P) cs = some (outs, s) ∧
      listScheduler.run [] cs = some (outs, (EventList.init.afterAll cs).events) ∧
      s.qsize = (EventList.init.afterAll cs).events.length ∧
      s.statQsize = (times (EventList.init.afterAll cs).events).card ∧
      ∀ i, (s.buckets i).count = (times (s.buckets i).list).card ∧
        (s.buckets i).list
          = (EventList.init.afterAll cs).events.filter fun x => s.hash x.time = i := by
  obtain ⟨outs, s, h₁, h₂, hr, -⟩ :=
    (calendarScheduler_refines hP).run (.init P) EventList.init_ok hc
  exact ⟨outs, s, h₁, h₂, hr.filled.qsize, hr.filled.stat,
    fun i => ⟨hr.filled.count i, hr.filled.list i⟩⟩

/-- Ten events, so that the calendar of four days is rebuilt, one of them cancelled. -/
theorem calendar_dispatch_resized :
    let P : CalendarParams := ⟨10, 0, fun x => x⟩
    let cs := (List.range 10).map (fun i => .insert ⟨i, i + 1, 9 - i⟩) ++
      [.cancel ⟨8, 9, 1⟩, .deque, .deque]
    EventList.init.Allows (fun l e => l.now ≤ e.time) cs ∧
      ∃ s, (calendarScheduler P).run (.init P) cs
        = some ([some ⟨9, 10, 0⟩, some ⟨7, 8, 2⟩], s) ∧ s.qsize = 7 := by
  intro P cs
  have hc : EventList.init.Allows (fun l e => l.now ≤ e.time) cs := by decide +kernel
  obtain ⟨outs, s, h₁, h₂, hq, -⟩ := calendar_dispatch (P := P) (fun _ hx => hx) hc
  have hl : (listScheduler.run [] cs).map (fun r => (r.1, r.2.length))
      = some ([some ⟨9, 10, 0⟩, some ⟨7, 8, 2⟩], 7) := by decide +kernel
  rw [h₂] at hl
  obtain ⟨houts, hlen⟩ := Prod.mk.inj (Option.some.inj hl)
  refine ⟨hc, s, h₁.trans ?_, hq.trans (congrArg Nat.cast hlen)⟩
  rw [← houts]

end Afabric
