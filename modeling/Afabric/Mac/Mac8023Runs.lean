import Afabric.Mac.Mac8023

/-!
# Mac — the Ethernet MAC over runs

Two invariants that hold between events.  `MacTimers` is about the state and the timers: of the
timers of sending, receiving and the gap at most one is pending, and none in the idle state.
`MacBooks` is about the frame of the upper layer: it is held for retransmission until it has been
sent or given up, `try_` is one more than the number of its collisions (or that number, while the
MAC backs off), and once it is gone its callback is still to come.

A collision leaves the state as it was, so `MacTimers` does not tie the sending state to a
transmission but to a transmission or a gap; and an arrival at the end of a gap resumes the MAC
first, so that `collision` is never called in one (`sendUp_spec`).
-/

namespace Afabric

/-! ### The log -/

/-- The frame was sent: its last bit followed the first without a collision. -/
def Ended (log : List MacEntry) (u : Nat) : Prop :=
  ∃ a f c, log = a ++ .down f :: .ended u :: c ∧ f.uid = u

/-- The frame was dropped at its 16th collision. -/
def GivenUp (log : List MacEntry) (u : Nat) : Prop :=
  ∃ a f c, log = a ++ .collided u :: .dropped f :: c ∧ f.uid = u ∧ a.count (.collided u) = 15

def Finished (log : List MacEntry) (u : Nat) : Prop := Ended log u ∨ GivenUp log u

/-- A callback is called once for a frame, when it has been sent or dropped. -/
def CallsOnce (log : List MacEntry) : Prop :=
  ∀ pre u post, log = pre ++ .called u :: post → .called u ∉ pre ∧ Finished pre u

variable {log : List MacEntry} {u : Nat}

theorem Finished.append (h : Finished log u) (k : List MacEntry) : Finished (log ++ k) u := by
  rcases h with ⟨a, f, c, rfl, hf⟩ | ⟨a, f, c, rfl, hf, hc⟩
  · exact .inl ⟨a, f, c ++ k, by simp, hf⟩
  · exact .inr ⟨a, f, c ++ k, by simp, hf, hc⟩

/-- The log grows by an entry, which is a callback only of a finished frame that had none. -/
theorem CallsOnce.note (h : CallsOnce log) {e : MacEntry}
    (he : ∀ u, e = .called u → .called u ∉ log ∧ Finished log u) : CallsOnce (log ++ [e]) := by
  intro pre u post heq
  rcases List.eq_nil_or_concat post with rfl | ⟨post, x, rfl⟩
  · obtain ⟨rfl, hx⟩ := List.append_inj' heq rfl
    exact he u (List.singleton_inj.mp hx)
  · rw [List.concat_eq_append, ← List.cons_append, ← List.append_assoc] at heq
    exact h pre u post (List.append_inj' heq rfl).1

/-! ### The frame of the upper layer -/

/-- The frame of the upper layer: `callback` and `frames` of the MAC, `busy`, `p` and `tries` of
the retransmission timer, and the frame on the wire. -/
structure MacBooks (callback : Option Nat) (frames : Nat) (busy : Bool) (p : Option Frame)
    (tries : Nat) (air : Option Frame) (log : List MacEntry) : Prop where
  idle : callback = none → p = none
  current : ∀ u, callback = some u → u + 1 = frames ∧ .called u ∉ log
  trying : ∀ f, p = some f → callback = some f.uid ∧ 1 ≤ tries ∧ tries ≤ 16 ∧
    (busy = true → tries < 16) ∧
    log.count (.collided f.uid) = if busy = true then tries else tries - 1
  done : p = none → busy = false ∧ tries = 1 ∧ ∀ u, callback = some u → Finished log u
  new : ∀ u, frames ≤ u → .collided u ∉ log ∧ .called u ∉ log
  air : ∀ f, air = some f → p = some f ∧ busy = false ∧ ∃ a, log = a ++ [.down f]
  once : CallsOnce log

namespace MacBooks

variable {callback : Option Nat} {frames tries : Nat} {busy : Bool} {p air : Option Frame}
  {f g : Frame} {e : MacEntry}

/-- Nothing is on the wire any more. -/
theorem land (h : MacBooks callback frames busy p tries air log) :
    MacBooks callback frames busy p tries none log :=
  ⟨h.idle, h.current, h.trying, h.done, h.new, by simp, h.once⟩

/-- An entry that is neither a collision nor a callback. -/
theorem note (h : MacBooks callback frames busy p tries none log)
    (he : ∀ u, e ≠ .collided u ∧ e ≠ .called u) :
    MacBooks callback frames busy p tries none (log ++ [e]) := by
  have hnot : ∀ x : MacEntry, x ∉ log → e ≠ x → x ∉ log ++ [e] := by
    intro x hx hne
    simp [hx, Ne.symm hne]
  refine ⟨h.idle, fun u hu => ?_, fun f hf => ?_, fun hp => ?_, fun u hu => ?_, by simp,
    h.once.note fun u hu => absurd hu (he u).2⟩
  · obtain ⟨h₁, h₂⟩ := h.current u hu
    exact ⟨h₁, hnot _ h₂ (he u).2⟩
  · obtain ⟨h₁, h₂, h₃, h₄, h₅⟩ := h.trying f hf
    refine ⟨h₁, h₂, h₃, h₄, ?_⟩
    have hz : [e].count (.collided f.uid) = 0 := by
      rw [List.count_eq_zero, List.mem_singleton]
      exact Ne.symm (he f.uid).1
    rw [List.count_append, h₅, hz, Nat.add_zero]
  · obtain ⟨h₁, h₂, h₃⟩ := h.done hp
    exact ⟨h₁, h₂, fun u hu => (h₃ u hu).append _⟩
  · obtain ⟨h₁, h₂⟩ := h.new u hu
    exact ⟨hnot _ h₁ (he u).1, hnot _ h₂ (he u).2⟩

/-- The upper layer sends a frame. -/
theorem accept (h : MacBooks none frames busy p tries air log) (hf : f.uid = frames) :
    MacBooks (some frames) (frames + 1) busy (some f) tries none log := by
  have hp := h.idle rfl
  obtain ⟨hb, ht, -⟩ := h.done hp
  obtain ⟨hc, hk⟩ := h.new frames (Nat.le_refl _)
  refine ⟨by simp, ?_, ?_, by simp, fun u hu => h.new u (by omega), by simp, h.once⟩
  · rintro u hu
    obtain rfl := Option.some.inj hu
    exact ⟨rfl, hk⟩
  · intro g hg
    obtain rfl := Option.some.inj hg
    refine ⟨by rw [hf], by omega, by omega, by simp [hb], ?_⟩
    rw [hf, List.count_eq_zero.mpr hc, hb, ht]
    rfl

/-- The frame goes to the phy. -/
theorem transmit (h : MacBooks callback frames false (some f) tries none log) :
    MacBooks callback frames false (some f) tries (some f) (log ++ [.down f]) := by
  have hn := h.note (e := .down f) (by simp)
  refine ⟨hn.idle, hn.current, hn.trying, hn.done, hn.new, ?_, hn.once⟩
  intro g hg
  obtain rfl := Option.some.inj hg
  exact ⟨rfl, rfl, log, rfl⟩

/-- The transmission gets to its end. -/
theorem ended (h : MacBooks callback frames busy p tries (some f) log) :
    MacBooks callback frames busy none 1 none (log ++ [.ended f.uid]) := by
  obtain ⟨rfl, rfl, a, ha⟩ := h.air f rfl
  have hn := h.land.note (e := .ended f.uid) (by simp)
  refine ⟨fun _ => rfl, hn.current, by simp, fun _ => ⟨rfl, rfl, fun u hu => ?_⟩, hn.new, by simp,
    hn.once⟩
  rw [(h.trying f rfl).1] at hu
  obtain rfl := Option.some.inj hu
  exact .inl ⟨a, f, [], by simp [ha], rfl⟩

/-- The callback is called. -/
theorem called (h : MacBooks (some u) frames busy none tries none log) :
    MacBooks none frames busy none tries none (log ++ [.called u]) := by
  obtain ⟨hu, hk⟩ := h.current u rfl
  obtain ⟨hb, ht, hfin⟩ := h.done rfl
  refine ⟨fun _ => rfl, by simp, by simp, fun _ => ⟨hb, ht, by simp⟩, fun v hv => ?_, by simp,
    h.once.note fun v hv => ?_⟩
  · have hne : v ≠ u := by omega
    simp [h.new v hv, hne]
  · obtain rfl : u = v := by simpa using hv
    exact ⟨hk, hfin u rfl⟩

/-- A collision, and attempts are left. -/
theorem backOff (h : MacBooks callback frames false (some f) tries none log) (ht : tries < 16) :
    MacBooks callback frames true (some f) tries none (log ++ [.collided f.uid]) := by
  obtain ⟨h₁, h₂, h₃, -, h₅⟩ := h.trying f rfl
  refine ⟨h.idle, fun u hu => ?_, ?_, by simp, fun u hu => ?_, by simp,
    h.once.note fun u hu => by simp at hu⟩
  · obtain ⟨hf, hk⟩ := h.current u hu
    exact ⟨hf, by simp [hk]⟩
  · intro g hg
    obtain rfl := Option.some.inj hg
    refine ⟨h₁, h₂, h₃, fun _ => ht, ?_⟩
    rw [List.count_append, h₅, List.count_singleton_self, if_neg (by simp), if_pos rfl]
    omega
  · obtain ⟨hc, hk⟩ := h.new u hu
    have hf := (h.current f.uid h₁).1
    have hne : u ≠ f.uid := by omega
    simp [hc, hk, hne]

/-- A collision at the last attempt: the frame is dropped. -/
theorem giveUp (h : MacBooks callback frames false (some f) tries none log) (ht : ¬ tries < 16)
    (hg : g.uid = f.uid) :
    MacBooks callback frames false none 1 none (log ++ [.collided f.uid] ++ [.dropped g]) := by
  obtain ⟨h₁, h₂, h₃, -, h₅⟩ := h.trying f rfl
  have hcount : log.count (.collided f.uid) = 15 := by
    rw [h₅, if_neg (by simp)]
    omega
  have honce : CallsOnce (log ++ [.collided f.uid] ++ [.dropped g]) :=
    (h.once.note fun u hu => by simp at hu).note fun u hu => by simp at hu
  refine ⟨fun _ => rfl, fun u hu => ?_, by simp, fun _ => ⟨rfl, rfl, fun u hu => ?_⟩,
    fun u hu => ?_, by simp, honce⟩
  · obtain ⟨hf, hk⟩ := h.current u hu
    exact ⟨hf, by simp [hk]⟩
  · rw [h₁] at hu
    obtain rfl := Option.some.inj hu
    exact .inr ⟨log, g, [], by simp, hg, hcount⟩
  · obtain ⟨hc, hk⟩ := h.new u hu
    have hf := (h.current f.uid h₁).1
    have hne : u ≠ f.uid := by omega
    simp [hc, hk, hne]

/-- The back-off is over. -/
theorem retry (h : MacBooks callback frames true (some f) tries none log) :
    MacBooks callback frames false (some f) (tries + 1) none log := by
  obtain ⟨h₁, h₂, h₃, h₄, h₅⟩ := h.trying f rfl
  have hlt := h₄ rfl
  refine ⟨h.idle, h.current, ?_, by simp, h.new, by simp, h.once⟩
  intro g hg
  obtain rfl := Option.some.inj hg
  refine ⟨h₁, by omega, by omega, by simp, ?_⟩
  rw [h₅, if_pos rfl, if_neg (by simp), Nat.add_sub_cancel]

end MacBooks

/-! ### The state and the timers -/

/-- The state, `busy` of the timers of sending, receiving and the gap, and the frames of the first
two. -/
structure MacTimers (state : MacState) (send recv ifs : Bool) (air rp : Option Frame) : Prop where
  idle : state = .idle → send = false ∧ recv = false ∧ ifs = false
  sending : state = .send → recv = false ∧ (send = true ↔ ifs = false)
  receiving : state = .recv → send = false ∧ ¬ (recv = true ∧ ifs = true)
  packet : send = true ↔ air ≠ none
  arriving : recv = true → rp ≠ none

namespace Mac8023

variable {R : Type} {m : Mac8023 R}

abbrev Books (m : Mac8023 R) : Prop :=
  MacBooks m.callback m.frames m.mhRetx.busy m.mhRetx.p m.mhRetx.tries m.mhSend.p m.log

abbrev Timers (m : Mac8023 R) : Prop :=
  MacTimers m.state m.mhSend.busy m.mhRecv.busy m.mhIFS.busy m.mhSend.p m.mhRecv.p

/-- What holds between events. -/
structure Inv (m : Mac8023 R) : Prop where
  books : m.Books
  timers : m.Timers

/-- The state and the timers of sending and receiving are as they were. -/
structure Kept (m m' : Mac8023 R) : Prop where
  state : m'.state = m.state
  send : m'.mhSend = m.mhSend
  recv : m'.mhRecv = m.mhRecv

theorem Kept.refl (m : Mac8023 R) : Kept m m := ⟨rfl, rfl, rfl⟩

/-- Nothing is pending but the gap. -/
theorem Inv.gap (h : m.Inv) (hi : m.mhIFS.busy = true) :
    m.mhSend.busy = false ∧ m.mhSend.p = none ∧ m.mhRecv.busy = false := by
  have ht := h.timers
  have hsr : m.mhSend.busy = false ∧ m.mhRecv.busy = false := by
    cases hs : m.state with
    | idle => exact absurd (ht.idle hs).2.2 (by simp [hi])
    | send =>
        obtain ⟨hr, hsend⟩ := ht.sending hs
        refine ⟨?_, hr⟩
        by_contra hb
        exact absurd (hsend.mp (by simpa using hb)) (by simp [hi])
    | recv =>
        obtain ⟨hsend, hr⟩ := ht.receiving hs
        refine ⟨hsend, ?_⟩
        by_contra hb
        exact hr ⟨by simpa using hb, hi⟩
  refine ⟨hsr.1, ?_, hsr.2⟩
  by_contra ha
  exact absurd (ht.packet.mpr ha) (by simp [hsr.1])

section Handlers

set_option linter.unusedSectionVars false

variable [LT R] [DecidableLT R] [Add R] [Sub R] [Mul R] [NatCast R] {cfg : MacConfig R} {now : R}
  {f : Frame}

/-! ### Sending -/

/-- The frame goes to the phy, or waits for the next `resume`. -/
theorem transmit_spec (hb : m.Books) (ht : m.Timers) (hp : m.mhRetx.p = some f)
    (hr : m.mhRetx.busy = false) (ha : m.mhSend.p = none) :
    ∃ m', m.transmit cfg now f = some m' ∧ m'.Inv ∧ m'.mhIFS = m.mhIFS ∧
      (m.state ≠ .idle → Kept m m') := by
  have hc := (hb.trying f hp).1
  rw [transmit, if_neg (by simp [hc]), if_neg (by simp [ha])]
  by_cases hw : m.mhIFS.busy = true ∨ m.state ≠ .idle
  · rw [if_pos hw]
    exact ⟨m, rfl, ⟨hb, ht⟩, rfl, fun _ => .refl m⟩
  · rw [if_neg hw]
    obtain ⟨hi, hst⟩ := not_or.mp hw
    obtain ⟨hs, hrv, -⟩ := ht.idle (not_not.mp hst)
    rw [sendSchedule, if_neg (by simp [hs])]
    refine ⟨_, rfl, ⟨?_, ?_⟩, rfl, fun h => absurd (not_not.mp hst) h⟩
    · have hb' := hb
      rw [Books, hp, hr, ha] at hb'
      show MacBooks m.callback m.frames m.mhRetx.busy m.mhRetx.p m.mhRetx.tries (some f)
        (m.log ++ [.down f])
      rw [hp, hr]
      exact hb'.transmit
    · refine ⟨by simp [note], fun _ => ⟨hrv, ?_⟩, by simp [note], by simp [note], ht.arriving⟩
      simpa [note] using hi

theorem framed_uid (f : Frame) (u : Nat) : (framed f u).uid = u := by
  simp only [framed]
  split_ifs <;> rfl

/-- The upper layer sends a frame, after the callback of the one before. -/
theorem sendDown_spec (hinit : cfg.initialized) (hshort : cfg.Short) (hb : m.Books)
    (ht : m.Timers) (hc : m.callback = none) :
    ∃ m', m.sendDown cfg now f = some m' ∧ m'.Inv ∧ m'.mhIFS = m.mhIFS ∧
      (m.state ≠ .idle → Kept m m') := by
  have hp := hb.idle hc
  have ha : m.mhSend.p = none := by
    by_contra ha
    obtain ⟨g, hg⟩ := Option.ne_none_iff_exists'.mp ha
    exact absurd (hb.air g hg).1 (by simp [hp])
  have hbooks : MacBooks (some m.frames) (m.frames + 1) m.mhRetx.busy
      (some (framed f m.frames)) m.mhRetx.tries m.mhSend.p m.log := by
    have hb' := hb
    rw [Books, hc] at hb'
    rw [ha]
    exact hb'.accept (framed_uid f m.frames)
  rw [sendDown, if_neg (by simp [hinit]), if_neg fun h => h hshort]
  obtain ⟨m', he, hm, hi, hk⟩ := transmit_spec (m := { m with
    callback := some m.frames
    frames := m.frames + 1
    mhRetx := { m.mhRetx with p := some (framed f m.frames) } }) hbooks ht rfl (hb.done hp).1 ha
  exact ⟨m', he, hm, hi, fun h => ⟨(hk h).state, (hk h).send, (hk h).recv⟩⟩

variable (cfg now) in
theorem react_spec (hinit : cfg.initialized) (hshort : cfg.Short) (hb : m.Books)
    (ht : m.Timers) (next : Option Frame) :
    ∃ m', m.react cfg now next = some m' ∧ m'.Inv ∧ m'.mhIFS = m.mhIFS ∧
      (m.state ≠ .idle → Kept m m') := by
  cases next with
  | none => exact ⟨m, rfl, ⟨hb, ht⟩, rfl, fun _ => .refl m⟩
  | some f =>
      rw [react]
      by_cases hc : m.callback = none
      · rw [if_pos hc]
        exact sendDown_spec hinit hshort hb ht hc
      · rw [if_neg hc]
        exact ⟨m, rfl, ⟨hb, ht⟩, rfl, fun _ => .refl m⟩

variable (cfg now) in
/-- **`resume`**, when nothing is pending. -/
theorem resume_spec (hinit : cfg.initialized) (hshort : cfg.Short) (hb : m.Books)
    (hs : m.mhSend.busy = false) (ha : m.mhSend.p = none) (hr : m.mhRecv.busy = false)
    (hi : m.mhIFS.busy = false) (next : Option Frame) :
    ∃ m', m.resume cfg now next = some m' ∧ m'.Inv ∧ m'.mhIFS.busy = false := by
  have ht : ({ m with state := .idle } : Mac8023 R).Timers :=
    ⟨fun _ => ⟨hs, hr, hi⟩, by simp, by simp, by simp [hs, ha], by simp [hr]⟩
  rw [resume, if_neg (by simp [hs, hr, hi])]
  dsimp only
  cases hp : m.mhRetx.p with
  | some f =>
      dsimp only
      cases hbusy : m.mhRetx.busy with
      | true => exact ⟨_, rfl, ⟨hb, ht⟩, hi⟩
      | false =>
          obtain ⟨m', he, hm, hifs, -⟩ :=
            transmit_spec (m := { m with state := .idle }) hb ht hp hbusy ha
          exact ⟨m', he, hm, by rw [hifs]; exact hi⟩
  | none =>
      dsimp only
      cases hc : m.callback with
      | none =>
          have hb' := hb
          rw [Books, hc, hp] at hb'
          exact ⟨_, rfl, ⟨by rw [Books]; dsimp only; rw [hp]; exact hb', ht⟩, hi⟩
      | some u =>
          dsimp only
          have hbusy := (hb.done hp).1
          rw [if_neg (by simp [hbusy])]
          have hb' := hb
          rw [Books, hc, hp, ha] at hb'
          have hcalled : Books { ({ m with state := .idle } : Mac8023 R).note (.called u) with
              callback := none } := by
            show MacBooks none m.frames m.mhRetx.busy m.mhRetx.p m.mhRetx.tries m.mhSend.p
              (m.log ++ [.called u])
            rw [hp, ha]
            exact hb'.called
          obtain ⟨m', he, hm, hifs, -⟩ := react_spec cfg now hinit hshort hcalled ht next
          exact ⟨m', he, hm, by rw [hifs]; exact hi⟩

/-! ### Receiving -/

theorem ifsSchedule_eq {t : R} (h : m.mhIFS.busy = false) :
    m.ifsSchedule now t = some { m with mhIFS := { busy := true, expire := now + t } } := by
  rw [ifsSchedule, if_neg (by simp [h])]

theorem retxReset_eq (h : m.mhRetx.busy = false) :
    m.retxReset = some { m with mhRetx := { m.mhRetx with tries := 1, p := none } } := by
  rw [retxReset, if_neg (by simp [h])]
  rfl

variable (cfg now) in
/-- The MAC backs off or gives up, after the collision has been noted. -/
theorem backOff_spec (hb : MacBooks m.callback m.frames false (some f) m.mhRetx.tries none log)
    (hp : m.mhRetx.p = some f) (hbusy : m.mhRetx.busy = false) (ha : m.mhSend.p = none)
    (hl : m.log = log ++ [.collided f.uid]) (ht : m.Timers) (rnd : Nat) :
    ∃ m', m.backOff cfg now rnd = some m' ∧ m'.Inv := by
  rw [backOff, if_neg (by simp [hbusy]), retxSchedule, if_pos ⟨by simp [hp], hbusy⟩]
  by_cases hlt : m.mhRetx.tries < MacConfig.alimit
  · rw [if_pos hlt, Option.bind_eq_bind, Option.bind_some, if_pos rfl]
    refine ⟨_, rfl, ?_, ht⟩
    show MacBooks m.callback m.frames true m.mhRetx.p m.mhRetx.tries m.mhSend.p m.log
    rw [hp, ha, hl]
    exact hb.backOff hlt
  · rw [if_neg hlt, Option.bind_eq_bind, Option.bind_some, if_neg (by simp)]
    dsimp only
    rw [hp, Option.bind_eq_bind, Option.bind_some, retxReset_eq (by exact hbusy)]
    refine ⟨_, rfl, ?_, ht⟩
    show MacBooks m.callback m.frames m.mhRetx.busy none 1 m.mhSend.p (m.log ++ [.dropped _])
    rw [hbusy, ha, hl]
    exact hb.giveUp hlt rfl

/-- The received frame leaves an entry at most. -/
theorem jam_books (h : m.Books) (ha : m.mhSend.p = some f) (trace : Bool) (g : Frame) :
    ∃ log, (if trace then m.note (.jammed g) else m) = { m with log } ∧
      MacBooks m.callback m.frames false (some f) m.mhRetx.tries none log := by
  have h' := h
  obtain ⟨hp, hbusy, -⟩ := h.air f ha
  rw [Books, hp, hbusy, ha] at h'
  cases trace with
  | true => exact ⟨_, rfl, h'.land.note (by simp)⟩
  | false => exact ⟨_, rfl, h'.land⟩

theorem cutShort_eq (ha : m.mhSend.p = some f) (hb : m.mhSend.busy = true) :
    m.cutShort = some { m.note (.collided f.uid) with
      mhSend := { m.mhSend with busy := false, p := none } } := by
  rw [cutShort, ha]
  exact if_pos hb

variable (cfg now) in
/-- A collision ends the transmission. -/
theorem collideSending_spec (hb : m.Books) (hf : m.mhSend.p = some f)
    (hbusy : m.mhSend.busy = true) (hretx : m.mhRetx.busy = false) (hp : m.mhRetx.p = some f)
    (hs : m.state = .send) (hr : m.mhRecv.busy = false) (hi : m.mhIFS.busy = true) (rnd : Nat)
    (g : Frame) : ∃ m', m.collideSending cfg now rnd g = some m' ∧ m'.Inv := by
  obtain ⟨log, hlog, hbooks⟩ := jam_books hb hf cfg.trace g
  have hcut := cutShort_eq (m := { m with log }) hf hbusy
  rw [collideSending, hlog]
  dsimp only
  rw [if_pos hbusy, hcut, Option.bind_eq_bind, Option.bind_some]
  refine backOff_spec (m := { ({ m with log } : Mac8023 R).note (.collided f.uid) with
    mhSend := { m.mhSend with busy := false, p := none } }) cfg now hbooks hp hretx rfl rfl ?_ rnd
  exact ⟨by simp [note, hs], fun _ => ⟨hr, by simp [note, hi]⟩, by simp [note, hs], by simp,
    by simp [note, hr]⟩

variable (cfg now) in
/-- **`collision`**, outside a gap. -/
theorem collision_spec (h : m.Inv) (hst : m.state ≠ .idle) (hi : m.mhIFS.busy = false) (rnd : Nat)
    (g : Frame) : ∃ m', m.collision cfg now rnd g = some m' ∧ m'.Inv := by
  have hb := h.books
  have ht := h.timers
  rw [collision, if_neg (by simp [hi]), Option.bind_eq_bind, Option.bind_some, ifsSchedule_eq hi,
    Option.bind_some]
  dsimp only
  cases hs : m.state with
  | idle => exact absurd hs hst
  | recv =>
      obtain ⟨hsend, -⟩ := ht.receiving hs
      have hair := ht.packet
      rw [hsend] at hair
      dsimp only
      by_cases hr : m.mhRecv.busy = true
      · rw [if_pos hr, recvCancel, if_pos ⟨hr, ht.arriving hr⟩]
        refine ⟨_, rfl, hb, ?_⟩
        exact ⟨by simp, by simp, fun _ => ⟨hsend, by simp⟩, ht.packet, by simp⟩
      · rw [if_neg hr]
        refine ⟨_, rfl, hb, ?_⟩
        exact ⟨by simp, by simp, fun _ => ⟨hsend, by simp [hr]⟩, ht.packet, ht.arriving⟩
  | send =>
      -- outside a gap, the sending state is a transmission
      obtain ⟨hrecv, hsend⟩ := ht.sending hs
      have hbusy := hsend.mpr hi
      obtain ⟨f, hf⟩ := Option.ne_none_iff_exists'.mp (ht.packet.mp hbusy)
      obtain ⟨hp, hretx, -⟩ := hb.air f hf
      exact collideSending_spec (m := { m with state := .send, mhIFS := ⟨true, now + cfg.jamTime⟩ })
        cfg now hb hf hbusy hretx hp rfl hrecv rfl rnd g

variable (cfg now) in
/-- The first bit of a frame, outside a gap. -/
theorem takeIn_spec (h : m.Inv) (hi : m.mhIFS.busy = false) (rnd : Nat) (g : Frame) :
    ∃ m', m.takeIn cfg now rnd g = some m' ∧ m'.Inv := by
  rw [takeIn]
  by_cases hs : m.state = .idle
  · obtain ⟨hsend, hrecv, -⟩ := h.timers.idle hs
    rw [if_pos hs, recvSchedule, if_neg (by simp [hrecv])]
    refine ⟨_, rfl, h.books, ?_⟩
    exact ⟨by simp, by simp, fun _ => ⟨hsend, by simp [hi]⟩, h.timers.packet, by simp⟩
  · rw [if_neg hs]
    exact collision_spec cfg now h hs hi rnd g

variable (cfg now) in
/-- The gap is over, or is taken to be. -/
theorem ifsHandle_spec (hinit : cfg.initialized) (hshort : cfg.Short) (h : m.Inv)
    (hi : m.mhIFS.busy = true) (next : Option Frame) :
    ∃ m', m.ifsHandle cfg now next = some m' ∧ m'.Inv ∧ m'.mhIFS.busy = false := by
  obtain ⟨hs, ha, hr⟩ := h.gap hi
  exact resume_spec (m := { m with mhIFS := { m.mhIFS with busy := false } }) cfg now hinit hshort
    h.books hs ha hr rfl next

/-- **`sendUp`.**  An arrival in a gap is ignored, or it ends the gap. -/
theorem sendUp_spec (hinit : cfg.initialized) (hshort : cfg.Short) (h : m.Inv) (rnd : Nat)
    (next : Option Frame) (g : Frame) :
    ∃ m', m.sendUp cfg now rnd next g = some m' ∧ m'.Inv := by
  rw [sendUp]
  by_cases hw : m.state ≠ .idle ∧ m.mhIFS.busy = true
  · rw [if_pos hw]
    by_cases hd : m.mhIFS.expire - now > cfg.eps
    · rw [if_pos hd]
      exact ⟨m, rfl, h⟩
    · obtain ⟨m₁, he, h₁, hi⟩ := ifsHandle_spec cfg now hinit hshort h hw.2 next
      rw [ifsHandle] at he
      rw [if_neg hd, ifsCancel, if_pos hw.2, Option.bind_eq_bind, Option.bind_some, he,
        Option.bind_some]
      exact takeIn_spec cfg now h₁ hi rnd g
  · have hi : m.mhIFS.busy = false := by
      by_contra hb
      have hst : m.state = .idle := by
        by_contra hst
        exact hw ⟨hst, by simpa using hb⟩
      exact hb (h.timers.idle hst).2.2
    rw [if_neg hw]
    exact takeIn_spec cfg now h hi rnd g

/-- The frame goes up, unless it is for another MAC or damaged. -/
theorem deliver_spec (hinit : cfg.initialized) (hshort : cfg.Short) (hb : m.Books)
    (ht : m.Timers) (hst : m.state ≠ .idle) (ha : m.mhSend.p = none) (next : Option Frame)
    (g : Frame) :
    ∃ m', m.deliver cfg now next g = some m' ∧ m'.Inv ∧ m'.mhIFS = m.mhIFS ∧ Kept m m' := by
  rw [deliver]
  dsimp only
  split_ifs
  · exact ⟨m, rfl, ⟨hb, ht⟩, rfl, .refl m⟩
  · exact ⟨m, rfl, ⟨hb, ht⟩, rfl, .refl m⟩
  · have hb' := hb
    rw [Books, ha] at hb'
    have hup : (m.note (.up { g with
        size := g.size - (MacConfig.etherHdrLen + g.padding) })).Books := by
      show MacBooks m.callback m.frames m.mhRetx.busy m.mhRetx.p m.mhRetx.tries m.mhSend.p
        (m.log ++ [.up _])
      rw [ha]
      exact hb'.note (by simp)
    obtain ⟨m', he, hm, hi, hk⟩ := react_spec cfg now hinit hshort hup ht next
    exact ⟨m', he, hm, hi, ⟨(hk hst).state, (hk hst).send, (hk hst).recv⟩⟩

/-- **The last bit of a frame arrives.**  The upper layer may send a frame when it gets this one;
the state is still that of receiving, so the frame waits. -/
theorem recvHandle_spec (hinit : cfg.initialized) (hshort : cfg.Short) (h : m.Inv)
    (hr : m.mhRecv.busy = true) (next : Option Frame) :
    ∃ m', m.recvHandle cfg now next = some m' ∧ m'.Inv := by
  have hb := h.books
  have ht := h.timers
  obtain ⟨g, hg⟩ := Option.ne_none_iff_exists'.mp (ht.arriving hr)
  have hs : m.state = .recv := by
    cases hs : m.state with
    | idle => exact absurd (ht.idle hs).2.1 (by simp [hr])
    | send => exact absurd (ht.sending hs).1 (by simp [hr])
    | recv => rfl
  obtain ⟨hsend, hgap⟩ := ht.receiving hs
  have hi : m.mhIFS.busy = false := by
    by_contra hi
    exact hgap ⟨hr, by simpa using hi⟩
  have ha : m.mhSend.p = none := by
    by_contra ha
    exact absurd (ht.packet.mpr ha) (by simp [hsend])
  have ht' : Timers { m with mhRecv := { m.mhRecv with busy := false } } :=
    ⟨by simp [hs], by simp [hs], fun _ => ⟨hsend, by simp⟩, ht.packet, by simp⟩
  obtain ⟨m₁, he, h₁, hi₁, hk⟩ := deliver_spec
    (m := { m with mhRecv := { m.mhRecv with busy := false } }) hinit hshort hb ht'
    (by simp [hs]) ha next g
  have hifs : m₁.mhIFS.busy = false := by rw [hi₁]; exact hi
  have hst₁ : m₁.state = .recv := hk.state.trans hs
  rw [recvHandle, hg, Option.bind_eq_bind, Option.bind_some, recvComplete, if_neg (by simp [hsend]),
    he, Option.bind_eq_bind, Option.bind_some, ifsSchedule_eq hifs, Option.bind_some]
  refine ⟨_, rfl, h₁.books, ?_⟩
  refine ⟨by simp [hst₁], by simp [hst₁], fun _ => ⟨?_, ?_⟩, h₁.timers.packet, ?_⟩
  · rw [hk.send]
    exact hsend
  · simp [hk.recv]
  · simp [hk.recv]

/-- **The last bit of the MAC's own frame has been sent.** -/
theorem sendHandle_spec (h : m.Inv) (hs : m.mhSend.busy = true) :
    ∃ m', m.sendHandle cfg now = some m' ∧ m'.Inv := by
  have hb := h.books
  have ht := h.timers
  obtain ⟨f, hf⟩ := Option.ne_none_iff_exists'.mp (ht.packet.mp hs)
  obtain ⟨hp, hretx, -⟩ := hb.air f hf
  have hst : m.state = .send := by
    cases hst : m.state with
    | idle => exact absurd (ht.idle hst).1 (by simp [hs])
    | send => rfl
    | recv => exact absurd (ht.receiving hst).1 (by simp [hs])
  obtain ⟨hr, hsend⟩ := ht.sending hst
  have hi := hsend.mp hs
  rw [sendHandle, hf, Option.bind_eq_bind, Option.bind_some]
  dsimp only
  rw [retxReset_eq (by exact hretx), Option.bind_eq_bind, Option.bind_some,
    ifsSchedule_eq (by exact hi)]
  refine ⟨_, rfl, ?_, ?_⟩
  · have hb' := hb
    rw [Books, hf] at hb'
    show MacBooks m.callback m.frames m.mhRetx.busy none 1 none (m.log ++ [.ended f.uid])
    exact hb'.ended
  · exact ⟨by simp [retxFree, note, hst], fun _ => ⟨hr, by simp [retxFree, note]⟩,
      by simp [retxFree, note, hst], by simp [retxFree, note], by simp [retxFree, note, hr]⟩

/-- **The back-off is over.**  The MAC may be in a gap, or receive a frame, and the frame waits. -/
theorem retxHandle_spec (h : m.Inv) (hr : m.mhRetx.busy = true) :
    ∃ m', m.retxHandle cfg now = some m' ∧ m'.Inv := by
  have hb := h.books
  obtain ⟨f, hf⟩ : ∃ f, m.mhRetx.p = some f := by
    refine Option.ne_none_iff_exists'.mp fun hp => ?_
    exact absurd (hb.done hp).1 (by simp [hr])
  have ha : m.mhSend.p = none := by
    by_contra ha
    obtain ⟨g, hg⟩ := Option.ne_none_iff_exists'.mp ha
    exact absurd (hb.air g hg).2.1 (by simp [hr])
  have hb' := hb
  rw [Books, hr, hf, ha] at hb'
  have hbooks : MacBooks m.callback m.frames false m.mhRetx.p (m.mhRetx.tries + 1) m.mhSend.p
      m.log := by
    rw [hf, ha]
    exact hb'.retry
  rw [retxHandle, hf, Option.bind_eq_bind, Option.bind_some]
  obtain ⟨m', he, hm, -⟩ := transmit_spec (m := { m with
    mhRetx := { m.mhRetx with busy := false, tries := m.mhRetx.tries + 1 } }) hbooks h.timers hf rfl ha
  exact ⟨m', he, hm⟩

/-! ### Runs -/

/-- Every event is handled without a failed assertion, and keeps the invariant. -/
theorem Inv.step (hinit : cfg.initialized) (hshort : cfg.Short) (h : m.Inv) (e : Event R)
    (ha : m.Allows e) :
    ∃ m', m.step cfg e = some m' ∧ m'.Inv := by
  cases e with
  | send now f =>
      obtain ⟨m', he, hm, -⟩ := sendDown_spec hinit hshort h.books h.timers ha
      exact ⟨m', he, hm⟩
  | firstBit now rnd next f => exact sendUp_spec hinit hshort h rnd next f
  | sendTimer now => exact sendHandle_spec h ha
  | recvTimer now next => exact recvHandle_spec hinit hshort h ha next
  | retxTimer now => exact retxHandle_spec h ha
  | ifsTimer now next =>
      obtain ⟨m', he, hm, -⟩ := ifsHandle_spec cfg now hinit hshort h ha next
      exact ⟨m', he, hm⟩

theorem Fresh.inv (h : m.Fresh) : m.Inv := by
  obtain ⟨hsb, hsp⟩ := h.send
  obtain ⟨hrb, hrp, hrt⟩ := h.retx
  constructor
  · rw [Books, h.callback, h.frames, hrb, hrp, hrt, hsp, h.log]
    exact ⟨by simp, by simp, by simp, by simp, by simp, by simp, fun pre u post he => by simp at he⟩
  · rw [Timers, h.state, hsb, h.recv, h.ifs, hsp]
    exact ⟨by simp, by simp, by simp, by simp, by simp⟩

theorem Reach.inv (hinit : cfg.initialized) (hshort : cfg.Short) (h : Reach cfg m) : m.Inv := by
  induction h with
  | init h => exact h.inv
  | step _ e ha he ih =>
      obtain ⟨m', he', hi⟩ := ih.step hinit hshort e ha
      obtain rfl := Option.some.inj (he.symm.trans he')
      exact hi

/-- **The Ethernet MAC.**  If the MAC is connected and the propagation delay is short, then whatever
the order of sends, arrivals and timers, no assertion fails; the idle state has no timer of sending,
receiving or the gap; the send timer has a frame while it is pending and not otherwise; and a
callback is called once for a frame, when it has been sent to the end or dropped at its 16th
collision. -/
theorem ethernet_mac (hinit : cfg.initialized) (hshort : cfg.Short) (h : Reach cfg m) :
    (∀ e, m.Allows e → ∃ m', m.step cfg e = some m') ∧
      (m.state = .idle →
        m.mhSend.busy = false ∧ m.mhRecv.busy = false ∧ m.mhIFS.busy = false) ∧
      (m.mhSend.p ≠ none ↔ m.mhSend.busy = true) ∧
      CallsOnce m.log := by
  have hi := h.inv hinit hshort
  refine ⟨fun e ha => ?_, hi.timers.idle, hi.timers.packet.symm, hi.books.once⟩
  obtain ⟨m', he, -⟩ := hi.step hinit hshort e ha
  exact ⟨m', he⟩

end Handlers

/-- A byte takes one unit of time. -/
def byteUnits : MacConfig Int where
  index := 7
  trace := false
  txtime := fun bytes => bytes
  eps := 0
  netif := true
  uptarget := true
  downtarget := true
  maxdelay := 10

/-- A MAC as it is constructed. -/
def fresh : Mac8023 Int where
  state := .idle
  callback := none
  mhSend := ⟨⟨false, 0⟩, none⟩
  mhRecv := ⟨⟨false, 0⟩, none⟩
  mhRetx := ⟨⟨false, 0⟩, none, 1⟩
  mhIFS := ⟨false, 0⟩
  frames := 0
  log := []

theorem fresh_fresh : fresh.Fresh :=
  ⟨rfl, rfl, ⟨rfl, rfl⟩, rfl, ⟨rfl, rfl, rfl⟩, rfl, rfl, rfl⟩

/-- A collision, a gap, and a second attempt that succeeds. -/
theorem ethernet_mac_retry :
    ∃ m, Reach byteUnits m ∧ m.callback = none ∧
      m.log = [.down ⟨0, 114, 3, 0, false⟩, .collided 0, .down ⟨0, 114, 3, 0, false⟩, .ended 0,
        .called 0] ∧ CallsOnce m.log := by
  have h₁ : Reach byteUnits _ :=
    .step (.init fresh_fresh) (.send 0 ⟨0, 100, 3, 0, false⟩) rfl rfl
  have h₂ := h₁.step (.firstBit 5 1 none ⟨0, 80, 7, 0, false⟩) trivial rfl
  have h₃ := h₂.step (.ifsTimer 21 none) rfl rfl
  have h₄ := h₃.step (.retxTimer 85) rfl rfl
  have h₅ := h₄.step (.sendTimer 199) rfl rfl
  have h₆ := h₅.step (.ifsTimer 211 none) rfl rfl
  obtain ⟨-, -, -, hlog⟩ := ethernet_mac rfl (by decide) h₆
  exact ⟨_, h₆, rfl, rfl, hlog⟩

/-- A LAN of 100 Mb/s whose channel has its default delay of 4 µs, in units of 10 ns. -/
def fastLan : MacConfig Int := { byteUnits with txtime := fun bytes => 8 * bytes, maxdelay := 400 }

/-- The delay is not short there, and the first frame fails the assertion. -/
theorem ethernet_mac_long : ∃ m e, Reach fastLan m ∧ m.Allows e ∧ m.step fastLan e = none :=
  ⟨fresh, .send 0 ⟨0, 100, 3, 0, false⟩, .init fresh_fresh, rfl, rfl⟩

end Mac8023

end Afabric
