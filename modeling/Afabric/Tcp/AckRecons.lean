import Mathlib.Algebra.Order.Field.Basic
import Mathlib.Algebra.Order.Field.Rat
import Mathlib.Tactic.Ring

/-!
# Tcp — the reconstruction of acknowledgements

`AckRecons` sits behind a constrained link.  It lets an acknowledgement through, or schedules the
ones between the last it sent and this one.  A run (`ReconsRun`) is any order of arrivals, with
non-decreasing numbers, and of due events; `Inv` is what every step keeps.

The number of a packet is read once more after the packet has been freed, or handed to a queue that
may drop it, and a freed packet has its headers cleared, unless a reference to it is held elsewhere.
-/

namespace Afabric

variable {R : Type}

/-- The fields of a packet's headers that the reconstructor uses, and its `ref_count_`. -/
structure AckPkt (R : Type) where
  seqno : ℤ
  noTs : Bool
  ts : R
  refCount : ℕ

/-- The knobs that are set once. -/
structure ReconsKnobs where
  deltaAckThresh : ℤ
  delack : ℤ

structure AckRecons (R : Type) where
  ackTemplate : Option (AckPkt R)
  ackPending : ℤ
  lastAck : ℤ
  lastRealAck : ℤ
  lastTime : R
  lastRealTime : R
  dupacks : ℤ

/-- A reconstructor with the clock, the events scheduled for it and what it has put into the queue,
the newest first. -/
structure ReconsWorld (R : Type) extends AckRecons R where
  clock : R
  events : List (R × AckPkt R)
  emitted : List (AckPkt R)

section

variable [Field R] [LinearOrder R]

namespace AckPkt

def copy (p : AckPkt R) : AckPkt R := { p with refCount := 0 }

/-- The packet after `Packet::free`. -/
def free (p : AckPkt R) : AckPkt R :=
  if p.refCount = 0 then ⟨0, false, 0, 0⟩ else { p with refCount := p.refCount - 1 }

/-- The packet after a queue has had it, which may have freed it. -/
def queued (freed : Bool) (p : AckPkt R) : AckPkt R := if freed then p.free else p

end AckPkt

namespace ReconsWorld

/-- The constructor sets neither `dupacks_` nor the times. -/
def new (clock lastTime lastRealTime : R) (dupacks : ℤ) : ReconsWorld R where
  ackTemplate := none
  ackPending := 0
  lastAck := 0
  lastRealAck := 0
  lastTime := lastTime
  lastRealTime := lastRealTime
  dupacks := dupacks
  clock := clock
  events := []
  emitted := []

/-- `sendack`, with the packet the acknowledgements are copies of. -/
def sendack (template : AckPkt R) (ack : ℤ) (t : R) (w : ReconsWorld R) : ReconsWorld R :=
  { w with
    events := w.events ++
      [(w.clock + t, { template.copy with seqno := ack, noTs := true, ts := w.clock })]
    ackPending := w.ackPending + 1 }

/-- The `for` loop of `recv`, with the `a` and the `i` it ends with. -/
def intersperse (K : ReconsKnobs) (template : AckPkt R) (ack : ℤ) (starttime ackSpacing : R) :
    ℕ → ℤ → ℕ → ReconsWorld R → ℤ × ℕ × ReconsWorld R
  | 0, a, i, w => (a, i, w)
  | fuel + 1, a, i, w =>
      if a ≤ ack then
        intersperse K template ack starttime ackSpacing fuel (a + K.delack) (i + 1)
          (sendack template a (starttime + i * ackSpacing - w.clock) w)
      else (a, i, w)

/-- The acknowledgements from the last one sent up to `ack`, in steps of `delack_`. -/
def reconstruct (K : ReconsKnobs) (template : AckPkt R) (ack : ℤ) (ackSpacing : R)
    (w : ReconsWorld R) : ReconsWorld R :=
  let starttime := max w.clock w.lastTime
  let r := intersperse K template ack starttime ackSpacing ((ack - w.lastAck).toNat + 1)
    (w.lastAck + K.delack) 0 w
  if (r.1 - ack).tmod K.delack ≠ 0 then
    sendack template ack (starttime + r.2.1 * ackSpacing - w.clock) r.2.2
  else r.2.2

/-- The acknowledgement is let through. -/
def Direct (K : ReconsKnobs) (w : ReconsWorld R) (ack : ℤ) : Prop :=
  (w.ackPending = 0 ∧ ack - w.lastAck ≤ K.deltaAckThresh) ∨ w.dupacks ≠ 0

instance (K : ReconsKnobs) (w : ReconsWorld R) (ack : ℤ) : Decidable (w.Direct K ack) :=
  inferInstanceAs (Decidable (_ ∨ _))

/-- The last lines of `recv`, with the number they read. -/
def noteReal (ack : ℤ) (w : ReconsWorld R) : ReconsWorld R :=
  if w.lastRealAck ≤ ack then { w with lastRealAck := ack, lastRealTime := w.clock } else w

/-- The counters of an acknowledgement that is let through. -/
def noteDirect (ack : ℤ) (w : ReconsWorld R) : ReconsWorld R :=
  if ack = w.lastRealAck then { w with dupacks := w.dupacks + 1 }
  else if w.lastAck < ack then { w with dupacks := 0, lastAck := ack, lastTime := w.clock }
  else w

/-- `recv`, with the spacing that the script has set for this acknowledgement, and whether the queue
frees it if it is let through. -/
def recv (K : ReconsKnobs) (ackSpacing : R) (freed : Bool) (pkt : AckPkt R) (w : ReconsWorld R) :
    ReconsWorld R :=
  let template := w.ackTemplate.getD pkt.copy
  let w := { w with ackTemplate := some template }
  let ack := pkt.seqno
  if w.Direct K ack then
    let w := noteDirect ack w
    -- `ack` refers into the header of a packet that may have been freed
    noteReal (pkt.queued freed).seqno { w with emitted := pkt :: w.emitted }
  else
    let w := if ack = w.lastRealAck then { w with dupacks := w.dupacks + 1 } else w
    noteReal pkt.free.seqno (reconstruct K template ack ackSpacing w)

/-- `handle`, with whether `target_` frees the packet: its number is read again after that. -/
def handle (freed : Bool) (p : AckPkt R) (w : ReconsWorld R) : ReconsWorld R :=
  let w := { w with ackPending := w.ackPending - 1 }
  if w.lastAck < p.seqno then
    { w with emitted := p :: w.emitted, lastTime := w.clock, lastAck := (p.queued freed).seqno }
  else w

/-- What the reconstructor owes, for the numbers that have arrived. -/
structure Preserves (received : List ℤ) (w : ReconsWorld R) : Prop where
  mono : w.emitted.Pairwise fun p q => q.seqno ≤ p.seqno
  bounded : ∀ p ∈ w.emitted, ∃ r ∈ received, p.seqno ≤ r
  pending : w.ackPending = w.events.length
  delivered : w.ackPending = 0 → ∀ h ∈ received, (∀ r ∈ received, r ≤ h) →
    ∃ p ∈ w.emitted, p.seqno = h

end ReconsWorld

/-- An arrival, or a due event with whether its packet is freed by the target. -/
inductive ReconsStep (R : Type) where
  | arrive (pkt : AckPkt R)
  | fire (p : AckPkt R) (freed : Bool)

/-- The worlds a reconstructor can get to, with the numbers that have arrived, where every step
meets `C`.  An event that is due comes before everything later. -/
inductive ReconsRun (K : ReconsKnobs) (C : ReconsWorld R → ReconsStep R → Prop)
    (w₀ : ReconsWorld R) : List ℤ → ReconsWorld R → Prop
  | start : ReconsRun K C w₀ [] w₀
  | arrive {l : List ℤ} {w : ReconsWorld R} {pkt : AckPkt R} {now ackSpacing : R}
      (freed : Bool) (h : ReconsRun K C w₀ l w) (hclock : w.clock ≤ now)
      (hdue : ∀ e ∈ w.events, now ≤ e.1) (hmono : ∀ r ∈ l, r ≤ pkt.seqno)
      (hspacing : 0 ≤ ackSpacing) (hC : C w (.arrive pkt)) :
      ReconsRun K C w₀ (pkt.seqno :: l) (.recv K ackSpacing freed pkt { w with clock := now })
  | fire {l : List ℤ} {w : ReconsWorld R} {e : R × AckPkt R} {before after : List (R × AckPkt R)}
      (freed : Bool) (h : ReconsRun K C w₀ l w) (he : w.events = before ++ e :: after)
      (hdue : ∀ e' ∈ w.events, e.1 ≤ e'.1) (hC : C w (.fire e.2 freed)) :
      ReconsRun K C w₀ l (.handle freed e.2 { w with clock := e.1, events := before ++ after })

end

namespace ReconsWorld

variable {K : ReconsKnobs} {w w' w'' : ReconsWorld R} {template pkt : AckPkt R} {ack a : ℤ}
  {starttime ackSpacing t : R} {fuel i : ℕ} {l : List ℤ}

/-! ### The invariant -/

/-- The acknowledgement is neither swallowed nor sent ahead of the last one sent: it is positive, or
let through at the start, and a repeated one that is let through has been sent before. -/
structure Passes (K : ReconsKnobs) (d₀ : ℤ) (w : ReconsWorld R) (pkt : AckPkt R) : Prop where
  heard : 0 < pkt.seqno ∨ pkt.seqno ≤ K.deltaAckThresh ∨ d₀ ≠ 0
  sent : w.Direct K pkt.seqno → pkt.seqno = w.lastRealAck → pkt.seqno ≤ w.lastAck

/-- An acknowledgement that arrives passes, and one that is sent by an event is not freed. -/
def Meets (K : ReconsKnobs) (d₀ : ℤ) (w : ReconsWorld R) : ReconsStep R → Prop
  | .arrive pkt => Passes K d₀ w pkt
  | .fire p freed => w.lastAck < p.seqno → freed = false

/-- As long as no positive number has arrived nothing is scheduled, and the duplicates are still
those of the start or `0` has arrived. -/
structure Inv (d₀ : ℤ) (l : List ℤ) (w : ReconsWorld R) : Prop where
  nonneg : 0 ≤ w.lastAck
  real : 0 ≤ w.lastRealAck
  le_last : ∀ p ∈ w.emitted, p.seqno ≤ w.lastAck
  last : w.lastAck = 0 ∨ ∃ p ∈ w.emitted, p.seqno = w.lastAck
  mono : w.emitted.Pairwise fun p q => q.seqno ≤ p.seqno
  bounded : ∀ p ∈ w.emitted, ∃ r ∈ l, p.seqno ≤ r
  scheduled : ∀ e ∈ w.events, ∃ r ∈ l, e.2.seqno ≤ r
  pending : w.ackPending = w.events.length
  highest : ∀ h ∈ l, (∀ r ∈ l, r ≤ h) →
    (∃ p ∈ w.emitted, p.seqno = h) ∨ (0 < h ∧ ∃ e ∈ w.events, e.2.seqno = h)
  early : (∀ r ∈ l, r ≤ 0) → w.events = [] ∧ (w.dupacks = d₀ ∨ 0 ∈ l)

variable {d₀ n : ℤ} {now : R} {freed : Bool}

theorem inv_new (clock lastTime lastRealTime : R) (d₀ : ℤ) :
    Inv d₀ [] (new clock lastTime lastRealTime d₀) where
  nonneg := le_rfl
  real := le_rfl
  le_last := fun _ hp => absurd hp List.not_mem_nil
  last := Or.inl rfl
  mono := List.Pairwise.nil
  bounded := fun _ hp => absurd hp List.not_mem_nil
  scheduled := fun _ he => absurd he List.not_mem_nil
  pending := rfl
  highest := fun _ hh => absurd hh List.not_mem_nil
  early := fun _ => ⟨rfl, Or.inl rfl⟩

theorem Inv.clock (h : Inv d₀ l w) : Inv d₀ l { w with clock := now } :=
  { h with }

theorem Inv.noteReal (h : Inv d₀ l w) : Inv d₀ l (noteReal n w) := by
  rw [ReconsWorld.noteReal]
  split_ifs with hn
  · exact { h with real := h.real.trans hn }
  · exact h

/-- What has been sent up to the highest number that has arrived is that number, if it is
positive. -/
theorem Inv.sent_of_le (h : Inv d₀ l w) (hl : ∀ r ∈ l, r ≤ a) (hpos : 0 < a) (ha : a ≤ w.lastAck) :
    ∃ p ∈ w.emitted, p.seqno = a := by
  rcases h.last with h₀ | ⟨p, hp, he⟩
  · omega
  · obtain ⟨r, hr, hpr⟩ := h.bounded p hp
    have hra := hl r hr
    exact ⟨p, hp, by omega⟩

theorem Inv.preserves (h : Inv d₀ l w) : Preserves l w where
  mono := h.mono
  bounded := h.bounded
  pending := h.pending
  delivered := by
    intro hnone a ha hmax
    have hlen : w.events.length = 0 := by exact_mod_cast h.pending.symm.trans hnone
    rcases h.highest a ha hmax with hp | ⟨-, e, he, -⟩
    · exact hp
    · rw [List.length_eq_zero_iff.mp hlen] at he
      exact absurd he List.not_mem_nil

/-! ### Steps that schedule nothing -/

theorem Inv.noteDirect_eq (h : Inv d₀ l w) (hsent : n = w.lastRealAck → n ≤ w.lastAck) :
    ∃ k t d, noteDirect n w = { w with lastAck := k, lastTime := t, dupacks := d } ∧
      n ≤ k ∧ w.lastAck ≤ k ∧ (k = w.lastAck ∨ k = n) ∧ (n ≤ 0 → d = w.dupacks ∨ n = 0) := by
  have hreal := h.real
  have hnonneg := h.nonneg
  rw [noteDirect]
  split_ifs with hdup hnew
  · exact ⟨w.lastAck, w.lastTime, w.dupacks + 1, rfl, hsent hdup, le_rfl, Or.inl rfl,
      fun hn => Or.inr (by omega)⟩
  · exact ⟨n, w.clock, 0, rfl, le_rfl, hnew.le, Or.inr rfl, fun hn => by omega⟩
  · exact ⟨w.lastAck, w.lastTime, w.dupacks, rfl, not_lt.mp hnew, le_rfl, Or.inl rfl,
      fun _ => Or.inl rfl⟩

/-- An acknowledgement that is let through. -/
theorem Inv.direct (h : Inv d₀ l w) (hl : ∀ r ∈ l, r ≤ pkt.seqno)
    (hsent : pkt.seqno = w.lastRealAck → pkt.seqno ≤ w.lastAck) :
    Inv d₀ (pkt.seqno :: l) { noteDirect pkt.seqno w with
      emitted := pkt :: (noteDirect pkt.seqno w).emitted } := by
  obtain ⟨k, t, d, hnote, hnk, hwk, hk, hd⟩ := h.noteDirect_eq hsent
  rw [hnote]
  have hold : ∀ p ∈ w.emitted, p.seqno ≤ pkt.seqno := by
    intro p hp
    obtain ⟨r, hr, hpr⟩ := h.bounded p hp
    exact hpr.trans (hl r hr)
  refine ⟨h.nonneg.trans hwk, h.real, ?_, ?_, List.pairwise_cons.mpr ⟨hold, h.mono⟩, ?_, ?_,
    h.pending, ?_, ?_⟩
  · rintro p (_ | ⟨_, hp⟩)
    exacts [hnk, (h.le_last p hp).trans hwk]
  · rcases hk with rfl | rfl
    · exact h.last.imp id fun ⟨p, hp, he⟩ => ⟨p, List.mem_cons_of_mem _ hp, he⟩
    · exact Or.inr ⟨pkt, List.mem_cons_self, rfl⟩
  · rintro p (_ | ⟨_, hp⟩)
    · exact ⟨_, List.mem_cons_self, le_rfl⟩
    · obtain ⟨r, hr, hpr⟩ := h.bounded p hp
      exact ⟨r, List.mem_cons_of_mem _ hr, hpr⟩
  · intro e he
    obtain ⟨r, hr, her⟩ := h.scheduled e he
    exact ⟨r, List.mem_cons_of_mem _ hr, her⟩
  · intro a ha hmax
    have hle : a ≤ pkt.seqno := by
      rcases List.mem_cons.mp ha with rfl | ha
      exacts [le_rfl, hl a ha]
    exact Or.inl ⟨pkt, List.mem_cons_self, (hmax _ List.mem_cons_self).antisymm hle⟩
  · intro hearly
    obtain ⟨hnone, hdup⟩ := h.early fun r hr => hearly r (List.mem_cons_of_mem _ hr)
    refine ⟨hnone, ?_⟩
    rcases hd (hearly _ List.mem_cons_self) with hd | hzero
    · exact hdup.imp hd.trans (List.mem_cons_of_mem _)
    · exact Or.inr (hzero ▸ List.mem_cons_self)

/-- What has been sent at the start, while no positive number has arrived. -/
theorem Inv.lastAck_zero (h : Inv d₀ l w) (hl : ∀ r ∈ l, r ≤ 0) : w.lastAck = 0 := by
  rcases h.last with h₀ | ⟨p, hp, he⟩
  · exact h₀
  · obtain ⟨r, hr, hpr⟩ := h.bounded p hp
    have hr0 := hl r hr
    have hnonneg := h.nonneg
    omega

/-- A number of at most `0` that is not let through is `0` and has been sent. -/
theorem Inv.zero_sent (h : Inv d₀ l w) (hl : ∀ r ∈ l, r ≤ n) (hn : n ≤ 0)
    (hheard : n ≤ K.deltaAckThresh ∨ d₀ ≠ 0) (hdir : ¬ w.Direct K n) :
    n = 0 ∧ 0 ∈ l ∧ ∃ p ∈ w.emitted, p.seqno = 0 := by
  have hl₀ : ∀ r ∈ l, r ≤ 0 := fun r hr => (hl r hr).trans hn
  obtain ⟨hnone, hdup⟩ := h.early hl₀
  have hlast := h.lastAck_zero hl₀
  have hpending : w.ackPending = 0 := by rw [h.pending, hnone]; rfl
  simp only [Direct, hpending, hlast, not_or, not_not, true_and, sub_zero] at hdir
  obtain ⟨hthresh, hdup₀⟩ := hdir
  have hmem : 0 ∈ l := by
    rcases hdup with hd | hmem
    · rw [hdup₀] at hd
      exact absurd hd.symm (hheard.resolve_left hthresh)
    · exact hmem
  refine ⟨hn.antisymm (hl 0 hmem), hmem, ?_⟩
  rcases h.highest 0 hmem hl₀ with hp | ⟨hpos, -⟩
  · exact hp
  · exact absurd hpos (lt_irrefl 0)

variable [Field R] in
theorem Inv.handle {e : R × AckPkt R} {before after : List (R × AckPkt R)} (h : Inv d₀ l w)
    (he : w.events = before ++ e :: after) (hfreed : w.lastAck < e.2.seqno → freed = false) :
    Inv d₀ l (handle freed e.2 { w with clock := now, events := before ++ after }) := by
  have hpending : w.ackPending - 1 = (before ++ after).length := by
    rw [h.pending, he]
    simp only [List.length_append, List.length_cons]
    push_cast
    ring
  have hmem : e ∈ w.events := he ▸ List.mem_append_right _ List.mem_cons_self
  have hrest : ∀ e' ∈ before ++ after, e' ∈ w.events := by
    intro e' h'
    rw [he, List.mem_append, List.mem_cons]
    exact (List.mem_append.mp h').imp id Or.inr
  have hsplit : ∀ e' ∈ w.events, e' = e ∨ e' ∈ before ++ after := by
    intro e' h'
    rw [he, List.mem_append, List.mem_cons] at h'
    rw [List.mem_append]
    tauto
  have hearly : (∀ r ∈ l, r ≤ 0) → False := by
    intro hl
    rw [(h.early hl).1] at hmem
    exact absurd hmem List.not_mem_nil
  rw [ReconsWorld.handle]
  by_cases hnew : w.lastAck < e.2.seqno
  · rw [if_pos hnew, hfreed hnew]
    have hsched := h.scheduled e hmem
    refine ⟨h.nonneg.trans hnew.le, h.real, ?_, Or.inr ⟨e.2, List.mem_cons_self, rfl⟩, ?_, ?_, ?_,
      hpending, ?_, fun hl => (hearly hl).elim⟩
    · rintro p (_ | ⟨_, hp⟩)
      exacts [le_rfl, (h.le_last p hp).trans hnew.le]
    · exact List.pairwise_cons.mpr ⟨fun p hp => (h.le_last p hp).trans hnew.le, h.mono⟩
    · rintro p (_ | ⟨_, hp⟩)
      exacts [hsched, h.bounded p hp]
    · exact fun e' h' => h.scheduled e' (hrest e' h')
    · intro a ha hmax
      rcases h.highest a ha hmax with ⟨p, hp, hpa⟩ | ⟨hpos, e', h', hea⟩
      · exact Or.inl ⟨p, List.mem_cons_of_mem _ hp, hpa⟩
      · rcases hsplit e' h' with rfl | h'
        · exact Or.inl ⟨_, List.mem_cons_self, hea⟩
        · exact Or.inr ⟨hpos, e', h', hea⟩
  · rw [if_neg hnew]
    refine ⟨h.nonneg, h.real, h.le_last, h.last, h.mono, h.bounded,
      fun e' h' => h.scheduled e' (hrest e' h'), hpending, ?_, fun hl => (hearly hl).elim⟩
    intro a ha hmax
    rcases h.highest a ha hmax with hp | ⟨hpos, e', h', hea⟩
    · exact Or.inl hp
    · rcases hsplit e' h' with rfl | h'
      · exact Or.inl (h.sent_of_le hmax hpos (hea ▸ not_lt.mp hnew))
      · exact Or.inr ⟨hpos, e', h', hea⟩

/-! ### What is scheduled -/

/-- `w'` is `w` with events for the numbers `seqs`. -/
structure Adds (seqs : List ℤ) (w w' : ReconsWorld R) : Prop where
  rest : w' = { w with events := w'.events, ackPending := w.ackPending + seqs.length }
  events : ∃ evs, w'.events = w.events ++ evs ∧ evs.map (·.2.seqno) = seqs

theorem Adds.refl (w : ReconsWorld R) : Adds [] w w :=
  ⟨by simp, [], by simp⟩

theorem Adds.trans {s₁ s₂ : List ℤ} (h₁ : Adds s₁ w w') (h₂ : Adds s₂ w' w'') :
    Adds (s₁ ++ s₂) w w'' := by
  obtain ⟨evs₁, he₁, hs₁⟩ := h₁.events
  obtain ⟨evs₂, he₂, hs₂⟩ := h₂.events
  refine ⟨?_, evs₁ ++ evs₂, ?_, ?_⟩
  · rw [h₂.rest]
    generalize w''.events = events
    rw [h₁.rest]
    simp only [List.length_append, Nat.cast_add]
    rw [add_assoc]
  · rw [he₂, he₁, List.append_assoc]
  · rw [List.map_append, hs₁, hs₂]

theorem Adds.mem {seqs : List ℤ} (h : Adds seqs w w') (ha : a ∈ seqs) :
    ∃ e ∈ w'.events, e.2.seqno = a := by
  obtain ⟨evs, he, hs⟩ := h.events
  rw [← hs, List.mem_map] at ha
  obtain ⟨e, hmem, rfl⟩ := ha
  exact ⟨e, he ▸ List.mem_append_right _ hmem, rfl⟩

variable [Field R]

theorem sendack_adds : Adds [ack] w (sendack template ack t w) :=
  ⟨rfl, _, rfl, rfl⟩

/-- The numbers of the loop are at most `ack`, and the last of them is one step before its end. -/
theorem intersperse_spec (template : AckPkt R) (starttime ackSpacing : R) (i : ℕ)
    (w : ReconsWorld R) (hd : 1 ≤ K.delack) (hf : ack - a < fuel) :
    ∃ seqs, Adds seqs w (intersperse K template ack starttime ackSpacing fuel a i w).2.2 ∧
      (∀ x ∈ seqs, x ≤ ack) ∧
      ack < (intersperse K template ack starttime ackSpacing fuel a i w).1 ∧
      (ack < a → seqs = [] ∧
        (intersperse K template ack starttime ackSpacing fuel a i w).1 = a) ∧
      (a ≤ ack →
        (intersperse K template ack starttime ackSpacing fuel a i w).1 - K.delack ∈ seqs) := by
  induction fuel generalizing a i w with
  | zero =>
      have ha : ack < a := by simpa using hf
      exact ⟨[], .refl w, by simp, ha, fun _ => ⟨rfl, rfl⟩, fun h => absurd h (not_le.mpr ha)⟩
  | succ fuel ih =>
      rw [intersperse]
      by_cases ha : a ≤ ack
      · rw [if_pos ha]
        have hf' : ack - (a + K.delack) < fuel := by push_cast at hf; omega
        obtain ⟨seqs, hadds, hle, hlt, hend, hlast⟩ := ih (i + 1)
          (sendack template a (starttime + i * ackSpacing - w.clock) w) hf'
        refine ⟨a :: seqs, sendack_adds.trans hadds, ?_, hlt,
          fun h => absurd h (not_lt.mpr ha), fun _ => ?_⟩
        · rintro x (_ | ⟨_, hx⟩)
          exacts [ha, hle x hx]
        · rcases lt_or_ge ack (a + K.delack) with h | h
          · rw [(hend h).2, add_sub_cancel_right]
            exact List.mem_cons_self
          · exact List.mem_cons_of_mem _ (hlast h)
      · rw [if_neg ha]
        exact ⟨[], .refl w, by simp, not_le.mp ha, fun _ => ⟨rfl, rfl⟩, fun h => absurd h ha⟩

variable [LinearOrder R]

/-- A number above the last one sent is scheduled itself; the last one sent schedules nothing. -/
theorem reconstruct_spec (template : AckPkt R) (ack : ℤ) (ackSpacing : R) (w : ReconsWorld R)
    (hd : 1 ≤ K.delack) :
    ∃ seqs, Adds seqs w (reconstruct K template ack ackSpacing w) ∧ (∀ x ∈ seqs, x ≤ ack) ∧
      (w.lastAck < ack → ack ∈ seqs) ∧ (w.lastAck = ack → seqs = []) := by
  have hf : ack - (w.lastAck + K.delack) < ((ack - w.lastAck).toNat + 1 : ℕ) := by omega
  obtain ⟨seqs, hadds, hle, hlt, hend, hlast⟩ :=
    intersperse_spec template (max w.clock w.lastTime) ackSpacing 0 w hd hf
  have hself : w.lastAck = ack →
      (intersperse K template ack (max w.clock w.lastTime) ackSpacing ((ack - w.lastAck).toNat + 1)
        (w.lastAck + K.delack) 0 w).1 - ack = K.delack := by
    intro he
    have hgt : ack < w.lastAck + K.delack := by omega
    rw [(hend hgt).2, he, add_sub_cancel_left]
  simp only [reconstruct]
  by_cases hmod : ((intersperse K template ack (max w.clock w.lastTime) ackSpacing
      ((ack - w.lastAck).toNat + 1) (w.lastAck + K.delack) 0 w).1 - ack).tmod K.delack = 0
  · rw [if_neg (not_not.mpr hmod)]
    refine ⟨seqs, hadds, hle, fun hgt => ?_, fun he => (hend (by omega)).1⟩
    -- the loop ends a multiple of `delack_` behind `ack`, so a whole step behind it
    have hstep := Int.le_of_dvd (sub_pos.mpr hlt) (Int.dvd_of_tmod_eq_zero hmod)
    rcases lt_or_ge ack (w.lastAck + K.delack) with h | h
    · have hstop := (hend h).2
      omega
    · have hmem := hlast h
      have hlow := hle _ hmem
      convert hmem using 1
      omega
  · rw [if_pos hmod]
    refine ⟨seqs ++ [ack], hadds.trans sendack_adds, ?_, fun _ => by simp, fun he => ?_⟩
    · intro x hx
      rcases List.mem_append.mp hx with hx | hx
      · exact hle x hx
      · exact (List.mem_singleton.mp hx).le
    · rw [hself he, Int.tmod_self] at hmod
      exact absurd rfl hmod

/-! ### Runs -/

/-- An acknowledgement that is not let through: the number and those before it are scheduled. -/
theorem Inv.reconstruct (h : Inv d₀ l w) (hd : 1 ≤ K.delack) (hl : ∀ r ∈ l, r ≤ n)
    (hheard : 0 < n ∨ n ≤ K.deltaAckThresh ∨ d₀ ≠ 0) (hdir : ¬ w.Direct K n) {m : ℤ} :
    Inv d₀ (n :: l) (reconstruct K template n ackSpacing { w with dupacks := m }) := by
  obtain ⟨seqs, hadds, hle, hmem, hnil⟩ :=
    reconstruct_spec template n ackSpacing { w with dupacks := m } hd
  have hempty : n ≤ 0 → n = 0 ∧ 0 ∈ l ∧ ∃ p ∈ w.emitted, p.seqno = 0 := fun hn =>
    h.zero_sent hl hn (hheard.resolve_left (not_lt.mpr hn)) hdir
  generalize ReconsWorld.reconstruct K template n ackSpacing { w with dupacks := m } = w' at hadds ⊢
  obtain ⟨evs, he, hs⟩ := hadds.events
  have hseq : ∀ e ∈ evs, e.2.seqno ∈ seqs := fun e hmem => hs ▸ List.mem_map_of_mem hmem
  have hlen : evs.length = seqs.length := by rw [← hs, List.length_map]
  rw [hadds.rest, he]
  refine ⟨h.nonneg, h.real, h.le_last, h.last, h.mono, ?_, ?_, ?_, ?_, ?_⟩
  · intro p hp
    obtain ⟨r, hr, hpr⟩ := h.bounded p hp
    exact ⟨r, List.mem_cons_of_mem _ hr, hpr⟩
  · intro e hmem
    rcases List.mem_append.mp hmem with hold | hnew
    · obtain ⟨r, hr, her⟩ := h.scheduled e hold
      exact ⟨r, List.mem_cons_of_mem _ hr, her⟩
    · exact ⟨n, List.mem_cons_self, hle _ (hseq e hnew)⟩
  · have hp := h.pending
    simp only [List.length_append, hp, hlen]
    push_cast
    rfl
  · intro a ha hmax
    have han : a = n := by
      refine le_antisymm ?_ (hmax n List.mem_cons_self)
      rcases List.mem_cons.mp ha with rfl | ha
      exacts [le_rfl, hl a ha]
    subst han
    rcases lt_or_ge 0 a with hpos | hneg
    · rcases lt_or_ge w.lastAck a with hnew | hold
      · obtain ⟨e, hev, hea⟩ := hadds.mem (hmem hnew)
        exact Or.inr ⟨hpos, e, he ▸ hev, hea⟩
      · exact Or.inl (h.sent_of_le hl hpos hold)
    · obtain ⟨rfl, -, hsent⟩ := hempty hneg
      exact Or.inl hsent
  · intro hearly
    have hl₀ : ∀ r ∈ l, r ≤ 0 := fun r hr => hearly r (List.mem_cons_of_mem _ hr)
    obtain ⟨rfl, hzero, -⟩ := hempty (hearly n List.mem_cons_self)
    have hevs : evs = [] := by
      rw [hnil (h.lastAck_zero hl₀)] at hs
      exact List.map_eq_nil_iff.mp hs
    exact ⟨by rw [hevs, (h.early hl₀).1]; rfl, Or.inr List.mem_cons_self⟩

theorem Inv.recv (h : Inv d₀ l w) (hd : 1 ≤ K.delack) (hl : ∀ r ∈ l, r ≤ pkt.seqno)
    (hpass : Passes K d₀ w pkt) : Inv d₀ (pkt.seqno :: l) (recv K ackSpacing freed pkt w) := by
  have ht : Inv d₀ l { w with ackTemplate := some (w.ackTemplate.getD pkt.copy) } := { h with }
  simp only [ReconsWorld.recv]
  split_ifs with hdir hdup
  · exact (ht.direct hl (hpass.sent hdir)).noteReal
  · exact (ht.reconstruct hd hl hpass.heard hdir).noteReal
  · exact (ht.reconstruct hd hl hpass.heard hdir).noteReal

theorem Inv.run {clock lastTime lastRealTime : R} (hd : 1 ≤ K.delack)
    (hr : ReconsRun K (Meets K d₀) (new clock lastTime lastRealTime d₀) l w) : Inv d₀ l w := by
  induction hr with
  | start => exact inv_new clock lastTime lastRealTime d₀
  | arrive freed _ _ _ hmono _ hpass ih =>
      exact ih.clock.recv hd hmono ⟨hpass.heard, hpass.sent⟩
  | fire freed _ he _ hfreed ih => exact ih.handle he hfreed

/-- A reconstructor preserves what acknowledgements say, as long as none of them is swallowed at the
start, sent ahead of the ones that are scheduled or dropped when it is due. -/
theorem run_preserves {clock lastTime lastRealTime : R} (hd : 1 ≤ K.delack)
    (hr : ReconsRun K (Meets K d₀) (new clock lastTime lastRealTime d₀) l w) : Preserves l w :=
  (Inv.run hd hr).preserves

theorem run_preserves_three :
    ∃ w : ReconsWorld ℚ, ReconsRun ⟨0, 2⟩ (Meets ⟨0, 2⟩ 0) (new 0 0 0 0) [3] w ∧
      w.ackPending = 1 ∧ w.emitted.map (·.seqno) = [2] ∧ Preserves [3] w := by
  have hsched := @ReconsRun.arrive ℚ _ _ ⟨0, 2⟩ (Meets ⟨0, 2⟩ 0) (new 0 0 0 0) [] _
    ⟨3, false, 0, 0⟩ 1 1 false .start (by decide) (by simp [new]) (by simp) (by decide)
    ⟨Or.inl (by decide), fun h => absurd h (by decide)⟩
  have hfire := hsched.fire false (show _ = [] ++ _ :: _ from rfl)
    (List.forall_mem_cons.mpr ⟨le_rfl, List.forall_mem_singleton.mpr (by decide +kernel)⟩)
    fun _ => rfl
  exact ⟨_, hfire, rfl, rfl, run_preserves (by decide) hfire⟩

/-- A negative threshold: the first acknowledgement is neither let through nor scheduled. -/
theorem zero_swallowed :
    ∃ w : ReconsWorld ℚ, ReconsRun ⟨-1, 1⟩ (fun _ _ => True) (new 0 0 0 0) [0] w ∧
      w.ackPending = 0 ∧ w.emitted.length = 0 ∧ ¬ Preserves [0] w := by
  refine ⟨_, @ReconsRun.arrive ℚ _ _ ⟨-1, 1⟩ _ (new 0 0 0 0) [] _ ⟨0, false, 0, 0⟩ 0 0 false .start
    le_rfl (by simp [new]) (by simp) le_rfl trivial, rfl, rfl, ?_⟩
  intro h
  obtain ⟨p, hp, -⟩ := h.delivered rfl 0 (by simp) (by simp)
  exact absurd hp List.not_mem_nil

/-! ### Packets that nobody else holds -/

end ReconsWorld

end Afabric
