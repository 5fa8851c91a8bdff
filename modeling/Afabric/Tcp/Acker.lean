import Afabric.Support.Ring
import Mathlib.Algebra.BigOperators.Group.Finset.Basic
import Mathlib.Algebra.Order.Interval.Finset.SuccPred
import Mathlib.Data.Int.Interval

/-!
# Tcp — the receiver of a one-way connection

`Acker` (`tcp/tcp-sink.h`, `tcp/tcp-sink.cc`) keeps which packets of a window have arrived, and
how large they were, in a ring that is addressed by the packet number and `wndmask_` and doubled
when a packet does not fit.  `update` records a packet and moves `next_` over what is complete.

The meaning of an `Acker` is the list of the packets that have arrived since the last `reset`.
`Rep` says what the ring and the two window edges hold of it, and `Rep.update` that every call of
`update` keeps that.  `acker_refines` is the result over runs.

Packet numbers and sizes are integers.  A cell with 0 is a packet that has not arrived.
-/

namespace Afabric

/-- `Acker`, less what belongs to time stamps and ECN. -/
structure Acker where
  next : ℤ
  maxseen : ℤ
  wndmask : ℕ
  seen : ℕ → ℤ
  isDup : Bool

namespace Acker

/-- `i & wndmask_`. -/
def slot (a : Acker) (i : ℤ) : ℕ := i.toNat &&& a.wndmask

/-- `seen_[i & wndmask_]`. -/
def cell (a : Acker) (i : ℤ) : ℤ := a.seen (a.slot i)

/-- The constructor. -/
def init : Acker := ⟨0, 0, 63, fun _ => 0, false⟩

/-- `Acker::reset`. -/
def reset (a : Acker) : Acker := { a with next := 0, maxseen := 0, seen := fun _ => 0 }

/-- `Acker::resize_buffers`. -/
def resizeBuffers (a : Acker) (sz : ℕ) : Acker :=
  { a with
    wndmask := sz - 1
    seen := Ring.fill (fun i => i.toNat &&& (sz - 1)) (fun _ => 0) a.cell a.next
      (a.maxseen + 2 - a.next).toNat }

/-- The loop of `update` that resizes the ring; every round raises `wndmask_`, so that
`seq + 1 - next_` rounds are enough. -/
def makeRoom (seq : ℤ) : ℕ → Acker → Acker
  | 0, a => a
  | n + 1, a =>
      if seq + 1 - a.next ≥ a.wndmask then makeRoom seq n (a.resizeBuffers ((a.wndmask + 1) * 2))
      else a

/-- The first branch of `update`: the packet is the highest one so far. -/
def markHighest (a : Acker) (seq numBytes : ℤ) : Acker :=
  let seen := Ring.fill a.slot a.seen (fun _ => 0) (a.maxseen + 1) (seq - (a.maxseen + 1)).toNat
  { a with
    maxseen := seq
    seen := Ring.write a.slot (Ring.write a.slot seen seq numBytes) (seq + 1) 0 }

/-- The loop of `update` that delivers, from `next` on; the cell after `maxseen_` ends it. -/
def deliver (a : Acker) : ℕ → ℤ → ℤ × ℤ
  | 0, next => (next, 0)
  | n + 1, next =>
      if a.cell next ≠ 0 then
        let r := a.deliver n (next + 1)
        (r.1, a.cell next + r.2)
      else (next, 0)

/-- The packet is recorded, and what is complete is delivered. -/
def record (a : Acker) (seq numBytes : ℤ) : Acker × ℤ :=
  let a := { a with seen := Ring.write a.slot a.seen seq numBytes }
  let r := a.deliver (a.maxseen + 2 - a.next).toNat a.next
  ({ a with next := r.1 }, r.2)

/-- `update` once the ring has room for the packet. -/
def accept (a : Acker) (seq numBytes : ℤ) : Acker × ℤ :=
  let justMarkedAsSeen := seq > a.maxseen
  let a := if justMarkedAsSeen then a.markHighest seq numBytes else a
  let a := if seq < a.next then { a with isDup := true } else a
  if seq ≥ a.next ∧ seq ≤ a.maxseen then
    let a := if a.cell seq ≠ 0 ∧ ¬ justMarkedAsSeen then { a with isDup := true } else a
    a.record seq numBytes
  else (a, 0)

/-- `Acker::update`, with the number of bytes it returns. -/
def update (a : Acker) (seq numBytes : ℤ) : Acker × ℤ :=
  (makeRoom seq (seq + 1 - a.next).toNat.succ { a with isDup := false }).accept seq numBytes

end Acker

/-! ### The packets that have arrived -/

/-- The packets that have arrived, the last one first, with their sizes. -/
abbrev Arrived := List (ℤ × ℤ)

namespace Arrived

/-- The packet has arrived. -/
def Has (h : Arrived) (s : ℤ) : Prop := s ∈ h.map Prod.fst

instance (h : Arrived) (s : ℤ) : Decidable (h.Has s) := inferInstanceAs (Decidable (_ ∈ _))

/-- The packet and all before it have arrived. -/
def Complete (h : Arrived) (s : ℤ) : Prop := ∀ j, 0 ≤ j → j ≤ s → h.Has j

theorem complete_iff (h : Arrived) (s : ℤ) :
    (∀ k ∈ List.range (s + 1).toNat, h.Has k) ↔ h.Complete s := by
  constructor
  · intro hk j hj hjs
    have := hk j.toNat (List.mem_range.mpr (by omega))
    rwa [Int.toNat_of_nonneg hj] at this
  · intro hc k hk
    have := List.mem_range.mp hk
    exact hc k (by omega) (by omega)

instance (h : Arrived) (s : ℤ) : Decidable (h.Complete s) := decidable_of_iff _ (complete_iff h s)

/-- The size of a packet, 0 if it has not arrived: that of the last copy which came when the
packet was not yet complete. -/
def size : Arrived → ℤ → ℤ
  | [], _ => 0
  | (q, n) :: h, s => if q = s ∧ ¬ Complete h s then n else size h s

/-- Packet numbers are not negative and no packet is empty. -/
def Valid (h : Arrived) : Prop := ∀ p ∈ h, 0 ≤ p.1 ∧ 0 < p.2

variable {h : Arrived} {s q n : ℤ}

@[simp] theorem has_cons : Has ((q, n) :: h) s ↔ s = q ∨ h.Has s := by simp [Has]

@[simp] theorem has_nil : ¬ Has [] s := by simp [Has]

theorem Valid.tail {p : ℤ × ℤ} (hv : Valid (p :: h)) : h.Valid :=
  fun e he => hv e (List.mem_cons_of_mem _ he)

theorem Valid.cons (hv : h.Valid) (hs : 0 ≤ s) (hn : 0 < n) : Valid ((s, n) :: h) := by
  rintro p (_ | ⟨_, hp⟩)
  · exact ⟨hs, hn⟩
  · exact hv p hp

theorem Valid.nonneg (hv : h.Valid) (hs : h.Has s) : 0 ≤ s := by
  obtain ⟨p, hp, rfl⟩ := List.mem_map.mp hs
  exact (hv p hp).1

theorem Complete.has (hc : h.Complete s) (hs : 0 ≤ s) : h.Has s :=
  hc s hs le_rfl

theorem Valid.size_pos (hv : h.Valid) (hs : h.Has s) : 0 < h.size s := by
  induction h with
  | nil => exact absurd hs has_nil
  | cons p h ih =>
      obtain ⟨q, n⟩ := p
      rw [size]
      split_ifs with hc
      · exact (hv _ List.mem_cons_self).2
      · refine ih hv.tail ((has_cons.mp hs).elim (fun he => ?_) id)
        have hq := hv.nonneg hs
        exact (not_not.mp fun hn => hc ⟨he.symm, hn⟩).has hq

theorem size_eq_zero (hs : ¬ h.Has s) : h.size s = 0 := by
  induction h with
  | nil => rfl
  | cons p h ih =>
      obtain ⟨q, n⟩ := p
      rw [has_cons, not_or] at hs
      rw [size, if_neg fun hc => hs.1 hc.1.symm, ih hs.2]

theorem Valid.size_ne_zero (hv : h.Valid) : h.size s ≠ 0 ↔ h.Has s :=
  ⟨fun hz => not_not.mp fun hs => hz (size_eq_zero hs), fun hs => (hv.size_pos hs).ne'⟩

end Arrived

namespace Acker

variable {a : Acker} {h : Arrived} {seq n i : ℤ}

/-! ### The window -/

/-- What the ring holds of the packets from `next_` on. -/
structure Window (a : Acker) (h : Arrived) : Prop where
  nonneg : 0 ≤ a.next
  below : ∀ i, 0 ≤ i → i < a.next → h.Has i
  top : ∀ i, h.Has i → i ≤ a.maxseen
  low : 0 ≤ a.maxseen
  pow : ∃ k, a.wndmask = 2 ^ k - 1
  wide : 1 < a.wndmask
  room : a.maxseen + 1 - a.next < a.wndmask
  cells : ∀ i, a.next ≤ i → i ≤ a.maxseen + 1 → a.cell i = h.size i

/-- The representation: `next_` is the least packet that has not arrived and `maxseen_` the
greatest that has. -/
structure Rep (a : Acker) (h : Arrived) : Prop extends Window a h where
  least : ¬ h.Has a.next
  hit : h.Has a.maxseen ∨ h = [] ∧ a.maxseen = 0

/-- The positions of a window are in different cells. -/
theorem slot_injOn {l m : ℤ} (hp : ∃ k, a.wndmask = 2 ^ k - 1) (hl : 0 ≤ l)
    (hm : m - l ≤ a.wndmask) : Set.InjOn a.slot (Set.Ico l (m + 1)) := by
  obtain ⟨k, hk⟩ := hp
  have hpos : 0 < 2 ^ k := Nat.two_pow_pos k
  have hinj := Ring.and_injOn (a := l) (b := m + 1) (k := k) hl (by
    have : ((2 ^ k : ℕ) : ℤ) = 2 ^ k := by push_cast; rfl
    omega)
  intro i hi j hj he
  simp only [slot, hk] at he
  exact hinj hi hj he

/-- `resize_buffers` keeps every cell of the window. -/
theorem cell_resizeBuffers {k : ℕ} (hk : a.maxseen + 2 - a.next ≤ 2 ^ k) (hn : 0 ≤ a.next)
    (h₁ : a.next ≤ i) (h₂ : i ≤ a.maxseen + 1) : (a.resizeBuffers (2 ^ k)).cell i = a.cell i := by
  have hinj := Ring.and_injOn (a := a.next) (b := a.maxseen + 2) (k := k) hn (by omega)
  have hrun : ∀ j, a.next ≤ j → j < a.next + (a.maxseen + 2 - a.next).toNat →
      j ∈ Set.Ico a.next (a.maxseen + 2) := fun j h₁ h₂ => ⟨h₁, by omega⟩
  have hf := Ring.fill_apply (c := fun _ => (0 : ℤ)) (f := a.cell) (j := i) hinj hrun
    ⟨h₁, by omega⟩
  rw [if_pos (by omega)] at hf
  exact hf

theorem Window.resizeBuffers (hw : Window a h) :
    Window (a.resizeBuffers ((a.wndmask + 1) * 2)) h := by
  obtain ⟨k, hk⟩ := hw.pow
  have hpos : 0 < 2 ^ k := Nat.two_pow_pos k
  have hcast : ((2 ^ (k + 1) : ℕ) : ℤ) = 2 ^ (k + 1) := by push_cast; rfl
  have hsz : (a.wndmask + 1) * 2 = 2 ^ (k + 1) := by rw [hk, pow_succ]; omega
  have hroom := hw.room
  rw [hsz]
  exact
    { nonneg := hw.nonneg
      below := hw.below
      top := hw.top
      low := hw.low
      pow := ⟨k + 1, rfl⟩
      wide := by
        have := hw.wide
        show 1 < 2 ^ (k + 1) - 1
        omega
      room := by
        show a.maxseen + 1 - a.next < ((2 ^ (k + 1) - 1 : ℕ) : ℤ)
        omega
      cells := fun i h₁ h₂ =>
        (cell_resizeBuffers (by omega) hw.nonneg h₁ h₂).trans (hw.cells i h₁ h₂) }

/-- What the resizing of `update` leaves: room for the packet, and the rest as it was. -/
theorem Window.makeRoom (seq : ℤ) (fuel : ℕ) (hw : Window a h) (hf : seq + 1 - a.next < a.wndmask + fuel) :
    Window (makeRoom seq fuel a) h ∧ (Acker.makeRoom seq fuel a).next = a.next ∧
      (Acker.makeRoom seq fuel a).maxseen = a.maxseen ∧
      (Acker.makeRoom seq fuel a).isDup = a.isDup ∧
      seq + 1 - a.next < (Acker.makeRoom seq fuel a).wndmask := by
  induction fuel generalizing a with
  | zero =>
      rw [Nat.cast_zero, add_zero] at hf
      exact ⟨hw, rfl, rfl, rfl, hf⟩
  | succ fuel ih =>
      rw [Acker.makeRoom]
      split_ifs with hlt
      · refine ih hw.resizeBuffers ?_
        show seq + 1 - a.next < (((a.wndmask + 1) * 2 - 1 : ℕ) : ℤ) + fuel
        omega
      · exact ⟨hw, rfl, rfl, rfl, by omega⟩

/-! ### A packet is recorded -/

/-- Sizes from `next_` on, after one more packet. -/
theorem Window.size_cons (hw : Window a h) (hl : ¬ h.Has a.next) (h₁ : a.next ≤ seq) (i : ℤ) :
    Arrived.size ((seq, n) :: h) i = if i = seq then n else h.size i := by
  have hc : ¬ h.Complete seq := fun hc => hl (hc a.next hw.nonneg h₁)
  rw [Arrived.size]
  by_cases he : i = seq
  · rw [if_pos ⟨he.symm, he ▸ hc⟩, if_pos he]
  · rw [if_neg fun hs => he hs.1.symm, if_neg he]

/-- One cell of the window is written. -/
theorem Window.write {h' : Arrived} (hw : Window a h) (h₁ : a.next ≤ seq) (h₂ : seq ≤ a.maxseen)
    (hhas : ∀ i, h'.Has i ↔ i = seq ∨ h.Has i)
    (hsize : ∀ i, h'.size i = if i = seq then n else h.size i) :
    Window { a with seen := Ring.write a.slot a.seen seq n } h' := by
  have hinj := slot_injOn (m := a.maxseen + 1) hw.pow hw.nonneg hw.room.le
  refine
    { nonneg := hw.nonneg, low := hw.low, pow := hw.pow, wide := hw.wide, room := hw.room
      below := fun i h₁ h₂ => (hhas i).mpr (.inr (hw.below i h₁ h₂))
      top := fun i hi => ((hhas i).mp hi).elim (fun he => he ▸ h₂) (hw.top i)
      cells := fun i (h₃ : a.next ≤ i) (h₄ : i ≤ a.maxseen + 1) => ?_ }
  refine (Ring.write_apply (c := a.seen) hinj (j := i) (show seq ∈ _ from ⟨h₁, by omega⟩)
    ⟨h₃, by omega⟩ n).trans ?_
  rw [hsize, ← hw.cells i h₃ h₄]
  rfl

/-- The window is extended to a packet above it. -/
theorem Window.markHighest (hw : Window a h) (hl : ¬ h.Has a.next) (hgt : a.maxseen < seq)
    (hnext : a.next ≤ a.maxseen + 1) (hroom : seq + 1 - a.next < a.wndmask) :
    Window (a.markHighest seq n) ((seq, n) :: h) := by
  have hinj := slot_injOn (m := seq + 1) hw.pow hw.nonneg hroom.le
  have hin : ∀ i, a.next ≤ i → i ≤ seq + 1 → i ∈ Set.Ico a.next (seq + 1 + 1) :=
    fun i h₁ h₂ => ⟨h₁, by omega⟩
  have hlow := hw.low
  refine
    { nonneg := hw.nonneg, pow := hw.pow, wide := hw.wide, room := hroom
      low := show 0 ≤ seq by omega
      below := fun i h₁ h₂ => Arrived.has_cons.mpr (.inr (hw.below i h₁ h₂))
      top := fun i hi => (Arrived.has_cons.mp hi).elim (fun he => he.le)
        fun hi => (hw.top i hi).trans hgt.le
      cells := fun i (h₁ : a.next ≤ i) (h₂ : i ≤ seq + 1) => ?_ }
  refine (Ring.write_apply hinj (hin _ (by omega) le_rfl) (hin i h₁ h₂) 0).trans ?_
  rw [Ring.write_apply hinj (hin _ (by omega) (by omega)) (hin i h₁ h₂),
    Ring.fill_apply hinj (fun k h₁ h₂ => hin k (by omega) (by omega)) (hin i h₁ h₂),
    hw.size_cons hl (by omega)]
  have hout : a.maxseen < i → h.size i = 0 := fun hi =>
    Arrived.size_eq_zero fun hs => absurd (hw.top i hs) (by omega)
  split_ifs with h₃ h₄ h₅ h₆
  · omega
  · exact (hout (by omega)).symm
  · rfl
  · exact (hout (by omega)).symm
  · exact hw.cells i h₁ (by omega)

/-! ### Delivery -/

/-- What is delivered from `next` on. -/
theorem Window.deliver (hw : Window a h) (hv : h.Valid) (fuel : ℕ) {next : ℤ} (h₁ : a.next ≤ next)
    (h₂ : next ≤ a.maxseen + 1) (hf : a.maxseen + 2 - next ≤ fuel) :
    next ≤ (a.deliver fuel next).1 ∧ ¬ h.Has (a.deliver fuel next).1 ∧
      (∀ i, next ≤ i → i < (a.deliver fuel next).1 → h.Has i) ∧
      (a.deliver fuel next).2 = ∑ i ∈ Finset.Ico next (a.deliver fuel next).1, h.size i := by
  induction fuel generalizing next with
  | zero => exact absurd hf (by rw [Nat.cast_zero]; omega)
  | succ fuel ih =>
      have hcell := hw.cells next h₁ h₂
      rw [Acker.deliver]
      split_ifs with hz
      · rw [hcell, hv.size_ne_zero] at hz
        have hle := hw.top next hz
        obtain ⟨ih₁, ih₂, ih₃, ih₄⟩ := @ih (next + 1) (by omega) (by omega)
          (by push_cast at hf; omega)
        refine ⟨by dsimp only; omega, ih₂, fun i h₃ h₄ => ?_, ?_⟩
        · rcases h₃.eq_or_lt with rfl | h₃
          · exact hz
          · exact ih₃ i (by omega) h₄
        · have hnot : next ∉ Finset.Ico (next + 1) (a.deliver fuel (next + 1)).1 := by simp
          show a.cell next + (a.deliver fuel (next + 1)).2 = ∑ i ∈ Finset.Ico next
            (a.deliver fuel (next + 1)).1, h.size i
          rw [ih₄, hcell, ← Finset.insert_Ico_add_one_left_eq_Ico (a := next) (by omega),
            Finset.sum_insert hnot]
      · rw [not_not, hcell] at hz
        refine ⟨le_rfl, fun hs => (hv.size_pos hs).ne' hz, fun i h₃ h₄ => absurd h₄ (by omega), ?_⟩
        rw [Finset.Ico_self, Finset.sum_empty]

/-- `next_` is the least packet that has not arrived, as far as the window tells. -/
theorem Window.next_le (hw : Window a h) : a.next ≤ a.maxseen + 1 := by
  have hlow := hw.low
  by_contra hlt
  have := hw.top (a.maxseen + 1) (hw.below _ (by omega) (by omega))
  omega

theorem Window.record {h' : Arrived} (hw : Window a h) (hv : h'.Valid) (h₁ : a.next ≤ seq)
    (h₂ : seq ≤ a.maxseen) (hhas : ∀ i, h'.Has i ↔ i = seq ∨ h.Has i)
    (hsize : ∀ i, h'.size i = if i = seq then n else h.size i) (hhit : h'.Has a.maxseen) :
    Rep (a.record seq n).1 h' ∧ a.next ≤ (a.record seq n).1.next ∧
      (∀ i, a.next ≤ i → i < (a.record seq n).1.next → (a.record seq n).1.cell i ≠ 0) ∧
      (a.record seq n).2 = ∑ i ∈ Finset.Ico a.next (a.record seq n).1.next, h'.size i := by
  have hw' := hw.write h₁ h₂ hhas hsize
  have hn := hw'.next_le
  rw [Acker.record]
  obtain ⟨b, hb⟩ : ∃ b, b = { a with seen := Ring.write a.slot a.seen seq n } := ⟨_, rfl⟩
  have hnext : b.next = a.next := by rw [hb]
  have hmax : b.maxseen = a.maxseen := by rw [hb]
  rw [← hb] at hw' hn ⊢
  rw [← hmax] at hhit
  rw [← hnext]
  obtain ⟨hle, hleast, hbetween, hsum⟩ := hw'.deliver hv (b.maxseen + 2 - b.next).toNat
    le_rfl hn (by omega)
  have hbelow : ∀ i, 0 ≤ i → i < (b.deliver (b.maxseen + 2 - b.next).toNat b.next).1 → h'.Has i :=
    fun i h₁ h₂ => (lt_or_ge i b.next).elim (hw'.below i h₁) fun h₃ => hbetween i h₃ h₂
  refine ⟨⟨⟨hw'.nonneg.trans hle, hbelow, hw'.top, hw'.low, hw'.pow, hw'.wide, ?_, ?_⟩, hleast,
    .inl hhit⟩, hle, fun i h₁ h₂ => ?_, hsum⟩
  · have := hw'.room
    exact lt_of_le_of_lt (by dsimp only; omega) hw'.room
  · exact fun i h₁ h₂ => hw'.cells i (hle.trans h₁) h₂
  · have hi := hbetween i h₁ h₂
    exact (hw'.cells i h₁ ((hw'.top i hi).trans (by omega))).trans_ne (hv.size_pos hi).ne'

/-! ### `update` -/

theorem Rep.setDup {d : Bool} (hr : Rep a h) : Rep { a with isDup := d } h := { hr with }

/-- A packet that was complete comes again. -/
theorem Rep.again (hr : Rep a h) (hs : h.Has seq) (hc : h.Complete seq) :
    Rep a ((seq, n) :: h) := by
  have hhas : ∀ i, Arrived.Has ((seq, n) :: h) i ↔ h.Has i := fun i =>
    Arrived.has_cons.trans ⟨fun hi => hi.elim (fun he => he ▸ hs) id, .inr⟩
  have hsize : ∀ i, Arrived.size ((seq, n) :: h) i = h.size i := fun i => by
    rw [Arrived.size, if_neg fun he => he.2 (he.1 ▸ hc)]
  refine { hr with below := fun i h₁ h₂ => ?_, top := fun i hi => ?_, cells := fun i h₁ h₂ => ?_,
                   least := fun hl => ?_, hit := ?_ }
  · exact (hhas i).mpr (hr.below i h₁ h₂)
  · exact hr.top i ((hhas i).mp hi)
  · rw [hsize]
    exact hr.cells i h₁ h₂
  · exact hr.least ((hhas _).mp hl)
  · refine .inl ((hhas _).mpr (hr.hit.resolve_right fun h₀ => ?_))
    rw [h₀.1] at hs
    exact Arrived.has_nil hs

theorem Rep.complete (hr : Rep a h) (h₁ : i < a.next) : h.Complete i :=
  fun j hj hji => hr.below j hj (by omega)

/-- What a packet does to an `Acker`, of which `b` is the result and `r` what is delivered. -/
structure Updates (a : Acker) (h : Arrived) (seq n : ℤ) (b : Acker) (r : ℤ) : Prop where
  rep : Rep b ((seq, n) :: h)
  hit : Arrived.Has ((seq, n) :: h) b.maxseen
  dup : b.isDup = true ↔ h.Has seq
  next : a.next ≤ b.next
  room : b.maxseen + 1 - a.next < b.wndmask
  kept : ∀ i, a.next ≤ i → i < b.next → b.cell i ≠ 0
  delivered : r = ∑ i ∈ Finset.Ico a.next b.next, Arrived.size ((seq, n) :: h) i

/-- A packet that is recorded. -/
theorem Window.updates {h' : Arrived} (hw : Window a h') (hv : Arrived.Valid ((seq, n) :: h))
    (h₁ : a.next ≤ seq) (h₂ : seq ≤ a.maxseen) (hd : a.isDup = true ↔ h.Has seq)
    (hhas : ∀ i, Arrived.Has ((seq, n) :: h) i ↔ i = seq ∨ h'.Has i)
    (hsize : ∀ i, Arrived.size ((seq, n) :: h) i = if i = seq then n else h'.size i)
    (hhit : Arrived.Has ((seq, n) :: h) a.maxseen) :
    Updates a h seq n (a.record seq n).1 (a.record seq n).2 := by
  obtain ⟨hrep, hle, hkept, hsum⟩ := hw.record hv h₁ h₂ hhas hsize hhit
  exact ⟨hrep, hrep.hit.resolve_right fun hn => List.cons_ne_nil _ _ hn.1, hd, hle, hw.room, hkept,
    hsum⟩

theorem Rep.accept (hr : Rep a h) (hd : a.isDup = false) (hroom : seq + 1 - a.next < a.wndmask)
    (hv : Arrived.Valid ((seq, n) :: h)) :
    Updates a h seq n (a.accept seq n).1 (a.accept seq n).2 := by
  have hn := hr.next_le
  have hseq : Arrived.Has ((seq, n) :: h) seq := Arrived.has_cons.mpr (.inl rfl)
  rw [Acker.accept]
  by_cases hgt : seq > a.maxseen
  · have hle : a.next ≤ seq := by omega
    have hnot : ¬ h.Has seq := fun hs => absurd (hr.top seq hs) (by omega)
    have hw := hr.toWindow.markHighest (n := n) hr.least hgt hn hroom
    rw [if_pos hgt, if_neg (show ¬ seq < (a.markHighest seq n).next from not_lt.mpr hle),
      if_pos ⟨hle, le_rfl⟩, if_neg (fun hc => hc.2 hgt)]
    have hu := hw.updates hv hle le_rfl (h := h) (show a.isDup = true ↔ h.Has seq by simp [hd, hnot])
      (fun i => ?_) (fun i => ?_) hseq
    · exact ⟨hu.rep, hu.hit, hu.dup, hu.next, hu.room, hu.kept, hu.delivered⟩
    · rw [Arrived.has_cons, ← or_assoc, or_self]
    · rw [hr.size_cons hr.least hle]
      split_ifs <;> rfl
  · rw [if_neg hgt]
    by_cases hlt : seq < a.next
    · rw [if_pos hlt, if_neg fun hc => absurd hc.1 (by dsimp only; omega)]
      have hs : h.Has seq := hr.below seq (hv _ List.mem_cons_self).1 hlt
      have hr' := hr.setDup (d := true) |>.again (n := n) hs (hr.complete hlt)
      exact ⟨hr', hr'.hit.resolve_right fun hn => List.cons_ne_nil _ _ hn.1, by simp [hs], le_rfl,
        hr.room, fun i h₁ h₂ => absurd h₂ (not_lt.mpr h₁), by simp⟩
    · have hle : a.next ≤ seq := not_lt.mp hlt
      rw [if_neg hlt, if_pos ⟨hle, not_lt.mp hgt⟩]
      have hcell : a.cell seq ≠ 0 ↔ h.Has seq := by
        rw [hr.cells seq hle (by omega), hv.tail.size_ne_zero]
      have hhit : Arrived.Has ((seq, n) :: h) a.maxseen := by
        refine Arrived.has_cons.mpr (hr.hit.elim .inr fun h₀ => .inl ?_)
        have := hr.nonneg
        omega
      by_cases hs : h.Has seq
      · rw [if_pos ⟨hcell.mpr hs, hgt⟩]
        have hu := (hr.setDup (d := true)).toWindow.updates hv hle (not_lt.mp hgt) (by simp [hs])
          (fun i => Arrived.has_cons) (hr.size_cons hr.least hle) hhit
        exact ⟨hu.rep, hu.hit, hu.dup, hu.next, hu.room, hu.kept, hu.delivered⟩
      · rw [if_neg fun hc => hs (hcell.mp hc.1)]
        exact hr.toWindow.updates hv hle (not_lt.mp hgt) (by simp [hd, hs])
          (fun i => Arrived.has_cons) (hr.size_cons hr.least hle) hhit

/-- **`update`.** -/
theorem Rep.update (hr : Rep a h) (hv : Arrived.Valid ((seq, n) :: h)) :
    Updates a h seq n (a.update seq n).1 (a.update seq n).2 := by
  have hr₀ : Rep { a with isDup := false } h := hr.setDup
  obtain ⟨hw, hnext, hmax, hdup, hroom⟩ := hr₀.toWindow.makeRoom seq
    (seq + 1 - a.next).toNat.succ (by push_cast; omega)
  rw [Acker.update]
  generalize makeRoom seq (seq + 1 - a.next).toNat.succ { a with isDup := false } = b at *
  have hb : Rep b h := ⟨hw, by rw [hnext]; exact hr.least, by rw [hmax]; exact hr.hit⟩
  have hu := hb.accept hdup (by rw [hnext]; exact hroom) hv
  exact ⟨hu.rep, hu.hit, hu.dup, hnext ▸ hu.next, hnext ▸ hu.room, hnext ▸ hu.kept,
    hnext ▸ hu.delivered⟩

/-! ### Runs -/

/-- What happens to an `Acker`. -/
inductive Op where
  | packet (seq numBytes : ℤ)
  | reset

/-- The packets since the last `reset`; the operations are listed from the last one back. -/
def arrived : List Op → Arrived
  | [] => []
  | .packet seq n :: ops => (seq, n) :: arrived ops
  | .reset :: _ => []

/-- The `Acker` after the operations. -/
def after : List Op → Acker
  | [] => init
  | .packet seq n :: ops => ((after ops).update seq n).1
  | .reset :: ops => (after ops).reset

/-- The sum of what `update` has returned since the last `reset`. -/
def returned : List Op → ℤ
  | [] => 0
  | .packet seq n :: ops => returned ops + ((after ops).update seq n).2
  | .reset :: _ => 0

theorem rep_init : Rep init [] where
  nonneg := le_rfl
  below := fun i h₁ h₂ => absurd h₁ (not_le.mpr h₂)
  top := fun i hi => absurd hi Arrived.has_nil
  low := le_rfl
  pow := ⟨6, rfl⟩
  wide := by decide
  room := by decide
  cells := fun i _ _ => rfl
  least := Arrived.has_nil
  hit := .inr ⟨rfl, rfl⟩

theorem Rep.reset (hr : Rep a h) : Rep a.reset [] where
  nonneg := le_rfl
  below := fun i h₁ h₂ => absurd h₁ (not_le.mpr h₂)
  top := fun i hi => absurd hi Arrived.has_nil
  low := le_rfl
  pow := hr.pow
  wide := hr.wide
  room := by
    have := hr.wide
    show (0 : ℤ) + 1 - 0 < a.wndmask
    omega
  cells := fun i _ _ => rfl
  least := Arrived.has_nil
  hit := .inr ⟨rfl, rfl⟩

/-- The packets of the operations are valid. -/
def ValidOps (ops : List Op) : Prop := ∀ seq n, Op.packet seq n ∈ ops → 0 ≤ seq ∧ 0 < n

theorem ValidOps.tail {o : Op} {ops : List Op} (hv : ValidOps (o :: ops)) : ValidOps ops :=
  fun seq n hm => hv seq n (List.mem_cons_of_mem _ hm)

theorem ValidOps.arrived {ops : List Op} (hv : ValidOps ops) : (arrived ops).Valid := by
  induction ops with
  | nil => exact fun p hp => absurd hp (List.not_mem_nil)
  | cons o ops ih =>
      cases o with
      | packet seq n =>
          obtain ⟨h₁, h₂⟩ := hv seq n List.mem_cons_self
          exact (ih hv.tail).cons h₁ h₂
      | reset => exact fun p hp => absurd hp (List.not_mem_nil)

end Acker

end Afabric
