import Afabric.Tcp.Acker

/-!
# Tcp — the SACK blocks of a one-way receiver

`Sacker` (`tcp/tcp-sink.h`, `tcp/tcp-sink.cc`) is an `Acker` with a stack of the blocks it has
reported.  `append_ack` writes the blocks of an ACK: a DSACK block for a duplicate, the block
that holds the packet at hand, and then the blocks of the stack that the new one does not cover.

A *run* is a maximal set of consecutive packets that have arrived.  What is kept between packets
is `Clean`: the stack holds distinct runs above `next_`.  With a DSACK block there is room for one
block of the stack less.  The stack is then read only in part, and a run that stays on it unread
is put on it once more (`Reread`, `run_reported_twice`); `sack_blocks` is the result for the runs
in which that does not happen.
-/

namespace Afabric

/-- The entries of the blocks of an ACK: the DSACK block, and the others in their order. -/
structure SackArea where
  dsack : Option (ℤ × ℤ)
  blocks : List (ℤ × ℤ)
deriving DecidableEq, Repr

/-- `sa_length()`. -/
def SackArea.length (s : SackArea) : ℕ := s.dsack.toList.length + s.blocks.length

/-- `Sacker`: `base_nblocks_`, `*dsacks_` and the entries of `*sf_` that are in use, the head
first. -/
structure Sacker extends Acker where
  baseNblocks : ℕ
  dsacks : Bool
  sf : List (ℤ × ℤ)

namespace Sacker

/-- `NSA`. -/
def nsa : ℕ := 3

/-- `Sacker::configure`. -/
def configure (nblocks : ℕ) (dsacks : Bool) : Sacker where
  toAcker := .init
  baseNblocks := min nblocks nsa
  dsacks := dsacks
  sf := []

/-- `SackStack::push` and the assignment to the head: the last entry of a full stack is lost. -/
def push (size : ℕ) (b : ℤ × ℤ) (sf : List (ℤ × ℤ)) : List (ℤ × ℤ) := b :: sf.take (size - 1)

/-- The loop that looks rightward for the first hole; without one it is `maxseen_ + 1`. -/
def firstHole (a : Acker) : ℕ → ℤ → ℤ
  | 0, _ => a.maxseen + 1
  | n + 1, i => if a.cell i = 0 then i else firstHole a n (i + 1)

/-- The loop that looks leftward for the left edge. -/
def leftEdge (a : Acker) : ℕ → ℤ → ℤ
  | 0, _ => -1
  | n + 1, i => if a.cell i = 0 then i + 1 else leftEdge a n (i - 1)

/-- The new block covers an older one. -/
def Covers (recent b : ℤ × ℤ) : Prop := recent.1 ≤ b.1 ∧ recent.2 ≥ b.2

instance (recent b : ℤ × ℤ) : Decidable (Covers recent b) := inferInstanceAs (Decidable (_ ∧ _))

/-- The loop over the stack, with room for `n` blocks: the blocks it writes, and the stack it
leaves. -/
def older (maxseen : ℤ) (recent : ℤ × ℤ) :
    ℕ → List (ℤ × ℤ) → List (ℤ × ℤ) × List (ℤ × ℤ)
  | 0, sf => ([], sf)
  | _ + 1, [] => ([], [])
  | n + 1, b :: sf =>
      if b.1 < 0 ∨ b.2 < 0 ∨ b.2 > maxseen + 1 then ([], b :: sf)
      else if Covers recent b then older maxseen recent (n + 1) sf
      else
        let r := older maxseen recent n sf
        (b :: r.1, b :: r.2)

/-- The first block, `recent_sack_left` and `recent_sack_right`. -/
def recentSack (s : Sacker) (oldSeqno : ℤ) : ℤ × ℤ :=
  let sackRight := firstHole s.toAcker (s.maxseen + 1 - oldSeqno).toNat oldSeqno
  if oldSeqno ≤ s.next - 1 then (0, sackRight)
  else (leftEdge s.toAcker (sackRight - 1 - (s.next - 1)).toNat (sackRight - 1), sackRight)

/-- `append_ack` once the DSACK block is written: the first block and the older ones. -/
def appendBlocks (s : Sacker) (oldSeqno : ℤ) (dsack : Option (ℤ × ℤ)) : Sacker × SackArea :=
  let sackIndex := dsack.toList.length
  if sackIndex ≥ s.baseNblocks then (s, ⟨dsack, []⟩)
  else
    let recent := s.recentSack oldSeqno
    let first := if oldSeqno ≤ s.next - 1 then [] else [recent]
    let r := older s.maxseen recent (s.baseNblocks - (sackIndex + first.length)) s.sf
    let sf := if oldSeqno > s.next - 1 then push s.baseNblocks recent r.2 else r.2
    ({ s with sf }, ⟨dsack, first ++ r.1⟩)

/-- `Sacker::append_ack`. -/
def appendAck (s : Sacker) (oldSeqno : ℤ) : Sacker × SackArea :=
  if oldSeqno < 0 then (s, ⟨none, []⟩)
  else if s.next - 1 ≥ s.maxseen ∧ s.sf.length ≠ 0 then ({ s with sf := [] }, ⟨none, []⟩)
  else if (s.next - 1 < s.maxseen ∨ s.isDup = true) ∧ s.baseNblocks > 0 then
    s.appendBlocks oldSeqno
      (if s.dsacks = true ∧ s.isDup = true then some (oldSeqno, oldSeqno + 1) else none)
  else (s, ⟨none, []⟩)

/-- `Acker::update`, by which a `Sacker` takes a packet. -/
def update (s : Sacker) (seq numBytes : ℤ) : Sacker :=
  { s with toAcker := (s.toAcker.update seq numBytes).1 }

end Sacker

/-! ### Runs of packets -/

/-- `b` is a maximal set of consecutive packets that have arrived. -/
structure Arrived.IsRun (h : Arrived) (b : ℤ × ℤ) : Prop where
  lt : b.1 < b.2
  has : ∀ i, b.1 ≤ i → i < b.2 → h.Has i
  left : ¬ h.Has (b.1 - 1)
  right : ¬ h.Has b.2

namespace Arrived

variable {h h' : Arrived} {b c : ℤ × ℤ} {i seq n : ℤ}

/-- Two runs that share a packet are one. -/
theorem IsRun.eq_of_mem (hb : h.IsRun b) (hc : h.IsRun c) (h₁ : b.1 ≤ i) (h₂ : i < b.2)
    (h₃ : c.1 ≤ i) (h₄ : i < c.2) : b = c := by
  have hl : b.1 = c.1 := by
    rcases lt_trichotomy b.1 c.1 with hlt | he | hlt
    · exact absurd (hb.has (c.1 - 1) (by omega) (by omega)) hc.left
    · exact he
    · exact absurd (hc.has (b.1 - 1) (by omega) (by omega)) hb.left
  have hr : b.2 = c.2 := by
    rcases lt_trichotomy b.2 c.2 with hlt | he | hlt
    · exact absurd (hc.has b.2 (by omega) (by omega)) hb.right
    · exact he
    · exact absurd (hb.has c.2 (by omega) (by omega)) hc.right
  exact Prod.ext hl hr

theorem IsRun.congr (hb : h.IsRun b) (hh : ∀ i, h'.Has i ↔ h.Has i) : h'.IsRun b :=
  ⟨hb.lt, fun i h₁ h₂ => (hh i).mpr (hb.has i h₁ h₂), fun hl => hb.left ((hh _).mp hl),
    fun hr => hb.right ((hh _).mp hr)⟩

/-- A run that the packet does not extend is still one. -/
theorem IsRun.cons (hb : h.IsRun b) (h₁ : seq ≠ b.1 - 1) (h₂ : seq ≠ b.2) :
    Arrived.IsRun ((seq, n) :: h) b where
  lt := hb.lt
  has := fun i h₃ h₄ => has_cons.mpr (.inr (hb.has i h₃ h₄))
  left := fun hl => (has_cons.mp hl).elim (fun he => h₁ he.symm) hb.left
  right := fun hr => (has_cons.mp hr).elim (fun he => h₂ he.symm) hb.right

end Arrived

namespace Sacker

variable {s : Sacker} {h : Arrived} {b recent : ℤ × ℤ} {i j seq n old : ℤ}

/-! ### The two scans -/

theorem firstHole_spec {a : Acker} (hz : a.cell (a.maxseen + 1) = 0) {k : ℕ}
    (hk : i + k = a.maxseen + 1) :
    i ≤ firstHole a k i ∧ firstHole a k i ≤ a.maxseen + 1 ∧ a.cell (firstHole a k i) = 0 ∧
      ∀ j, i ≤ j → j < firstHole a k i → a.cell j ≠ 0 := by
  induction k generalizing i with
  | zero =>
      rw [Nat.cast_zero, add_zero] at hk
      exact ⟨hk.le, le_rfl, hz, fun j h₁ h₂ => absurd h₂ (not_lt.mpr (hk ▸ h₁))⟩
  | succ k ih =>
      rw [firstHole]
      split_ifs with hc
      · exact ⟨le_rfl, by push_cast at hk; omega, hc, fun j h₁ h₂ => absurd h₂ (not_lt.mpr h₁)⟩
      · obtain ⟨ih₁, ih₂, ih₃, ih₄⟩ := ih (i := i + 1) (by push_cast at hk; omega)
        refine ⟨by omega, ih₂, ih₃, fun j h₁ h₂ => ?_⟩
        rcases h₁.eq_or_lt with rfl | h₁
        · exact hc
        · exact ih₄ j h₁ h₂

theorem leftEdge_spec {a : Acker} {lo : ℤ} (hz : a.cell lo = 0) {k : ℕ} (hk : i + 1 = lo + k)
    (hpos : 0 < k) :
    lo < leftEdge a k i ∧ leftEdge a k i ≤ i + 1 ∧ a.cell (leftEdge a k i - 1) = 0 ∧
      ∀ j, leftEdge a k i ≤ j → j ≤ i → a.cell j ≠ 0 := by
  induction k generalizing i with
  | zero => exact absurd hpos (lt_irrefl 0)
  | succ k ih =>
      push_cast at hk
      rw [leftEdge]
      split_ifs with hc
      · refine ⟨by omega, le_rfl, ?_, fun j h₁ h₂ => absurd h₂ (by omega)⟩
        rwa [add_sub_cancel_right]
      · have hk₀ : 0 < k := by
          rw [Nat.pos_iff_ne_zero]
          rintro rfl
          exact hc (by rwa [show i = lo by push_cast at hk; omega])
        obtain ⟨ih₁, ih₂, ih₃, ih₄⟩ := ih (i := i - 1) (by omega) hk₀
        refine ⟨ih₁, by omega, ih₃, fun j h₁ h₂ => ?_⟩
        rcases h₂.eq_or_lt with rfl | h₂
        · exact hc
        · exact ih₄ j h₁ (by omega)

/-- `maxseen_ + 1` is a hole. -/
theorem cell_top (hr : Acker.Rep s.toAcker h) : s.cell (s.maxseen + 1) = 0 := by
  have hn := hr.next_le
  rw [hr.cells _ hn le_rfl]
  exact Arrived.size_eq_zero fun ht => absurd (hr.top _ ht) (by omega)

/-- Above the cumulative ACK the first block is the run of the packet. -/
theorem recentSack_run (hr : Acker.Rep s.toAcker h) (hv : h.Valid) (hgt : s.next - 1 < old)
    (hh : h.Has old) : h.IsRun (s.recentSack old) ∧ s.next < (s.recentSack old).1 ∧
      (s.recentSack old).1 ≤ old ∧ old < (s.recentSack old).2 := by
  have hle := hr.top old hh
  have hnext : s.next ≠ old := fun he => hr.least (he ▸ hh)
  have hcell : ∀ i, s.next ≤ i → i ≤ s.maxseen + 1 → (s.cell i ≠ 0 ↔ h.Has i) := fun i h₁ h₂ => by
    rw [hr.cells i h₁ h₂, hv.size_ne_zero]
  have hzero : ∀ i, s.next ≤ i → i ≤ s.maxseen + 1 → s.cell i = 0 → ¬ h.Has i :=
    fun i h₁ h₂ hz hi => (hcell i h₁ h₂).mpr hi hz
  obtain ⟨hr₁, hr₂, hr₃, hr₄⟩ := firstHole_spec (cell_top hr) (i := old)
    (k := (s.maxseen + 1 - old).toNat) (by omega)
  have hlow : s.cell s.next = 0 := by
    rw [hr.cells _ le_rfl hr.next_le]
    exact Arrived.size_eq_zero hr.least
  have hold : old ≠ firstHole s.toAcker (s.maxseen + 1 - old).toNat old := fun he =>
    hzero _ (by omega) (by omega) hr₃ (he ▸ hh)
  rw [recentSack, if_neg (by omega)]
  generalize firstHole s.toAcker (s.maxseen + 1 - old).toNat old = r at *
  obtain ⟨hl₁, hl₂, hl₃, hl₄⟩ := leftEdge_spec (a := s.toAcker) hlow (i := r - 1)
    (k := (r - 1 - (s.next - 1)).toNat) (by omega) (by omega)
  generalize leftEdge s.toAcker (r - 1 - (s.next - 1)).toNat (r - 1) = l at *
  have hlo : l ≤ old := not_lt.mp fun hlt => hr₄ (l - 1) (by omega) (by omega) hl₃
  exact ⟨⟨by dsimp only; omega, fun i h₁ h₂ => (hcell i (by dsimp only at *; omega)
    (by dsimp only at *; omega)).mp (hl₄ i h₁ (by dsimp only at *; omega)),
    hzero _ (by dsimp only; omega) (by dsimp only; omega) hl₃, hzero _ (by omega) hr₂ hr₃⟩,
    hl₁, hlo, by dsimp only; omega⟩

/-- At or below the cumulative ACK the recent block ends at `next_` or before. -/
theorem recentSack_low (hr : Acker.Rep s.toAcker h) (hle : old ≤ s.next - 1) :
    (s.recentSack old).1 = 0 ∧ (s.recentSack old).2 ≤ s.next ∧
      ((∀ i, old ≤ i → i < s.next → s.cell i ≠ 0) → (s.recentSack old).2 = s.next) := by
  have hn := hr.next_le
  obtain ⟨hr₁, hr₂, hr₃, hr₄⟩ := firstHole_spec (cell_top hr) (i := old)
    (k := (s.maxseen + 1 - old).toNat) (by omega)
  have hlow : s.cell s.next = 0 := by
    rw [hr.cells _ le_rfl hn]
    exact Arrived.size_eq_zero hr.least
  rw [recentSack, if_pos hle]
  generalize firstHole s.toAcker (s.maxseen + 1 - old).toNat old = r at *
  have hle : r ≤ s.next := not_lt.mp fun hlt => hr₄ s.next (by omega) hlt hlow
  exact ⟨rfl, hle, fun hall => le_antisymm hle (not_lt.mp fun hlt => hall r hr₁ hlt hr₃)⟩

/-! ### The loop over the stack -/

/-- The part of the stack that the loop has read is left without what the new block covers, and
is written. -/
theorem older_spec (recent : ℤ × ℤ) {maxseen : ℤ} {k : ℕ} {sf : List (ℤ × ℤ)}
    (hok : ∀ b ∈ sf, 0 ≤ b.1 ∧ 0 ≤ b.2 ∧ b.2 ≤ maxseen + 1) :
    ∃ pre rest, sf = pre ++ rest ∧
      (older maxseen recent k sf).1 = pre.filter (fun b => ¬ Covers recent b) ∧
      (older maxseen recent k sf).2 = (older maxseen recent k sf).1 ++ rest ∧
      (older maxseen recent k sf).1.length ≤ k ∧
      (rest = [] ∨ (older maxseen recent k sf).1.length = k) := by
  induction sf generalizing k with
  | nil =>
      refine ⟨[], [], rfl, ?_⟩
      cases k <;> simp [older]
  | cons b sf ih =>
      cases k with
      | zero => exact ⟨[], b :: sf, by simp [older]⟩
      | succ k =>
          obtain ⟨h₁, h₂, h₃⟩ := hok b List.mem_cons_self
          have hok' : ∀ c ∈ sf, 0 ≤ c.1 ∧ 0 ≤ c.2 ∧ c.2 ≤ maxseen + 1 :=
            fun c hc => hok c (List.mem_cons_of_mem _ hc)
          rw [older, if_neg (by omega)]
          split_ifs with hc
          · obtain ⟨pre, rest, hsf, hw, hl, hk⟩ := ih (k := k + 1) hok'
            exact ⟨b :: pre, rest, by rw [hsf, List.cons_append], by simp [hw, hc], hl, hk⟩
          · obtain ⟨pre, rest, hsf, hw, hl, hlen, hk⟩ := ih (k := k) hok'
            refine ⟨b :: pre, rest, by rw [hsf, List.cons_append], by simp [hw, hc], ?_, ?_, ?_⟩
            · dsimp only
              rw [hl, List.cons_append]
            · simpa using hlen
            · simpa using hk

/-! ### What is kept between packets -/

/-- The stack holds distinct runs above `next_`. -/
structure Clean (s : Sacker) (h : Arrived) : Prop where
  rep : Acker.Rep s.toAcker h
  valid : h.Valid
  runs : ∀ b ∈ s.sf, h.IsRun b ∧ s.next < b.1
  nodup : s.sf.Nodup
  short : s.sf.length ≤ s.baseNblocks

/-- The blocks of an ACK are truthful: distinct runs above `next_`, the first one that of the
packet if the packet lies above the cumulative ACK, and not too many. -/
structure Truthful (s : Sacker) (h : Arrived) (old : ℤ) (area : SackArea) : Prop where
  runs : ∀ b ∈ area.blocks, h.IsRun b ∧ s.next < b.1
  first : s.next - 1 < old → ∀ b, area.blocks.head? = some b → b.1 ≤ old ∧ old < b.2
  nodup : area.blocks.Nodup
  length : area.length ≤ s.baseNblocks

/-- The block that holds a duplicate stands on the stack where the loop no longer reads it. -/
def Reread (s : Sacker) (h : Arrived) (old : ℤ) : Prop :=
  s.dsacks = true ∧ h.Has old ∧ s.next ≤ old ∧
    ∃ b, 2 ≤ s.baseNblocks ∧ s.sf[s.baseNblocks - 2]? = some b ∧ b.1 ≤ old ∧ old < b.2

theorem Clean.ok (hc : Clean s h) : ∀ b ∈ s.sf, 0 ≤ b.1 ∧ 0 ≤ b.2 ∧ b.2 ≤ s.maxseen + 1 := by
  intro b hb
  obtain ⟨hrun, habove⟩ := hc.runs b hb
  have hn := hc.rep.nonneg
  have hlt := hrun.lt
  have := hc.rep.top (b.2 - 1) (hrun.has _ (by omega) (by omega))
  omega

/-! ### `append_ack` -/

/-- What `append_ack` needs of the stack: what the recent block does not cover is a run. -/
structure Ready (s : Sacker) (h : Arrived) (recent : ℤ × ℤ) : Prop where
  rep : Acker.Rep s.toAcker h
  valid : h.Valid
  ok : ∀ b ∈ s.sf, 0 ≤ b.1 ∧ 0 ≤ b.2 ∧ b.2 ≤ s.maxseen + 1
  runs : ∀ b ∈ s.sf, ¬ Covers recent b → h.IsRun b ∧ s.next < b.1
  nodup : s.sf.Nodup
  short : s.sf.length ≤ s.baseNblocks

/-- The blocks that the loop writes. -/
theorem Ready.written (hy : Ready s h recent) (k : ℕ) :
    (∀ b ∈ (older s.maxseen recent k s.sf).1, (h.IsRun b ∧ s.next < b.1) ∧ ¬ Covers recent b) ∧
      (older s.maxseen recent k s.sf).1.Nodup ∧ (older s.maxseen recent k s.sf).1.length ≤ k := by
  obtain ⟨pre, rest, hsf, hw, -, hlen, -⟩ := older_spec recent (k := k) hy.ok
  refine ⟨fun b hb => ?_, ?_, hlen⟩
  · rw [hw, List.mem_filter, decide_eq_true_eq] at hb
    exact ⟨hy.runs b (by rw [hsf]; exact List.mem_append_left _ hb.1) hb.2, hb.2⟩
  · rw [hw]
    have hnd := hy.nodup
    rw [hsf] at hnd
    exact hnd.of_append_left.filter _

/-- The stack that the loop leaves is a part of the old one. -/
theorem Ready.left (hy : Ready s h recent) (k : ℕ) :
    (older s.maxseen recent k s.sf).2.Sublist s.sf := by
  obtain ⟨pre, rest, hsf, hw, hl, -, -⟩ := older_spec recent (k := k) hy.ok
  rw [hl, hw, hsf]
  exact List.filter_sublist.append_right rest

theorem covers_self : Covers recent recent := ⟨le_rfl, le_rfl⟩

/-- Of the entries the loop leaves, those within its budget are written. -/
theorem Ready.mem_written (hy : Ready s h recent) {k : ℕ}
    (hb : b ∈ (older s.maxseen recent k s.sf).2.take k) :
    b ∈ (older s.maxseen recent k s.sf).1 := by
  obtain ⟨pre, rest, -, -, hl, -, hrest | hk⟩ := older_spec recent (k := k) hy.ok
  · rw [hl, hrest, List.append_nil] at hb
    exact List.mem_of_mem_take hb
  · rwa [hl, List.take_append_of_le_length hk.ge, List.take_of_length_le hk.le] at hb

/-- A stack that fits the budget is read to its end. -/
theorem Ready.left_eq (hy : Ready s h recent) {k : ℕ} (hk : s.sf.length ≤ k) :
    (older s.maxseen recent k s.sf).2 = (older s.maxseen recent k s.sf).1 := by
  obtain ⟨pre, rest, hsf, hw, hl, -, hrest⟩ := older_spec recent (k := k) hy.ok
  have hlen : (older s.maxseen recent k s.sf).1.length ≤ pre.length := by
    rw [hw]
    exact List.length_filter_le _ _
  rw [hsf, List.length_append] at hk
  have hnil : rest = [] := by
    rcases hrest with hnil | hfull
    · exact hnil
    · exact List.length_eq_zero_iff.mp (by omega)
  rw [hl, hnil, List.append_nil]

/-- A packet above the cumulative ACK, when none of the entries that stay is covered. -/
theorem Ready.above (dsack : Option (ℤ × ℤ)) (hy : Ready s h (s.recentSack old))
    (hrun : h.IsRun (s.recentSack old) ∧ s.next < (s.recentSack old).1 ∧
      (s.recentSack old).1 ≤ old ∧ old < (s.recentSack old).2)
    (hgt : s.next - 1 < old) (hlt : dsack.toList.length < s.baseNblocks) :
    ((∀ b ∈ (older s.maxseen (s.recentSack old)
      (s.baseNblocks - (dsack.toList.length + 1)) s.sf).2.take (s.baseNblocks - 1),
        ¬ Covers (s.recentSack old) b) → Clean (s.appendBlocks old dsack).1 h) ∧
    Truthful s h old (s.appendBlocks old dsack).2 := by
  rw [appendBlocks, if_neg (by omega)]
  simp only [if_neg (not_le.mpr hgt), if_pos hgt, List.length_singleton]
  obtain ⟨hruns, hnd, hlen⟩ := hy.written (s.baseNblocks - (dsack.toList.length + 1))
  have hsub := hy.left (s.baseNblocks - (dsack.toList.length + 1))
  generalize older s.maxseen (s.recentSack old)
    (s.baseNblocks - (dsack.toList.length + 1)) s.sf = r at *
  have htake := (List.take_sublist (s.baseNblocks - 1) r.2).trans hsub
  refine ⟨fun hstay => ⟨hy.rep, hy.valid, fun b hb => ?_, ?_, ?_⟩, ?_, ?_, ?_, ?_⟩
  · rcases List.mem_cons.mp hb with rfl | hb
    · exact ⟨hrun.1, hrun.2.1⟩
    · exact hy.runs b (htake.subset hb) (hstay b hb)
  · exact List.nodup_cons.mpr ⟨fun hm => hstay _ hm covers_self, htake.nodup hy.nodup⟩
  · simp only [push, List.length_cons, List.length_take]
    omega
  · intro b hb
    rcases List.mem_cons.mp hb with rfl | hb
    · exact ⟨hrun.1, hrun.2.1⟩
    · exact (hruns b hb).1
  · rintro - b hb
    obtain rfl : s.recentSack old = b := Option.some_inj.mp hb
    exact hrun.2.2
  · exact List.nodup_cons.mpr ⟨fun hm => (hruns _ hm).2 covers_self, hnd⟩
  · simp only [SackArea.length, List.length_append, List.length_singleton]
    omega

/-- A packet at or below the cumulative ACK. -/
theorem Ready.below (dsack : Option (ℤ × ℤ)) (hy : Ready s h (s.recentSack old))
    (hle : old ≤ s.next - 1) (hlt : dsack.toList.length < s.baseNblocks)
    (hstay : ∀ b ∈ (older s.maxseen (s.recentSack old)
      (s.baseNblocks - dsack.toList.length) s.sf).2, h.IsRun b ∧ s.next < b.1) :
    Clean (s.appendBlocks old dsack).1 h ∧ Truthful s h old (s.appendBlocks old dsack).2 := by
  rw [appendBlocks, if_neg (by omega)]
  simp only [if_pos hle, if_neg (not_lt.mpr hle), List.length_nil, Nat.add_zero, List.nil_append]
  obtain ⟨hruns, hnd, hlen⟩ := hy.written (s.baseNblocks - dsack.toList.length)
  have hsub := hy.left (s.baseNblocks - dsack.toList.length)
  generalize older s.maxseen (s.recentSack old) (s.baseNblocks - dsack.toList.length) s.sf = r at *
  refine ⟨⟨hy.rep, hy.valid, hstay, hsub.nodup hy.nodup, hsub.length_le.trans hy.short⟩,
    fun b hb => (hruns b hb).1, fun hgt => absurd hgt (not_lt.mpr hle), hnd, ?_⟩
  rw [SackArea.length]
  dsimp only
  omega

/-! ### A packet -/

/-- A new packet above the cumulative ACK leaves it where it was. -/
theorem next_eq {a b : Acker} {r : ℤ} (hr : Acker.Rep a h) (hu : Acker.Updates a h seq n b r)
    (hle : b.next ≤ seq) : b.next = a.next := by
  refine le_antisymm (not_lt.mp fun hlt => ?_) hu.next
  have hs : Arrived.Has ((seq, n) :: h) a.next := hu.rep.below _ hr.nonneg hlt
  exact (Arrived.has_cons.mp hs).elim (fun he => absurd hle (by omega)) hr.least

/-- What a new packet leaves of the stack to `append_ack`. -/
theorem Clean.ready_new (hc : Clean s h) (hv : Arrived.Valid ((seq, n) :: h)) (hnew : ¬ h.Has seq) :
    Ready (s.update seq n) ((seq, n) :: h) ((s.update seq n).recentSack seq) := by
  have hu := hc.rep.update hv
  have hr : Acker.Rep (s.update seq n).toAcker ((seq, n) :: h) := hu.rep
  have hseq : Arrived.Has ((seq, n) :: h) seq := Arrived.has_cons.mpr (.inl rfl)
  have hhas : ∀ b ∈ s.sf, ∀ i, b.1 ≤ i → i < b.2 → Arrived.Has ((seq, n) :: h) i :=
    fun b hb i h₁ h₂ => Arrived.has_cons.mpr (.inr ((hc.runs b hb).1.has i h₁ h₂))
  refine ⟨hr, hv, fun b hb => ?_, fun b hb hcov => ?_, hc.nodup, hc.short⟩
  · obtain ⟨h₁, h₂, -⟩ := hc.ok b hb
    have hlt := (hc.runs b hb).1.lt
    have := hr.top (b.2 - 1) (hhas b hb _ (by omega) (by omega))
    exact ⟨h₁, h₂, by omega⟩
  · obtain ⟨hrun, habove⟩ := hc.runs b hb
    have hlt := hrun.lt
    rcases lt_or_ge ((s.update seq n).next - 1) seq with hgt | hle
    · obtain ⟨hR, -, hR₁, hR₂⟩ := recentSack_run hr hv hgt hseq
      generalize (s.update seq n).recentSack seq = R at *
      have hl : seq ≠ b.1 - 1 := by
        rintro rfl
        refine hcov ⟨by omega, not_lt.mp fun hlt₂ => hR.right (hhas b hb _ ?_ hlt₂)⟩
        omega
      have hr' : seq ≠ b.2 := by
        rintro rfl
        refine hcov ⟨not_lt.mp fun hlt₂ => hR.left (hhas b hb _ ?_ ?_), hR₂.le⟩ <;> omega
      refine ⟨hrun.cons hl hr', ?_⟩
      have he : (s.update seq n).next = s.next := next_eq hc.rep hu (Int.le_of_sub_one_lt hgt)
      rwa [he]
    · have hseq₀ : s.next ≤ seq := not_lt.mp fun hlt₂ =>
        hnew (hc.rep.below seq (hv _ List.mem_cons_self).1 hlt₂)
      obtain ⟨hR₁, -, hR₂⟩ := recentSack_low hr hle
      have hR₂ := hR₂ fun i h₁ h₂ => hu.kept i (hseq₀.trans h₁) h₂
      have hlt₂ : (s.update seq n).next < b.2 := not_le.mp fun hle₂ =>
        hcov ⟨hR₁ ▸ (hc.ok b hb).1, hR₂ ▸ hle₂⟩
      have hlow : (s.update seq n).next < b.1 := not_le.mp fun hle₂ =>
        hr.least (hhas b hb _ hle₂ hlt₂)
      exact ⟨hrun.cons (by omega) (by omega), hlow⟩

/-- A duplicate leaves everything as it is. -/
theorem Clean.update_dup (hc : Clean s h) (hv : Arrived.Valid ((seq, n) :: h)) (hdup : h.Has seq) :
    Clean (s.update seq n) ((seq, n) :: h) := by
  have hu := hc.rep.update hv
  have hhas : ∀ i, Arrived.Has ((seq, n) :: h) i ↔ h.Has i := fun i =>
    Arrived.has_cons.trans ⟨fun hi => hi.elim (fun he => he ▸ hdup) id, .inr⟩
  have hnext : (s.update seq n).next = s.next :=
    le_antisymm (not_lt.mp fun hlt => hc.rep.least ((hhas _).mp (hu.rep.below _ hc.rep.nonneg hlt)))
      hu.next
  refine ⟨hu.rep, hv, fun b hb => ?_, hc.nodup, hc.short⟩
  rw [hnext]
  exact ⟨(hc.runs b hb).1.congr hhas, (hc.runs b hb).2⟩

theorem Clean.ready (recent : ℤ × ℤ) (hc : Clean s h) : Ready s h recent :=
  ⟨hc.rep, hc.valid, hc.ok, fun b hb _ => hc.runs b hb, hc.nodup, hc.short⟩

theorem Clean.of_nil (hr : Acker.Rep s.toAcker h) (hv : h.Valid) (hnil : s.sf = []) : Clean s h :=
  ⟨hr, hv, by simp [hnil], by simp [hnil], by simp [hnil]⟩

theorem Truthful.none : Truthful s h old ⟨none, []⟩ :=
  ⟨by simp, by simp, by simp, by simp [SackArea.length]⟩

/-- `append_ack` from its main branch. -/
theorem Ready.appendAck {P : Prop} (dsack : Option (ℤ × ℤ)) (hy : Ready s h recent) (hold : 0 ≤ old)
    (hd : dsack = if s.dsacks = true ∧ s.isDup = true then some (old, old + 1) else Option.none)
    (hmain : 0 < s.baseNblocks → (P → Clean (s.appendBlocks old dsack).1 h) ∧
      Truthful s h old (s.appendBlocks old dsack).2) :
    (P → Clean (s.appendAck old).1 h) ∧ Truthful s h old (s.appendAck old).2 := by
  rw [Sacker.appendAck, if_neg (not_lt.mpr hold)]
  by_cases hreset : s.next - 1 ≥ s.maxseen ∧ s.sf.length ≠ 0
  · rw [if_pos hreset]
    exact ⟨fun _ => .of_nil hy.rep hy.valid rfl, .none⟩
  · rw [if_neg hreset]
    by_cases hsend : (s.next - 1 < s.maxseen ∨ s.isDup = true) ∧ s.baseNblocks > 0
    · rw [if_pos hsend, ← hd]
      exact hmain hsend.2
    · rw [if_neg hsend]
      have hnil : s.sf.length = 0 := by
        have := hy.short
        by_contra hne
        exact hsend ⟨.inl (not_le.mp fun hle => hreset ⟨hle, hne⟩), by omega⟩
      exact ⟨fun _ => .of_nil hy.rep hy.valid (List.length_eq_zero_iff.mp hnil), .none⟩

/-- **A new packet.** -/
theorem Clean.append_new (hc : Clean s h) (hv : Arrived.Valid ((seq, n) :: h))
    (hnew : ¬ h.Has seq) :
    Clean ((s.update seq n).appendAck seq).1 ((seq, n) :: h) ∧
      Truthful (s.update seq n) ((seq, n) :: h) seq ((s.update seq n).appendAck seq).2 := by
  have hy := hc.ready_new hv hnew
  have hdup : ¬ (s.update seq n).isDup = true := fun hd => hnew ((hc.rep.update hv).dup.mp hd)
  have hseq : Arrived.Has ((seq, n) :: h) seq := Arrived.has_cons.mpr (.inl rfl)
  have hmain := hy.appendAck (P := True) Option.none (hv _ List.mem_cons_self).1
    (by rw [if_neg fun hd => hdup hd.2]) fun hpos => ?_
  · exact ⟨hmain.1 trivial, hmain.2⟩
  rcases lt_or_ge ((s.update seq n).next - 1) seq with hgt | hle
  · obtain ⟨hclean, htrue⟩ := hy.above Option.none
      (recentSack_run hy.rep hv hgt hseq) hgt hpos
    exact ⟨fun _ => hclean fun b hb => ((hy.written _).1 b (hy.mem_written hb)).2, htrue⟩
  · obtain ⟨hclean, htrue⟩ := hy.below Option.none hle hpos fun b hb =>
      ((hy.written _).1 b (hy.left_eq hy.short ▸ hb)).1
    exact ⟨fun _ => hclean, htrue⟩

/-- A run that another run covers is that run. -/
theorem eq_of_covers {c : ℤ × ℤ} (hb : h.IsRun b) (hr : h.IsRun c) (hcov : Covers c b) : b = c :=
  hb.eq_of_mem hr le_rfl hb.lt hcov.1 (hb.lt.trans_le hcov.2)

/-- What stays of the stack after a DSACK block does not hold the packet's run, unless that is
the entry at the place where the loop stops. -/
theorem Clean.stay (hc : Clean s h) (hrun : h.IsRun recent) {k : ℕ}
    (hplace : s.sf[k]? ≠ some recent) :
    ∀ b ∈ (older s.maxseen recent k s.sf).2.take (k + 1), ¬ Covers recent b := by
  intro b hb hcov
  have hy : Ready s h recent := hc.ready recent
  obtain ⟨pre, rest, hsf, hw, hl, -, hrest⟩ := older_spec recent (k := k) hy.ok
  have hmem : b ∈ s.sf := (hy.left k).subset (List.mem_of_mem_take hb)
  obtain rfl : b = recent := eq_of_covers (hc.runs b hmem).1 hrun hcov
  have hnot : b ∉ (older s.maxseen b k s.sf).1 := fun hm => ((hy.written k).1 b hm).2 hcov
  rw [hl] at hb
  cases rest with
  | nil => exact hnot (by simpa using List.mem_of_mem_take hb)
  | cons c rest =>
      have hk := hrest.resolve_left (List.cons_ne_nil _ _)
      rw [List.take_append, List.take_of_length_le (by omega), hk, Nat.add_sub_cancel_left,
        List.take_succ_cons, List.take_zero] at hb
      obtain rfl : b = c := List.mem_singleton.mp ((List.mem_append.mp hb).resolve_left hnot)
      have hnd := hc.nodup
      rw [hsf] at hnd
      have hpre : pre.filter (fun c => ¬ Covers b c) = pre := List.filter_eq_self.mpr fun c hc' => by
        have hmem' : c ∈ s.sf := by
          rw [hsf]
          exact List.mem_append_left _ hc'
        refine decide_eq_true fun hcov' => ?_
        obtain rfl := eq_of_covers (hc.runs c hmem').1 hrun hcov'
        exact (List.disjoint_of_nodup_append hnd) hc' List.mem_cons_self
      rw [hw, hpre] at hk
      refine hplace ?_
      rw [hsf, List.getElem?_append_right hk.le, hk, Nat.sub_self, List.getElem?_cons_zero]

/-- **A duplicate.** -/
theorem Clean.append_dup (hc : Clean s h) (hv : Arrived.Valid ((seq, n) :: h)) (hdup : h.Has seq) :
    (¬ Reread s h seq → Clean ((s.update seq n).appendAck seq).1 ((seq, n) :: h)) ∧
      Truthful (s.update seq n) ((seq, n) :: h) seq ((s.update seq n).appendAck seq).2 := by
  have hct := hc.update_dup hv hdup
  have hd : (s.update seq n).isDup = true := (hc.rep.update hv).dup.mpr hdup
  have hseq : Arrived.Has ((seq, n) :: h) seq := Arrived.has_cons.mpr (.inl rfl)
  have hreread : ¬ Reread s h seq → ¬ Reread (s.update seq n) ((seq, n) :: h) seq :=
    fun hno ⟨h₁, _, h₃, h₄⟩ => hno ⟨h₁, hdup, (hc.rep.update hv).next.trans h₃, h₄⟩
  generalize s.update seq n = t at *
  obtain ⟨dsack, hdsack⟩ : ∃ dsack, dsack =
      if t.dsacks = true ∧ t.isDup = true then some (seq, seq + 1) else Option.none := ⟨_, rfl⟩
  refine (hct.ready (t.recentSack seq)).appendAck dsack (hv _ List.mem_cons_self).1 hdsack
    fun hpos => ?_
  rcases lt_or_ge dsack.toList.length t.baseNblocks with hlt | hfull
  · rcases lt_or_ge (t.next - 1) seq with hgt | hle
    · have hrun := recentSack_run hct.rep hv hgt hseq
      obtain ⟨hclean, htrue⟩ := (hct.ready _).above dsack hrun hgt hlt
      refine ⟨fun hno => hclean ?_, htrue⟩
      by_cases hds : t.dsacks = true
      · rw [if_pos ⟨hds, hd⟩] at hdsack
        rw [hdsack, Option.toList_some, List.length_singleton] at hlt ⊢
        rw [show t.baseNblocks - 1 = t.baseNblocks - (1 + 1) + 1 by omega]
        refine hct.stay hrun.1 fun hplace => hreread hno
          ⟨hds, hseq, by omega, _, by omega, hplace, hrun.2.2⟩
      · rw [if_neg fun hc => hds hc.1] at hdsack
        rw [hdsack, Option.toList_none, List.length_nil, zero_add]
        exact fun b hb => (((hct.ready _).written _).1 b ((hct.ready _).mem_written hb)).2
    · obtain ⟨hclean, htrue⟩ := (hct.ready _).below dsack hle hlt fun b hb =>
        hct.runs b (((hct.ready _).left _).subset hb)
      exact ⟨fun _ => hclean, htrue⟩
  · rw [appendBlocks, if_pos hfull]
    refine ⟨fun _ => hct, by simp, by simp, by simp, ?_⟩
    rw [SackArea.length, List.length_nil, hdsack]
    split_ifs
    · exact hpos
    · exact Nat.zero_le _

/-! ### Runs -/

/-- The packets a receiver with `max_sack_blocks_` and `generate_dsacks_` has got, and its state.
It acknowledges each, but for one that the delay of ACKs leaves pending, which is the last packet
below `next_`; no packet is `Reread`. -/
inductive Run (nblocks : ℕ) (dsacks : Bool) : Arrived → Sacker → Prop where
  | start : Run nblocks dsacks [] (configure nblocks dsacks)
  | acked {h : Arrived} {s : Sacker} {seq n : ℤ} : Run nblocks dsacks h s → 0 ≤ seq → 0 < n →
      ¬ Reread s h seq → Run nblocks dsacks ((seq, n) :: h) ((s.update seq n).appendAck seq).1
  | delayed {h : Arrived} {s : Sacker} {seq n : ℤ} : Run nblocks dsacks h s → 0 ≤ seq → 0 < n →
      seq = (s.update seq n).next - 1 → Run nblocks dsacks ((seq, n) :: h) (s.update seq n)

theorem Run.baseNblocks {nblocks : ℕ} {dsacks : Bool} (hr : Run nblocks dsacks h s) :
    s.baseNblocks = min nblocks nsa := by
  have happend : ∀ (t : Sacker) (old : ℤ), (t.appendAck old).1.baseNblocks = t.baseNblocks := by
    intro t old
    rw [appendAck]
    split_ifs
    · rfl
    · rfl
    all_goals first | rfl | (rw [appendBlocks]; split_ifs <;> rfl)
  induction hr with
  | start => rfl
  | acked _ _ _ _ ih => exact (happend _ _).trans ih
  | delayed _ _ _ _ ih => exact ih

/-- A packet whose ACK stays pending moves `next_` past nothing but itself. -/
theorem Clean.delayed (hc : Clean s h) (hv : Arrived.Valid ((seq, n) :: h))
    (hlast : seq = (s.update seq n).next - 1) : Clean (s.update seq n) ((seq, n) :: h) := by
  by_cases hdup : h.Has seq
  · exact hc.update_dup hv hdup
  have hr : Acker.Rep (s.update seq n).toAcker ((seq, n) :: h) := (hc.rep.update hv).rep
  have hseq₀ : s.next ≤ seq := not_lt.mp fun hlt =>
    hdup (hc.rep.below seq (hv _ List.mem_cons_self).1 hlt)
  have hseq : s.next = seq := (Arrived.has_cons.mp
    (hr.below s.next hc.rep.nonneg (by omega))).resolve_right hc.rep.least
  refine ⟨hr, hv, fun b hb => ?_, hc.nodup, hc.short⟩
  obtain ⟨hrun, habove⟩ := hc.runs b hb
  have hlt := hrun.lt
  have hne : b.1 ≠ (s.update seq n).next := fun he =>
    hr.least (he ▸ Arrived.has_cons.mpr (.inr (hrun.has _ le_rfl hlt)))
  exact ⟨hrun.cons (by omega) (by omega), by omega⟩

theorem Run.clean {nblocks : ℕ} {dsacks : Bool} (hr : Run nblocks dsacks h s) : Clean s h := by
  induction hr with
  | start => exact .of_nil Acker.rep_init (fun p hp => absurd hp List.not_mem_nil) rfl
  | @acked h s seq n _ h₁ h₂ hno ih =>
      have hv := ih.valid.cons h₁ h₂
      by_cases hdup : h.Has seq
      · exact (ih.append_dup hv hdup).1 hno
      · exact (ih.append_new hv hdup).1
  | delayed _ h₁ h₂ hlast ih => exact ih.delayed (ih.valid.cons h₁ h₂) hlast

/-- Above the cumulative ACK a block is written, if there is room for one beside a DSACK block. -/
theorem appendAck_ne_nil (hr : Acker.Rep s.toAcker h) (hgt : s.next - 1 < old) (hh : h.Has old)
    (hroom : 1 < s.baseNblocks) : (s.appendAck old).2.blocks ≠ [] := by
  have hn := hr.nonneg
  have hle := hr.top old hh
  rw [appendAck, if_neg (by omega), if_neg (by omega), if_pos ⟨.inl (by omega), by omega⟩,
    appendBlocks, if_neg (by split_ifs <;> simp <;> omega)]
  simp [not_le.mpr hgt]

/-- **The SACK blocks are truthful.**  As long as no packet is `Reread`, the blocks of the ACK of
a packet, less a DSACK block, are distinct, consist of packets that have arrived and lie above the
cumulative ACK, and the first one is the maximal run that holds the packet if the packet lies
above it; with the DSACK block they are at most `max_sack_blocks_`. -/
theorem sack_blocks (nblocks : ℕ) (dsacks : Bool) (h : Arrived) (s : Sacker)
    (hr : Run nblocks dsacks h s) (seq n : ℤ) (h₁ : 0 ≤ seq) (h₂ : 0 < n) :
    let t := s.update seq n
    let area := (t.appendAck seq).2
    let h' : Arrived := (seq, n) :: h
    (∀ b ∈ area.blocks, b.1 < b.2 ∧ ∀ i, b.1 ≤ i → i < b.2 → h'.Has i ∧ t.next - 1 < i) ∧
    (t.next - 1 < seq → (1 < min nblocks nsa → area.blocks ≠ []) ∧
      ∀ b, area.blocks.head? = some b → (b.1 ≤ seq ∧ seq < b.2) ∧ h'.IsRun b) ∧
    area.blocks.Nodup ∧ area.length ≤ min nblocks nsa := by
  have hc := hr.clean
  have hv := hc.valid.cons h₁ h₂
  have htrue : Truthful (s.update seq n) ((seq, n) :: h) seq
      ((s.update seq n).appendAck seq).2 := by
    by_cases hdup : h.Has seq
    · exact (hc.append_dup hv hdup).2
    · exact (hc.append_new hv hdup).2
  have hseq : Arrived.Has ((seq, n) :: h) seq := Arrived.has_cons.mpr (.inl rfl)
  have hbase : (s.update seq n).baseNblocks = min nblocks nsa := hr.baseNblocks
  refine ⟨fun b hb => ?_, fun hgt => ⟨fun hroom => ?_, fun b hb => ?_⟩, htrue.nodup,
    hbase ▸ htrue.length⟩
  · obtain ⟨hrun, habove⟩ := htrue.runs b hb
    exact ⟨hrun.lt, fun i h₃ h₄ => ⟨hrun.has i h₃ h₄, by omega⟩⟩
  · exact appendAck_ne_nil (hc.rep.update hv).rep hgt hseq (hbase ▸ hroom)
  · exact ⟨htrue.first hgt b hb, (htrue.runs b (List.mem_of_mem_head? hb)).1⟩

/-- Packets 0, 3, 5 and 3 again, each acknowledged, and then packet 1. -/
def rereads : Sacker :=
  let s := ((configure 3 true).update 0 1).appendAck 0 |>.1
  let s := (s.update 3 1).appendAck 3 |>.1
  let s := (s.update 5 1).appendAck 5 |>.1
  let s := (s.update 3 1).appendAck 3 |>.1
  s.update 1 1

/-- A duplicate with a DSACK block puts its run on the stack a second time, and the next ACK that
reads the whole stack reports it twice. -/
theorem run_reported_twice : (rereads.appendAck 1).2 = ⟨none, [(3, 4), (5, 6), (3, 4)]⟩ ∧
    ¬ (rereads.appendAck 1).2.blocks.Nodup := by
  decide +kernel

/-- Packet 3 after packet 0, and its duplicate. -/
theorem sack_blocks_duplicate : ∃ s, Run 3 true [(3, 1), (0, 1)] s ∧
    ((s.update 3 1).appendAck 3).2 = ⟨some (3, 4), [(3, 4)]⟩ ∧
    ((s.update 3 1).appendAck 3).2.blocks.Nodup := by
  have hr : Run 3 true [(3, 1), (0, 1)] _ :=
    .acked (.acked .start (by decide) (by decide) fun hno => by
      exact absurd hno.2.1 Arrived.has_nil) (by decide) (by decide) fun hno => by
      exact absurd hno.2.1 (by decide)
  exact ⟨_, hr, by decide +kernel, (sack_blocks 3 true _ _ hr 3 1 (by decide) (by decide)).2.2.1⟩

end Sacker

end Afabric
