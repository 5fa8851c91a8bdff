import Afabric.Support.Ring
import Mathlib.Tactic.Ring

/-!
# Tcp — the scoreboard in a ring

`ScoreBoard` (`tcp/scoreboard.h`, `tcp/scoreboard.cc`) keeps for each packet of a window whether
it was SACKed and whether it was sent again.  Packet `i` is in cell `i % sbsize_`; the window
starts at `first_` and has `length_` packets.  Packets are numbered from 0.

`Board` is what the calls say, with no window: the cumulative ack, and the sets of SACKed and of
retransmitted packets.  A packet is *tracked* if it is above the cumulative ack and not above the
highest SACKed one.  `Represents` says that the window is the tracked packets and that their
cells hold their flags.

An update that finds no entry creates one for `last_ack + 1`, whatever its SACK blocks are.  That
packet need not be tracked (`phantom_entry`); `score_board` is the result for the runs in which
it is.
-/

namespace Afabric

/-- `ScoreBoardNode`. -/
structure ScoreBoardNode where
  seqNo : ℤ
  ackFlag : Bool
  sackFlag : Bool
  retran : Bool
  sndNxt : ℤ
deriving DecidableEq, Repr

/-- A new entry for packet `i`. -/
def ScoreBoardNode.new (i : ℤ) : ScoreBoardNode := ⟨i, false, false, false, 0⟩

/-- `ScoreBoard`: `first_`, `length_`, `sbsize_`, `changed_` and the array. -/
structure ScoreBoard where
  first : ℤ
  length : ℤ
  sbsize : ℤ
  changed : ℤ
  sbn : ℤ → ScoreBoardNode

namespace ScoreBoard

/-- The constructor, on an array that was not written yet. -/
def init (sbn : ℤ → ScoreBoardNode) (sz : ℤ) : ScoreBoard := ⟨0, 0, sz, 0, sbn⟩

/-- `SBN[i%sbsize_]`. -/
def node (s : ScoreBoard) (i : ℤ) : ScoreBoardNode := s.sbn (i % s.sbsize)

/-- An assignment to `SBN[i%sbsize_]`. -/
def set (s : ScoreBoard) (i : ℤ) (x : ScoreBoardNode) : ScoreBoard :=
  { s with sbn := Ring.write (· % s.sbsize) s.sbn i x }

/-- `SBN[first_%sbsize_].seq_no_`. -/
def firstSeq (s : ScoreBoard) : ℤ := (s.node s.first).seqNo

/-- `SBN[(first_+length_+sbsize_-1)%sbsize_].seq_no_`. -/
def lastSeq (s : ScoreBoard) : ℤ := (s.node (s.first + s.length + s.sbsize - 1)).seqNo

/-- The scoreboard and `retran_decr` in `UpdateScoreBoard`. -/
structure Updating extends ScoreBoard where
  retranDecr : ℤ

/-- What the loop that advances the left edge does to an acked entry. -/
def Updating.ackEntry (u : Updating) (i : ℤ) : Updating :=
  let x := u.node i
  let y := { x with ackFlag := true, sackFlag := true }
  { u with
    first := u.first + 1
    length := u.length - 1
    changed := u.changed + 1
    sbn := (u.set i (if x.retran then { y with retran := false, sndNxt := 0 } else y)).sbn
    retranDecr := if x.retran then u.retranDecr + 1 else u.retranDecr }

/-- The loop that advances the left edge, at `i` with `n` rounds to go. -/
def advanceFrom (lastAck : ℤ) : ℕ → ℤ → Updating → Option Updating
  | 0, _, u => some u
  | n + 1, i, u =>
      if (u.node i).seqNo ≤ lastAck then
        if u.first ≠ i then none
        else if u.length - 1 < 0 then none
        else if u.length - 1 = 0 then some (u.ackEntry i)
        else advanceFrom lastAck n (i + 1) (u.ackEntry i)
      else advanceFrom lastAck n (i + 1) u

/-- "Advance the left edge of the block." -/
def advance (lastAck : ℤ) (u : Updating) : Option Updating :=
  if u.length ≠ 0 ∧ u.firstSeq ≤ lastAck then
    advanceFrom lastAck (lastAck + 1 - u.firstSeq).toNat u.firstSeq u
  else some u

/-- "If there is no scoreboard, create one." -/
def create (lastAck : ℤ) (blocks : List (ℤ × ℤ)) (u : Updating) : Option Updating :=
  if u.length = 0 ∧ blocks ≠ [] then
    if u.length + 1 ≥ u.sbsize then none
    else some { u with
      first := lastAck + 1
      length := u.length + 1
      changed := u.changed + 1
      sbn := (u.set (lastAck + 1) (.new (lastAck + 1))).sbn }
  else some u

/-- `resizeSB`: the entries, and the cell after them, are copied to an array of which nothing
else was written. -/
def resizeSB (fresh : ℤ → ℤ → ScoreBoardNode) (s : ScoreBoard) (sz : ℤ) : ScoreBoard :=
  { s with
    sbn := Ring.fill (· % sz) (fresh sz) s.node s.firstSeq (s.length + 1).toNat
    sbsize := sz }

/-- "Resize the scoreboard if it is going to overrun the length", `n` times at most. -/
def grow (fresh : ℤ → ℤ → ScoreBoardNode) (lastAck sackRight : ℤ) : ℕ → ScoreBoard → ScoreBoard
  | 0, s => s
  | n + 1, s =>
      if sackRight - lastAck ≥ s.sbsize - 1 then
        grow fresh lastAck sackRight n (s.resizeSB fresh (s.sbsize * 2))
      else s

/-- The loop that creates the new entries, at `i` with `n` rounds to go. -/
def createFrom : ℕ → ℤ → ScoreBoard → Option ScoreBoard
  | 0, _, s => some s
  | n + 1, i, s =>
      if s.length + 1 ≥ s.sbsize then none
      else createFrom n (i + 1) { s.set i (.new i) with
        length := s.length + 1
        changed := s.changed + 1 }

/-- "Create new entries off the right side." -/
def extend (fresh : ℤ → ℤ → ScoreBoardNode) (lastAck sackRight : ℤ) (s : ScoreBoard) :
    Option ScoreBoard :=
  if sackRight > s.lastSeq then
    let s' := grow fresh lastAck sackRight (sackRight - lastAck + 1).toNat s
    createFrom (sackRight - (s'.lastSeq + 1)).toNat (s'.lastSeq + 1) s'
  else some s

/-- "Check to see if this segment is now covered by the sack block." -/
def Updating.sackEntry (sackLeft sackRight : ℤ) (u : Updating) (i : ℤ) : Updating :=
  let x := u.node i
  if x.seqNo ≥ sackLeft ∧ x.seqNo < sackRight then
    { u with
      changed := if x.sackFlag then u.changed else u.changed + 1
      sbn := (u.set i { x with sackFlag := true, retran := false }).sbn
      retranDecr := if x.retran then u.retranDecr + 1 else u.retranDecr }
  else u

/-- The loop that marks the entries, at `i` with `n` rounds to go. -/
def sackFrom (sackLeft sackRight : ℤ) : ℕ → ℤ → Updating → Updating
  | 0, _, u => u
  | n + 1, i, u => sackFrom sackLeft sackRight n (i + 1) (u.sackEntry sackLeft sackRight i)

/-- A round of the loop over the SACK blocks. -/
def sackBlock (fresh : ℤ → ℤ → ScoreBoardNode) (lastAck : ℤ) (u : Updating) (b : ℤ × ℤ) :
    Option Updating :=
  (extend fresh lastAck b.2 u.toScoreBoard).map fun s =>
    sackFrom b.1 b.2 (b.2 - s.firstSeq).toNat s.firstSeq { u with toScoreBoard := s }

/-- `UpdateScoreBoard`, `none` where it exits. -/
def updateScoreBoard (fresh : ℤ → ℤ → ScoreBoardNode) (lastAck : ℤ) (blocks : List (ℤ × ℤ))
    (s : ScoreBoard) : Option Updating :=
  ((advance lastAck { s with changed := 0, retranDecr := 0 }).bind (create lastAck blocks)).bind
    fun u => blocks.foldlM (sackBlock fresh lastAck) u

/-- `ClearScoreBoard`. -/
def clearScoreBoard (s : ScoreBoard) : ScoreBoard := { s with length := 0 }

/-- The loop of `GetNextRetran`, at `i` with `n` rounds to go. -/
def nextRetranFrom (s : ScoreBoard) : ℕ → ℤ → ℤ
  | 0, _ => -1
  | n + 1, i =>
      let x := s.node i
      if !x.ackFlag && !x.sackFlag && !x.retran then i else nextRetranFrom s n (i + 1)

/-- `GetNextRetran`. -/
def getNextRetran (s : ScoreBoard) : ℤ :=
  if s.length ≠ 0 then nextRetranFrom s s.length.toNat s.firstSeq else -1

/-- `MarkRetran`, of one argument or of two. -/
def markRetran (retranSeqno : ℤ) (sndNxt : Option ℤ) (s : ScoreBoard) : ScoreBoard :=
  let x := { s.node retranSeqno with retran := true }
  s.set retranSeqno (match sndNxt with
    | none => x
    | some n => { x with sndNxt := n })

/-- A call. -/
inductive Call
  | update (lastAck : ℤ) (blocks : List (ℤ × ℤ))
  | markRetran (retranSeqno : ℤ) (sndNxt : Option ℤ)
  | clear

/-- What a call does, `none` where it exits. -/
def step (fresh : ℤ → ℤ → ScoreBoardNode) (s : ScoreBoard) : Call → Option ScoreBoard
  | .update lastAck blocks => (s.updateScoreBoard fresh lastAck blocks).map (·.toScoreBoard)
  | .markRetran retranSeqno sndNxt => some (s.markRetran retranSeqno sndNxt)
  | .clear => some s.clearScoreBoard

end ScoreBoard

/-! ### What the calls say -/

/-- The cumulative ack, and the packets SACKed and those sent again since the last clear. -/
structure Board where
  acked : ℤ
  sacked : Set ℤ
  retran : Set ℤ

namespace Board

/-- Before the first call. -/
def init : Board := ⟨-1, ∅, ∅⟩

/-- The packets of the SACK blocks. -/
def covered (blocks : List (ℤ × ℤ)) : Set ℤ := {i | ∃ b ∈ blocks, b.1 ≤ i ∧ i < b.2}

/-- A cumulative ack alone. -/
def ackTo (b : Board) (lastAck : ℤ) : Board := { b with acked := max b.acked lastAck }

/-- The SACK blocks alone.  A packet that is SACKed no longer counts as sent again. -/
def sack (b : Board) (blocks : List (ℤ × ℤ)) : Board :=
  { b with sacked := b.sacked ∪ covered blocks, retran := b.retran \ covered blocks }

/-- What a call says. -/
def step (b : Board) : ScoreBoard.Call → Board
  | .update lastAck blocks => (b.ackTo lastAck).sack blocks
  | .markRetran i _ => { b with retran := insert i b.retran }
  | .clear => { b with sacked := ∅, retran := ∅ }

/-- Packet `i` is above the cumulative ack and not above the highest SACKed one. -/
def Tracked (b : Board) (i : ℤ) : Prop := b.acked < i ∧ ∃ j ∈ b.sacked, i ≤ j

/-- The tracked packets that are neither SACKed nor sent again. -/
def missing (b : Board) : Set ℤ := {i | b.Tracked i ∧ i ∉ b.sacked ∧ i ∉ b.retran}

/-- `r` is the least missing packet, -1 if there is none. -/
def IsNextRetran (b : Board) (r : ℤ) : Prop := IsLeast b.missing r ∨ b.missing = ∅ ∧ r = -1

/-- The calls of `score_board`.  An update that finds no packet above its cumulative ack tracked
has the highest cumulative ack so far and a block with a packet above the next one expected, or
has no block; a packet is marked when it is tracked, or when it is acked and its cell is not that
of a tracked packet. -/
def Admits (b : Board) (sbsize : ℤ) : ScoreBoard.Call → Prop
  | .update lastAck blocks =>
      (∀ x ∈ blocks, x.1 < x.2) ∧
        (blocks ≠ [] → (∀ i, b.Tracked i → i ≤ lastAck) →
          b.acked ≤ lastAck ∧ ∃ x ∈ blocks, lastAck + 1 < x.2)
  | .markRetran i _ =>
      b.Tracked i ∨ i ≤ b.acked ∧ ∀ j, b.Tracked j → j % sbsize ≠ i % sbsize
  | .clear => True

end Board

/-! ### The window -/

/-- An entry is that of packet `i`, with the flags of `S` and `R`. -/
structure ScoreBoardNode.Holds (x : ScoreBoardNode) (i : ℤ) (S R : Set ℤ) : Prop where
  seq : x.seqNo = i
  ack : x.ackFlag = false
  sack : x.sackFlag = true ↔ i ∈ S
  retran : x.retran = true ↔ i ∈ R

namespace ScoreBoard

variable {m : ℤ → ℤ → ScoreBoardNode} {s s' : ScoreBoard} {u u' : Updating} {S R : Set ℤ}
  {i j l r lastAck : ℤ} {n : ℕ}

/-- The cells of the window hold the flags of `S` and `R`. -/
structure Window (s : ScoreBoard) (S R : Set ℤ) : Prop where
  nonneg : 0 ≤ s.length
  fits : s.length < s.sbsize
  holds : ∀ i, s.first ≤ i → i < s.first + s.length → (s.node i).Holds i S R

/-- Two packets less than `sbsize_` apart have different cells. -/
theorem node_set (h : |j - i| < s.sbsize) (x : ScoreBoardNode) :
    (s.set i x).node j = if j = i then x else s.node j := by
  have hinj := Ring.emod_injOn (a := min i j) (b := min i j + s.sbsize) (n := s.sbsize) (by omega)
  have := abs_lt.mp h
  exact Ring.write_apply (c := s.sbn) hinj (Set.mem_Ico.mpr ⟨by omega, by omega⟩)
    (Set.mem_Ico.mpr ⟨by omega, by omega⟩) x

@[simp] theorem node_set_self (x : ScoreBoardNode) : (s.set i x).node i = x :=
  show Ring.write (· % s.sbsize) s.sbn i x ((· % s.sbsize) i) = x from Ring.write_self x

namespace Window

theorem firstSeq (h : s.Window S R) (hl : 0 < s.length) : s.firstSeq = s.first :=
  (h.holds s.first (by omega) (by omega)).seq

theorem lastSeq (h : s.Window S R) (hl : 0 < s.length) :
    s.lastSeq = s.first + s.length - 1 := by
  have hlast := (h.holds (s.first + s.length - 1) (by omega) (by omega)).seq
  have hmod : (s.first + s.length + s.sbsize - 1) % s.sbsize
      = (s.first + s.length - 1) % s.sbsize := by
    rw [show s.first + s.length + s.sbsize - 1 = s.first + s.length - 1 + s.sbsize by ring,
      Int.add_emod_right]
  rw [ScoreBoard.lastSeq, node, hmod]
  exact hlast

/-- A write inside the window or at its end. -/
theorem node_set (h : s.Window S R) (hi : s.first ≤ i) (hi' : i ≤ s.first + s.length)
    (hj : s.first ≤ j) (hj' : j ≤ s.first + s.length) (x : ScoreBoardNode) :
    (s.set i x).node j = if j = i then x else s.node j := by
  have := h.fits
  exact ScoreBoard.node_set (abs_lt.mpr ⟨by omega, by omega⟩) x

/-- The first entry leaves the window. -/
theorem ackEntry (h : u.Window S R) (hl : 0 < u.length) :
    (u.ackEntry u.first).Window S R := by
  refine ⟨by simp only [Updating.ackEntry]; omega, ?_, fun i h₁ h₂ => ?_⟩
  · have := h.fits
    simp only [Updating.ackEntry]
    omega
  · simp only [Updating.ackEntry] at h₁ h₂
    have hnode := h.node_set (i := u.first) (j := i) (by omega) (by omega) (by omega) (by omega)
    have hset : ∀ x, (u.set u.first x).node i = u.node i := fun x => by
      rw [hnode, if_neg (by omega)]
    have he : (u.ackEntry u.first).node i = u.node i := hset _
    rw [he]
    exact h.holds i (by omega) (by omega)

/-- A new entry at the end of the window. -/
theorem append (h : s.Window S R) (hfit : s.length + 1 < s.sbsize)
    (hS : s.first + s.length ∉ S) (hR : s.first + s.length ∉ R) (c : ℤ) :
    Window { s.set (s.first + s.length) (.new (s.first + s.length)) with
      length := s.length + 1
      changed := c } S R := by
  have hn := h.nonneg
  refine ⟨by dsimp only; omega, hfit, fun i h₁ h₂ => ?_⟩
  dsimp only [set] at h₁ h₂
  change ((s.set (s.first + s.length) (.new (s.first + s.length))).node i).Holds i S R
  rw [h.node_set (by omega) (by omega) h₁ (by omega)]
  split_ifs with he
  · subst he
    exact ⟨rfl, rfl, by simp [ScoreBoardNode.new, hS], by simp [ScoreBoardNode.new, hR]⟩
  · exact h.holds i h₁ (by omega)

/-- The larger array holds the same entries. -/
theorem resizeSB (h : s.Window S R) (hl : 0 < s.length) :
    (s.resizeSB m (s.sbsize * 2)).Window S R := by
  have hfit := h.fits
  refine ⟨h.nonneg, by simp only [ScoreBoard.resizeSB]; omega, fun i h₁ h₂ => ?_⟩
  simp only [ScoreBoard.resizeSB] at h₁ h₂
  have hinj := Ring.emod_injOn (a := s.first) (b := s.first + s.length + 1)
    (n := s.sbsize * 2) (by omega)
  have hnode : (s.resizeSB m (s.sbsize * 2)).node i = s.node i := by
    have hseq := h.firstSeq hl
    have hrun : ∀ k, s.firstSeq ≤ k → k < s.firstSeq + (s.length + 1).toNat →
        k ∈ Set.Ico s.first (s.first + s.length + 1) := fun k h₃ h₄ => by
      rw [Set.mem_Ico]
      omega
    have hfill := Ring.fill_apply (c := m (s.sbsize * 2)) (f := s.node) hinj hrun
      (Set.mem_Ico.mpr (show s.first ≤ i ∧ i < s.first + s.length + 1 by omega))
    rw [if_pos (by omega)] at hfill
    exact hfill
  rw [hnode]
  exact h.holds i h₁ h₂

/-- Only the membership of the packets of the window matters. -/
theorem congr {S' R' : Set ℤ} (h : s.Window S R)
    (hS : ∀ i, s.first ≤ i → i < s.first + s.length → (i ∈ S' ↔ i ∈ S))
    (hR : ∀ i, s.first ≤ i → i < s.first + s.length → (i ∈ R' ↔ i ∈ R)) : s.Window S' R' :=
  ⟨h.nonneg, h.fits, fun i h₁ h₂ =>
    let hx := h.holds i h₁ h₂
    ⟨hx.seq, hx.ack, hx.sack.trans (hS i h₁ h₂).symm, hx.retran.trans (hR i h₁ h₂).symm⟩⟩

end Window

@[simp] theorem sackEntry_first : (u.sackEntry l r i).first = u.first := by
  unfold Updating.sackEntry
  dsimp only
  split_ifs <;> rfl

@[simp] theorem sackEntry_length : (u.sackEntry l r i).length = u.length := by
  unfold Updating.sackEntry
  dsimp only
  split_ifs <;> rfl

@[simp] theorem sackEntry_sbsize : (u.sackEntry l r i).sbsize = u.sbsize := by
  unfold Updating.sackEntry
  dsimp only
  split_ifs <;> rfl

/-- The packets of the block from `i` on, `n` of them at most. -/
def marked (sackLeft sackRight i : ℤ) (n : ℕ) : Set ℤ :=
  {j | (i ≤ j ∧ j < i + n) ∧ sackLeft ≤ j ∧ j < sackRight}

namespace Window

/-- The marks of a SACK block on one entry. -/
theorem sackEntry (h : u.Window S R) (hi : u.first ≤ i) (hi' : i < u.first + u.length) :
    (u.sackEntry l r i).Window
      (S ∪ marked l r i 1) (R \ marked l r i 1) := by
  have hx := h.holds i hi hi'
  refine ⟨by simpa using h.nonneg, by simpa using h.fits, fun j h₁ h₂ => ?_⟩
  rw [sackEntry_first] at h₁ h₂
  rw [sackEntry_length] at h₂
  have hy := h.holds j h₁ h₂
  by_cases hc : l ≤ i ∧ i < r
  · have hnode : (u.sackEntry l r i).node j
        = if j = i then { u.node i with sackFlag := true, retran := false } else u.node j := by
      have hcond : (u.node i).seqNo ≥ l ∧ (u.node i).seqNo < r := by rwa [hx.seq]
      rw [← h.node_set hi (by omega) h₁ (by omega)]
      unfold Updating.sackEntry
      dsimp only
      rw [if_pos hcond]
      rfl
    rw [hnode]
    split_ifs with he
    · have hm : j ∈ marked l r i 1 := by
        simp only [marked, Set.mem_ofPred_eq]
        omega
      exact ⟨he ▸ hx.seq, hx.ack, by simp [hm], by simp [hm]⟩
    · have hm : j ∉ marked l r i 1 := by
        simp only [marked, Set.mem_ofPred_eq]
        omega
      exact ⟨hy.seq, hy.ack, by simpa [hm] using hy.sack, by simpa [hm] using hy.retran⟩
  · have hnode : (u.sackEntry l r i).node j = u.node j := by
      have hcond : ¬ ((u.node i).seqNo ≥ l ∧ (u.node i).seqNo < r) := by rwa [hx.seq]
      unfold Updating.sackEntry
      dsimp only
      rw [if_neg hcond]
    have hm : j ∉ marked l r i 1 := by
      simp only [marked, Set.mem_ofPred_eq]
      omega
    rw [hnode]
    exact ⟨hy.seq, hy.ack, by simpa [hm] using hy.sack, by simpa [hm] using hy.retran⟩

/-- The loop that marks the entries. -/
theorem sackFrom (h : u.Window S R) (hi : u.first ≤ i) (hn : i + n ≤ u.first + u.length) :
    let u' := sackFrom l r n i u
    u'.first = u.first ∧ u'.length = u.length ∧ u'.sbsize = u.sbsize ∧
      u'.Window (S ∪ marked l r i n) (R \ marked l r i n) := by
  induction n generalizing i u S R with
  | zero =>
      have hm : marked l r i 0 = ∅ := by
        ext j
        simp only [marked, Set.mem_ofPred_eq, Set.mem_empty_iff_false, iff_false]
        omega
      rw [hm, Set.union_empty, Set.sdiff_empty]
      exact ⟨rfl, rfl, rfl, h⟩
  | succ n ih =>
      push_cast at hn
      have h' := h.sackEntry (l := l) (r := r) hi (by omega)
      obtain ⟨h₁, h₂, h₃, h₄⟩ := ih h' (i := i + 1) (by simp; omega) (by simp; omega)
      have hm : marked l r i (n + 1)
          = marked l r i 1 ∪ marked l r (i + 1) n := by
        ext j
        simp only [marked, Set.mem_ofPred_eq, Set.mem_union]
        omega
      rw [hm, ← Set.union_assoc, ← Set.sdiff_sdiff]
      rw [sackEntry_first] at h₁
      rw [sackEntry_length] at h₂
      rw [sackEntry_sbsize] at h₃
      exact ⟨h₁, h₂, h₃, h₄⟩

/-- The loop that advances the left edge leaves the packets above `last_ack`. -/
theorem advanceFrom (h : u.Window S R) (hl : 0 < u.length) (hn : n = lastAck + 1 - u.first) :
    ∃ u', advanceFrom lastAck n u.first u = some u' ∧ u'.Window S R ∧ u'.sbsize = u.sbsize ∧
      ∀ i, (u'.first ≤ i ∧ i < u'.first + u'.length) ↔
        (u.first ≤ i ∧ i < u.first + u.length) ∧ lastAck < i := by
  induction n generalizing u with
  | zero => exact ⟨u, rfl, h, rfl, fun i => by omega⟩
  | succ n ih =>
      push_cast at hn
      have hseq : (u.node u.first).seqNo = u.first := h.firstSeq hl
      have hfirst : (u.ackEntry u.first).first = u.first + 1 := rfl
      have hlength : (u.ackEntry u.first).length = u.length - 1 := rfl
      rw [ScoreBoard.advanceFrom, if_pos (by omega), if_neg (by simp), if_neg (by omega)]
      split_ifs with hone
      · exact ⟨_, rfl, h.ackEntry hl, rfl, fun i => by omega⟩
      · obtain ⟨u', hu', hw, hsz, hmem⟩ := ih (h.ackEntry hl) (by omega) (by omega)
        refine ⟨u', hu', hw, hsz, fun i => ?_⟩
        rw [hmem, hfirst, hlength]
        omega

/-- "Advance the left edge of the block." -/
theorem advance (lastAck : ℤ) (h : u.Window S R) :
    ∃ u', advance lastAck u = some u' ∧ u'.Window S R ∧ u'.sbsize = u.sbsize ∧
      ∀ i, (u'.first ≤ i ∧ i < u'.first + u'.length) ↔
        (u.first ≤ i ∧ i < u.first + u.length) ∧ lastAck < i := by
  have hn := h.nonneg
  rw [ScoreBoard.advance]
  split_ifs with hc
  · have hl : 0 < u.length := by omega
    have hseq := h.firstSeq hl
    rw [hseq] at hc ⊢
    exact h.advanceFrom hl (by omega)
  · refine ⟨u, rfl, h, rfl, fun i => ?_⟩
    rcases hn.eq_or_lt with hz | hl
    · omega
    · have hseq := h.firstSeq hl
      omega

/-- The array is made large enough for the window up to `sack_right`. -/
theorem grow (lastAck : ℤ) (h : s.Window S R) (hl : 0 < s.length) (hn : r - lastAck + 1 < s.sbsize + n) :
    let s' := grow m lastAck r n s
    s'.Window S R ∧ s'.first = s.first ∧ s'.length = s.length ∧ s.sbsize ≤ s'.sbsize ∧
      r - lastAck < s'.sbsize - 1 := by
  have hfit := h.fits
  induction n generalizing s with
  | zero => exact ⟨h, rfl, rfl, le_rfl, by simp only [ScoreBoard.grow]; omega⟩
  | succ n ih =>
      push_cast at hn
      rw [ScoreBoard.grow]
      split_ifs with hc
      · have hsz : (s.resizeSB m (s.sbsize * 2)).sbsize = s.sbsize * 2 := rfl
        have h' := h.resizeSB (m := m) hl
        obtain ⟨h₁, h₂, h₃, h₄, h₅⟩ := ih h' hl (by omega) h'.fits
        exact ⟨h₁, h₂, h₃, by omega, h₅⟩
      · exact ⟨h, rfl, rfl, le_rfl, by omega⟩

/-- The loop that creates the new entries. -/
theorem createFrom (h : s.Window S R) (hi : i = s.first + s.length)
    (hfit : s.length + n < s.sbsize) (hS : ∀ j ∈ S, i ≤ j → i + n ≤ j)
    (hR : ∀ j ∈ R, i ≤ j → i + n ≤ j) :
    ∃ s', createFrom n i s = some s' ∧ s'.Window S R ∧ s'.first = s.first ∧
      s'.length = s.length + n ∧ s'.sbsize = s.sbsize := by
  induction n generalizing s i with
  | zero => exact ⟨s, rfl, h, rfl, by simp, rfl⟩
  | succ n ih =>
      push_cast at hfit hS hR
      subst hi
      have happ := h.append (by omega) (fun hm => by have := hS _ hm le_rfl; omega)
        (fun hm => by have := hR _ hm le_rfl; omega) (s.changed + 1)
      rw [ScoreBoard.createFrom, if_neg (by omega)]
      obtain ⟨s', hs', hw, hf, hlen, hsz⟩ := ih happ
        (show s.first + s.length + 1 = s.first + (s.length + 1) by ring)
        (show s.length + 1 + n < s.sbsize by omega)
        (fun j hj hle => by have := hS j hj (by omega); omega)
        (fun j hj hle => by have := hR j hj (by omega); omega)
      refine ⟨s', hs', hw, hf, ?_, hsz⟩
      rw [hlen]
      push_cast
      ring

/-- "Create new entries off the right side." -/
theorem extend (h : s.Window S R) (hl : 0 < s.length) (hack : lastAck < s.first)
    (hS : ∀ j ∈ S, s.first ≤ j → j < s.first + s.length)
    (hR : ∀ j ∈ R, s.first ≤ j → j < s.first + s.length) :
    ∃ s', extend m lastAck r s = some s' ∧ s'.Window S R ∧ s'.first = s.first ∧
      s'.first + s'.length = max (s.first + s.length) r ∧ s.sbsize ≤ s'.sbsize := by
  have hfit := h.fits
  have hlast := h.lastSeq hl
  rw [ScoreBoard.extend, hlast]
  split_ifs with hc
  · obtain ⟨hw, hf, hlen, hsz, hbig⟩ := h.grow (m := m) lastAck (r := r)
      (n := (r - lastAck + 1).toNat) hl (by omega)
    generalize ScoreBoard.grow m lastAck r (r - lastAck + 1).toNat s = t at hw hf hlen hsz hbig
    have hlast' := hw.lastSeq (by omega)
    dsimp only
    rw [hlast']
    obtain ⟨s', hs', hw', hf', hlen', hsz'⟩ := hw.createFrom
      (i := t.first + t.length - 1 + 1) (n := (r - (t.first + t.length - 1 + 1)).toNat)
      (by ring) (by omega) (fun j hj hle => by have := hS j hj (by omega); omega)
      (fun j hj hle => by have := hR j hj (by omega); omega)
    exact ⟨s', hs', hw', by omega, by omega, by omega⟩
  · exact ⟨s, rfl, h, rfl, by omega, le_rfl⟩

end Window

/-! ### The window and the tracked packets -/

/-- The window is the tracked packets of `b`, and their cells hold their flags. -/
structure Represents (s : ScoreBoard) (b : Board) : Prop where
  two : 2 ≤ s.sbsize
  window : s.Window b.sacked b.retran
  tracked : ∀ i, b.Tracked i ↔ s.first ≤ i ∧ i < s.first + s.length
  retran : ∀ i ∈ b.retran, b.acked < i → b.Tracked i

/-- Between two blocks of an update with cumulative ack `a`: the last entry is SACKed, or is the
only one. -/
structure Between (s : ScoreBoard) (a : ℤ) (S R : Set ℤ) : Prop where
  two : 2 ≤ s.sbsize
  pos : 0 < s.length
  first : s.first = a + 1
  window : s.Window S R
  sacked : ∀ i ∈ S, a < i → i < s.first + s.length
  retran : ∀ i ∈ R, a < i → i < s.first + s.length
  top : s.first + s.length - 1 ∈ S ∨ s.length = 1

variable {b : Board} {a : ℤ} {blocks : List (ℤ × ℤ)}

theorem init_represents {sbn : ℤ → ScoreBoardNode} {sz : ℤ} (h : 2 ≤ sz) :
    (init sbn sz).Represents .init where
  two := h
  window := ⟨le_rfl, by simp only [init]; omega, fun i h₁ h₂ => by simp only [init] at h₁ h₂; omega⟩
  tracked i := by simp [Board.Tracked, Board.init, init]
  retran i hi := hi.elim

namespace Represents

/-- If there is an entry, the first is for the packet after the cumulative ack. -/
theorem first_eq (h : s.Represents b) (hl : 0 < s.length) : s.first = b.acked + 1 := by
  obtain ⟨hlt, j, hj, hle⟩ := (h.tracked s.first).mpr ⟨le_rfl, by omega⟩
  have hnext : b.Tracked (b.acked + 1) := ⟨by omega, j, hj, by omega⟩
  have := (h.tracked _).mp hnext
  omega

/-- A SACKed packet above the cumulative ack is tracked. -/
theorem sacked_lt (h : s.Represents b) (hi : i ∈ b.sacked) (ha : b.acked < i) :
    i < s.first + s.length := ((h.tracked i).mp ⟨ha, i, hi, le_rfl⟩).2

/-- If there is an entry, the last is SACKed. -/
theorem top_mem (h : s.Represents b) (hl : 0 < s.length) : s.first + s.length - 1 ∈ b.sacked := by
  obtain ⟨hlt, j, hj, hle⟩ := (h.tracked (s.first + s.length - 1)).mpr ⟨by omega, by omega⟩
  have := h.sacked_lt hj (by omega)
  rwa [show s.first + s.length - 1 = j by omega]

/-- The cumulative ack of an update. -/
theorem advance (lastAck : ℤ) (h : u.Represents b) :
    ∃ u', advance lastAck u = some u' ∧ u'.Represents (b.ackTo lastAck) := by
  obtain ⟨u', hu', hw, hsz, hmem⟩ := h.window.advance lastAck
  have htr : ∀ i, (b.ackTo lastAck).Tracked i ↔ b.Tracked i ∧ lastAck < i := by
    intro i
    simp only [Board.Tracked, Board.ackTo, max_lt_iff]
    tauto
  refine ⟨u', hu', hsz ▸ h.two, hw, fun i => ?_, fun i hi hlt => ?_⟩
  · rw [htr, hmem, h.tracked]
  · have hlt' : b.acked < i ∧ lastAck < i := max_lt_iff.mp hlt
    exact (htr i).mpr ⟨h.retran i hi hlt'.1, hlt'.2⟩

/-- The board that the blocks find. -/
theorem create (h : u.Represents b) (hne : blocks ≠ [])
    (hack : (∀ i, ¬ b.Tracked i) → b.acked = lastAck) :
    ∃ u', create lastAck blocks u = some u' ∧ u'.Between b.acked b.sacked b.retran := by
  have htwo := h.two
  have hn := h.window.nonneg
  rw [ScoreBoard.create]
  split_ifs with hc hsz
  · omega
  · obtain ⟨hz, -⟩ := hc
    have hnone : ∀ i, ¬ b.Tracked i := fun i hi => by have := (h.tracked i).mp hi; omega
    have ha := hack hnone
    have hS : ∀ i ∈ b.sacked, ¬ b.acked < i := fun i hi hlt => hnone i ⟨hlt, i, hi, le_rfl⟩
    have hR : ∀ i ∈ b.retran, ¬ b.acked < i := fun i hi hlt => hnone i (h.retran i hi hlt)
    have hS' : lastAck + 1 ∉ b.sacked := fun hi => hS _ hi (by omega)
    have hR' : lastAck + 1 ∉ b.retran := fun hi => hR _ hi (by omega)
    refine ⟨_, rfl, ⟨htwo, by dsimp only; omega, by rw [ha], ⟨by dsimp only; omega,
      by dsimp only; omega, fun i h₁ h₂ => ?_⟩, fun i hi hlt => absurd hlt (hS i hi),
      fun i hi hlt => absurd hlt (hR i hi), Or.inr (by dsimp only; omega)⟩⟩
    dsimp only at h₁ h₂
    obtain rfl : i = lastAck + 1 := by omega
    change ((u.set (lastAck + 1) (.new (lastAck + 1))).node (lastAck + 1)).Holds _ _ _
    rw [node_set_self]
    exact ⟨rfl, rfl, by simp [ScoreBoardNode.new, hS'], by simp [ScoreBoardNode.new, hR']⟩
  · have hl : 0 < u.length := by
      rcases hn.eq_or_lt with hz | hl
      · exact absurd ⟨hz.symm, hne⟩ hc
      · exact hl
    exact ⟨u, rfl, htwo, hl, h.first_eq hl, h.window, fun i hi hlt => h.sacked_lt hi hlt,
      fun i hi hlt => ((h.tracked i).mp (h.retran i hi hlt)).2, Or.inl (h.top_mem hl)⟩

end Represents

namespace Between

/-- A SACK block. -/
theorem sackBlock {x : ℤ × ℤ} (h : u.Between a S R) (hack : lastAck ≤ a) (hx : x.1 < x.2) :
    ∃ u', sackBlock m lastAck u x = some u' ∧
      u'.Between a (S ∪ Set.Ico x.1 x.2) (R \ Set.Ico x.1 x.2) := by
  have hpos := h.pos
  have hfirst := h.first
  obtain ⟨s', hs', hw, hf, hend, hsz⟩ := h.window.extend (m := m) (r := x.2) hpos
    (show lastAck < u.first by omega) (fun j hj hle => h.sacked j hj (by omega))
    (fun j hj hle => h.retran j hj (by omega))
  have hseq := hw.firstSeq (by omega)
  rw [ScoreBoard.sackBlock, hs', Option.map_some]
  generalize hv : ({ u with toScoreBoard := s' } : Updating) = v
  obtain rfl : v.toScoreBoard = s' := by rw [← hv]
  obtain ⟨hf', hlen', hsz', hw'⟩ := hw.sackFrom (u := v) (l := x.1) (r := x.2)
    (i := v.firstSeq) (n := (x.2 - v.firstSeq).toNat) (by omega) (by omega)
  generalize sackFrom x.1 x.2 (x.2 - v.firstSeq).toNat v.firstSeq v = u' at hf' hlen' hsz' hw'
  have hmem : ∀ j, u'.first ≤ j →
      (j ∈ marked x.1 x.2 v.firstSeq (x.2 - v.firstSeq).toNat ↔ j ∈ Set.Ico x.1 x.2) := by
    intro j hj
    simp only [marked, Set.mem_ofPred_eq, Set.mem_Ico]
    omega
  refine ⟨u', rfl, by have := h.two; omega, by omega, by omega, hw'.congr (fun j h₁ _ => ?_)
    (fun j h₁ _ => ?_), fun j hj hlt => ?_, fun j hj hlt => ?_, ?_⟩
  · rw [Set.mem_union, Set.mem_union, hmem j h₁]
  · rw [Set.mem_sdiff, Set.mem_sdiff, hmem j h₁]
  · rcases hj with hj | hj
    · have := h.sacked j hj hlt
      omega
    · have := (Set.mem_Ico.mp hj).2
      omega
  · have := h.retran j hj.1 hlt
    omega
  · rcases le_or_gt x.2 (u.first + u.length) with hle | hgt
    · rcases h.top with htop | hone
      · exact Or.inl (Or.inl (by rwa [show u'.first + u'.length = u.first + u.length by omega]))
      · exact Or.inr (by omega)
    · exact Or.inl (Or.inr (Set.mem_Ico.mpr ⟨by omega, by omega⟩))

/-- The SACK blocks. -/
theorem sackBlocks (h : u.Between a S R) (hack : lastAck ≤ a) (hb : ∀ x ∈ blocks, x.1 < x.2) :
    ∃ u', blocks.foldlM (ScoreBoard.sackBlock m lastAck) u = some u' ∧
      u'.Between a (S ∪ Board.covered blocks) (R \ Board.covered blocks) := by
  induction blocks generalizing u S R with
  | nil => exact ⟨u, rfl, by simpa [Board.covered] using h⟩
  | cons x blocks ih =>
      obtain ⟨u₁, hu₁, h₁⟩ := h.sackBlock (m := m) hack (hb x (by simp))
      obtain ⟨u₂, hu₂, h₂⟩ := ih h₁ fun y hy => hb y (by simp [hy])
      have hcov : Board.covered (x :: blocks) = Set.Ico x.1 x.2 ∪ Board.covered blocks := by
        ext i
        simp [Board.covered]
      refine ⟨u₂, by simpa [hu₁] using hu₂, ?_⟩
      rwa [hcov, ← Set.union_assoc, ← Set.sdiff_sdiff]

/-- Once a packet above the cumulative ack is SACKed, the window is the tracked packets. -/
theorem represents (h : s.Between b.acked b.sacked b.retran) (hi : i ∈ b.sacked)
    (hlt : b.acked < i) : s.Represents b := by
  have hfirst := h.first
  have htop : s.first + s.length - 1 ∈ b.sacked := by
    rcases h.top with htop | hone
    · exact htop
    · have := h.sacked i hi hlt
      rwa [show s.first + s.length - 1 = i by omega]
  have htr : ∀ j, b.Tracked j ↔ s.first ≤ j ∧ j < s.first + s.length := by
    intro j
    constructor
    · rintro ⟨h₁, k, hk, hle⟩
      have := h.sacked k hk (by omega)
      omega
    · rintro ⟨h₁, h₂⟩
      exact ⟨by omega, _, htop, by omega⟩
  exact ⟨h.two, h.window, htr, fun j hj h₁ => (htr j).mpr ⟨by omega, h.retran j hj h₁⟩⟩

end Between

namespace Represents

/-- `UpdateScoreBoard`. -/
theorem updateScoreBoard (h : s.Represents b)
    (hadm : b.Admits s.sbsize (.update lastAck blocks)) :
    ∃ u, s.updateScoreBoard m lastAck blocks = some u ∧
      u.Represents (b.step (.update lastAck blocks)) := by
  obtain ⟨hlt, hfresh⟩ := hadm
  have h₀ : Represents (Updating.toScoreBoard { s with changed := 0, retranDecr := 0 }) b :=
    ⟨h.two, ⟨h.window.nonneg, h.window.fits, h.window.holds⟩, h.tracked, h.retran⟩
  obtain ⟨u₁, hu₁, h₁⟩ := h₀.advance lastAck
  rw [ScoreBoard.updateScoreBoard, hu₁, Option.bind_some]
  rcases eq_or_ne blocks [] with rfl | hne
  · refine ⟨u₁, by simp [ScoreBoard.create], ?_⟩
    simpa [Board.step, Board.sack, Board.covered] using h₁
  · have hack : (∀ i, ¬ (b.ackTo lastAck).Tracked i) →
        b.acked ≤ lastAck ∧ ∃ x ∈ blocks, lastAck + 1 < x.2 := fun hnone =>
      hfresh hne fun i hi => by
        by_contra hgt
        exact hnone i ⟨max_lt hi.1 (by omega), hi.2⟩
    obtain ⟨u₂, hu₂, h₂⟩ := h₁.create hne fun hnone => max_eq_right (hack hnone).1
    obtain ⟨u₃, hu₃, h₃⟩ := h₂.sackBlocks (m := m) (le_max_right _ _) hlt
    refine ⟨u₃, by rw [hu₂, Option.bind_some, hu₃], ?_⟩
    by_cases hsome : ∃ i, (b.ackTo lastAck).Tracked i
    · obtain ⟨i, hi, j, hj, hle⟩ := hsome
      exact Between.represents (b := b.step (.update lastAck blocks)) h₃ (Or.inl hj) (hi.trans_le hle)
    · obtain ⟨ha, x, hx, hxr⟩ := hack (not_exists.mp hsome)
      refine Between.represents (b := b.step (.update lastAck blocks)) (i := x.2 - 1) h₃
        (Or.inr ⟨x, hx, by have := hlt x hx; omega, by omega⟩) ?_
      change max b.acked lastAck < x.2 - 1
      omega

/-- `MarkRetran`. -/
theorem markRetran {sndNxt : Option ℤ} (h : s.Represents b)
    (hadm : b.Admits s.sbsize (.markRetran i sndNxt)) :
    (s.markRetran i sndNxt).Represents (b.step (.markRetran i sndNxt)) := by
  have hfit := h.window.fits
  obtain ⟨x, hx, hset⟩ : ∃ x : ScoreBoardNode,
      (x.seqNo = (s.node i).seqNo ∧ x.ackFlag = (s.node i).ackFlag ∧
        x.sackFlag = (s.node i).sackFlag ∧ x.retran = true) ∧
      s.markRetran i sndNxt = s.set i x := by
    cases sndNxt with
    | none => exact ⟨{ s.node i with retran := true }, ⟨rfl, rfl, rfl, rfl⟩, rfl⟩
    | some n => exact ⟨{ s.node i with retran := true, sndNxt := n }, ⟨rfl, rfl, rfl, rfl⟩, rfl⟩
  obtain ⟨hseq, hackf, hsackf, hretran⟩ := hx
  rw [hset]
  refine ⟨h.two, ⟨h.window.nonneg, hfit, fun j h₁ h₂ => ?_⟩, h.tracked, fun j hj hlt => ?_⟩
  · have hj := h.window.holds j h₁ h₂
    rcases hadm with htr | ⟨-, hfree⟩
    · obtain ⟨h₃, h₄⟩ := (h.tracked i).mp htr
      rw [h.window.node_set h₃ h₄.le h₁ (show j < s.first + s.length from h₂).le]
      split_ifs with he
      · subst he
        exact ⟨hseq.trans hj.seq, hackf.trans hj.ack, by rw [hsackf]; exact hj.sack,
          by simp [hretran, Board.step]⟩
      · exact ⟨hj.seq, hj.ack, hj.sack, hj.retran.trans (by simp [Board.step, he])⟩
    · have hne := hfree j ((h.tracked j).mpr ⟨h₁, h₂⟩)
      have hnode : (s.set i x).node j = s.node j := Ring.write_of_ne hne
      have hij : j ≠ i := fun he => hne (by rw [he])
      rw [hnode]
      exact ⟨hj.seq, hj.ack, hj.sack, hj.retran.trans (by simp [Board.step, hij])⟩
  · rcases hj with rfl | hj
    · rcases hadm with htr | ⟨hle, -⟩
      · exact htr
      · exact absurd hlt (by simpa [Board.step] using hle)
    · exact h.retran j hj hlt

/-- `ClearScoreBoard`. -/
theorem clearScoreBoard (h : s.Represents b) : s.clearScoreBoard.Represents (b.step .clear) where
  two := h.two
  window := ⟨le_rfl, by
    have := h.two
    simp only [ScoreBoard.clearScoreBoard]
    omega, fun i h₁ h₂ => by simp only [ScoreBoard.clearScoreBoard] at h₁ h₂; omega⟩
  tracked i := by simp [Board.Tracked, Board.step, ScoreBoard.clearScoreBoard]
  retran i hi := hi.elim

/-- A call does not exit, and does what it says. -/
theorem step (h : s.Represents b) {c : Call} (hadm : b.Admits s.sbsize c) :
    ∃ s', s.step m c = some s' ∧ s'.Represents (b.step c) := by
  cases c with
  | update lastAck blocks =>
      obtain ⟨u, hu, hrep⟩ := h.updateScoreBoard (m := m) hadm
      exact ⟨u.toScoreBoard, by rw [ScoreBoard.step, hu]; rfl, hrep⟩
  | markRetran i sndNxt => exact ⟨_, rfl, h.markRetran hadm⟩
  | clear => exact ⟨_, rfl, h.clearScoreBoard⟩

/-- The loop of `GetNextRetran` stops at the least missing packet. -/
theorem nextRetranFrom (h : s.Represents b) (hi : i + n = s.first + s.length)
    (hf : s.first ≤ i) (hlt : ∀ j ∈ b.missing, i ≤ j) :
    b.IsNextRetran (nextRetranFrom s n i) := by
  induction n generalizing i with
  | zero =>
      refine Or.inr ⟨Set.eq_empty_of_forall_notMem fun j hj => ?_, rfl⟩
      have := hlt j hj
      have := (h.tracked j).mp hj.1
      omega
  | succ n ih =>
      push_cast at hi
      have hx := h.window.holds i hf (by omega)
      rw [ScoreBoard.nextRetranFrom]
      split_ifs with hc
      · simp only [Bool.and_eq_true, Bool.not_eq_true', ← Bool.not_eq_true, hx.sack, hx.retran] at hc
        exact Or.inl ⟨⟨(h.tracked i).mpr ⟨hf, by omega⟩, hc.1.2, hc.2⟩, hlt⟩
      · refine ih (by omega) (by omega) fun j hj => ?_
        rcases (hlt j hj).eq_or_lt with rfl | hgt
        · refine absurd ?_ hc
          simp only [Bool.and_eq_true, Bool.not_eq_true', ← Bool.not_eq_true, hx.sack, hx.retran]
          exact ⟨⟨by simp [hx.ack], hj.2.1⟩, hj.2.2⟩
        · omega

/-- `GetNextRetran`. -/
theorem getNextRetran (h : s.Represents b) : b.IsNextRetran s.getNextRetran := by
  have hn := h.window.nonneg
  rw [ScoreBoard.getNextRetran]
  split_ifs with hz
  · rw [h.window.firstSeq (by omega)]
    exact h.nextRetranFrom (by omega) le_rfl fun j hj => ((h.tracked j).mp hj.1).1
  · refine Or.inr ⟨Set.eq_empty_of_forall_notMem fun j hj => ?_, rfl⟩
    have := (h.tracked j).mp hj.1
    omega

end Represents

end ScoreBoard

/-! ### Runs of calls -/

/-- The scoreboard and the board after a run of calls of `Board.Admits`. -/
inductive ScoreBoard.Run (fresh : ℤ → ℤ → ScoreBoardNode) : ScoreBoard → Board → Prop
  | init (sbn : ℤ → ScoreBoardNode) {sz : ℤ} (h : 2 ≤ sz) : Run fresh (.init sbn sz) .init
  | step {s s' : ScoreBoard} {b : Board} {c : ScoreBoard.Call} (h : Run fresh s b)
      (hadm : b.Admits s.sbsize c) (hs : s.step fresh c = some s') : Run fresh s' (b.step c)

namespace ScoreBoard

variable {fresh : ℤ → ℤ → ScoreBoardNode} {s : ScoreBoard} {b : Board}

theorem Run.represents (h : Run fresh s b) : s.Represents b := by
  induction h with
  | init sbn h => exact init_represents h
  | step _ hadm hs ih =>
      obtain ⟨s', hs', hrep⟩ := ih.step (m := fresh) hadm
      rw [hs] at hs'
      cases hs'
      exact hrep

/-- **The ring of the scoreboard.**  After a run of calls of `Board.Admits` the window is the
tracked packets; the cell of each holds the packet with its flags, whether or not the array was
made larger; `GetNextRetran` is the least tracked packet that is neither SACKed nor sent again;
and no further call exits. -/
theorem score_board (h : Run fresh s b) :
    (∀ i, b.Tracked i ↔ s.first ≤ i ∧ i < s.first + s.length) ∧
      (∀ i, b.Tracked i → (s.node i).seqNo = i ∧ (s.node i).ackFlag = false ∧
        ((s.node i).sackFlag = true ↔ i ∈ b.sacked) ∧
        ((s.node i).retran = true ↔ i ∈ b.retran)) ∧
      b.IsNextRetran s.getNextRetran ∧
      ∀ c, b.Admits s.sbsize c → (s.step fresh c).isSome := by
  have hrep := h.represents
  refine ⟨hrep.tracked, fun i hi => ?_, hrep.getNextRetran, fun c hadm => ?_⟩
  · obtain ⟨h₁, h₂⟩ := (hrep.tracked i).mp hi
    have hx := hrep.window.holds i h₁ h₂
    exact ⟨hx.seq, hx.ack, hx.sack, hx.retran⟩
  · obtain ⟨s', hs', -⟩ := hrep.step (m := fresh) hadm
    simp [hs']

/-- Packets 12 and 13 are SACKed on 10: 11 is the one to send again. -/
theorem score_board_hole :
    ∃ s, (init (fun _ => .new 0) 1024).step (fun _ _ => .new 0) (.update 10 [(12, 14)]) = some s ∧
      s.getNextRetran = 11 := by
  have hinit : Run (fun _ _ => .new 0) (init (fun _ => .new 0) 1024) .init :=
    .init _ (by decide)
  have hadm : Board.init.Admits 1024 (.update 10 [(12, 14)]) :=
    ⟨by simp, fun _ _ => ⟨by decide, by simp⟩⟩
  obtain ⟨s, hs⟩ := Option.isSome_iff_exists.mp ((score_board hinit).2.2.2 _ hadm)
  have hmem : ∀ i, i ∈ (Board.init.step (.update 10 [(12, 14)])).missing ↔ i = 11 := by
    intro i
    simp only [Board.missing, Board.Tracked, Board.step, Board.sack, Board.ackTo, Board.init,
      Board.covered, Set.mem_ofPred_eq, List.mem_singleton, exists_eq_left, Set.empty_union,
      Set.empty_sdiff, Set.mem_empty_iff_false, not_false_iff, and_true]
    constructor
    · rintro ⟨⟨h₁, j, h₂, h₃⟩, h₄⟩
      omega
    · rintro rfl
      exact ⟨⟨by omega, 12, by omega⟩, by omega⟩
  refine ⟨s, hs, ?_⟩
  rcases (score_board (hinit.step hadm hs)).2.2.1 with hleast | ⟨hnone, -⟩
  · exact (hmem _).mp hleast.1
  · exact absurd ((hmem 11).mpr rfl) (by simp [hnone])

/-- The scoreboard is empty and the only block is below the cumulative ack: packet 11 is to be
sent again though nothing above it has arrived. -/
theorem phantom_entry :
    ∃ s, (init (fun _ => .new 0) 1024).step (fun _ _ => .new 0) (.update 10 [(3, 4)]) = some s ∧
      s.getNextRetran = 11 ∧
      ¬ (Board.init.step (.update 10 [(3, 4)])).IsNextRetran s.getNextRetran := by
  have hnone : (Board.init.step (.update 10 [(3, 4)])).missing = ∅ := by
    refine Set.eq_empty_of_forall_notMem fun i hi => ?_
    obtain ⟨⟨h₁, j, hj | ⟨x, hx, h₂, h₃⟩, hle⟩, -⟩ := hi
    · exact hj
    · rw [List.mem_singleton] at hx
      subst hx
      simp only [Board.step, Board.sack, Board.ackTo, Board.init] at h₁
      omega
  refine ⟨_, rfl, by decide, ?_⟩
  rintro (hleast | ⟨-, hr⟩)
  · exact absurd hleast.1 (by simp [hnone])
  · exact absurd hr (by decide)

end ScoreBoard

end Afabric
