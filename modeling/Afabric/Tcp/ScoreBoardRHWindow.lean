import Afabric.Tcp.ScoreBoardRH
import Mathlib.Algebra.Order.BigOperators.Group.Finset

/-!
# Tcp — the window of the rate-halving scoreboard

`Window s f S` says that the window starts at packet `f` and that its cells hold their packets, with
the SACK flags of `S`; `Holds` adds that the retransmissions counted over and those still marked in
the window are at most `K`.  Every loop of the calls is over entries of the window, and changes one
of them at a time (`Holds.entry`).
-/

namespace Afabric

namespace ScoreBoardNodeRH

/-- The entry of packet `i`, with the SACK flag of `S`. -/
structure Entry (x : ScoreBoardNodeRH) (i : ℤ) (S : Set ℤ) : Prop where
  seq : x.seqNo = i
  ack : x.ackFlag = false
  sack : x.sackFlag = true ↔ i ∈ S

/-- One for an entry marked as sent again. -/
def one (x : ScoreBoardNodeRH) : ℤ := if x.retran then 1 else 0

variable {x : ScoreBoardNodeRH}

theorem one_nonneg : 0 ≤ x.one := by
  rw [one]
  split <;> decide

theorem one_of_retran (h : x.retran = true) : x.one = 1 := if_pos h

end ScoreBoardNodeRH

namespace ScoreBoardRH

variable {s s' : ScoreBoardRH} {u u' : Updating} {S S' : Set ℤ} {f i j l r lastAck rhId K : ℤ}
  {x : ScoreBoardNodeRH}

/-- Two packets less than `SBSIZE` apart have different cells. -/
theorem node_set (h : |j - i| < SBSIZE) (x : ScoreBoardNodeRH) :
    (s.set i x).node j = if j = i then x else s.node j := by
  have hinj := Ring.emod_injOn (a := min i j) (b := min i j + SBSIZE) (n := SBSIZE) (by omega)
  have := abs_lt.mp h
  exact Ring.write_apply (c := s.sbn) hinj (Set.mem_Ico.mpr ⟨by omega, by omega⟩)
    (Set.mem_Ico.mpr ⟨by omega, by omega⟩) x

theorem node_congr (h : i % SBSIZE = j % SBSIZE) : s.node i = s.node j := by
  rw [node, node, h]

/-- The window starts at packet `f`. -/
structure Window (s : ScoreBoardRH) (f : ℤ) (S : Set ℤ) : Prop where
  nonneg : 0 ≤ s.length
  fits : s.length < SBSIZE
  first : s.first = f % SBSIZE
  entry : ∀ i, f ≤ i → i < f + s.length → (s.node i).Entry i S

/-- How many entries of the window are marked as sent again. -/
noncomputable def live (s : ScoreBoardRH) (f : ℤ) : ℤ :=
  ∑ i ∈ Finset.Ico f (f + s.length), (s.node i).one

/-- A window, and the retransmissions. -/
structure Updating.Holds (u : Updating) (f : ℤ) (S : Set ℤ) (K : ℤ) : Prop where
  window : u.Window f S
  live : u.retranDecr + u.live f ≤ K

namespace Window

theorem firstSeq (h : s.Window f S) (hl : 0 < s.length) : s.firstSeq = f := by
  have hnode : s.node s.first = s.node f := node_congr (by rw [h.first, Int.emod_emod])
  rw [ScoreBoardRH.firstSeq, hnode]
  exact (h.entry f le_rfl (by omega)).seq

/-- The last entry stored is the one before the end. -/
theorem lastSeq_eq (h : s.Window f S) : s.lastSeq = (s.node (f + s.length - 1)).seqNo := by
  have hmod : (s.first + s.length + SBSIZE - 1) % SBSIZE = (f + s.length - 1) % SBSIZE := by
    have hsum : s.first + s.length + SBSIZE - 1 = s.first + (s.length - 1) + SBSIZE := by ring
    have hsum' : f + s.length - 1 = f + (s.length - 1) := by ring
    rw [hsum, Int.add_emod_right, h.first, Int.emod_add_emod, hsum']
  rw [ScoreBoardRH.lastSeq, node_congr hmod]

theorem lastSeq (h : s.Window f S) (hl : 0 < s.length) : s.lastSeq = f + s.length - 1 := by
  rw [h.lastSeq_eq]
  exact (h.entry _ (by omega) (by omega)).seq

/-- A write inside the window or at its end. -/
theorem node_set (h : s.Window f S) (hi : f ≤ i) (hi' : i ≤ f + s.length) (hj : f ≤ j)
    (hj' : j ≤ f + s.length) (x : ScoreBoardNodeRH) :
    (s.set i x).node j = if j = i then x else s.node j := by
  have := h.fits
  exact ScoreBoardRH.node_set (abs_lt.mpr ⟨by omega, by omega⟩) x

/-- One entry of the window is another. -/
theorem live_set (h : s.Window f S) (hi : f ≤ i) (hi' : i < f + s.length) (x : ScoreBoardNodeRH) :
    (s.set i x).live f + (s.node i).one = s.live f + x.one := by
  have hmem : i ∈ Finset.Ico f (f + s.length) := Finset.mem_Ico.mpr ⟨hi, hi'⟩
  have hrest : ∀ j ∈ (Finset.Ico f (f + s.length)).erase i,
      ((s.set i x).node j).one = (s.node j).one := by
    intro j hj
    obtain ⟨hne, hj⟩ := Finset.mem_erase.mp hj
    obtain ⟨h₁, h₂⟩ := Finset.mem_Ico.mp hj
    rw [h.node_set hi hi'.le h₁ h₂.le, if_neg hne]
  have hself : (s.set i x).node i = x := by rw [h.node_set hi hi'.le hi hi'.le, if_pos rfl]
  have hold := Finset.add_sum_erase _ (fun j => (s.node j).one) hmem
  have hnew := Finset.add_sum_erase _ (fun j => ((s.set i x).node j).one) hmem
  rw [Finset.sum_congr rfl hrest, hself] at hnew
  have hlive : s.live f = ∑ j ∈ Finset.Ico f (f + s.length), (s.node j).one := rfl
  have hlive' : (s.set i x).live f =
      ∑ j ∈ Finset.Ico f (f + s.length), ((s.set i x).node j).one := rfl
  rw [hlive, hlive', ← hold, ← hnew]
  ring

end Window

theorem live_nonneg : 0 ≤ s.live f := Finset.sum_nonneg fun _ _ => ScoreBoardNodeRH.one_nonneg

namespace Updating.Holds

/-- **A change of one entry of the window.** -/
theorem entry (h : u.Holds f S K) (hi : f ≤ i) (hi' : i < f + u.length) (hx : x.Entry i S')
    (hS : ∀ j, j ≠ i → (j ∈ S' ↔ j ∈ S)) (hfirst : u'.first = u.first)
    (hlength : u'.length = u.length) (hsbn : u'.sbn = (u.set i x).sbn)
    (hdecr : u'.retranDecr + x.one ≤ u.retranDecr + (u.node i).one) : u'.Holds f S' K := by
  have hnode : ∀ j, u'.node j = (u.set i x).node j := fun j => by
    rw [node, node, hsbn]
  refine ⟨⟨hlength ▸ h.window.nonneg, hlength ▸ h.window.fits, hfirst.trans h.window.first, ?_⟩, ?_⟩
  · intro j h₁ h₂
    rw [hlength] at h₂
    rw [hnode, h.window.node_set hi hi'.le h₁ h₂.le]
    split
    next heq =>
      rw [heq]
      exact hx
    next hne =>
      have hj := h.window.entry j h₁ h₂
      exact ⟨hj.seq, hj.ack, hj.sack.trans (hS j hne).symm⟩
  · have hlive : u'.live f = (u.set i x).live f := by
      rw [ScoreBoardRH.live, ScoreBoardRH.live, hlength]
      exact Finset.sum_congr rfl fun j _ => by rw [hnode]
    have hset := h.window.live_set hi hi' x
    have hbound := h.live
    rw [hlive]
    omega

/-- The entry of a packet that has arrived. -/
theorem arrived (h : u.Holds f S K) (hi : f ≤ i) (hi' : i < f + u.length) (hx : x.Entry i S')
    (hS : ∀ j, j ≠ i → (j ∈ S' ↔ j ∈ S)) (hretran : x.retran = (u.node i).retran) (rhId : ℤ) :
    (u.arrived rhId i x).Holds f S' K ∧ (u.arrived rhId i x).length = u.length := by
  rw [Updating.arrived]
  split
  next hr =>
    have hone : (u.node i).one = 1 := ScoreBoardNodeRH.one_of_retran (hretran ▸ hr)
    refine ⟨h.entry (x := { x with retran := false, sndNxt := 0 }) hi hi'
      ⟨hx.seq, hx.ack, hx.sack⟩ hS rfl rfl rfl ?_, rfl⟩
    rw [hone]
    simp [ScoreBoardNodeRH.one]
  next hr =>
    refine ⟨h.entry hi hi' hx hS rfl rfl rfl ?_, rfl⟩
    rw [ScoreBoardNodeRH.one, ScoreBoardNodeRH.one, hretran]

end Updating.Holds

/-! ### The left edge -/

/-- What `arrived` writes, and counts. -/
theorem arrived_eq (u : Updating) (rhId i : ℤ) (x : ScoreBoardNodeRH) :
    ∃ y, (u.arrived rhId i x).sbn = (u.set i y).sbn ∧ y.seqNo = x.seqNo ∧
      (u.arrived rhId i x).retranDecr = u.retranDecr + x.one := by
  rw [Updating.arrived, ScoreBoardNodeRH.one]
  split
  next => exact ⟨{ x with retran := false, sndNxt := 0 }, rfl, rfl, rfl⟩
  next => exact ⟨x, rfl, rfl, (add_zero _).symm⟩

namespace Updating.Holds

/-- The first entry leaves the window; its cell still tells its packet. -/
theorem ackEntry (h : u.Holds f S K) (hl : 0 < u.length) (rhId : ℤ) :
    (u.ackEntry rhId f).Holds (f + 1) S K ∧ (u.ackEntry rhId f).length = u.length - 1 ∧
      ((u.ackEntry rhId f).node f).seqNo = f := by
  obtain ⟨y, hsbn, hseq, hdecr⟩ :=
    arrived_eq u rhId f { u.node f with ackFlag := true, sackFlag := true }
  have hnode : ∀ j, (u.ackEntry rhId f).node j = (u.set f y).node j := by
    intro j
    rw [node, node, ← hsbn]
    rfl
  have hother : ∀ j, f + 1 ≤ j → j < f + u.length → (u.ackEntry rhId f).node j = u.node j := by
    intro j h₁ h₂
    rw [hnode, h.window.node_set le_rfl (by omega) (by omega) h₂.le, if_neg (by omega)]
  refine ⟨⟨⟨?_, ?_, ?_, ?_⟩, ?_⟩, rfl, ?_⟩
  · change 0 ≤ u.length - 1
    omega
  · have := h.window.fits
    change u.length - 1 < SBSIZE
    omega
  · change (u.first + 1) % SBSIZE = (f + 1) % SBSIZE
    rw [h.window.first, Int.emod_add_emod]
  · intro j h₁ h₂
    change j < f + 1 + (u.length - 1) at h₂
    rw [hother j h₁ (by omega)]
    exact h.window.entry j (by omega) (by omega)
  · have hwin : Finset.Ico (f + 1) (f + 1 + (u.length - 1)) =
        (Finset.Ico f (f + u.length)).erase f := by
      ext j
      rw [Finset.mem_erase, Finset.mem_Ico, Finset.mem_Ico]
      omega
    have hlive : (u.ackEntry rhId f).live (f + 1) =
        ∑ j ∈ (Finset.Ico f (f + u.length)).erase f, (u.node j).one := by
      have hsum : (u.ackEntry rhId f).live (f + 1) =
          ∑ j ∈ Finset.Ico (f + 1) (f + 1 + (u.length - 1)), ((u.ackEntry rhId f).node j).one := rfl
      rw [hsum, hwin]
      refine Finset.sum_congr rfl fun j hj => ?_
      obtain ⟨hne, hj⟩ := Finset.mem_erase.mp hj
      obtain ⟨h₁, h₂⟩ := Finset.mem_Ico.mp hj
      rw [hother j (by omega) h₂]
    have hold := Finset.add_sum_erase _ (fun j => (u.node j).one)
      (Finset.mem_Ico.mpr ⟨le_refl f, (by omega : f < f + u.length)⟩)
    have hbound := h.live
    have hdecr' : (u.ackEntry rhId f).retranDecr = u.retranDecr + (u.node f).one := hdecr
    rw [ScoreBoardRH.live, ← hold] at hbound
    rw [hlive, hdecr']
    omega
  · rw [hnode, h.window.node_set le_rfl (by omega) le_rfl (by omega), if_pos rfl, hseq]
    exact (h.window.entry f le_rfl (by omega)).seq

/-- The loop that advances the left edge stops behind the cumulative ack, or at the end of the
window, and the entry before it is the one last seen. -/
theorem advanceFrom {n : ℕ} (h : u.Holds f S K) (hl : 0 < u.length) (hn : n = lastAck + 1 - f)
    (rhId : ℤ) :
    ∃ u' f', advanceFrom lastAck rhId n f u = some u' ∧ u'.Holds f' S K ∧
      f' = min (lastAck + 1) (f + u.length) ∧ f' + u'.length = f + u.length ∧
      u'.lastSeq = f' + u'.length - 1 := by
  induction n generalizing u f with
  | zero =>
    refine ⟨u, f, rfl, h, ?_, rfl, h.window.lastSeq hl⟩
    push_cast at hn
    omega
  | succ n ih =>
    push_cast at hn
    have hseq := (h.window.entry f le_rfl (by omega)).seq
    obtain ⟨hnext, hlen, hlast⟩ := h.ackEntry hl rhId
    rw [ScoreBoardRH.advanceFrom, if_pos (by omega), if_neg (not_not.mpr h.window.first),
      if_neg (by omega)]
    by_cases hone : u.length - 1 = 0
    · rw [if_pos hone]
      refine ⟨_, f + 1, rfl, hnext, by omega, by omega, ?_⟩
      have hend : f + 1 + (u.ackEntry rhId f).length - 1 = f := by omega
      rw [hnext.window.lastSeq_eq, hend, hlast]
    · rw [if_neg hone]
      obtain ⟨u', f', hrun, h', hf', hlen', hlast'⟩ := ih hnext (by omega) (by omega)
      exact ⟨u', f', hrun, h', by omega, by omega, hlast'⟩

/-- "Advance the left edge of the block." -/
theorem advance (h : u.Holds f S K) (hl : 0 < u.length) (lastAck rhId : ℤ) :
    ∃ u' f', advance lastAck rhId u = some u' ∧ u'.Holds f' S K ∧
      f' = max f (min (lastAck + 1) (f + u.length)) ∧ f' + u'.length = f + u.length ∧
      u'.lastSeq = f' + u'.length - 1 := by
  rw [ScoreBoardRH.advance, h.window.firstSeq hl]
  split
  next hle =>
    have hn : ((lastAck + 1 - f).toNat : ℤ) = lastAck + 1 - f := by omega
    obtain ⟨u', f', hrun, h', hf', hlen, hlast⟩ := h.advanceFrom hl hn rhId
    exact ⟨u', f', hrun, h', by omega, hlen, hlast⟩
  next hgt => exact ⟨u, f, rfl, h, by omega, rfl, h.window.lastSeq hl⟩

end Updating.Holds

/-! ### The right edge -/

/-- A new entry at the end of the window. -/
theorem Window.append (h : s.Window f S) (hfit : s.length + 1 < SBSIZE) (hS : f + s.length ∉ S) :
    Window { s.set (f + s.length) (.new (f + s.length)) with length := s.length + 1 } f S ∧
      live { s.set (f + s.length) (.new (f + s.length)) with length := s.length + 1 } f =
        s.live f := by
  have hn := h.nonneg
  have hold : ∀ j, f ≤ j → j < f + s.length →
      (s.set (f + s.length) (.new (f + s.length))).node j = s.node j := by
    intro j h₁ h₂
    rw [h.node_set (by omega) le_rfl h₁ h₂.le, if_neg (by omega)]
  have hnew : (s.set (f + s.length) (.new (f + s.length))).node (f + s.length) =
      .new (f + s.length) := by
    rw [h.node_set (by omega) le_rfl (by omega) le_rfl, if_pos rfl]
  refine ⟨⟨?_, hfit, h.first, fun j h₁ h₂ => ?_⟩, ?_⟩
  · dsimp only
    omega
  · dsimp only at h₂
    change ((s.set (f + s.length) (.new (f + s.length))).node j).Entry j S
    by_cases heq : j = f + s.length
    · rw [heq, hnew]
      exact ⟨rfl, rfl, by simp [ScoreBoardNodeRH.new, hS]⟩
    · rw [hold j h₁ (by omega)]
      exact h.entry j h₁ (by omega)
  · have hwin : Finset.Ico f (f + (s.length + 1)) =
        insert (f + s.length) (Finset.Ico f (f + s.length)) := by
      ext j
      rw [Finset.mem_insert, Finset.mem_Ico, Finset.mem_Ico]
      omega
    have hsum : live { s.set (f + s.length) (.new (f + s.length)) with length := s.length + 1 } f =
        ∑ j ∈ Finset.Ico f (f + (s.length + 1)),
          ((s.set (f + s.length) (.new (f + s.length))).node j).one := rfl
    have hnot : f + s.length ∉ Finset.Ico f (f + s.length) := by
      rw [Finset.mem_Ico]
      omega
    rw [hsum, hwin, Finset.sum_insert hnot, hnew]
    have hrest : ∀ j ∈ Finset.Ico f (f + s.length),
        ((s.set (f + s.length) (.new (f + s.length))).node j).one = (s.node j).one := by
      intro j hj
      obtain ⟨h₁, h₂⟩ := Finset.mem_Ico.mp hj
      rw [hold j h₁ h₂]
    rw [Finset.sum_congr rfl hrest]
    exact zero_add _

/-- "Create new entries off the right side", unless they are too many. -/
theorem Window.extend (h : s.Window f S) (hlast : s.lastSeq = f + s.length - 1)
    (hS : ∀ j ∈ S, j < f + s.length) (r : ℤ) :
    (extend r s = none ∧ SBSIZE ≤ r - f) ∨
      ∃ s', extend r s = some s' ∧ s'.Window f S ∧ s'.live f = s.live f ∧
        s'.length = max s.length (r - f) := by
  have hn := h.nonneg
  rw [ScoreBoardRH.extend, hlast]
  split
  next hgt =>
    have hinv := intLoop_induct (s := some s) (fun i o => o.bind (create i))
      (fun i o => (o = none ∧ SBSIZE ≤ r - f) ∨ ∃ s', o = some s' ∧ s'.Window f S ∧
        s'.live f = s.live f ∧ f + s'.length = i) (by omega : f + s.length - 1 + 1 ≤ r)
      (.inr ⟨s, rfl, h, rfl, by omega⟩) ?_
    · rcases hinv with hnone | ⟨s', hs', hw, hlive, hlen⟩
      · exact .inl hnone
      · exact .inr ⟨s', hs', hw, hlive, by omega⟩
    · rintro i o hlo hhi (⟨rfl, hbig⟩ | ⟨s', rfl, hw, hlive, rfl⟩)
      · exact .inl ⟨rfl, hbig⟩
      · rw [Option.bind_some, create]
        by_cases hbig : s'.length + 1 ≥ SBSIZE
        · exact .inl ⟨if_pos hbig, by omega⟩
        · rw [if_neg hbig]
          have hnot : f + s'.length ∉ S := fun hj => by
            have := hS _ hj
            omega
          obtain ⟨hw', hlive'⟩ := hw.append (by omega) hnot
          exact .inr ⟨_, rfl, hw', hlive'.trans hlive, by dsimp only; omega⟩
  next hle => exact .inr ⟨s, rfl, h, rfl, by omega⟩

/-! ### The SACK blocks -/

/-- The packets of `S`, and those of the block below packet `i`. -/
def below (S : Set ℤ) (l r i : ℤ) : Set ℤ := S ∪ {j | l ≤ j ∧ j < r ∧ j < i}

theorem mem_below : j ∈ below S l r i ↔ j ∈ S ∨ l ≤ j ∧ j < r ∧ j < i := Iff.rfl

namespace Updating.Holds

/-- Only the SACK flags of the window matter. -/
theorem congr (h : u.Holds f S K) (hS : ∀ j, f ≤ j → j < f + u.length → (j ∈ S' ↔ j ∈ S)) :
    u.Holds f S' K :=
  ⟨⟨h.window.nonneg, h.window.fits, h.window.first, fun j h₁ h₂ =>
    let hj := h.window.entry j h₁ h₂
    ⟨hj.seq, hj.ack, hj.sack.trans (hS j h₁ h₂).symm⟩⟩, h.live⟩

/-- The marks of a SACK block on one entry. -/
theorem sackEntry (h : u.Holds f (below S l r i) K) (hi : f ≤ i) (hi' : i < f + u.length)
    (rhId : ℤ) :
    (u.sackEntry rhId l r i).Holds f (below S l r (i + 1)) K ∧
      (u.sackEntry rhId l r i).length = u.length := by
  have hx := h.window.entry i hi hi'
  have hseq : (u.node i).seqNo ≥ l ∧ (u.node i).seqNo < r ↔ i ≥ l ∧ i < r := by rw [hx.seq]
  rw [Updating.sackEntry]
  by_cases hc : i ≥ l ∧ i < r
  · rw [if_pos (hseq.mpr hc)]
    refine h.arrived (x := { u.node i with sackFlag := true }) hi hi' ⟨hx.seq, hx.ack, ?_⟩
      (fun j hne => ?_) rfl rhId
    · rw [mem_below]
      exact ⟨fun _ => .inr ⟨hc.1, hc.2, lt_add_one i⟩, fun _ => rfl⟩
    · rw [mem_below, mem_below]
      have hlt : j < i + 1 ↔ j < i := by omega
      rw [hlt]
  · rw [if_neg fun e => hc (hseq.mp e)]
    refine ⟨h.congr fun j h₁ h₂ => ?_, rfl⟩
    rw [mem_below, mem_below]
    have hlt : l ≤ j ∧ j < r ∧ j < i + 1 ↔ l ≤ j ∧ j < r ∧ j < i := by omega
    rw [hlt]

theorem sackEntries (h : u.Holds f S K) (hr : f ≤ r) (hr' : r ≤ f + u.length) (l rhId : ℤ) :
    (intLoop f r (Updating.sackEntry rhId l r) u).Holds f (S ∪ Set.Ico l r) K ∧
      (intLoop f r (Updating.sackEntry rhId l r) u).length = u.length := by
  have h0 : u.Holds f (below S l r f) K := by
    refine h.congr fun j h₁ _ => ?_
    rw [mem_below]
    exact ⟨fun hor => hor.resolve_right (by omega), .inl⟩
  obtain ⟨hend, hlen⟩ := intLoop_induct (Updating.sackEntry rhId l r)
    (fun i v => v.Holds f (below S l r i) K ∧ v.length = u.length) hr ⟨h0, rfl⟩ (by
      rintro i v hlo hhi ⟨hv, hlen⟩
      obtain ⟨hv', hlen'⟩ := hv.sackEntry hlo (by omega) rhId
      exact ⟨hv', hlen'.trans hlen⟩)
  refine ⟨hend.congr fun j _ _ => ?_, hlen⟩
  rw [mem_below, Set.mem_union, Set.mem_Ico]
  have hall : l ≤ j ∧ j < r ↔ l ≤ j ∧ j < r ∧ j < r := by omega
  rw [hall]

end Updating.Holds

/-- Between two blocks: the last entry stored is at the end of the window, and no packet beyond is
SACKed. -/
structure Updating.Between (u : Updating) (f : ℤ) (S : Set ℤ) (K : ℤ) : Prop extends
    u.Holds f S K where
  last : u.lastSeq = f + u.length - 1
  sacked : ∀ j ∈ S, j < f + u.length

/-- The packets of the SACK blocks. -/
def covered (blocks : List (ℤ × ℤ)) : Set ℤ := {i | ∃ b ∈ blocks, b.1 ≤ i ∧ i < b.2}

namespace Updating.Between

variable {b : ℤ × ℤ} {blocks : List (ℤ × ℤ)}

/-- A SACK block, unless the window gets too large. -/
theorem sackBlock (h : u.Between f S K) (hb : f < b.2) (rhId : ℤ) :
    (sackBlock rhId u b = none ∧ SBSIZE ≤ b.2 - f) ∨
      ∃ u', sackBlock rhId u b = some u' ∧ u'.Between f (S ∪ Set.Ico b.1 b.2) K ∧
        u'.length = max u.length (b.2 - f) := by
  have hn := h.window.nonneg
  rw [ScoreBoardRH.sackBlock]
  rcases h.window.extend h.last h.sacked b.2 with ⟨hnone, hbig⟩ | ⟨s', hs', hw, hlive, hlen⟩
  · exact .inl ⟨by rw [hnone, Option.map_none], hbig⟩
  · rw [hs', Option.map_some, hw.firstSeq (by omega)]
    have h' : Holds { u with toScoreBoardRH := s' } f S K := ⟨hw, by
      have := h.live
      change u.retranDecr + s'.live f ≤ K
      omega⟩
    obtain ⟨hmark, hlen'⟩ := h'.sackEntries hb.le (by dsimp only; omega) b.1 rhId
    have hlen'' := hlen'.trans hlen
    refine .inr ⟨_, rfl, ⟨hmark, hmark.window.lastSeq (by omega), ?_⟩, hlen''⟩
    rintro j (hj | hj)
    · have := h.sacked j hj
      omega
    · have := (Set.mem_Ico.mp hj).2
      omega

/-- The SACK blocks, unless one of them makes the window too large. -/
theorem sackBlocks (h : u.Between f S K) (hb : ∀ b ∈ blocks, f < b.2) (rhId : ℤ) :
    (blocks.foldlM (ScoreBoardRH.sackBlock rhId) u = none ∧ ∃ b ∈ blocks, SBSIZE ≤ b.2 - f) ∨
      ∃ u', blocks.foldlM (ScoreBoardRH.sackBlock rhId) u = some u' ∧
        u'.Between f (S ∪ covered blocks) K ∧ u.length ≤ u'.length ∧
        ∀ b ∈ blocks, b.2 ≤ f + u'.length := by
  induction blocks generalizing u S with
  | nil =>
    refine .inr ⟨u, rfl, ?_, le_rfl, List.forall_mem_nil _⟩
    have hnone : covered [] = ∅ := by
      ext i
      simp [covered]
    rw [hnone, Set.union_empty]
    exact h
  | cons b blocks ih =>
    rw [List.foldlM_cons]
    rcases h.sackBlock (hb b List.mem_cons_self) rhId with ⟨hnone, hbig⟩ | ⟨v, hv, hv', hlen⟩
    · exact .inl ⟨by rw [hnone]; rfl, b, List.mem_cons_self, hbig⟩
    · rw [hv]
      rcases ih hv' fun b hb' => hb b (List.mem_cons_of_mem _ hb') with
        ⟨hnone, x, hx, hbig⟩ | ⟨w, hw, hw', hle, hall⟩
      · exact .inl ⟨hnone, x, List.mem_cons_of_mem _ hx, hbig⟩
      · refine .inr ⟨w, hw, ?_, by omega, fun x hx => ?_⟩
        · have hcov : covered (b :: blocks) = Set.Ico b.1 b.2 ∪ covered blocks := by
            ext i
            simp [covered]
          rw [hcov, ← Set.union_assoc]
          exact hw'
        · rcases List.mem_cons.mp hx with rfl | hx
          · omega
          · exact hall x hx

end Updating.Between

/-! ### The holes -/

namespace Updating.Holds

/-- A loop over entries of the window that keeps their packets and their SACK flags. -/
theorem loop {body : ℤ → Updating → Updating} (h : u.Holds f S K) (hr : r ≤ f + u.length)
    (hbody : ∀ i v, f ≤ i → i < f + v.length → v.Holds f S K →
      (body i v).Holds f S K ∧ (body i v).length = v.length) :
    (intLoop f r body u).Holds f S K ∧ (intLoop f r body u).length = u.length := by
  by_cases hle : f ≤ r
  · refine intLoop_induct _ (fun _ (v : Updating) => v.Holds f S K ∧ v.length = u.length) hle
      ⟨h, rfl⟩ ?_
    rintro i v h₁ h₂ ⟨hv, hlen⟩
    obtain ⟨hv', hlen'⟩ := hbody i v h₁ (by omega) hv
    exact ⟨hv', hlen'.trans hlen⟩
  · rw [intLoop_of_le (by omega)]
    exact ⟨h, rfl⟩

theorem countEntry (h : u.Holds f S K) (hi : f ≤ i) (hi' : i < f + u.length) :
    (u.countEntry i).Holds f S K ∧ (u.countEntry i).length = u.length := by
  have hx := h.window.entry i hi hi'
  rw [Updating.countEntry]
  split
  next =>
    exact ⟨h.entry hi hi' (x := { u.node i with sackCnt := (u.node i).sackCnt + 1 })
      ⟨hx.seq, hx.ack, hx.sack⟩ (fun _ _ => Iff.rfl) rfl rfl rfl le_rfl, rfl⟩
  next => exact ⟨h, rfl⟩

theorem checkEntry (h : u.Holds f S K) (hi : f ≤ i) (hi' : i < f + u.length) (sackMax : ℤ) :
    (u.checkEntry sackMax i).Holds f S K ∧ (u.checkEntry sackMax i).length = u.length := by
  have hx := h.window.entry i hi hi'
  rw [Updating.checkEntry]
  split
  next hlost =>
    refine ⟨h.entry hi hi' (x := { u.node i with retran := false, sndNxt := 0, sackCnt := 1 })
      ⟨hx.seq, hx.ack, hx.sack⟩ (fun _ _ => Iff.rfl) rfl rfl rfl ?_, rfl⟩
    rw [ScoreBoardNodeRH.one_of_retran hlost.1]
    simp [ScoreBoardNodeRH.one]
  next => exact ⟨h, rfl⟩

theorem recount (h : u.Holds f S K) {sackMax : ℤ} (hmax : sackMax ≤ f + u.length) :
    (recount sackMax u).Holds f S K ∧ (recount sackMax u).length = u.length := by
  have hn := h.window.nonneg
  rw [ScoreBoardRH.recount]
  by_cases hl : u.length = 0
  · rw [if_neg (not_not.mpr hl)]
    exact ⟨h, rfl⟩
  · rw [if_pos hl, h.window.firstSeq (by omega)]
    obtain ⟨h₁, hlen₁⟩ := h.loop hmax fun i v hi hi' hv => hv.countEntry hi hi'
    dsimp only
    rw [h₁.window.firstSeq (by omega)]
    obtain ⟨h₂, hlen₂⟩ := h₁.loop (r := sackMax) (by omega) fun i v hi hi' hv =>
      hv.checkEntry hi hi' sackMax
    exact ⟨h₂, hlen₂.trans hlen₁⟩

/-! ### Timeouts and retransmissions -/

variable {d : ℤ}

theorem clearEntry (h : Holds ⟨s, d⟩ f S K) (hi : f ≤ i) (hi' : i < f + s.length) (numdupacks : ℤ) :
    Holds ⟨s.clearEntry numdupacks i, d⟩ f S K ∧ (s.clearEntry numdupacks i).length = s.length := by
  have hx := h.window.entry i hi hi'
  rw [ScoreBoardRH.clearEntry]
  split
  next =>
    refine ⟨h.entry hi hi'
      (x := { s.node i with retran := false, sndNxt := 0, sackCnt := numdupacks })
      ⟨hx.seq, hx.ack, hx.sack⟩ (fun _ _ => Iff.rfl) rfl rfl rfl ?_, rfl⟩
    have hone : 0 ≤ (s.node i).one := ScoreBoardNodeRH.one_nonneg
    change d + 0 ≤ d + (s.node i).one
    omega
  next => exact ⟨h, rfl⟩

theorem clearEntries (h : Holds ⟨s, d⟩ f S K) (numdupacks : ℤ) :
    Holds ⟨intLoop f (f + s.length) (ScoreBoardRH.clearEntry numdupacks) s, d⟩ f S K ∧
      (intLoop f (f + s.length) (ScoreBoardRH.clearEntry numdupacks) s).length = s.length := by
  have hn : 0 ≤ s.length := h.window.nonneg
  refine intLoop_induct _ (fun _ t => Holds ⟨t, d⟩ f S K ∧ t.length = s.length) (by omega)
    ⟨h, rfl⟩ ?_
  rintro i t hlo hhi ⟨ht, hlen⟩
  obtain ⟨ht', hlen'⟩ := ht.clearEntry hlo (by omega) numdupacks
  exact ⟨ht', hlen'.trans hlen⟩

/-- The first packet of the window no longer counts as SACKed. -/
theorem renege (h : Holds ⟨s, d⟩ f S K) (hl : 0 < s.length) (numdupacks : ℤ) :
    Holds ⟨s.renege numdupacks, d⟩ f (S \ {f}) K ∧ (s.renege numdupacks).length = s.length := by
  have hx := h.window.entry f le_rfl (by dsimp only; omega)
  have hother : ∀ j, j ≠ f → (j ∈ S \ {f} ↔ j ∈ S) := by
    intro j hne
    rw [Set.mem_sdiff, Set.mem_singleton_iff]
    exact ⟨And.left, fun hj => ⟨hj, hne⟩⟩
  rw [ScoreBoardRH.renege, h.window.firstSeq hl]
  split
  next hreneged =>
    refine ⟨h.entry le_rfl (by dsimp only; omega)
      (x := { s.node f with
        sackFlag := false, retran := false, sndNxt := 0, sackCnt := numdupacks })
      ⟨hx.seq, hx.ack, by simp⟩ hother rfl rfl rfl ?_, rfl⟩
    have hone : 0 ≤ (s.node f).one := ScoreBoardNodeRH.one_nonneg
    change d + 0 ≤ d + (s.node f).one
    omega
  next hnot =>
    have hclear : f ∉ S := fun hf => hnot ⟨hx.ack, hx.sack.mpr hf⟩
    refine ⟨h.congr fun j _ _ => ?_, rfl⟩
    by_cases hj : j = f
    · rw [hj]
      exact ⟨And.left, fun hf => absurd hf hclear⟩
    · exact hother j hj

/-- `TimeoutScoreBoard`, unless it extends the window too far. -/
theorem timeoutScoreBoard (h : Holds ⟨s, d⟩ f S K) (hl : 0 < s.length)
    (hS : ∀ j ∈ S, j < f + s.length) (sndNxt numdupacks : ℤ) :
    (s.timeoutScoreBoard sndNxt numdupacks = none ∧ SBSIZE ≤ sndNxt - f) ∨
      ∃ s', s.timeoutScoreBoard sndNxt numdupacks = some s' ∧ Holds ⟨s', d⟩ f (S \ {f}) K ∧
        s.length ≤ s'.length := by
  rw [ScoreBoardRH.timeoutScoreBoard, if_neg (by omega)]
  rcases h.window.extend (h.window.lastSeq hl) hS sndNxt with
    ⟨hnone, hbig⟩ | ⟨t, ht, hw, hlive, hlen⟩
  · exact .inl ⟨by rw [hnone, Option.map_none], hbig⟩
  · change t.length = max s.length (sndNxt - f) at hlen
    have h' : Holds ⟨t, d⟩ f S K := ⟨hw, by
      have := h.live
      change d + s.live f ≤ K at this
      change t.live f = s.live f at hlive
      change d + t.live f ≤ K
      omega⟩
    rw [ht, Option.map_some, hw.firstSeq (by omega)]
    obtain ⟨hclear, hlen₁⟩ := h'.clearEntries numdupacks
    obtain ⟨hren, hlen₂⟩ := hclear.renege (by omega) numdupacks
    exact .inr ⟨_, rfl, hren, by omega⟩

/-- `MarkRetran`, of any packet. -/
theorem markRetran (h : Holds ⟨s, d⟩ f S K) (i sndNxt rhId : ℤ) :
    Holds ⟨s.markRetran i sndNxt rhId, d⟩ f S (K + 1) := by
  by_cases hcell : ∃ j, f ≤ j ∧ j < f + s.length ∧ i % SBSIZE = j % SBSIZE
  · obtain ⟨j, hj, hj', hmod⟩ := hcell
    have hx := h.window.entry j hj hj'
    have hmore : Holds ⟨s, d + 1⟩ f S (K + 1) := ⟨h.window, by
      have hlive := h.live
      change d + s.live f ≤ K at hlive
      change d + 1 + s.live f ≤ K + 1
      omega⟩
    have hsbn : (s.markRetran i sndNxt rhId).sbn =
        (s.set j { s.node j with retran := true, sndNxt := sndNxt, rhId := rhId }).sbn := by
      simp only [ScoreBoardRH.markRetran, set, Ring.write, node, hmod]
    refine hmore.entry hj hj' (x := { s.node j with retran := true, sndNxt := sndNxt, rhId := rhId })
      ⟨hx.seq, hx.ack, hx.sack⟩ (fun _ _ => Iff.rfl) rfl rfl hsbn ?_
    have hone : 0 ≤ (s.node j).one := ScoreBoardNodeRH.one_nonneg
    change d + 1 ≤ d + 1 + (s.node j).one
    omega
  · have hnode : ∀ j, f ≤ j → j < f + s.length →
        (s.markRetran i sndNxt rhId).node j = s.node j := by
      intro j h₁ h₂
      exact Ring.write_of_ne fun heq => hcell ⟨j, h₁, h₂, heq.symm⟩
    refine ⟨⟨h.window.nonneg, h.window.fits, h.window.first, fun j h₁ h₂ => ?_⟩, ?_⟩
    · change ((s.markRetran i sndNxt rhId).node j).Entry j S
      rw [hnode j h₁ h₂]
      exact h.window.entry j h₁ h₂
    · have hlive : (s.markRetran i sndNxt rhId).live f = s.live f := by
        refine Finset.sum_congr rfl fun j hj => ?_
        obtain ⟨h₁, h₂⟩ := Finset.mem_Ico.mp hj
        rw [hnode j h₁ h₂]
      have hbound := h.live
      change d + s.live f ≤ K at hbound
      change d + (s.markRetran i sndNxt rhId).live f ≤ K + 1
      omega

end Updating.Holds

end ScoreBoardRH

end Afabric
