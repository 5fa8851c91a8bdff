import Afabric.Tcp.ScoreBoardRHWindow

/-!
# Tcp — runs of the rate-halving scoreboard

`BoardRH` is what the calls say, with no window: the cumulative ack, the SACKed packets, and the
counts of retransmissions begun and ended.  As long as no update with SACK blocks acks past the last
packet tracked (`Fresh`), the window is of packets beyond the ack and the flags are those of the
SACKed packets (`score_board_rh`); an update that does leaves the window at packets already acked.
-/

namespace Afabric

open ScoreBoardRH

/-- The calls so far. -/
structure BoardRH where
  acked : ℤ := -1
  sacked : Set ℤ := ∅
  /-- The calls of `MarkRetran`. -/
  marks : ℤ := 0
  /-- The sum of the `retran_decr` returned. -/
  ended : ℤ := 0

namespace BoardRH

/-- What a call says.  A timeout that finds the packet after the ack SACKed takes it as reneged. -/
def step (b : BoardRH) (retranDecr : ℤ) : ScoreBoardRH.Call → BoardRH
  | .update lastAck blocks _ =>
    { b with acked := lastAck, sacked := b.sacked ∪ covered blocks, ended := b.ended + retranDecr }
  | .markRetran _ _ _ => { b with marks := b.marks + 1 }
  | .timeout _ _ => { b with sacked := b.sacked \ {b.acked + 1} }

/-- The cumulative acks do not decrease, SACK blocks are beyond them, and fewer than `SBSIZE`
packets are outstanding. -/
def Admits (b : BoardRH) : ScoreBoardRH.Call → Prop
  | .update lastAck blocks _ =>
    b.acked ≤ lastAck ∧ ∀ x ∈ blocks, lastAck < x.1 ∧ x.1 < x.2 ∧ x.2 ≤ lastAck + SBSIZE
  | .markRetran i _ _ => 0 ≤ i
  | .timeout sndNxt _ => sndNxt ≤ b.acked + SBSIZE

end BoardRH

namespace ScoreBoardRH

variable {s : ScoreBoardRH} {b : BoardRH} {c : Call} {f lastAck rhId : ℤ} {blocks : List (ℤ × ℤ)}

/-- An update with SACK blocks does not ack past the last packet tracked. -/
def Fresh (s : ScoreBoardRH) : Call → Prop
  | .update lastAck blocks _ => blocks = [] ∨ s.length = 0 ∨ lastAck ≤ s.lastSeq
  | _ => True

/-- The packets of the window, as `GetNextRetran` passes them. -/
def Tracked (s : ScoreBoardRH) (i : ℤ) : Prop := s.firstSeq ≤ i ∧ i < s.firstSeq + s.length

/-- The window starts after the cumulative ack, and has the SACKed packets beyond it. -/
structure Represents (s : ScoreBoardRH) (b : BoardRH) (f : ℤ) : Prop where
  holds : Updating.Holds ⟨s, b.ended⟩ f b.sacked b.marks
  first : 0 < s.length → f = b.acked + 1
  sacked : ∀ j ∈ b.sacked, b.acked < j → 0 < s.length ∧ j < f + s.length
  acked : -1 ≤ b.acked

theorem init_represents (sbn : ℤ → ScoreBoardNodeRH) (r : ℤ) : (init sbn r).Represents {} 0 where
  holds := by
    refine ⟨⟨le_rfl, (by decide : (0 : ℤ) < SBSIZE), rfl, fun i h₁ h₂ => ?_⟩, ?_⟩
    · change i < 0 + 0 at h₂
      omega
    · change 0 + ∑ i ∈ Finset.Ico (0 : ℤ) (0 + 0), _ ≤ 0
      simp
  first := fun h => absurd h (lt_irrefl _)
  sacked := fun j hj => hj.elim
  acked := le_rfl

/-- The largest right edge. -/
theorem sackMax_le {e : ℤ} (h : ∀ x ∈ blocks, x.2 ≤ e) (he : 0 ≤ e) : sackMax blocks ≤ e := by
  have hfold : ∀ m ≤ e, blocks.foldl (fun m x => if x.2 > m then x.2 else m) m ≤ e := by
    induction blocks with
    | nil => exact fun m hm => hm
    | cons x blocks ih =>
      intro m hm
      refine ih (fun y hy => h y (List.mem_cons_of_mem _ hy)) _ ?_
      dsimp only
      split
      next => exact h x List.mem_cons_self
      next => exact hm
  exact hfold 0 he

namespace Represents

/-- The window that an update starts with. -/
theorem createFirst (h : s.Represents b f) (hack : b.acked ≤ lastAck) :
    ∃ s₁ f₁, createFirst lastAck s = some s₁ ∧
      Updating.Holds ⟨s₁, 0⟩ f₁ b.sacked (b.marks - b.ended) ∧ 0 < s₁.length ∧ 0 ≤ f₁ ∧
      f₁ ≤ lastAck + 1 ∧ (∀ j ∈ b.sacked, j < f₁ + s₁.length) ∧
      (s.length = 0 → f₁ + s₁.length = lastAck + 2) ∧
      (s.length ≠ 0 → f₁ + s₁.length = s.lastSeq + 1) := by
  have hn : 0 ≤ s.length := h.holds.window.nonneg
  have hacked := h.acked
  have hlive := h.holds.live
  change b.ended + s.live f ≤ b.marks at hlive
  rw [ScoreBoardRH.createFirst]
  by_cases hl : s.length = 0
  · have hsmall : ¬ s.length + 1 ≥ SBSIZE := by
      rw [hl]
      decide
    have hempty : Window { s with first := (lastAck + 1) % SBSIZE } (lastAck + 1) b.sacked :=
      ⟨hn, h.holds.window.fits, rfl, fun i h₁ h₂ => by
        change i < lastAck + 1 + s.length at h₂
        omega⟩
    have hnot : ∀ j ∈ b.sacked, j ≤ b.acked := by
      intro j hj
      by_contra hlt
      have := (h.sacked j hj (not_le.mp hlt)).1
      omega
    have hnew : lastAck + 1 + s.length ∉ b.sacked := fun hj => by
      have := hnot _ hj
      omega
    obtain ⟨hw, hlive'⟩ := hempty.append (not_le.mp hsmall) hnew
    have hnone : live { s with first := (lastAck + 1) % SBSIZE } (lastAck + 1) = 0 := by
      change ∑ i ∈ Finset.Ico (lastAck + 1) (lastAck + 1 + s.length), _ = 0
      rw [hl, add_zero, Finset.Ico_self, Finset.sum_empty]
    have hnonneg : 0 ≤ s.live f := live_nonneg
    have hend : lastAck + 1 + s.length = lastAck + 1 := by omega
    rw [hnone] at hlive'
    simp only [hend] at hw hlive'
    rw [if_pos hl, create, if_neg hsmall, Option.map_some]
    refine ⟨_, lastAck + 1, rfl, ⟨hw, ?_⟩, ?_, by omega, le_rfl, ?_, ?_, fun hl' => absurd hl hl'⟩
    · refine le_trans (le_of_eq ?_) (by omega : (0 : ℤ) ≤ b.marks - b.ended)
      exact (zero_add _).trans hlive'
    · dsimp only
      omega
    · intro j hj
      have := hnot j hj
      dsimp only
      omega
    · intro _
      dsimp only
      omega
  · have hpos : 0 < s.length := by omega
    have hfirst := h.first hpos
    have hlast := h.holds.window.lastSeq hpos
    rw [if_neg hl]
    refine ⟨s, f, rfl, ⟨h.holds.window, ?_⟩, hpos, by omega, by omega, ?_, fun h0 => absurd h0 hl, ?_⟩
    · change 0 + s.live f ≤ b.marks - b.ended
      omega
    · intro j hj
      by_cases hj' : b.acked < j
      · exact (h.sacked j hj hj').2
      · omega
    · intro _
      change s.lastSeq = f + s.length - 1 at hlast
      omega

/-- The window that the SACK blocks find. -/
theorem edge (h : s.Represents b f) (hack : b.acked ≤ lastAck) (rhId : ℤ) :
    ∃ s₁ u f', ScoreBoardRH.createFirst lastAck s = some s₁ ∧
      advance lastAck rhId { s₁ with retranDecr := 0 } = some u ∧
      u.Between f' b.sacked (b.marks - b.ended) ∧ 0 ≤ f' ∧ f' ≤ lastAck + 1 ∧
      (0 < u.length → f' = lastAck + 1) ∧ (s.length = 0 → f' = lastAck + 1) ∧
      (s.length ≠ 0 → f' = min (lastAck + 1) (s.lastSeq + 1)) := by
  obtain ⟨s₁, f₁, hs₁, h₁, hl₁, hnonneg, hle, hsacked, hempty, hsome⟩ := h.createFirst hack
  obtain ⟨u, f', hu, hu', hf', hlen, hlast⟩ := h₁.advance hl₁ lastAck rhId
  dsimp only at hf' hlen
  refine ⟨s₁, u, f', hs₁, hu, ⟨hu', hlast, fun j hj => ?_⟩, by omega, by omega,
    fun hl => by omega, fun h0 => ?_, fun h0 => ?_⟩
  · rw [hlen]
    exact hsacked j hj
  · have := hempty h0
    omega
  · have := hsome h0
    omega

end Represents

/-- The rest of an update, from the window that the SACK blocks find. -/
theorem finish {u : Updating} {S : Set ℤ} {K : ℤ} (h : u.Between f S K)
    (hf : 0 ≤ f) (hb : ∀ x ∈ blocks, f < x.2) (rhId : ℤ) :
    ((blocks.foldlM (sackBlock rhId) u).map (recount (sackMax blocks)) = none ∧
        ∃ x ∈ blocks, SBSIZE ≤ x.2 - f) ∨
      ∃ w, (blocks.foldlM (sackBlock rhId) u).map (recount (sackMax blocks)) = some w ∧
        w.Holds f (S ∪ covered blocks) K ∧ (∀ j ∈ S ∪ covered blocks, j < f + w.length) ∧
        (∀ x ∈ blocks, x.2 ≤ f + w.length) ∧ (blocks = [] → w.length = u.length) := by
  have hn := h.window.nonneg
  rcases h.sackBlocks hb rhId with ⟨hnone, hbig⟩ | ⟨v, hv, hv', hle, hall⟩
  · exact .inl ⟨by rw [hnone, Option.map_none], hbig⟩
  · obtain ⟨hw, hlen⟩ := hv'.recount (sackMax_le hall (by omega))
    refine .inr ⟨_, by rw [hv, Option.map_some], hw, ?_, ?_, ?_⟩
    · rw [hlen]
      exact hv'.sacked
    · rw [hlen]
      exact hall
    · rintro rfl
      cases hv
      exact hlen

namespace Represents

/-- **`UpdateScoreBoard`** moves the window to after the ack. -/
theorem updateScoreBoard (h : s.Represents b f) (hadm : b.Admits (.update lastAck blocks rhId))
    (hfresh : Fresh s (.update lastAck blocks rhId)) :
    ∃ u f', s.updateScoreBoard lastAck blocks rhId = some u ∧
      u.Represents (b.step u.retranDecr (.update lastAck blocks rhId)) f' := by
  obtain ⟨hack, hblocks⟩ := hadm
  have hacked := h.acked
  rw [ScoreBoardRH.updateScoreBoard]
  by_cases hnone : blocks = [] ∧ s.length = 0
  · obtain ⟨rfl, hl⟩ := hnone
    have hcov : b.sacked ∪ covered [] = b.sacked := by
      ext i
      simp [covered]
    refine ⟨_, f, if_pos ⟨rfl, hl⟩, ⟨?_, fun hpos => absurd hl (ne_of_gt hpos), ?_, ?_⟩⟩
    · dsimp only [BoardRH.step]
      rw [hcov, add_zero]
      exact h.holds
    · dsimp only [BoardRH.step]
      rw [hcov]
      exact fun j hj hlt => h.sacked j hj (by omega)
    · dsimp only [BoardRH.step]
      omega
  · rw [if_neg hnone]
    obtain ⟨s₁, u, f', hs₁, hu, hbetween, hnonneg, hle, hpos, hempty, hsome⟩ := h.edge hack rhId
    -- with SACK blocks, the window is where they expect it
    have hf' : blocks ≠ [] → f' = lastAck + 1 := by
      intro hne
      by_cases hl : s.length = 0
      · exact hempty hl
      · have hlast := (hfresh.resolve_left hne).resolve_left hl
        have := hsome hl
        omega
    have hright : ∀ x ∈ blocks, f' < x.2 := by
      intro x hx
      have := hblocks x hx
      omega
    rw [hs₁, Option.bind_some, hu, Option.bind_some]
    rcases finish hbetween hnonneg hright rhId with
      ⟨-, x, hx, hbig⟩ | ⟨w, hw, hholds, hsacked, hall, hsame⟩
    · have := hblocks x hx
      have := hf' (List.ne_nil_of_mem hx)
      omega
    · refine ⟨w, f', hw, ⟨⟨hholds.window, ?_⟩, ?_, ?_, ?_⟩⟩
      · have hlive := hholds.live
        dsimp only [BoardRH.step]
        omega
      · intro hl
        by_cases hne : blocks = []
        · exact hpos (hsame hne ▸ hl)
        · exact hf' hne
      · intro j hj hlt
        have hj' := hsacked j hj
        dsimp only [BoardRH.step] at hlt
        omega
      · dsimp only [BoardRH.step]
        omega

/-- An update that acks past the last packet tracked leaves one tracked that is acked. -/
theorem updateScoreBoard_stale (h : s.Represents b f)
    (hadm : b.Admits (.update lastAck blocks rhId))
    (hstale : ¬ Fresh s (.update lastAck blocks rhId)) {u : Updating}
    (hu : s.updateScoreBoard lastAck blocks rhId = some u) : ∃ i, u.Tracked i ∧ i ≤ lastAck := by
  obtain ⟨hack, hblocks⟩ := hadm
  obtain ⟨hne, hl, hlast⟩ : blocks ≠ [] ∧ s.length ≠ 0 ∧ s.lastSeq < lastAck := by
    refine ⟨fun e => hstale (.inl e), fun e => hstale (.inr (.inl e)), ?_⟩
    exact not_le.mp fun e => hstale (.inr (.inr e))
  rw [ScoreBoardRH.updateScoreBoard, if_neg fun e => hne e.1] at hu
  obtain ⟨s₁, v, f', hs₁, hv, hbetween, hnonneg, hle, hpos, hempty, hsome⟩ := h.edge hack rhId
  have hright : ∀ x ∈ blocks, f' < x.2 := by
    intro x hx
    have := hblocks x hx
    omega
  rw [hs₁, Option.bind_some, hv, Option.bind_some] at hu
  rcases finish hbetween hnonneg hright rhId with ⟨hnone, -⟩ | ⟨w, hw, hholds, -, hall, -⟩
  · rw [hnone] at hu
    cases hu
  · rw [hw] at hu
    cases hu
    obtain ⟨x, hx⟩ := List.exists_mem_of_ne_nil blocks hne
    have hend := hall x hx
    have hlt := hright x hx
    have hfirst := hholds.window.firstSeq (by omega)
    have := hsome hl
    exact ⟨f', ⟨hfirst.le, by omega⟩, by omega⟩

/-- `MarkRetran`. -/
theorem markRetran (h : s.Represents b f) (i sndNxt rhId : ℤ) :
    (s.markRetran i sndNxt rhId).Represents (b.step 0 (.markRetran i sndNxt rhId)) f where
  holds := h.holds.markRetran i sndNxt rhId
  first := h.first
  sacked := h.sacked
  acked := h.acked

/-- `TimeoutScoreBoard`. -/
theorem timeoutScoreBoard {sndNxt numdupacks : ℤ} (h : s.Represents b f)
    (hadm : b.Admits (.timeout sndNxt numdupacks)) :
    ∃ s', s.timeoutScoreBoard sndNxt numdupacks = some s' ∧
      s'.Represents (b.step 0 (.timeout sndNxt numdupacks)) f := by
  have hn : 0 ≤ s.length := h.holds.window.nonneg
  by_cases hl : s.length = 0
  · refine ⟨s, if_pos hl, ⟨h.holds.congr fun j h₁ h₂ => ?_, h.first, ?_, h.acked⟩⟩
    · change j < f + s.length at h₂
      omega
    · exact fun j hj => h.sacked j hj.1
  · have hpos : 0 < s.length := by omega
    have hfirst := h.first hpos
    have hend : ∀ j ∈ b.sacked, j < f + s.length := by
      intro j hj
      by_cases hlt : b.acked < j
      · exact (h.sacked j hj hlt).2
      · omega
    rcases h.holds.timeoutScoreBoard hpos hend sndNxt numdupacks with
      ⟨-, hbig⟩ | ⟨s', hs', hholds, hlen⟩
    · change sndNxt ≤ b.acked + SBSIZE at hadm
      omega
    · refine ⟨s', hs', ⟨hfirst ▸ hholds, fun _ => hfirst, fun j hj hlt => ?_, h.acked⟩⟩
      have := hend j hj.1
      exact ⟨by omega, by omega⟩

/-- **A call** does not exit, and does what it says. -/
theorem step (h : s.Represents b f) (hadm : b.Admits c) (hfresh : Fresh s c) :
    ∃ u f', s.step c = some u ∧ u.Represents (b.step u.retranDecr c) f' := by
  cases c with
  | update lastAck blocks rhId => exact h.updateScoreBoard hadm hfresh
  | markRetran i sndNxt rhId => exact ⟨_, f, rfl, h.markRetran i sndNxt rhId⟩
  | timeout sndNxt numdupacks =>
    obtain ⟨s', hs', h'⟩ := h.timeoutScoreBoard hadm
    exact ⟨_, f, by rw [ScoreBoardRH.step, hs', Option.map_some], h'⟩

theorem tracked_iff (h : s.Represents b f) {i : ℤ} : s.Tracked i ↔ f ≤ i ∧ i < f + s.length := by
  have hn : 0 ≤ s.length := h.holds.window.nonneg
  rw [Tracked]
  by_cases hl : s.length = 0
  · omega
  · have hfirst : s.firstSeq = f := h.holds.window.firstSeq (show 0 < s.length by omega)
    rw [hfirst]

theorem acked_lt (h : s.Represents b f) {i : ℤ} (hi : s.Tracked i) : b.acked < i := by
  obtain ⟨h₁, h₂⟩ := h.tracked_iff.mp hi
  have := h.first (by omega)
  omega

/-- A hole is not SACKed. -/
theorem not_sacked (h : s.Represents b f) {i : ℤ} (hi : s.Tracked i)
    (hhole : (s.node i).hole = true) : i ∉ b.sacked := by
  obtain ⟨h₁, h₂⟩ := h.tracked_iff.mp hi
  have hx := h.holds.window.entry i h₁ h₂
  intro hs
  have hflag : (s.node i).sackFlag = true := hx.sack.mpr hs
  rw [ScoreBoardNodeRH.hole, hflag] at hhole
  simp at hhole

theorem nextRetranFrom (h : s.Represents b f) {n : ℕ} {i : ℤ} (hi : f ≤ i)
    (hn : i + n = f + s.length) (numdupacks : ℤ) :
    ScoreBoardRH.nextRetranFrom numdupacks s n i = -1 ∨
      s.Tracked (ScoreBoardRH.nextRetranFrom numdupacks s n i) ∧
        (s.node (ScoreBoardRH.nextRetranFrom numdupacks s n i)).hole = true := by
  induction n generalizing i with
  | zero => exact .inl rfl
  | succ n ih =>
    push_cast at hn
    rw [ScoreBoardRH.nextRetranFrom]
    split
    next hnext => exact .inr ⟨h.tracked_iff.mpr ⟨hi, by omega⟩, hnext.1⟩
    next => exact ih (by omega) (by omega)

/-- `GetNextRetran`. -/
theorem getNextRetran (h : s.Represents b f) (numdupacks : ℤ) :
    s.getNextRetran numdupacks = -1 ∨ s.Tracked (s.getNextRetran numdupacks) ∧
      (s.node (s.getNextRetran numdupacks)).hole = true := by
  have hn : 0 ≤ s.length := h.holds.window.nonneg
  rw [ScoreBoardRH.getNextRetran]
  split
  next hl =>
    have hfirst : s.firstSeq = f := h.holds.window.firstSeq (show 0 < s.length by omega)
    rw [hfirst]
    exact h.nextRetranFrom le_rfl (by omega) numdupacks
  next => exact .inl rfl

end Represents

/-- `GetNewHoles` counts holes. -/
theorem getNewHoles_spec (s : ScoreBoardRH) :
    ∃ T : Finset ℤ, T.card = s.getNewHoles ∧ ∀ i ∈ T, s.Tracked i ∧ (s.node i).hole = true := by
  obtain ⟨holes, hholes⟩ : ∃ l : List ℕ, l = (List.range s.length.toNat).filter fun k : ℕ =>
      (s.node (s.firstSeq + k)).hole && (s.node (s.firstSeq + k)).sackCnt == 1 := ⟨_, rfl⟩
  have hnodup : (holes.map fun k : ℕ => s.firstSeq + k).Nodup := by
    refine List.Nodup.map (fun j k hjk => ?_) (hholes ▸ List.nodup_range.filter _)
    simpa using hjk
  refine ⟨(holes.map fun k : ℕ => s.firstSeq + k).toFinset, ?_, fun i hi => ?_⟩
  · rw [List.toFinset_card_of_nodup hnodup, List.length_map, hholes, getNewHoles,
      List.countP_eq_length_filter]
  · obtain ⟨k, hk, rfl⟩ := List.mem_map.mp (List.mem_toFinset.mp hi)
    rw [hholes, List.mem_filter, List.mem_range, Bool.and_eq_true] at hk
    exact ⟨⟨by omega, by omega⟩, hk.2.1⟩

/-! ### Runs of calls -/

/-- The scoreboard and what was called, after a run in which no update with SACK blocks acks past
the last packet tracked. -/
inductive Run : ScoreBoardRH → BoardRH → Prop
  | init (sbn : ℤ → ScoreBoardNodeRH) (retranSacked : ℤ) : Run (init sbn retranSacked) {}
  | step {s : ScoreBoardRH} {b : BoardRH} {c : Call} {u : Updating} (h : Run s b)
      (hadm : b.Admits c) (hfresh : Fresh s c) (hs : s.step c = some u) :
      Run u.toScoreBoardRH (b.step u.retranDecr c)

theorem Run.represents (h : Run s b) : ∃ f, s.Represents b f := by
  induction h with
  | init sbn r => exact ⟨0, init_represents sbn r⟩
  | step _ hadm hfresh hs ih =>
    obtain ⟨f, hf⟩ := ih
    obtain ⟨u, f', hu, hf'⟩ := hf.step hadm hfresh
    rw [hs] at hu
    cases hu
    exact ⟨f', hf'⟩

/-- **The scoreboard of rate-halving.**  After a run the packets tracked are beyond the ack and in
their cells, only holes are counted and sent again, and no more retransmissions end than were
begun.  One more call leaves it so exactly if it does not ack past the last packet tracked. -/
theorem score_board_rh (h : Run s b) :
    (∀ i, s.Tracked i → b.acked < i ∧ (s.node i).seqNo = i) ∧
      (∀ n, s.getNextRetran n = -1 ∨ 0 ≤ s.getNextRetran n ∧ s.Tracked (s.getNextRetran n) ∧
        s.getNextRetran n ∉ b.sacked) ∧
      (∃ T : Finset ℤ, T.card = s.getNewHoles ∧ ∀ i ∈ T, s.Tracked i ∧ i ∉ b.sacked) ∧
      b.ended ≤ b.marks ∧
      ∀ c, b.Admits c →
        ((∃ u, s.step c = some u ∧ ∀ i, u.Tracked i → (b.step u.retranDecr c).acked < i) ↔
          Fresh s c) := by
  obtain ⟨f, hf⟩ := h.represents
  refine ⟨fun i hi => ⟨hf.acked_lt hi, ?_⟩, fun n => ?_, ?_, ?_, fun c hadm => ⟨?_, ?_⟩⟩
  · obtain ⟨h₁, h₂⟩ := hf.tracked_iff.mp hi
    exact (hf.holds.window.entry i h₁ h₂).seq
  · rcases hf.getNextRetran n with hnone | ⟨htracked, hhole⟩
    · exact .inl hnone
    · have := hf.acked_lt htracked
      have := hf.acked
      exact .inr ⟨by omega, htracked, hf.not_sacked htracked hhole⟩
  · obtain ⟨T, hcard, hT⟩ := getNewHoles_spec s
    exact ⟨T, hcard, fun i hi => ⟨(hT i hi).1, hf.not_sacked (hT i hi).1 (hT i hi).2⟩⟩
  · have hlive := hf.holds.live
    have hnonneg : 0 ≤ s.live f := live_nonneg
    change b.ended + s.live f ≤ b.marks at hlive
    omega
  · rintro ⟨u, hu, hbeyond⟩
    by_contra hstale
    cases c with
    | update lastAck blocks rhId =>
      obtain ⟨i, hi, hle⟩ := hf.updateScoreBoard_stale hadm hstale hu
      exact absurd (hbeyond i hi) (not_lt.mpr hle)
    | markRetran i sndNxt rhId => exact hstale trivial
    | timeout sndNxt numdupacks => exact hstale trivial
  · intro hfresh
    obtain ⟨u, f', hu, hf'⟩ := hf.step hadm hfresh
    exact ⟨u, hu, fun i hi => hf'.acked_lt hi⟩

/-- Packets 5 and 6 are SACKed on 2: 3 is sent again. -/
theorem score_board_rh_hole :
    ∃ s, (init (fun _ => .new 0) 0).step (.update 2 [(5, 7)] 1) = some s ∧
      s.getNextRetran 1 = 3 ∧ (s.node 3).seqNo = 3 := by
  obtain ⟨s, hs, hnext, htracked⟩ : ∃ s,
      (init (fun _ => .new 0) 0).step (.update 2 [(5, 7)] 1) = some s ∧
        s.getNextRetran 1 = 3 ∧ s.Tracked 3 := ⟨_, rfl, by decide, by decide, by decide⟩
  have hadm : BoardRH.Admits {} (.update 2 [(5, 7)] 1) := ⟨by decide, by decide⟩
  have hfresh : Fresh (init (fun _ => .new 0) 0) (.update 2 [(5, 7)] 1) := .inr (.inl rfl)
  obtain ⟨hwindow, -⟩ := score_board_rh (.step (.init _ 0) hadm hfresh hs)
  exact ⟨s, hs, hnext, (hwindow 3 htracked).2⟩

/-- The ack 9 passes the window of 3 to 6, and 11 is SACKed beyond: packet 7 is to be sent again. -/
theorem stale_entry :
    ∃ u v, BoardRH.Admits {} (.update 2 [(5, 7)] 1) ∧
      (init (fun _ => .new 0) 0).step (.update 2 [(5, 7)] 1) = some u ∧
      (BoardRH.step {} u.retranDecr (.update 2 [(5, 7)] 1)).Admits (.update 9 [(11, 12)] 1) ∧
      u.step (.update 9 [(11, 12)] 1) = some v ∧ v.Tracked 7 ∧ v.getNextRetran 1 = 7 := by
  have hrun : (((init (fun _ => .new 0) 0).step (.update 2 [(5, 7)] 1)).bind fun u =>
      u.step (.update 9 [(11, 12)] 1)).map (fun v => (v.firstSeq, v.length, v.getNextRetran 1)) =
        some (7, 5, 7) := by decide +kernel
  obtain ⟨v, hv, hread⟩ := Option.map_eq_some_iff.mp hrun
  obtain ⟨u, hu, hv⟩ := Option.bind_eq_some_iff.mp hv
  simp only [Prod.mk.injEq] at hread
  obtain ⟨hfirst, hlength, hnext⟩ := hread
  refine ⟨u, v, ⟨by decide, by decide⟩, hu, ⟨(by decide : (2 : ℤ) ≤ 9), by decide⟩, hv, ?_, hnext⟩
  exact ⟨hfirst.le, by omega⟩

end ScoreBoardRH

end Afabric
