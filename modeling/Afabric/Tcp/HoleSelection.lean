import Afabric.Tcp.Output

/-!
# Tcp — the choice of a hole

In recovery `SackFullTcpAgent::nxt_tseq` looks for a hole between the SACKed blocks, from
`h_seqno_` on.  `nexthole_apart` says what one call of `nexthole` reports: a number outside the
blocks, and no more blocks and bytes than there are above it.  `holeLoop_isSome` is the termination
of the search: each round moves the start up, and no start above the last block is a hole.

`nxt_tseq_hole` puts the two together.
-/

namespace Afabric

namespace SegList

/-- The blocks are sorted and do not overlap; they may touch. -/
structure Apart (l : List Block) : Prop where
  ordered : ∀ b ∈ l, b.start ≤ b.stop
  disjoint : l.Pairwise fun a b => a.stop ≤ b.start

theorem Apart.cons {p : Block} {l : List Block} (h : Apart (p :: l)) :
    p.start ≤ p.stop ∧ (∀ b ∈ l, p.stop ≤ b.start) ∧ Apart l := by
  obtain ⟨hp, hl⟩ := List.forall_mem_cons.mp h.ordered
  obtain ⟨hd, hr⟩ := List.pairwise_cons.mp h.disjoint
  exact ⟨hp, hd, hl, hr⟩

/-- The blocks that start at `seq` or above. -/
def above (l : List Block) (seq : Int) : List Block := l.filter fun b => seq ≤ b.start

theorem above_eq_self {l : List Block} {seq : Int} (h : ∀ b ∈ l, seq ≤ b.start) :
    above l seq = l := List.filter_eq_self.mpr fun b hb => by simpa using h b hb

theorem above_cons_of_lt {p : Block} {l : List Block} {seq : Int} (h : p.start < seq) :
    above (p :: l) seq = above l seq := by
  rw [above, List.filter_cons_of_neg (by simpa using h)]
  rfl

/-- The blocks above `seq` count a block that starts there as well. -/
theorem cnts_le_above_cons {p : Block} {l : List Block} {seq : Int} (hp : p.start ≤ p.stop)
    (h : ∀ b ∈ l, seq ≤ b.start) :
    (cnts l).1 ≤ (cnts (above (p :: l) seq)).1 ∧ (cnts l).2 ≤ (cnts (above (p :: l) seq)).2 := by
  by_cases hlt : p.start < seq
  · rw [above_cons_of_lt hlt, above_eq_self h]
    exact ⟨Int.le_refl _, Int.le_refl _⟩
  · rw [above_eq_self (List.forall_mem_cons.mpr ⟨not_lt.mp hlt, h⟩)]
    have hcons : total (p :: l) = p.stop - p.start + total l := span_cons p l
    simp only [cnts, List.length_cons]
    omega

/-- What a call of `nexthole` reports: `seq` is outside the blocks, and `fcnt` and `fbytes` do not
exceed what is above it. -/
structure Reported (l : List Block) (seq fcnt fbytes : Int) : Prop where
  outside : ∀ b ∈ l, ¬ (b.start < seq ∧ seq < b.stop)
  cnt : fcnt ≤ (cnts (above l seq)).1
  bytes : fbytes ≤ (cnts (above l seq)).2

theorem nexthole_apart {l : List Block} {seq : Int} (hl : Apart l)
    (h : 0 < (nexthole l seq).1) :
    seq ≤ (nexthole l seq).1 ∧
      Reported l (nexthole l seq).1 (nexthole l seq).2.1 (nexthole l seq).2.2 := by
  induction l with
  | nil => exact absurd h (by simp [nexthole])
  | cons p l ih =>
      obtain ⟨hp, hd, hr⟩ := hl.cons
      rw [nexthole] at h ⊢
      by_cases hb : p.start > seq
      · -- before the block: all blocks from here on are above
        rw [if_pos hb]
        have hall : ∀ b ∈ p :: l, seq ≤ b.start := by
          intro b hmem
          rcases List.mem_cons.mp hmem with rfl | hmem
          · exact hb.le
          · exact (hb.le.trans hp).trans (hd b hmem)
        refine ⟨Int.le_refl _, fun b hmem hin => ?_, ?_, ?_⟩
        · exact absurd hin.1 (not_lt.mpr (hall b hmem))
        · rw [above_eq_self hall]
        · rw [above_eq_self hall]
      rw [if_neg hb] at h ⊢
      by_cases hb' : seq ≤ p.stop
      · -- in the block, or at its end: what is above starts with the next block
        rw [if_pos hb']
        have hcnt := cnts_le_above_cons hp hd
        have hout : ∀ b ∈ p :: l, ¬ (b.start < p.stop ∧ p.stop < b.stop) := by
          intro b hmem hin
          rcases List.mem_cons.mp hmem with rfl | hmem
          · exact lt_irrefl _ hin.2
          · exact absurd hin.1 (not_lt.mpr (hd b hmem))
        refine ⟨hb', ?_⟩
        by_cases hnil : l = []
        · -- past the last block the counts are -1
          rw [if_pos hnil]
          subst hnil
          have hneg : (-1 : Int) ≤ 0 := by decide
          exact ⟨hout, hneg.trans hcnt.1, hneg.trans hcnt.2⟩
        · rw [if_neg hnil]
          exact ⟨hout, hcnt.1, hcnt.2⟩
      rw [if_neg hb'] at h ⊢
      obtain ⟨hle, hout, hc, hbytes⟩ := ih hr h
      have hlt : p.start < (nexthole l seq).1 := by omega
      refine ⟨hle, fun b hmem hin => ?_, ?_, ?_⟩
      · rcases List.mem_cons.mp hmem with rfl | hmem
        · omega
        · exact hout b hmem hin
      · rwa [above_cons_of_lt hlt]
      · rwa [above_cons_of_lt hlt]

/-- A number that no block reaches beyond. -/
def top : List Block → Int
  | [] => 0
  | b :: l => max (max b.start b.stop) (top l)

/-- A hole is found no higher than the blocks reach. -/
theorem nexthole_le_top {l : List Block} {seq : Int} (h : 0 < (nexthole l seq).1) :
    seq ≤ (nexthole l seq).1 ∧ (nexthole l seq).1 ≤ top l := by
  induction l with
  | nil => exact absurd h (by simp [nexthole])
  | cons p l ih =>
      rw [nexthole] at h ⊢
      rw [top]
      split_ifs at h ⊢ with h₁ h₂
      · exact ⟨Int.le_refl _, by simp only; omega⟩
      · exact ⟨h₂, by simp only; omega⟩
      · exact ⟨h₂, by simp only; omega⟩
      · obtain ⟨hle, htop⟩ := ih h
        exact ⟨hle, by omega⟩

end SegList

namespace FullTcpAgent

open SegList

variable {κ : Type} {cfg : FullTcpConfig} {s : FullTcpAgent κ}

/-- What `sack_rtx_threshmode_` asks for of the blocks above a hole. -/
def EnoughAbove (cfg : FullTcpConfig) (l : List Block) (seq : Int) : Prop :=
  let c := cfg.sackRtxCthresh ≤ (above l seq).length
  let b := cfg.sackRtxBthresh ≤ total (above l seq)
  match cfg.sackRtxThreshmode with
  | 0 => True
  | 1 => c
  | 2 => b
  | 3 => c ∨ b
  | 4 => c ∧ b
  | _ => False

theorem takesHole_enough {l : List Block} {seq fcnt fbytes : Int} (hr : Reported l seq fcnt fbytes)
    (ht : takesHole cfg fcnt fbytes = true) : EnoughAbove cfg l seq := by
  have hc : cfg.sackRtxCthresh ≤ fcnt → cfg.sackRtxCthresh ≤ (above l seq).length :=
    fun h => h.trans hr.cnt
  have hb : cfg.sackRtxBthresh ≤ fbytes → cfg.sackRtxBthresh ≤ total (above l seq) :=
    fun h => h.trans hr.bytes
  simp only [takesHole, decide_eq_true_eq] at ht
  rcases ht with h | ⟨h, h₁⟩ | ⟨h, h₁⟩ | ⟨h, h₁⟩ | ⟨h, h₁, h₂⟩
  all_goals rw [EnoughAbove, h]
  · trivial
  · exact hc h₁
  · exact hb h₁
  · exact h₁.imp hc hb
  · exact ⟨hc h₁, hb h₂⟩

/-- The hole that `nxt_tseq` returns. -/
structure ChosenHole (cfg : FullTcpConfig) (s : FullTcpAgent κ) (start seq : Int) : Prop where
  above : start ≤ seq
  outside : ∀ b ∈ s.sack.sq, ¬ (b.start < seq ∧ seq < b.stop)
  enough : EnoughAbove cfg s.sack.sq seq

/-- The search moves on after a hole that it does not take. -/
def Advances (cfg : FullTcpConfig) (s : FullTcpAgent κ) : Prop :=
  0 < s.snd.maxseg ∨ cfg.probCap ≠ 0

theorem Advances.lt (h : Advances cfg s) (seq : Int) :
    seq < if cfg.probCap ≠ 0 then seq + 1 else seq + s.snd.maxseg := by
  split_ifs with hc
  · omega
  · have hm : 0 < s.snd.maxseg := h.resolve_right hc
    omega

/-- The search stops at a hole found from a number that is not below the start. -/
theorem holeLoop_stops (ha : Advances cfg s) {fuel : Nat} {start seq : Int}
    (he : s.holeLoop cfg fuel start = some (some seq)) :
    ∃ i, start ≤ i ∧ (nexthole s.sack.sq i).1 = seq ∧ seq > 0 ∧
      takesHole cfg (nexthole s.sack.sq i).2.1 (nexthole s.sack.sq i).2.2 = true := by
  induction fuel generalizing start with
  | zero => exact absurd he (by simp [holeLoop])
  | succ fuel ih =>
      rw [holeLoop] at he
      by_cases hpos : (nexthole s.sack.sq start).1 > 0
      swap
      · rw [if_neg hpos] at he
        exact absurd (Option.some.inj he) (by simp)
      rw [if_pos hpos] at he
      by_cases htake : takesHole cfg (nexthole s.sack.sq start).2.1
          (nexthole s.sack.sq start).2.2 = true
      · rw [if_pos htake] at he
        obtain rfl := Option.some.inj (Option.some.inj he)
        exact ⟨start, le_rfl, rfl, hpos, htake⟩
      · rw [if_neg htake] at he
        by_cases hcnt : (nexthole s.sack.sq start).2.1 ≤ 0
        · rw [if_pos hcnt] at he
          exact absurd (Option.some.inj he) (by simp)
        · rw [if_neg hcnt] at he
          obtain ⟨i, hi, hrest⟩ := ih he
          have hlt := ha.lt (nexthole s.sack.sq start).1
          exact ⟨i, ((nexthole_le_top hpos).1.trans hlt.le).trans hi, hrest⟩

theorem holeLoop_chosen (hsq : Apart s.sack.sq) (ha : Advances cfg s) {fuel : Nat}
    {start seq : Int} (he : s.holeLoop cfg fuel start = some (some seq)) :
    ChosenHole cfg s start seq := by
  obtain ⟨i, hi, rfl, hpos, htake⟩ := holeLoop_stops ha he
  obtain ⟨hle, hrep⟩ := nexthole_apart hsq hpos
  exact ⟨hi.trans hle, hrep.outside, takesHole_enough hrep htake⟩

/-- Whatever the blocks are, a hole is found between the start and their top. -/
theorem holeLoop_range (ha : Advances cfg s) {fuel : Nat} {start seq : Int}
    (he : s.holeLoop cfg fuel start = some (some seq)) : start ≤ seq ∧ seq ≤ top s.sack.sq := by
  obtain ⟨i, hi, rfl, hpos, -⟩ := holeLoop_stops ha he
  exact (nexthole_le_top hpos).imp_left hi.trans

/-- The numbers the search has left to look at. -/
def holesLeft (s : FullTcpAgent κ) (seq : Int) : Nat := (top s.sack.sq + 1 - seq).toNat

/-- **The search ends.** -/
theorem holeLoop_isSome (ha : Advances cfg s) {fuel : Nat} {start : Int}
    (hf : s.holesLeft start < fuel) : (s.holeLoop cfg fuel start).isSome := by
  induction fuel generalizing start with
  | zero => exact absurd hf (Nat.not_lt_zero _)
  | succ fuel ih =>
      rw [holeLoop]
      by_cases hpos : (nexthole s.sack.sq start).1 > 0
      · obtain ⟨hle, htop⟩ := nexthole_le_top hpos
        have hlt := ha.lt (nexthole s.sack.sq start).1
        rw [if_pos hpos]
        split_ifs with htake hcnt hc
        · rfl
        · rfl
        all_goals
          refine ih ?_
          simp only [hc, holesLeft] at hlt hf ⊢
          simp at hlt
          omega
      · rw [if_neg hpos]
        rfl

/-- The result of the search does not depend on the fuel. -/
theorem holeLoop_mono {fuel : Nat} {start : Int} {o : Option Int}
    (he : s.holeLoop cfg fuel start = some o) {fuel' : Nat} (hf : fuel ≤ fuel') :
    s.holeLoop cfg fuel' start = some o := by
  induction fuel generalizing start fuel' with
  | zero => exact absurd he (by simp [holeLoop])
  | succ fuel ih =>
      obtain ⟨k, rfl⟩ : ∃ k, fuel' = k + 1 := ⟨fuel' - 1, by omega⟩
      rw [holeLoop] at he ⊢
      split_ifs at he ⊢
      · exact he
      · exact he
      · exact ih he (by omega)
      · exact ih he (by omega)
      · exact he

/-- **`nxt_tseq` returns `t_seqno_`, or a hole**: at `h_seqno_` or above, outside the SACKed blocks
and with as many blocks or bytes above it as `sack_rtx_threshmode_` asks for. -/
theorem nxt_tseq_hole (cfg : FullTcpConfig) (s : FullTcpAgent κ) (hsq : Apart s.sack.sq)
    (ha : 0 < s.snd.maxseg ∨ cfg.probCap ≠ 0) :
    ∃ r N, (∀ fuel, N ≤ fuel → s.nxtTseq cfg fuel = some r) ∧
      (r = (s.snd.tSeqno, s) ∨
        ChosenHole cfg s s.sack.hSeqno r.1 ∧
          r.2 = s.setSack fun t => { t with hSeqno := r.1 }) := by
  by_cases hc : cfg.kind.isSack = true ∧ s.snd.highestAck < s.snd.recover
  swap
  · refine ⟨_, 0, fun fuel _ => ?_, .inl rfl⟩
    rw [nxtTseq, if_neg hc]
  obtain ⟨o, ho⟩ := Option.isSome_iff_exists.mp
    (holeLoop_isSome (s := s) ha (Nat.lt_succ_self (s.holesLeft s.sack.hSeqno)))
  have hall : ∀ fuel, s.holesLeft s.sack.hSeqno + 1 ≤ fuel →
      s.holeLoop cfg fuel s.sack.hSeqno = some o := fun fuel hf => holeLoop_mono ho hf
  cases o with
  | none =>
      refine ⟨_, s.holesLeft s.sack.hSeqno + 1, fun fuel hf => ?_, .inl rfl⟩
      rw [nxtTseq, if_pos hc, hall fuel hf]
      rfl
  | some seq =>
      have hhole := holeLoop_chosen hsq ha ho
      refine ⟨(seq, s.setSack fun t => { t with hSeqno := seq }), s.holesLeft s.sack.hSeqno + 1,
        fun fuel hf => ?_, .inr ⟨hhole, rfl⟩⟩
      rw [nxtTseq, if_pos hc, hall fuel hf]
      refine congrArg some (Prod.ext rfl ?_)
      by_cases hgt : seq > s.sack.hSeqno
      · exact if_pos hgt
      · -- `h_seqno_` is the hole already
        have heq : seq = s.sack.hSeqno := le_antisymm (not_lt.mp hgt) hhole.above
        rw [heq]
        exact if_neg (lt_irrefl _)

end FullTcpAgent

namespace NsDefault

open FullTcpAgent

/-- In recovery, with the holes [20, 30) and [40, 50) below SACKed blocks. -/
def holes : FullTcpAgent Bool :=
  { agent with
    state := .established
    snd := ⟨200, 60, 60, 10, 60, 10⟩
    sack := ⟨[⟨15, 20, 0⟩, ⟨30, 40, 0⟩, ⟨50, 60, 0⟩], 10, 15⟩ }

/-- Two blocks are asked for: the first hole has them. -/
theorem nxt_tseq_hole_twenty :
    ∃ r N, (∀ fuel, N ≤ fuel →
        holes.nxtTseq { config .sack with sackRtxCthresh := 2 } fuel = some r) ∧
      r.1 = 20 ∧ ChosenHole { config .sack with sackRtxCthresh := 2 } holes 15 20 := by
  obtain ⟨r, N, hr, hcase⟩ := nxt_tseq_hole { config .sack with sackRtxCthresh := 2 } holes
    ⟨by decide, by decide⟩ (.inl (by decide))
  have h := hr (N + 5) (Nat.le_add_right _ _)
  have hfirst : (holes.nxtTseq { config .sack with sackRtxCthresh := 2 } (N + 5)).map (·.1) =
      some 20 := by
    rfl
  rw [h] at hfirst
  have h20 : r.1 = 20 := Option.some.inj hfirst
  refine ⟨r, N, hr, h20, ?_⟩
  rcases hcase with hcase | ⟨hhole, -⟩
  · rw [hcase] at h20
    exact absurd h20 (by decide)
  · rwa [h20] at hhole

end NsDefault

end Afabric
