import Afabric.Tcp.ScoreBoard1
import Mathlib.Data.List.Induction
import Mathlib.Data.List.Nodup

/-!
# Tcp — the counters of the list of runs

`ScoreBoard1.Wf` is what the calls of a scoreboard keep: the nodes are non-empty and follow one
another without a gap, `sack_out_` and `fack_out_` are the numbers of packets in the SACKed and
in the lost nodes, and `nxt_to_retrx_` points into the list.  The loops of `UpdateScoreBoard` and
`MarkLoss` are a position in the list with the same at every round (`Sweep.Sound`,
`Marking.Sound`).

The node an update creates on an empty list is from `last_ack + 1` to the end of the last SACK
block, which is empty if that block ends at `last_ack` (`empty_node`): the filter of the D-SACKs
lets a block pass that starts at `last_ack`.  `counters_exact` is the result for the runs in which
it does not.
-/

namespace Afabric

open ScoreBoardNode1

/-! ### Nodes in a row -/

namespace ScoreBoardNode1

variable {n m : ScoreBoardNode1} {l l' : List ScoreBoardNode1} {a b c : ℤ} {f : SkbFlag}

theorem getLength_eq (n : ScoreBoardNode1) : n.getLength = n.getEnd + 1 - n.seq := by
  rw [getLength, getEnd]
  split_ifs <;> omega

@[simp] theorem setFlag_getEnd (h : f ≠ .retransmitted) : (n.setFlag f).getEnd = n.getEnd := by
  simp [getEnd, setFlag, h]

/-- The nodes are non-empty and cover the packets from `a` up to `b`, in this order. -/
def Contig : ℤ → List ScoreBoardNode1 → ℤ → Prop
  | a, [], b => a = b
  | a, n :: l, b => n.seq = a ∧ a ≤ n.getEnd ∧ Contig (n.getEnd + 1) l b

theorem contig_append : Contig a (l ++ l') b ↔ ∃ c, Contig a l c ∧ Contig c l' b := by
  induction l generalizing a with
  | nil => simp [Contig]
  | cons n l ih =>
      simp only [List.cons_append, Contig, ih]
      constructor
      · rintro ⟨h₁, h₂, c, h₃, h₄⟩
        exact ⟨c, ⟨h₁, h₂, h₃⟩, h₄⟩
      · rintro ⟨c, ⟨h₁, h₂, h₃⟩, h₄⟩
        exact ⟨h₁, h₂, c, h₃, h₄⟩

theorem Contig.le (h : Contig a l b) : a ≤ b := by
  induction l generalizing a with
  | nil => exact le_of_eq h
  | cons n l ih =>
      have := ih h.2.2
      have := h.2.1
      omega

theorem Contig.seq_le (h : Contig a l b) (hn : n ∈ l) : n.seq ≤ n.getEnd := by
  induction l generalizing a with
  | nil => simp at hn
  | cons m l ih =>
      rcases List.mem_cons.mp hn with rfl | hn
      · rw [h.1]
        exact h.2.1
      · exact ih h.2.2 hn

theorem Contig.end_eq (h : Contig a l b) (hn : l.getLast? = some n) : b = n.getEnd + 1 := by
  obtain ⟨l', rfl⟩ : ∃ l', l = l' ++ [n] := List.getLast?_eq_some_iff.mp hn
  obtain ⟨c, -, h'⟩ := contig_append.mp h
  exact h'.2.2.symm

/-- The number of packets in the nodes of a flag. -/
def count (f : SkbFlag) (l : List ScoreBoardNode1) : ℤ :=
  (l.map fun n => if n.flag = f then n.getLength else 0).sum

@[simp] theorem count_nil : count f [] = 0 := rfl

@[simp] theorem count_cons :
    count f (n :: l) = (if n.flag = f then n.getLength else 0) + count f l := by
  simp [count]

@[simp] theorem count_append : count f (l ++ l') = count f l + count f l' := by
  simp [count]

theorem Contig.count_nonneg (h : Contig a l b) : 0 ≤ count f l := by
  induction l generalizing a with
  | nil => simp
  | cons n l ih =>
      have := ih h.2.2
      have := n.getLength_eq
      have := h.1
      have := h.2.1
      rw [count_cons]
      split_ifs <;> omega

/-- The addresses of the nodes are distinct, and below `k`. -/
structure Addressed (l : List ScoreBoardNode1) (k : ℕ) : Prop where
  nodup : (l.map (·.addr)).Nodup
  lt : ∀ n ∈ l, n.addr < k

theorem Addressed.sublist {k : ℕ} (h : Addressed l k)
    (hs : (l'.map (·.addr)).Sublist (l.map (·.addr))) : Addressed l' k := by
  refine ⟨h.nodup.sublist hs, fun n hn => ?_⟩
  obtain ⟨m, hm, he⟩ := List.mem_map.mp (hs.subset (List.mem_map_of_mem hn))
  exact he ▸ h.lt m hm

/-- A new node after one of the list, which may be changed. -/
theorem Addressed.insert {k : ℕ} {n' : ScoreBoardNode1} (h : Addressed (l ++ n :: l') k)
    (hn : n'.addr = n.addr) (hm : m.addr = k) : Addressed (l ++ n' :: m :: l') (k + 1) := by
  have hperm : List.Perm (l ++ n' :: m :: l') (m :: (l ++ n' :: l')) := by
    rw [← List.singleton_append, ← List.append_assoc]
    exact List.perm_middle.trans (by simp)
  have hmap : (l ++ n' :: l').map (·.addr) = (l ++ n :: l').map (·.addr) := by simp [hn]
  have hlt : ∀ x ∈ l ++ n' :: l', x.addr < k := by
    intro x hx
    have hmem : x.addr ∈ (l ++ n :: l').map (·.addr) := by
      rw [← hmap]
      exact List.mem_map_of_mem hx
    obtain ⟨y, hy, he⟩ := List.mem_map.mp hmem
    rw [← he]
    exact h.lt y hy
  constructor
  · rw [(hperm.map _).nodup_iff, List.map_cons, List.nodup_cons, hmap]
    refine ⟨fun hmem => ?_, h.nodup⟩
    obtain ⟨y, hy, he⟩ := List.mem_map.mp hmem
    have := h.lt y hy
    omega
  · intro x hx
    rcases List.mem_cons.mp (hperm.mem_iff.mp hx) with rfl | hx
    · omega
    · have := hlt x hx
      omega

/-- A node of the list is changed. -/
theorem Addressed.replace {k : ℕ} {n' : ScoreBoardNode1} (h : Addressed (l ++ n :: l') k)
    (hn : n'.addr = n.addr) : Addressed (l ++ n' :: l') k :=
  h.sublist (by simp [hn])

theorem Addressed.succ {k : ℕ} (h : Addressed l k) : Addressed l (k + 1) :=
  ⟨h.nodup, fun n hn => (h.lt n hn).trans (Nat.lt_succ_self k)⟩

/-- A new node at the end. -/
theorem Addressed.concat {k : ℕ} (h : Addressed l k) (hm : m.addr = k) :
    Addressed (l ++ [m]) (k + 1) := by
  constructor
  · rw [List.map_append, List.nodup_append]
    refine ⟨h.nodup, by simp, fun x hx y hy => ?_⟩
    obtain ⟨z, hz, rfl⟩ := List.mem_map.mp hx
    have := h.lt z hz
    simp only [List.map_cons, List.map_nil, List.mem_singleton] at hy
    omega
  · intro x hx
    rcases List.mem_append.mp hx with hx | hx
    · have := h.lt x hx
      omega
    · rw [List.mem_singleton] at hx
      rw [hx]
      omega

end ScoreBoardNode1

namespace ScoreBoard1

/-- What the calls keep. -/
structure Wf (s : ScoreBoard1) : Prop where
  contig : ∃ a b, Contig a s.nodes b
  sackOut : s.sackOut = count .sacked s.nodes
  fackOut : s.fackOut = count .lost s.nodes
  addressed : Addressed s.nodes s.fresh
  nxt : ∀ p ∈ s.nxtToRetrx, p ∈ s.nodes.map (·.addr)

variable {s s' : ScoreBoard1} {l : List ScoreBoardNode1} {n now : ScoreBoardNode1}
  {a b c lastAck fack : ℤ}

theorem init_wf : init.Wf :=
  ⟨⟨0, 0, rfl⟩, rfl, rfl, ⟨by simp [init], by simp [init]⟩, by simp [init]⟩

theorem Wf.clearScoreBoard (_ : s.Wf) : s.clearScoreBoard.Wf :=
  ⟨⟨0, 0, rfl⟩, rfl, rfl, ⟨by simp [ScoreBoard1.clearScoreBoard],
    by simp [ScoreBoard1.clearScoreBoard]⟩, by simp [ScoreBoard1.clearScoreBoard]⟩

/-! ### `CleanRtxQueue` -/

/-- What the loop of `CleanRtxQueue` keeps. -/
structure Cleaning.Sound (c : Cleaning) (l : List ScoreBoardNode1) : Prop where
  sackOut : c.sackOut = count .sacked l
  fackOut : c.fackOut = count .lost l
  nxt : ∀ p ∈ c.nxtToRetrx, p ∈ l.map (·.addr)

theorem shouldClean_below (h : lastAck < n.seq) : n.shouldClean lastAck = 0 := by
  rw [shouldClean, if_pos h]

theorem shouldClean_acked (h : n.seq ≤ lastAck) (hend : n.getEnd ≤ lastAck) :
    n.shouldClean lastAck = -1 := by
  rw [shouldClean, if_neg (not_lt.mpr h), if_pos]
  rw [getEnd] at hend
  split_ifs at hend with hr
  · exact .inl hr
  · exact .inr hend

/-- A node that is acked in part is no single packet. -/
theorem shouldClean_part (h : n.seq ≤ lastAck) (hend : lastAck < n.getEnd) :
    n.flag ≠ .retransmitted ∧ n.shouldClean lastAck = lastAck + 1 - n.seq := by
  have hr : n.flag ≠ .retransmitted := fun hr => by
    rw [getEnd, if_pos hr] at hend
    omega
  have hnxt : n.getEnd = n.nxt := by rw [getEnd, if_neg hr]
  refine ⟨hr, ?_⟩
  rw [shouldClean, if_neg (not_lt.mpr h), if_neg]
  rintro (h | h)
  · exact hr h
  · omega

/-- The assertions of the switch, for packets of the node at most. -/
theorem Cleaning.Sound.asserts {k : Cleaning} {d : ℤ} (hk : k.Sound (n :: l)) (hl : Contig a l b)
    (hd : d ≤ n.getLength) : ¬ (n.flag = .sacked ∧ (k.deduct n d).sackOut < 0 ∨
      n.flag = .lost ∧ (k.deduct n d).fackOut < 0) := by
  have hs := hl.count_nonneg (f := .sacked)
  have hf := hl.count_nonneg (f := .lost)
  have hks := hk.sackOut
  have hkf := hk.fackOut
  rw [count_cons] at hks hkf
  simp only [Cleaning.deduct]
  rintro (⟨he, h₁⟩ | ⟨he, h₁⟩)
  · rw [if_pos he] at h₁ hks
    omega
  · rw [if_pos he] at h₁ hkf
    omega

theorem Cleaning.Sound.delete {k : Cleaning} (hk : k.Sound (n :: l)) :
    ((k.deduct n n.getLength).delete n (l.head?.map (·.addr))).Sound l := by
  have hks := hk.sackOut
  have hkf := hk.fackOut
  rw [count_cons] at hks hkf
  refine ⟨?_, ?_, fun p hp => ?_⟩
  · simp only [Cleaning.deduct, Cleaning.delete]
    split_ifs at hks ⊢ <;> omega
  · simp only [Cleaning.deduct, Cleaning.delete]
    split_ifs at hkf ⊢ <;> omega
  · -- `nxt_to_retrx_` moves to the next node if it points to the one that is deleted
    have hp' : (if k.nxtToRetrx = some n.addr then l.head?.map (·.addr) else k.nxtToRetrx)
        = some p := hp
    split_ifs at hp' with he
    · cases l with
      | nil => simp at hp'
      | cons m l =>
          rw [List.head?_cons, Option.map_some, Option.some_inj] at hp'
          simp [hp']
    · have hmem := hk.nxt p hp'
      rw [List.map_cons, List.mem_cons] at hmem
      rcases hmem with rfl | hmem
      · exact absurd hp' he
      · exact hmem

/-- The node starts after the ACK now. -/
theorem Cleaning.Sound.trim {k : Cleaning} (hk : k.Sound (n :: l)) (hr : n.flag ≠ .retransmitted) :
    (k.deduct n (lastAck + 1 - n.seq)).Sound ({ n with seq := lastAck + 1 } :: l) := by
  have hks := hk.sackOut
  have hkf := hk.fackOut
  have hlen : ({ n with seq := lastAck + 1 } : ScoreBoardNode1).getLength
      = n.getLength - (lastAck + 1 - n.seq) := by
    rw [getLength, getLength, if_neg hr, if_neg hr]
    dsimp only
    omega
  rw [count_cons] at hks hkf
  refine ⟨?_, ?_, hk.nxt⟩
  · rw [count_cons, hlen]
    simp only [Cleaning.deduct]
    split_ifs at hks ⊢ <;> omega
  · rw [count_cons, hlen]
    simp only [Cleaning.deduct]
    split_ifs at hkf ⊢ <;> omega

/-- The loop of `CleanRtxQueue` does not exit, and leaves no node if all of them are acked. -/
theorem cleanFrom_spec (lastAck : ℤ) {k : Cleaning} (h : Contig a l b) (hk : k.Sound l) :
    ∃ l' k', cleanFrom lastAck l k = some (l', k') ∧ (∃ a', Contig a' l' b) ∧ k'.Sound l' ∧
      (l'.map (·.addr)).Sublist (l.map (·.addr)) ∧ (l' = [] ↔ ∀ n ∈ l, n.getEnd ≤ lastAck) := by
  induction l generalizing a k with
  | nil => exact ⟨[], k, rfl, ⟨a, h⟩, hk, .refl _, by simp⟩
  | cons n l ih =>
      obtain ⟨rfl, hle, hl⟩ := h
      rcases lt_or_ge lastAck n.seq with hlt | hge
      · refine ⟨n :: l, k, by simp [cleanFrom, shouldClean_below hlt], ⟨n.seq, rfl, hle, hl⟩, hk,
          .refl _, ?_⟩
        simp only [reduceCtorEq, List.mem_cons, false_iff, not_forall]
        exact ⟨n, .inl rfl, by omega⟩
      rcases le_or_gt n.getEnd lastAck with hend | hend
      · obtain ⟨l', k', hrun, hc', hsound, hsub, hnil⟩ := ih hl hk.delete
        refine ⟨l', k', ?_, hc', hsound, hsub.cons _, ?_⟩
        · simp only [cleanFrom, shouldClean_acked hge hend, show ¬ (-1 : ℤ) = 0 by decide,
            show (-1 : ℤ) < 0 by decide, if_true, if_false]
          rw [if_neg (hk.asserts hl le_rfl)]
          exact hrun
        · rw [hnil, List.forall_mem_cons]
          exact ⟨fun h => ⟨hend, h⟩, fun h => h.2⟩
      · obtain ⟨hr, hcmp⟩ := shouldClean_part hge hend
        have hpos : ¬ lastAck + 1 - n.seq < 0 := by omega
        have hne : ¬ lastAck + 1 - n.seq = 0 := by omega
        have hpart : lastAck + 1 - n.seq ≤ n.getLength := by
          rw [getLength_eq]
          omega
        have hend' : ({ n with seq := lastAck + 1 } : ScoreBoardNode1).getEnd = n.getEnd := by
          rw [getEnd, getEnd, if_neg hr, if_neg hr]
        refine ⟨{ n with seq := lastAck + 1 } :: l, k.deduct n (lastAck + 1 - n.seq), ?_,
          ⟨lastAck + 1, rfl, by omega, by rwa [hend']⟩, hk.trim hr, .refl _, ?_⟩
        · simp only [cleanFrom, hcmp, hpos, hne, if_false]
          rw [if_neg (hk.asserts hl hpart)]
        · simp only [reduceCtorEq, List.mem_cons, false_iff, not_forall]
          exact ⟨n, .inl rfl, by omega⟩

/-- `CleanRtxQueue` does not exit. -/
theorem Wf.cleanRtxQueue (lastAck : ℤ) (h : s.Wf) :
    ∃ r, s.cleanRtxQueue lastAck = some r ∧ r.1.Wf ∧ r.1.fack = s.fack ∧
      (r.1.nodes = [] ↔ ∀ n ∈ s.nodes, n.getEnd ≤ lastAck) := by
  obtain ⟨a, b, hc⟩ := h.contig
  obtain ⟨l', k', hrun, ⟨a', hc'⟩, hk', hsub, hnil⟩ := cleanFrom_spec lastAck hc
    (k := ⟨s.nxtToRetrx, s.ackedRtxId, s.fackOut, s.sackOut, false, ⟨false, false, false⟩⟩)
    ⟨h.sackOut, h.fackOut, h.nxt⟩
  rw [ScoreBoard1.cleanRtxQueue, hrun, Option.map_some]
  exact ⟨_, rfl, ⟨⟨a', b, hc'⟩, hk'.sackOut, hk'.fackOut, h.addressed.sublist hsub, hk'.nxt⟩, rfl,
    hnil⟩

/-! ### A round of `UpdateScoreBoard` -/

namespace Sweep

variable {t : Sweep} {rest : List ScoreBoardNode1} {q : ℤ}

/-- The nodes before `now`. -/
def seen (t : Sweep) : List ScoreBoardNode1 := t.done ++ t.prev.toList

/-- What every part of a round keeps: the nodes before `now` end at `c`, the others at `b`. -/
structure Sound (t : Sweep) (a c b : ℤ) : Prop where
  front : Contig a t.seen c
  back : Contig c t.todo b
  sackOut : t.sackOut = count .sacked (t.seen ++ t.todo)
  fackOut : t.fackOut = count .lost (t.seen ++ t.todo)
  addressed : Addressed (t.seen ++ t.todo) t.fresh

/-- The nodes before `now` and the pointer are as they were. -/
structure Keeps (t t' : Sweep) : Prop where
  done : t'.done = t.done
  prev : t'.prev = t.prev
  nxt : t'.nxtToRetrx = t.nxtToRetrx
  sacks : t'.sacks = t.sacks

theorem Sound.splitNow (h : t.Sound a c b) (ht : t.todo = now :: rest)
    (hr : now.flag ≠ .retransmitted) (hlt : now.seq < q) (hle : q ≤ now.getEnd) :
    (t.splitNow q).Sound a c b ∧ t.Keeps (t.splitNow q) ∧
      ∃ now' rest', (t.splitNow q).todo = now' :: rest' ∧ now'.addr = now.addr ∧
        now'.seq = now.seq ∧ now'.flag = now.flag ∧ now'.getEnd = q - 1 := by
  have hnxt : now.getEnd = now.nxt := by rw [getEnd, if_neg hr]
  obtain ⟨hseq, hend, hrest⟩ := ht ▸ h.back
  have hs := h.sackOut
  have hf := h.fackOut
  have haddr := h.addressed
  rw [ht] at hs hf haddr
  have hseen : (t.splitNow q).seen = t.seen := by simp [Sweep.splitNow, ht, seen]
  have htodo : (t.splitNow q).todo
      = (now.split t.fresh q).1 :: (now.split t.fresh q).2 :: rest := by
    simp [Sweep.splitNow, ht]
  have he₁ : (now.split t.fresh q).1.getEnd = q - 1 := by simp [split, getEnd, hr]
  have he₂ : (now.split t.fresh q).2.getEnd = now.getEnd := by simp [split, new, getEnd, hr]
  have hlen₁ : (now.split t.fresh q).1.getLength = q - now.seq := by
    rw [getLength_eq, he₁]
    simp [split]
  have hlen₂ : (now.split t.fresh q).2.getLength = now.getEnd + 1 - q := by
    rw [getLength_eq, he₂]
    simp [split, new]
  have hcount : ∀ f, count f (t.seen ++ (now.split t.fresh q).1 :: (now.split t.fresh q).2 :: rest)
      = count f (t.seen ++ now :: rest) := by
    intro f
    have hlen := now.getLength_eq
    have hf₁ : (now.split t.fresh q).1.flag = now.flag := rfl
    have hf₂ : (now.split t.fresh q).2.flag = now.flag := rfl
    rw [count_append, count_append, count_cons, count_cons, count_cons, hf₁, hf₂, hlen₁, hlen₂]
    split_ifs <;> omega
  refine ⟨⟨by rw [hseen]; exact h.front, ?_, ?_, ?_, ?_⟩,
    ⟨by simp [Sweep.splitNow, ht], by simp [Sweep.splitNow, ht], by simp [Sweep.splitNow, ht],
      by simp [Sweep.splitNow, ht]⟩, _, _, htodo, rfl, rfl, rfl, he₁⟩
  · rw [htodo]
    refine ⟨hseq, by omega, ?_, by omega, by rwa [he₂]⟩
    rw [he₁]
    simp [split, new]
  · rw [hseen, htodo, hcount, ← hs]
    simp [Sweep.splitNow, ht]
  · rw [hseen, htodo, hcount, ← hf]
    simp [Sweep.splitNow, ht]
  · rw [hseen, htodo, show (t.splitNow q).fresh = t.fresh + 1 by simp [Sweep.splitNow, ht]]
    exact haddr.insert rfl rfl

/-- `now` is given another flag, and the counters follow. -/
theorem Sound.relabel {t' : Sweep} {now' : ScoreBoardNode1} (h : t.Sound a c b)
    (ht : t.todo = now :: rest) (hseen : t'.seen = t.seen) (htodo : t'.todo = now' :: rest)
    (haddr : now'.addr = now.addr) (hseq : now'.seq = now.seq) (hend : now'.getEnd = now.getEnd)
    (hfresh : t'.fresh = t.fresh)
    (hs : t'.sackOut = t.sackOut - (if now.flag = .sacked then now.getLength else 0)
      + if now'.flag = .sacked then now.getLength else 0)
    (hf : t'.fackOut = t.fackOut - (if now.flag = .lost then now.getLength else 0)
      + if now'.flag = .lost then now.getLength else 0) : t'.Sound a c b := by
  obtain ⟨h₁, h₂, h₃⟩ := ht ▸ h.back
  have hlen : now'.getLength = now.getLength := by rw [getLength_eq, getLength_eq, hend, hseq]
  have hs' := h.sackOut
  have hf' := h.fackOut
  rw [ht, count_append, count_cons] at hs' hf'
  refine ⟨by rw [hseen]; exact h.front, ?_, ?_, ?_, ?_⟩
  · rw [htodo]
    exact ⟨hseq.trans h₁, by rwa [hend], by rwa [hend]⟩
  · rw [hseen, htodo, count_append, count_cons, hlen, hs, hs']
    omega
  · rw [hseen, htodo, count_append, count_cons, hlen, hf, hf']
    omega
  · rw [hseen, htodo, hfresh]
    have := h.addressed
    rw [ht] at this
    exact this.replace haddr

theorem Sound.sackNow (h : t.Sound a c b) (ht : t.todo = now :: rest) (hn : now.flag ≠ .sacked) :
    t.sackNow.Sound a c b ∧ t.Keeps t.sackNow ∧
      ∃ now', t.sackNow.todo = now' :: rest ∧ now'.addr = now.addr ∧ now'.flag = .sacked := by
  have htodo : t.sackNow.todo = now.setFlag .sacked :: rest := by simp [Sweep.sackNow, ht]
  refine ⟨h.relabel ht (by simp [Sweep.sackNow, ht, seen]) htodo rfl rfl (by simp)
    (by simp [Sweep.sackNow, ht]) ?_ ?_, ⟨by simp [Sweep.sackNow, ht], by simp [Sweep.sackNow, ht],
    by simp [Sweep.sackNow, ht], by simp [Sweep.sackNow, ht]⟩, _, htodo, rfl, rfl⟩
  · simp [Sweep.sackNow, ht, hn, setFlag]
  · simp only [Sweep.sackNow, ht, setFlag]
    split_ifs <;> simp_all

theorem Sound.loseNow (h : t.Sound a c b) (ht : t.todo = now :: rest) (hn : now.flag ≠ .sacked)
    (hn' : now.flag ≠ .lost) :
    t.loseNow.Sound a c b ∧ t.loseNow.done = t.done ∧ t.loseNow.prev = t.prev ∧
      t.loseNow.nxtToRetrx = t.nxtToRetrx.or (some now.addr) ∧
      ∃ now', t.loseNow.todo = now' :: rest ∧ now'.addr = now.addr ∧ now'.flag = .lost := by
  have htodo : t.loseNow.todo = now.setFlag .lost :: rest := by simp [Sweep.loseNow, ht]
  have hlen : (now.setFlag .lost).getLength = now.getLength := by
    rw [getLength_eq, getLength_eq, setFlag_getEnd (by simp)]
    rfl
  refine ⟨h.relabel ht (by simp [Sweep.loseNow, ht, seen]) htodo rfl rfl (by simp)
    (by simp [Sweep.loseNow, ht]) ?_ ?_, by simp [Sweep.loseNow, ht], by simp [Sweep.loseNow, ht],
    by simp [Sweep.loseNow, ht], _, htodo, rfl, rfl⟩
  · simp [Sweep.loseNow, ht, hn, setFlag]
  · simp only [Sweep.loseNow, ht, hlen, if_neg hn']
    simp [setFlag]

/-- Where a round starts: the pointer is at a node before `now`, and is set if the node before
`now` is lost. -/
structure AtNow (t : Sweep) (a c b : ℤ) : Prop extends t.Sound a c b where
  nxt : ∀ p ∈ t.nxtToRetrx, p ∈ t.seen.map (·.addr)
  prev : ∀ n ∈ t.prev, n.flag = .lost → t.nxtToRetrx.isSome

/-- When `now` has been looked at: the pointer may be at `now`, but not if the node before it is
lost. -/
structure Examined (t : Sweep) (a c b : ℤ) (now : ScoreBoardNode1)
    (rest : List ScoreBoardNode1) : Prop extends t.Sound a c b where
  todo : t.todo = now :: rest
  nxt : ∀ p ∈ t.nxtToRetrx, p ∈ t.seen.map (·.addr) ∨
    p = now.addr ∧ now.flag = .lost ∧ ∀ n ∈ t.prev, n.flag ≠ .lost
  prev : ∀ n ∈ t.prev, n.flag = .lost → ∃ p ∈ t.nxtToRetrx, p ∈ t.seen.map (·.addr)
  now : now.flag = .lost → t.nxtToRetrx.isSome

theorem AtNow.prev_seen (h : t.AtNow a c b) :
    ∀ n ∈ t.prev, n.flag = .lost → ∃ p ∈ t.nxtToRetrx, p ∈ t.seen.map (·.addr) := by
  intro n hn hl
  obtain ⟨p, hp⟩ := Option.isSome_iff_exists.mp (h.prev n hn hl)
  exact ⟨p, hp, h.nxt p hp⟩

theorem AtNow.keeps {t' : Sweep} (h : t.AtNow a c b) (hk : t.Keeps t') (hs : t'.Sound a c b) :
    t'.AtNow a c b := by
  refine ⟨hs, ?_, ?_⟩
  · rw [seen, hk.done, hk.prev, hk.nxt]
    exact h.nxt
  · rw [hk.prev, hk.nxt]
    exact h.prev

/-- A node that is not lost. -/
theorem AtNow.examined (h : t.AtNow a c b) (ht : t.todo = now :: rest) (hn : now.flag ≠ .lost) :
    t.Examined a c b now rest :=
  ⟨h.toSound, ht, fun p hp => .inl (h.nxt p hp), h.prev_seen, fun he => absurd he hn⟩

/-- A node that is lost: the pointer is at it if it was not set. -/
theorem AtNow.examined_lost {t' : Sweep} (h : t.AtNow a c b) (hs : t'.Sound a c b)
    (ht : t'.todo = now :: rest) (hdone : t'.done = t.done) (hprev : t'.prev = t.prev)
    (hnxt : t'.nxtToRetrx = t.nxtToRetrx.or (some now.addr)) (hl : now.flag = .lost) :
    t'.Examined a c b now rest := by
  have hseen : t'.seen = t.seen := by rw [seen, seen, hdone, hprev]
  refine ⟨hs, ht, fun p hp => ?_, fun n hn he => ?_, fun _ => ?_⟩
  · rw [hnxt] at hp
    rw [hseen, hprev]
    cases ho : t.nxtToRetrx with
    | none =>
        rw [ho, Option.none_or, Option.mem_some_iff] at hp
        refine .inr ⟨hp.symm, hl, fun n hn he => ?_⟩
        have := h.prev n hn he
        rw [ho] at this
        exact absurd this (by simp)
    | some r =>
        rw [ho, Option.some_or] at hp
        exact .inl (h.nxt p (ho ▸ hp))
  · rw [hprev] at hn
    obtain ⟨p, hp, hm⟩ := h.prev_seen n hn he
    refine ⟨p, ?_, hseen ▸ hm⟩
    rw [hnxt, Option.mem_def.mp hp, Option.some_or]
    rfl
  · rw [hnxt]
    cases t.nxtToRetrx <;> rfl

theorem AtNow.checkLost (fack dupthresh : ℤ) (h : t.AtNow a c b) (ht : t.todo = now :: rest) :
    ∃ now' rest', (t.checkLost fack dupthresh).Examined a c b now' rest' := by
  rw [Sweep.checkLost, ht]
  dsimp only
  cases hf : now.flag with
  | retransmitted =>
      dsimp only
      split_ifs with hc
      · obtain ⟨hs, hd, hp, hx, now', ht', ha, hl⟩ :=
          h.toSound.loseNow ht (by simp [hf]) (by simp [hf])
        exact ⟨now', rest, h.examined_lost hs ht' hd hp (by rw [hx, ha]) hl⟩
      · exact ⟨now, rest, h.examined ht (by simp [hf])⟩
  | inflight =>
      dsimp only
      split_ifs with hc hd
      · obtain ⟨hs, hk, now₁, rest₁, ht₁, ha₁, -, hf₁, -⟩ := h.toSound.splitNow ht
          (q := fack - (dupthresh + 1) + 1) (by simp [hf]) (by omega) (by omega)
        have h₁ := h.keeps hk hs
        obtain ⟨hs₂, hd₂, hp₂, hx₂, now₂, ht₂, ha₂, hl₂⟩ :=
          hs.loseNow ht₁ (by simp [hf₁, hf]) (by simp [hf₁, hf])
        exact ⟨now₂, rest₁, h₁.examined_lost hs₂ ht₂ hd₂ hp₂ (by rw [hx₂, ha₂]) hl₂⟩
      · obtain ⟨hs, hd, hp, hx, now', ht', ha, hl⟩ :=
          h.toSound.loseNow ht (by simp [hf]) (by simp [hf])
        exact ⟨now', rest, h.examined_lost hs ht' hd hp (by rw [hx, ha]) hl⟩
      · exact ⟨now, rest, h.examined ht (by simp [hf])⟩
  | lost =>
      dsimp only
      exact ⟨now, rest, h.examined_lost (h.toSound.relabel ht rfl rfl rfl rfl rfl rfl
        (by simp [hf]) (by simp [hf])) rfl rfl rfl rfl hf⟩
  | sacked => exact ⟨now, rest, h.examined ht (by simp [hf])⟩

/-- The part of `now` that a SACK block covers is SACKed, or the block is after `now`. -/
theorem AtNow.matchSack (h : t.AtNow a c b) (ht : t.todo = now :: rest) (hn : now.flag ≠ .sacked)
    (hr : ∀ x ∈ t.sacks.head?, now.seq < x.2) :
    t.matchSack.AtNow a c b ∧ ∃ now' rest', t.matchSack.todo = now' :: rest' ∧
      (now'.flag = .sacked ∨ t.matchSack.beyond = true) := by
  rw [Sweep.matchSack, ht]
  cases hs : t.sacks with
  | nil => exact ⟨h, now, rest, ht, .inr (by simp [beyond, hs])⟩
  | cons x sacks =>
      have hx : now.seq < x.2 := hr x (by simp [hs])
      have hrtx : now.flag = .retransmitted → now.getEnd = now.seq := fun he => by
        rw [getEnd, if_pos he]
      dsimp only
      split_ifs with h₁ h₂ h₃
      · obtain ⟨hs₁, hk, now', rest', ht', -, -, -, he⟩ := h.toSound.splitNow ht (q := x.1)
          (fun hf => by have := hrtx hf; omega) (by omega) h₁
        refine ⟨h.keeps hk hs₁, now', rest', ht', .inr ?_⟩
        simp [beyond, ht', hk.sacks, hs, he]
      · obtain ⟨hs₁, hk, now₁, rest₁, ht₁, -, -, hf₁, -⟩ := h.toSound.splitNow ht (q := x.2)
          (fun hf => by have := hrtx hf; omega) hx h₃
        obtain ⟨hs₂, hk₂, now₂, ht₂, -, hf₂⟩ := hs₁.sackNow ht₁ (by rwa [hf₁])
        exact ⟨(h.keeps hk hs₁).keeps hk₂ hs₂, now₂, rest₁, ht₂, .inl hf₂⟩
      · obtain ⟨hs₂, hk₂, now₂, ht₂, -, hf₂⟩ := h.toSound.sackNow ht hn
        exact ⟨h.keeps hk₂ hs₂, now₂, rest, ht₂, .inl hf₂⟩
      · exact ⟨h, now, rest, ht, .inr (by simp only [beyond, ht, hs]; simpa using h₁)⟩

theorem AtNow.findSack (h : t.AtNow a c b) : t.findSack.AtNow a c b := by
  rw [Sweep.findSack]
  split
  · exact h
  · exact ⟨⟨h.front, h.back, h.sackOut, h.fackOut, h.addressed⟩, h.nxt, h.prev⟩

theorem findSack_todo (ht : t.todo = now :: rest) : t.findSack.todo = now :: rest := by
  rw [Sweep.findSack, ht]

/-- The SACK block at hand ends after the first packet of `now`. -/
theorem findSack_head (ht : t.todo = now :: rest) : ∀ x ∈ t.findSack.sacks.head?, now.seq < x.2 := by
  intro x hx
  rw [Sweep.findSack, ht] at hx
  have := List.head?_dropWhile_not (fun b : ℤ × ℤ => decide (b.2 ≤ now.seq)) t.sacks
  dsimp only at hx
  rw [Option.mem_def.mp hx] at this
  simpa using this

theorem AtNow.examine (fack dupthresh : ℤ) (h : t.AtNow a c b) (ht : t.todo = now :: rest) :
    ∃ now' rest', (t.examine fack dupthresh).Examined a c b now' rest' := by
  rw [Sweep.examine, ht]
  dsimp only
  split_ifs with hn hb
  · have h₀ : t.findSack.AtNow a c b := h.findSack
    obtain ⟨h₁, now₁, rest₁, ht₁, -⟩ := h₀.matchSack (findSack_todo ht) hn (findSack_head ht)
    exact h₁.checkLost fack dupthresh ht₁
  · obtain ⟨h₁, now₁, rest₁, ht₁, hf₁⟩ :=
      h.findSack.matchSack (findSack_todo ht) hn (findSack_head ht)
    have hs : now₁.flag = .sacked := hf₁.resolve_right (by simpa using hb)
    exact ⟨now₁, rest₁, h₁.examined ht₁ (by simp [hs])⟩
  · have hs : now.flag = .sacked := by simpa using hn
    exact ⟨now, rest, h.examined ht (by simp [hs])⟩

/-- `now` is passed. -/
theorem Examined.pass {t' : Sweep} (h : t.Examined a c b now rest) (hseen : t'.seen = t.seen ++ [now])
    (hprev : t'.prev = some now) (htodo : t'.todo = rest) (hnxt : t'.nxtToRetrx = t.nxtToRetrx)
    (hs : t'.sackOut = t.sackOut) (hf : t'.fackOut = t.fackOut) (hfresh : t'.fresh = t.fresh) :
    t'.AtNow a (now.getEnd + 1) b ∧ c < now.getEnd + 1 := by
  obtain ⟨hseq, hend, hrest⟩ := h.todo ▸ h.back
  have hall : t'.seen ++ t'.todo = t.seen ++ t.todo := by simp [hseen, htodo, h.todo]
  refine ⟨⟨⟨?_, by rwa [htodo], by rw [hall, hs, h.sackOut], by rw [hall, hf, h.fackOut],
    by rw [hall, hfresh]; exact h.addressed⟩, fun p hp => ?_, fun n hn hl => ?_⟩, by omega⟩
  · rw [hseen]
    exact contig_append.mpr ⟨c, h.front, hseq, hend, rfl⟩
  · rw [hseen, List.map_append, List.mem_append]
    rcases h.nxt p (hnxt ▸ hp) with hm | ⟨he, -, -⟩
    · exact .inl hm
    · exact .inr (by simp [he])
  · rw [hprev, Option.mem_some_iff] at hn
    rw [hnxt]
    exact h.now (hn ▸ hl)

/-- `now` is merged into the node before it. -/
theorem Examined.merged {n : ScoreBoardNode1} (h : t.Examined a c b now rest)
    (hp : t.prev = some n) (hm : n.mergable now = true) :
    AtNow { t with prev := some (n.merge now), todo := rest } a (now.getEnd + 1) b ∧
      c < now.getEnd + 1 := by
  obtain ⟨hseq, hend, hrest⟩ := h.todo ▸ h.back
  obtain ⟨hrtx, hflag⟩ : now.flag ≠ .retransmitted ∧ now.flag = n.flag := by
    simpa [mergable] using hm
  have hseen : t.seen = t.done ++ [n] := by simp [seen, hp]
  have hfront := h.front
  have hs := h.sackOut
  have hf := h.fackOut
  have haddr := h.addressed
  rw [hseen] at hfront hs hf haddr
  rw [h.todo] at hs hf haddr
  obtain ⟨d, hdone, hd, hle, hc⟩ := contig_append.mp hfront
  have hc : n.getEnd + 1 = c := hc
  have hend' : (n.merge now).getEnd = now.getEnd := by
    simp [merge, getEnd, ← hflag, hrtx]
  have hlen : (n.merge now).getLength = n.getLength + now.getLength := by
    rw [getLength_eq, getLength_eq, getLength_eq, hend', show (n.merge now).seq = n.seq from rfl]
    omega
  have hseen' : seen { t with prev := some (n.merge now), todo := rest }
      = t.done ++ [n.merge now] := by simp [seen]
  have hcount : ∀ f, count f (t.done ++ [n.merge now] ++ rest)
      = count f (t.done ++ [n] ++ now :: rest) := by
    intro f
    have hfm : (n.merge now).flag = n.flag := rfl
    simp only [count_append, count_cons, count_nil, hfm, hflag, hlen]
    split_ifs <;> omega
  refine ⟨⟨⟨?_, hrest, ?_, ?_, ?_⟩, fun p hp' => ?_, fun m hn hl => ?_⟩, by omega⟩
  · rw [hseen']
    exact contig_append.mpr ⟨d, hdone, hd, by omega, by rw [hend']; rfl⟩
  · rw [hseen', hcount]
    exact hs
  · rw [hseen', hcount]
    exact hf
  · rw [hseen']
    exact haddr.sublist (by simp [merge])
  · rw [hseen']
    rcases h.nxt p hp' with hmem | ⟨-, hlost, hno⟩
    · rw [hseen] at hmem
      simpa [merge] using hmem
    · exact absurd (hflag ▸ hlost) (hno n hp)
  · rw [Option.mem_some_iff] at hn
    obtain ⟨p, hp', -⟩ := h.prev n hp (by rw [← hn] at hl; exact hl)
    exact Option.isSome_iff_exists.mpr ⟨p, hp'⟩

/-- `now` is merged with the node before it, or is passed. -/
theorem Examined.mergePrev (h : t.Examined a c b now rest) :
    ∃ c', t.mergePrev.AtNow a c' b ∧ c < c' := by
  refine ⟨now.getEnd + 1, ?_⟩
  rw [Sweep.mergePrev, h.todo]
  cases hp : t.prev with
  | none => exact h.pass (by simp [seen, hp]) rfl rfl rfl rfl rfl rfl
  | some n =>
      dsimp only
      split_ifs with hm
      · exact h.merged hp hm
      · exact h.pass (by simp [seen, hp]) rfl rfl rfl rfl rfl rfl

/-- A node up to `fack_` is appended. -/
theorem AtNow.extend (fack : ℤ) (h : t.AtNow a c b) :
    ∃ b', (t.extend fack).AtNow a c b' ∧ b' ≤ max b (fack + 1) := by
  rw [Sweep.extend]
  split
  next n hp ht =>
    split_ifs with hlt
    · have hback := h.back
      have hs := h.sackOut
      have hf := h.fackOut
      have haddr := h.addressed
      rw [ht] at hback hs hf haddr
      have hseen : t.seen = t.done ++ [n] := by simp [seen, hp]
      obtain ⟨d, -, -, -, hc⟩ := contig_append.mp (hseen ▸ h.front)
      have hc : n.getEnd + 1 = c := hc
      refine ⟨fack + 1, ⟨⟨h.front, ⟨hc, ?_, rfl⟩, ?_, ?_, ?_⟩, h.nxt, h.prev⟩, le_max_right _ _⟩
      · simp only [new, getEnd]
        simp
        omega
      · exact hs.trans (by simp [new, seen])
      · exact hf.trans (by simp [new, seen])
      · rw [List.append_nil] at haddr
        exact haddr.concat rfl
    · exact ⟨b, h, le_max_left _ _⟩
  next => exact ⟨b, h, le_max_left _ _⟩

theorem AtNow.round (fack dupthresh : ℤ) (h : t.AtNow a c b) (ht : t.todo ≠ []) :
    ∃ c' b', (t.round fack dupthresh).AtNow a c' b' ∧ c < c' ∧ b' ≤ max b (fack + 1) := by
  obtain ⟨now, rest, ht⟩ := List.exists_cons_of_ne_nil ht
  obtain ⟨now', rest', h₁⟩ := h.examine fack dupthresh ht
  obtain ⟨c', h₂, hlt⟩ := h₁.mergePrev
  obtain ⟨b', h₃, hle⟩ := h₂.extend fack
  exact ⟨c', b', h₃, hlt, hle⟩

/-- The loop ends. -/
theorem AtNow.run (dupthresh : ℤ) {m : ℤ} {k : ℕ} (h : t.AtNow a c b) (hb : b ≤ m) (hfack : fack + 1 ≤ m)
    (hk : m - c ≤ k) : ∃ t' c' b', run fack dupthresh k t = some t' ∧ t'.AtNow a c' b' := by
  induction k generalizing t c b with
  | zero =>
      have hle := h.back.le
      have hnil : t.todo = [] := by
        cases ht : t.todo with
        | nil => rfl
        | cons n l =>
            obtain ⟨h₁, h₂, h₃⟩ := ht ▸ h.back
            have := h₃.le
            omega
      exact ⟨t, c, b, by simp [Sweep.run, more, hnil], h⟩
  | succ k ih =>
      rw [Sweep.run]
      split_ifs with hm
      · have hne : t.todo ≠ [] := by
          simp only [more, decide_eq_true_eq] at hm
          exact hm.1
        obtain ⟨c', b', h', hlt, hle⟩ := h.round fack dupthresh hne
        exact ih h' (by omega) (by push_cast at hk; omega)
      · exact ⟨t, c, b, rfl, h⟩

end Sweep

/-! ### `UpdateScoreBoard` -/

theorem head?_insertSack (x : ℤ × ℤ) (l : List (ℤ × ℤ)) :
    (insertSack x l).head? = some (l.head?.elim x fun y => if y.1 > x.1 then y else x) := by
  cases l with
  | nil => rfl
  | cons y l =>
      rw [insertSack]
      split_ifs with h <;> simp [h]

/-- The head of the blocks that are inserted is one with the greatest left edge, the last one if all
of them have the same. -/
theorem head?_foldl_insertSack {l : List (ℤ × ℤ)} {x : ℤ × ℤ}
    (hx : (l.foldl (fun l b => insertSack b l) []).head? = some x) :
    x ∈ l ∧ (∀ y ∈ l, y.1 ≤ x.1) ∧ ((∀ y ∈ l, x.1 ≤ y.1) → l.getLast? = some x) := by
  induction l using List.reverseRecOn generalizing x with
  | nil => simp at hx
  | append_singleton l z ih =>
      rw [List.foldl_append, List.foldl_cons, List.foldl_nil, head?_insertSack,
        Option.some_inj] at hx
      simp only [List.mem_append, List.mem_singleton, List.getLast?_concat]
      cases hh : (l.foldl (fun l b => insertSack b l) []).head? with
      | none =>
          have hl : l = [] := by
            rcases l.eq_nil_or_concat with rfl | ⟨l, y, rfl⟩
            · rfl
            · rw [List.concat_eq_append, List.foldl_append, List.foldl_cons, List.foldl_nil,
                head?_insertSack] at hh
              exact absurd hh (by simp)
          rw [hh] at hx
          obtain rfl : z = x := hx
          simp [hl]
      | some y =>
          obtain ⟨hy, hmax, -⟩ := ih hh
          rw [hh, Option.elim_some] at hx
          split_ifs at hx with hgt
          · subst hx
            refine ⟨.inl hy, ?_, fun hall => ?_⟩
            · rintro w (hw | rfl)
              · exact hmax w hw
              · exact hgt.le
            · have := hall z (.inr rfl)
              omega
          · subst hx
            refine ⟨.inr rfl, ?_, fun _ => rfl⟩
            rintro w (hw | rfl)
            · have := hmax w hw
              omega
            · exact le_rfl

/-- The last of the sorted SACK blocks is one with the greatest left edge; it is the last block of
the ACK if all of them have the same. -/
theorem sortSacks_last {blocks : List (ℤ × ℤ)} {x : ℤ × ℤ}
    (hx : (sortSacks lastAck blocks).getLast? = some x) :
    (∀ y ∈ blocks, lastAck ≤ y.1 → y.1 ≤ x.1) ∧ x ∈ blocks ∧
      ((∀ y ∈ blocks, y.1 ≤ lastAck) →
        (blocks.filter fun b => lastAck ≤ b.1).getLast? = some x) := by
  rw [sortSacks, List.getLast?_reverse] at hx
  obtain ⟨hm, hmax, hlast⟩ := head?_foldl_insertSack hx
  rw [List.mem_filter] at hm
  refine ⟨fun y hy hle => hmax y (List.mem_filter.mpr ⟨hy, by simpa using hle⟩), hm.1,
    fun hall => hlast fun y hy => ?_⟩
  have hy' := List.mem_filter.mp hy
  have h₁ : lastAck ≤ y.1 := by simpa using hy'.2
  have h₂ := hall x hm.1
  omega

/-- The loop from the head of the list. -/
theorem Wf.process {sacks : List (ℤ × ℤ)} {thorough : Bool} {flag : SackFlags} {dupthresh : ℤ}
    (h : s.Wf)
    (hnew : s.nodes = [] → ∃ x, sacks.getLast? = some x ∧ lastAck + 1 ≤ max s.fack (x.2 - 1)) :
    ∃ r, s.process lastAck sacks thorough flag dupthresh = some r ∧ r.1.Wf := by
  obtain ⟨fack, hfack, hle⟩ : ∃ fack,
      fack = (if (sacks.getLast?.any fun b => s.fack < b.2 - 1) = true then
        (sacks.getLast?.elim s.fack fun b => b.2 - 1) else s.fack) ∧
      (s.nodes = [] → lastAck + 1 ≤ fack) := by
    refine ⟨_, rfl, fun hnil => ?_⟩
    obtain ⟨x, hx, hle⟩ := hnew hnil
    rw [hx]
    simp only [Option.any_some, Option.elim_some, decide_eq_true_eq]
    split_ifs <;> omega
  -- an empty list first gets a node that reaches up to the last SACK block
  obtain ⟨nodes, hnodes⟩ : ∃ nodes, nodes = if s.nodes = [] then
      [ScoreBoardNode1.new s.fresh (lastAck + 1) fack .inflight] else s.nodes := ⟨_, rfl⟩
  obtain ⟨fresh, hfresh⟩ : ∃ fresh, fresh = if s.nodes = [] then s.fresh + 1 else s.fresh :=
    ⟨_, rfl⟩
  have hwf : (∃ a b, Contig a nodes b) ∧ s.sackOut = count .sacked nodes ∧
      s.fackOut = count .lost nodes ∧ Addressed nodes fresh ∧ nodes ≠ [] := by
    rw [hnodes, hfresh]
    have hs := h.sackOut
    have hf := h.fackOut
    split_ifs with hnil
    · have hend : (ScoreBoardNode1.new s.fresh (lastAck + 1) fack .inflight).getEnd = fack := by
        simp [new, getEnd]
      rw [hnil] at hs hf
      refine ⟨⟨_, _, rfl, ?_, rfl⟩, by simpa [new] using hs, by simpa [new] using hf,
        Addressed.concat (l := []) ⟨by simp, by simp⟩ rfl, by simp⟩
      rw [hend]
      exact hle hnil
    · exact ⟨h.contig, hs, hf, h.addressed, hnil⟩
  obtain ⟨⟨a, b, hc⟩, hs, hf, haddr, hne⟩ := hwf
  obtain ⟨n, rest, hn⟩ := List.exists_cons_of_ne_nil hne
  obtain ⟨m, hm⟩ : ∃ m, nodes.getLast? = some m := by
    rw [hn]
    exact ⟨_, List.getLast?_cons⟩
  have hb := hc.end_eq hm
  have ha : n.seq = a := (hn ▸ hc : Contig a (n :: rest) b).1
  have hrounds : rounds nodes fack
      = nodes.length + (max fack m.getEnd + 1 - n.seq).toNat := by
    rw [rounds, hm, hn, List.head?_cons]
  -- each round passes a packet or a node: `rounds` are enough
  obtain ⟨t, c', b', hrun, ht⟩ := Sweep.AtNow.run
    (t := ⟨[], none, nodes, sacks, thorough || sacks.getLast?.any fun b => s.fack < b.2 - 1, none,
      s.ackedRtxId, s.fackOut, s.sackOut, flag, fresh⟩)
    dupthresh (m := max b (fack + 1)) (k := rounds nodes fack)
    ⟨⟨rfl, hc, hs, hf, haddr⟩, by simp, by simp⟩ (le_max_left _ _) (le_max_right _ _)
    (by rw [hrounds]; omega)
  rw [ScoreBoard1.process, ← hfack, ← hnodes, ← hfresh, hrun, Option.map_some]
  refine ⟨_, rfl, ⟨a, b', contig_append.mpr ⟨c', ht.front, ht.back⟩⟩, ht.sackOut, ht.fackOut,
    ht.addressed, fun p hp => ?_⟩
  have hmem := ht.nxt p hp
  rw [List.map_append, List.mem_append]
  exact .inl hmem

/-- What an update that finds no node needs: of the blocks that are not D-SACKs, one starts above
`last_ack`, or the last ends above `last_ack + 1`. -/
def Starts (lastAck : ℤ) (blocks : List (ℤ × ℤ)) : Prop :=
  (∃ x ∈ blocks, lastAck < x.1) ∨
    ∀ x, (blocks.filter fun b => lastAck ≤ b.1).getLast? = some x → lastAck + 1 < x.2

theorem Wf.updateScoreBoard {blocks : List (ℤ × ℤ)} (h : s.Wf) (dupthresh : ℤ)
    (hb : ∀ x ∈ blocks, x.1 < x.2)
    (hstart : (∀ n ∈ s.nodes, n.getEnd ≤ lastAck) → Starts lastAck blocks) :
    ∃ r, s.updateScoreBoard lastAck blocks dupthresh = some r ∧ r.1.Wf := by
  obtain ⟨r, hr, hwf, -, hnil⟩ := h.cleanRtxQueue lastAck
  rw [ScoreBoard1.updateScoreBoard, hr, Option.bind_some]
  split_ifs with hempty
  · rw [update]
    split_ifs with h₁ h₂
    · exact ⟨_, rfl, hwf.clearScoreBoard⟩
    · exact ⟨_, rfl, hwf.clearScoreBoard⟩
    · refine hwf.clearScoreBoard.process fun _ => ?_
      have hne : sortSacks lastAck blocks ≠ [] := fun he => h₂ ⟨rfl, he⟩
      obtain ⟨x, hx⟩ : ∃ x, (sortSacks lastAck blocks).getLast? = some x :=
        ⟨_, List.getLast?_eq_some_getLast hne⟩
      refine ⟨x, hx, ?_⟩
      obtain ⟨hmax, hmem, hlast⟩ := sortSacks_last hx
      have hlt := hb x hmem
      have hend : lastAck + 1 < x.2 := by
        by_cases hall : ∃ y ∈ blocks, lastAck < y.1
        · obtain ⟨y, hy, hly⟩ := hall
          have := hmax y hy hly.le
          omega
        · refine ((hstart (hnil.mp hempty)).resolve_left hall) x (hlast fun y hy => ?_)
          by_contra hgt
          exact hall ⟨y, hy, by omega⟩
      omega
  · rw [update]
    split_ifs with h₁ h₂
    · exact ⟨_, rfl, hwf⟩
    · exact ⟨_, rfl, hwf⟩
    · exact hwf.process fun he => absurd he hempty

/-! ### `MarkLoss` -/

namespace Marking

variable {t t' : Marking} {rest : List ScoreBoardNode1} {sack sndNxt : ℤ}

/-- The nodes before `now`. -/
def seen (t : Marking) : List ScoreBoardNode1 := t.done ++ t.prev.toList

/-- What a round keeps: the nodes before `now` end at `c`, the others at `b`; `sack` packets are
SACKed. -/
structure Sound (t : Marking) (sack a c b : ℤ) : Prop where
  front : Contig a t.seen c
  back : Contig c t.todo b
  sackOut : sack = count .sacked (t.seen ++ t.todo)
  fackOut : t.fackOut = count .lost (t.seen ++ t.todo)
  addressed : Addressed (t.seen ++ t.todo) t.fresh
  nxt : ∀ p ∈ t.nxtToRetrx, p ∈ t.seen.map (·.addr)
  lost : t.lastLost = true → ∃ n, t.prev = some n ∧ n.flag = .lost
  first : t.prev = none → t.done = []

/-- `now` is passed, with another flag or not. -/
theorem Sound.pass {m : ScoreBoardNode1} (h : t.Sound sack a c b) (ht : t.todo = now :: rest)
    (haddr : m.addr = now.addr) (hseq : m.seq = now.seq) (hend : m.getEnd = now.getEnd)
    (hdone : t'.done = t.seen) (hprev : t'.prev = some m) (htodo : t'.todo = rest)
    (hfresh : t'.fresh = t.fresh)
    (hs : (if m.flag = .sacked then now.getLength else 0)
      = if now.flag = .sacked then now.getLength else 0)
    (hf : t'.fackOut = t.fackOut - (if now.flag = .lost then now.getLength else 0)
      + if m.flag = .lost then now.getLength else 0)
    (hnxt : ∀ p ∈ t'.nxtToRetrx, p ∈ t.nxtToRetrx ∨ p = now.addr)
    (hlost : t'.lastLost = true → m.flag = .lost) : t'.Sound sack a (now.getEnd + 1) b := by
  obtain ⟨h₁, h₂, h₃⟩ := ht ▸ h.back
  have hseen : t'.seen = t.seen ++ [m] := by simp [seen, hdone, hprev]
  have hlen : m.getLength = now.getLength := by rw [getLength_eq, getLength_eq, hend, hseq]
  have hs' := h.sackOut
  have hf' := h.fackOut
  have haddr' := h.addressed
  rw [ht, count_append, count_cons] at hs' hf'
  rw [ht] at haddr'
  refine ⟨?_, by rwa [htodo], ?_, ?_, ?_, fun p hp => ?_, fun hl => ⟨m, hprev, hlost hl⟩,
    fun hno => absurd (hprev.symm.trans hno) (by simp)⟩
  · rw [hseen]
    exact contig_append.mpr ⟨c, h.front, hseq.trans h₁, by rwa [hend], by rw [hend]; rfl⟩
  · rw [hseen, htodo, List.append_assoc, List.singleton_append, count_append, count_cons, hlen, hs,
      hs']
  · rw [hseen, htodo, List.append_assoc, List.singleton_append, count_append, count_cons, hlen, hf,
      hf']
    omega
  · rw [hseen, htodo, hfresh, List.append_assoc, List.singleton_append]
    exact haddr'.replace haddr
  · rw [hseen, List.map_append, List.mem_append]
    rcases hnxt p hp with hp' | rfl
    · exact .inl (h.nxt p hp')
    · exact .inr (by simp [haddr])

/-- `now` is lost and merged into the lost node before it. -/
theorem Sound.merged {n now' : ScoreBoardNode1} (h : t.Sound sack a c b) (ht : t.todo = now :: rest)
    (hp : t.prev = some n) (hl : n.flag = .lost) (hflag : now'.flag = .lost)
    (hend : now'.getEnd = now.getEnd) (hns : now.flag ≠ .sacked) (hdone : t'.done = t.done)
    (hprev : t'.prev = some (n.merge now')) (htodo : t'.todo = rest) (hfresh : t'.fresh = t.fresh)
    (hf : t'.fackOut = t.fackOut - (if now.flag = .lost then now.getLength else 0) + now.getLength)
    (hnxt : t'.nxtToRetrx = t.nxtToRetrx) : t'.Sound sack a (now.getEnd + 1) b := by
  obtain ⟨h₁, h₂, h₃⟩ := ht ▸ h.back
  have hseen : t.seen = t.done ++ [n] := by simp [seen, hp]
  have hseen' : t'.seen = t.done ++ [n.merge now'] := by simp [seen, hdone, hprev]
  have hfront := h.front
  have hs' := h.sackOut
  have hf' := h.fackOut
  have haddr := h.addressed
  rw [hseen] at hfront hs' hf' haddr
  rw [ht] at hs' hf' haddr
  simp only [count_append, count_cons, count_nil, hl] at hs' hf'
  obtain ⟨d, hdone', hd, hle, hc⟩ := contig_append.mp hfront
  have hc : n.getEnd + 1 = c := hc
  have hfm : (n.merge now').flag = .lost := hl
  have hend' : (n.merge now').getEnd = now.getEnd := by
    rw [← hend]
    simp [merge, getEnd, hl, hflag]
  have hlen : (n.merge now').getLength = n.getLength + now.getLength := by
    rw [getLength_eq, getLength_eq, getLength_eq, hend', show (n.merge now').seq = n.seq from rfl]
    omega
  refine ⟨?_, by rwa [htodo], ?_, ?_, ?_, fun p hp' => ?_, fun _ => ⟨_, hprev, hfm⟩,
    fun hno => absurd (hprev.symm.trans hno) (by simp)⟩
  · rw [hseen']
    exact contig_append.mpr ⟨d, hdone', hd, by omega, by rw [hend']; rfl⟩
  · rw [hseen', htodo]
    simp only [count_append, count_cons, count_nil, hfm]
    rw [hs', if_neg hns]
    simp
  · rw [hseen', htodo]
    simp only [count_append, count_cons, count_nil, hfm, hlen]
    rw [hf, hf']
    simp only [if_true]
    omega
  · rw [hseen', htodo, hfresh]
    exact haddr.sublist (by simp [merge])
  · rw [hseen']
    have hmem := h.nxt p (hnxt ▸ hp')
    rw [hseen] at hmem
    simpa [merge] using hmem

theorem Sound.markNow (h : t.Sound sack a c b) (ht : t.todo = now :: rest) :
    ∃ t', t.markNow = some t' ∧ t'.Sound sack a (now.getEnd + 1) b ∧ t'.todo = rest ∧
      t'.prev ≠ none := by
  have hlen := now.getLength_eq
  obtain ⟨k, hk⟩ : ∃ k, k = if now.flag ≠ .lost then t.fackOut + (now.getEnd - now.seq + 1)
    else t.fackOut := ⟨_, rfl⟩
  have hk' : k = t.fackOut - (if now.flag = .lost then now.getLength else 0) + now.getLength := by
    by_cases hl : now.flag = .lost
    · rw [hk, if_neg (not_not.mpr hl), if_pos hl]
      omega
    · rw [hk, if_pos hl, if_neg hl]
      omega
  rw [Marking.markNow, ht]
  dsimp only
  rw [← hk]
  by_cases hs : now.flag = .sacked
  · rw [if_neg (not_not.mpr hs)]
    exact ⟨_, rfl, h.pass ht rfl rfl rfl rfl rfl rfl rfl rfl (by simp [hs]) (fun p hp => .inl hp)
      (by simp), rfl, by simp⟩
  rw [if_pos hs]
  split_ifs with hl
  · obtain ⟨n, hp, hn⟩ := h.lost hl
    rw [hp, Option.map_some]
    exact ⟨_, rfl, h.merged ht hp hn rfl (by simp) hs rfl rfl rfl rfl hk' rfl, rfl, by simp⟩
  · refine ⟨_, rfl, h.pass (m := now.setFlag .lost) ht rfl rfl (by simp) rfl rfl rfl rfl
      (by simp [hs, setFlag]) (by simpa [setFlag] using hk') (fun p hp => ?_) (fun _ => rfl), rfl,
      by simp⟩
    cases ho : t.nxtToRetrx with
    | none =>
        rw [ho] at hp
        exact .inr (by simpa using hp.symm)
    | some q =>
        rw [ho] at hp
        exact .inl (by simpa using hp)

/-- The packets sent after the last node are appended. -/
theorem Sound.extend (sndNxt : ℤ) (h : t.Sound sack a c b) :
    ∃ b', (t.extend sndNxt).Sound sack a c b' ∧ ((t.extend sndNxt).todo = t.todo ∧ b' = b ∨
      (t.extend sndNxt).todo.length = 1 ∧ b < sndNxt ∧ b' = sndNxt) := by
  rw [Marking.extend]
  split
  next n hp ht =>
    have hseen : t.seen = t.done ++ [n] := by simp [seen, hp]
    obtain ⟨d, -, -, -, hc⟩ := contig_append.mp (hseen ▸ h.front)
    have hc : n.getEnd + 1 = c := hc
    have hcb := h.back
    rw [ht] at hcb
    have hcb : c = b := hcb
    split_ifs with hlt
    · have hs := h.sackOut
      have hf := h.fackOut
      have haddr := h.addressed
      rw [ht] at hs hf haddr
      have hend : (ScoreBoardNode1.new t.fresh (n.getEnd + 1) (sndNxt - 1) .inflight).getEnd
          = sndNxt - 1 := by simp [new, getEnd]
      refine ⟨sndNxt, ⟨h.front, ⟨hc, by rw [hend]; omega, ?_⟩, hs.trans (by simp [new, seen]),
        hf.trans (by simp [new, seen]), ?_, h.nxt, h.lost, h.first⟩, .inr ⟨rfl, by omega, rfl⟩⟩
      · rw [hend]
        exact sub_add_cancel sndNxt 1
      · rw [List.append_nil] at haddr
        exact haddr.concat rfl
    · exact ⟨b, h, .inl ⟨rfl, rfl⟩⟩
  next => exact ⟨b, h, .inl ⟨rfl, rfl⟩⟩

theorem Sound.finish (h : t.Sound sack a c b) (ht : t.todo = []) : t.Sound sack a b b := by
  have hcb := h.back
  rw [ht] at hcb
  obtain rfl : c = b := hcb
  exact h

/-- The loop ends, with every node passed. -/
theorem Sound.run (sndNxt : ℤ) {k : ℕ} (h : t.Sound sack a c b)
    (hk : t.todo.length + (if b < sndNxt then 1 else 0) ≤ k) :
    ∃ t' c', run sndNxt k t = some t' ∧ t'.Sound sack a c' c' ∧ t'.todo = [] ∧
      (t'.prev = none → t.prev = none ∧ t.todo = []) := by
  induction k generalizing t c b with
  | zero =>
      have hnil : t.todo = [] := List.eq_nil_iff_length_eq_zero.mpr (by omega)
      rw [Marking.run, if_neg (by simp [hnil])]
      exact ⟨t, b, rfl, h.finish hnil, hnil, fun hp => ⟨hp, hnil⟩⟩
  | succ k ih =>
      rw [Marking.run]
      split_ifs with hne
      · obtain ⟨now, rest, ht⟩ := List.exists_cons_of_ne_nil hne
        obtain ⟨t₁, hmark, h₁, hrest, hprev⟩ := h.markNow ht
        obtain ⟨b', h₂, hcases⟩ := h₁.extend sndNxt
        have hlen : t.todo.length = t₁.todo.length + 1 := by rw [hrest, ht, List.length_cons]
        have hk' : (t₁.extend sndNxt).todo.length + (if b' < sndNxt then 1 else 0) ≤ k := by
          rcases hcases with ⟨h₃, rfl⟩ | ⟨h₃, h₄, rfl⟩
          · rw [h₃]
            omega
          · rw [if_neg (lt_irrefl _)]
            rw [if_pos h₄] at hk
            omega
        obtain ⟨t', c', hrun, h₄, hnil, hp⟩ := ih h₂ hk'
        have hprev' : (t₁.extend sndNxt).prev = t₁.prev := by
          rw [Marking.extend]
          split
          · split_ifs <;> rfl
          · rfl
        rw [hmark, Option.bind_some]
        exact ⟨t', c', hrun, h₄, hnil, fun h₅ => absurd (hprev' ▸ (hp h₅).1) hprev⟩
      · rw [not_not] at hne
        exact ⟨t, b, rfl, h.finish hne, hne, fun hp => ⟨hp, hne⟩⟩

end Marking

theorem Wf.markLoss (sndUna sndNxt : ℤ) (h : s.Wf) :
    ∃ s', s.markLoss sndUna sndNxt = some s' ∧ s'.Wf := by
  obtain ⟨a, b, hc⟩ := h.contig
  have hsound : Marking.Sound ⟨[], none, s.nodes, false, none, s.fackOut, s.fresh⟩ s.sackOut a a b :=
    ⟨rfl, hc, h.sackOut, h.fackOut, h.addressed, by simp, by simp, fun _ => rfl⟩
  obtain ⟨t, c', hrun, ht, hnil, hprev⟩ := hsound.run sndNxt (k := s.nodes.length + 1)
    (by dsimp only; split_ifs <;> omega)
  have hs := ht.sackOut
  have hf := ht.fackOut
  have haddr := ht.addressed
  rw [hnil, List.append_nil] at hs hf haddr
  rw [ScoreBoard1.markLoss, hrun, Option.map_some]
  dsimp only
  split_ifs with hempty
  · have hseen : t.seen = [] := by simp [Marking.seen, hempty.1, ht.first hempty.1]
    rw [hseen] at hs hf
    have hlen : (ScoreBoardNode1.new t.fresh sndUna (sndNxt - 1) .lost).getEnd = sndNxt - 1 := by
      simp [new, getEnd]
    refine ⟨_, rfl, ⟨sndUna, sndNxt - 1 + 1, rfl, by rw [hlen]; omega, by rw [hlen]; rfl⟩,
      by simpa [new] using hs, ?_, Addressed.concat (l := []) ⟨by simp, by simp⟩ rfl,
      by simp [new]⟩
    rw [hf]
    simp [new, getLength]
  · exact ⟨_, rfl, ⟨a, c', ht.front⟩, hs, hf, haddr, ht.nxt⟩

/-! ### `GetNextRetran` and `MarkRetran` -/

/-- `GetNextRetran` follows no deleted node; it returns -1, or the first packet of a lost node at
which the pointer is then. -/
theorem Wf.getNextRetran (h : s.Wf) :
    ∃ r, s.getNextRetran = some r ∧ r.1.Wf ∧ (r.2 = -1 ∨ ∃ n ∈ r.1.nodes,
      r.1.nxtToRetrx = some n.addr ∧ n.flag = .lost ∧ r.2 = n.seq) := by
  rw [ScoreBoard1.getNextRetran]
  split
  next hnone => exact ⟨_, rfl, h, .inl rfl⟩
  next p hp =>
    obtain ⟨m, hm, he⟩ := List.mem_map.mp (h.nxt p hp)
    have hall : ¬ (s.nodes.all (·.addr ≠ p)) = true := by
      rw [List.all_eq_true]
      exact fun hno => absurd he (by simpa using hno m hm)
    rw [if_neg hall]
    split
    next => exact ⟨_, rfl, ⟨h.contig, h.sackOut, h.fackOut, h.addressed, by simp⟩, .inl rfl⟩
    next n hn =>
      have hmem : n ∈ s.nodes :=
        (List.dropWhile_suffix _).subset (List.mem_of_find?_eq_some hn)
      have hl : n.flag = .lost := by simpa using List.find?_some hn
      refine ⟨_, rfl, ⟨h.contig, h.sackOut, h.fackOut, h.addressed, fun q hq => ?_⟩,
        .inr ⟨n, hmem, rfl, hl, rfl⟩⟩
      rw [Option.mem_some_iff] at hq
      exact hq ▸ List.mem_map_of_mem hmem

/-- Only the node with an address is replaced. -/
theorem flatMap_addr {l₁ l₂ : List ScoreBoardNode1} (f : ScoreBoardNode1 → List ScoreBoardNode1)
    (h : ((l₁ ++ n :: l₂).map (·.addr)).Nodup) :
    (l₁ ++ n :: l₂).flatMap (fun m => if m.addr = n.addr then f m else [m])
      = l₁ ++ (f n ++ l₂) := by
  have hid : ∀ l : List ScoreBoardNode1, (∀ m ∈ l, m.addr ≠ n.addr) →
      l.flatMap (fun m => if m.addr = n.addr then f m else [m]) = l := by
    intro l hl
    induction l with
    | nil => rfl
    | cons m l ih =>
        rw [List.flatMap_cons, if_neg (hl m (by simp)), ih fun x hx => hl x (by simp [hx])]
        rfl
  rw [List.map_append, List.map_cons, List.nodup_append] at h
  obtain ⟨-, h₂, h₃⟩ := h
  rw [List.nodup_cons] at h₂
  rw [List.flatMap_append, List.flatMap_cons, if_pos rfl, hid l₁ fun m hm he => ?_,
    hid l₂ fun m hm he => ?_]
  · exact h₂.1 (he ▸ List.mem_map_of_mem hm)
  · exact h₃ _ (List.mem_map_of_mem hm) _ (by simp) he

/-- The node that is retransmitted is one packet, and what is left of it is lost still. -/
theorem markRetran_marks {l₁ l₂ : List ScoreBoardNode1} {k : ℕ} (sndNxt retransId : ℤ)
    (hl : n.flag = .lost) (hseq : n.seq = c) (hend : c ≤ n.getEnd)
    (haddr : Addressed (l₁ ++ n :: l₂) k) :
    Contig c (n.markRetran k sndNxt retransId) (n.getEnd + 1) ∧
      count .sacked (n.markRetran k sndNxt retransId) = 0 ∧
      count .lost (n.markRetran k sndNxt retransId) = n.getLength - 1 ∧
      Addressed (l₁ ++ (n.markRetran k sndNxt retransId ++ l₂)) (k + 1) ∧
      n.addr ∈ (n.markRetran k sndNxt retransId).map (·.addr) := by
  have hr : n.flag ≠ .retransmitted := by simp [hl]
  have hnxt : n.getEnd = n.nxt := by rw [getEnd, if_neg hr]
  have hlen := n.getLength_eq
  rw [ScoreBoardNode1.markRetran]
  split_ifs with hgt
  · refine ⟨⟨hseq, ?_, ?_, ?_, ?_⟩, ?_, ?_, haddr.insert rfl rfl, by simp [split]⟩
    · simp [getEnd, split, hseq]
    · simp [getEnd, split, new]
    · simp [getEnd, split, new, hl]
      omega
    · simp [getEnd, split, new, hl, Contig]
    · simp [split, new, hl]
    · simp [split, new, hl, getLength]
      omega
  · refine ⟨⟨hseq, ?_, ?_⟩, ?_, ?_, .succ (haddr.replace ?_), by simp⟩
    · simp [getEnd, hseq]
    · simp [getEnd, Contig, hl]
      omega
    · simp
    · simp
      omega
    · rfl

/-- `MarkRetran` at the lost node the pointer is at. -/
theorem Wf.markRetran (sndNxt : ℤ) (h : s.Wf) (hn : n ∈ s.nodes)
    (hp : s.nxtToRetrx = some n.addr) (hl : n.flag = .lost) :
    ∃ s', s.markRetran n.seq sndNxt = some s' ∧ s'.Wf := by
  obtain ⟨a, b, hc⟩ := h.contig
  have hle := hc.seq_le hn
  have hr : n.flag ≠ .retransmitted := by simp [hl]
  have hnxt : n.getEnd = n.nxt := by rw [getEnd, if_neg hr]
  obtain ⟨l₁, l₂, hsplit⟩ := List.append_of_mem hn
  have hs := h.sackOut
  have hf := h.fackOut
  have haddr := h.addressed
  rw [hsplit] at hc hs hf haddr
  obtain ⟨c, hc₁, hseq, hend, hc₂⟩ := contig_append.mp hc
  simp only [count_append, count_cons, hl] at hs hf
  simp only [if_true, reduceCtorEq, if_false] at hs hf
  have hlen := n.getLength_eq
  have h₁ := hc₁.count_nonneg (f := .lost)
  have h₂ := hc₂.count_nonneg (f := .lost)
  have hfind : s.nxtToRetrx.bind (fun p => s.nodes.find? (·.addr = p)) = some n := by
    rw [hp, Option.bind_some, hsplit, List.find?_append, List.find?_eq_none.mpr]
    · simp
    · intro m hm
      have := haddr.nodup
      rw [List.map_append, List.map_cons, List.nodup_append] at this
      simpa using this.2.2 _ (List.mem_map_of_mem hm) _ List.mem_cons_self
  have hin : n.inside n.seq = true := by
    rw [inside, if_neg hr]
    simp
    omega
  rw [ScoreBoard1.markRetran, hfind]
  dsimp only
  rw [if_neg (by simp [hin]), if_neg (by omega), hsplit, flatMap_addr _ haddr.nodup]
  obtain ⟨hcm, hsm, hfm, ham, hmm⟩ := markRetran_marks sndNxt s.rtxId hl hseq hend haddr
  refine ⟨_, rfl, ⟨a, b, contig_append.mpr ⟨c, hc₁, contig_append.mpr ⟨_, hcm, hc₂⟩⟩⟩, ?_, ?_, ham,
    fun p hp' => ?_⟩
  · simp only [count_append, hsm]
    omega
  · simp only [count_append, hfm]
    omega
  · rw [hp, Option.mem_some_iff] at hp'
    rw [← hp', List.map_append, List.map_append, List.mem_append, List.mem_append]
    exact .inr (.inl hmm)

/-! ### Runs of calls -/

/-- The calls of `counters_exact`: the SACK blocks are non-empty, and an update that finds every
node acked has blocks to start from. -/
def Admits (s : ScoreBoard1) : Call → Prop
  | .update lastAck blocks _ =>
      (∀ x ∈ blocks, x.1 < x.2) ∧ ((∀ n ∈ s.nodes, n.getEnd ≤ lastAck) → Starts lastAck blocks)
  | _ => True

/-- A call does not exit, and keeps the list and the counters. -/
theorem Wf.step {c : Call} (h : s.Wf) (hadm : s.Admits c) : ∃ s', s.step c = some s' ∧ s'.Wf := by
  cases c with
  | update lastAck blocks dupthresh =>
      obtain ⟨r, hr, hwf⟩ := h.updateScoreBoard dupthresh hadm.1 hadm.2
      exact ⟨r.1, by rw [ScoreBoard1.step, hr, Option.map_some], hwf⟩
  | clean lastAck =>
      obtain ⟨r, hr, hwf, -⟩ := h.cleanRtxQueue lastAck
      exact ⟨r.1, by rw [ScoreBoard1.step, hr, Option.map_some], hwf⟩
  | markLoss sndUna sndNxt => exact h.markLoss sndUna sndNxt
  | nextRetran =>
      obtain ⟨r, hr, hwf, -⟩ := h.getNextRetran
      exact ⟨r.1, by rw [ScoreBoard1.step, hr, Option.map_some], hwf⟩
  | retransmit sndNxt =>
      obtain ⟨r, hr, hwf, hcases⟩ := h.getNextRetran
      rw [ScoreBoard1.step, ScoreBoard1.retransmit, hr, Option.bind_some]
      split_ifs with hneg
      · exact ⟨r.1, rfl, hwf⟩
      · obtain ⟨n, hn, hp, hl, he⟩ := hcases.resolve_left hneg
        rw [he]
        exact hwf.markRetran sndNxt hn hp hl
  | clear => exact ⟨_, rfl, h.clearScoreBoard⟩

/-- The scoreboard after a run of calls of `Admits`. -/
inductive Run : ScoreBoard1 → Prop
  | init : Run .init
  | step {s s' : ScoreBoard1} {c : Call} (h : Run s) (hadm : s.Admits c) (hs : s.step c = some s') :
      Run s'

theorem Run.wf (h : Run s) : s.Wf := by
  induction h with
  | init => exact init_wf
  | step _ hadm hs ih =>
      obtain ⟨s', hs', hwf⟩ := ih.step hadm
      rw [hs] at hs'
      cases hs'
      exact hwf

/-- **The counters of the list of runs.**  In a run of calls of `Admits` the nodes are non-empty
and follow one another, `sack_out_` and `fack_out_` count the packets of the SACKed and of the
lost ones, and no further call fails an assertion, follows a deleted node or loops. -/
theorem counters_exact (h : Run s) :
    (∃ a b, Contig a s.nodes b) ∧ (∀ n ∈ s.nodes, n.seq ≤ n.getEnd) ∧
      s.sackOut = count .sacked s.nodes ∧ s.fackOut = count .lost s.nodes ∧
      ∀ c, s.Admits c → (s.step c).isSome := by
  obtain ⟨a, b, hc⟩ := h.wf.contig
  refine ⟨⟨a, b, hc⟩, fun n hn => hc.seq_le hn, h.wf.sackOut, h.wf.fackOut, fun c hadm => ?_⟩
  obtain ⟨s', hs', -⟩ := h.wf.step hadm
  simp [hs']

/-- The first calls of `ScoreBoard1::test`: packets 4 and 7 are SACKed on 1, and 2 is sent again. -/
theorem counters_exact_test :
    ∃ s, ((init.step (.update 1 [(4, 5)] 3)).bind (step · (.update 1 [(7, 8)] 3))).bind
        (step · (.retransmit 8)) = some s ∧ s.sackOut = 2 ∧ s.fackOut = 1 ∧
      count .sacked s.nodes = 2 ∧ count .lost s.nodes = 1 := by
  have hadm : ∀ (s : ScoreBoard1) (x : ℤ), 3 < x → s.Admits (.update 1 [(x, x + 1)] 3) :=
    fun s x hx => ⟨by simp, fun _ => .inl ⟨_, List.mem_cons_self, by dsimp only; omega⟩⟩
  obtain ⟨s₁, hs₁⟩ := Option.isSome_iff_exists.mp
    ((counters_exact .init).2.2.2.2 _ (hadm init 4 (by decide)))
  have h₁ : Run s₁ := .step .init (hadm init 4 (by decide)) hs₁
  obtain ⟨s₂, hs₂⟩ := Option.isSome_iff_exists.mp
    ((counters_exact h₁).2.2.2.2 _ (hadm s₁ 7 (by decide)))
  have h₂ : Run s₂ := .step h₁ (hadm s₁ 7 (by decide)) hs₂
  obtain ⟨s₃, hs₃⟩ := Option.isSome_iff_exists.mp
    ((counters_exact h₂).2.2.2.2 (.retransmit 8) trivial)
  have hrun : ((init.step (.update 1 [(4, 5)] 3)).bind (step · (.update 1 [(7, 8)] 3))).bind
      (step · (.retransmit 8)) = some s₃ := by
    rw [show init.step (.update 1 [(4, 5)] 3) = some s₁ from hs₁, Option.bind_some,
      show s₁.step (.update 1 [(7, 8)] 3) = some s₂ from hs₂, Option.bind_some, hs₃]
  have hcount : (((init.step (.update 1 [(4, 5)] 3)).bind (step · (.update 1 [(7, 8)] 3))).bind
      (step · (.retransmit 8))).map (fun s => (s.sackOut, s.fackOut)) = some (2, 1) := by decide
  rw [hrun, Option.map_some, Option.some_inj, Prod.mk.injEq] at hcount
  obtain ⟨-, -, hsack, hfack, -⟩ := counters_exact (.step (c := .retransmit 8) h₂ trivial hs₃)
  exact ⟨s₃, hrun, hcount.1, hcount.2, hsack ▸ hcount.1, hfack ▸ hcount.2⟩

/-- A block for the packet `last_ack` itself on an empty list: the node it makes is empty. -/
theorem empty_node :
    ∃ s, init.step (.update 10 [(10, 11)] 3) = some s ∧ ∃ n ∈ s.nodes, n.getEnd < n.seq := by
  have hnodes : (init.step (.update 10 [(10, 11)] 3)).map
      (fun s => s.nodes.map fun n => (n.seq, n.getEnd)) = some [(11, 10)] := by decide
  obtain ⟨s, hs, he⟩ := Option.map_eq_some_iff.mp hnodes
  have hmem : ((11 : ℤ), (10 : ℤ)) ∈ s.nodes.map fun n => (n.seq, n.getEnd) := by simp [he]
  obtain ⟨n, hn, hne⟩ := List.mem_map.mp hmem
  rw [Prod.mk.injEq] at hne
  exact ⟨s, hs, n, hn, by omega⟩

end ScoreBoard1

end Afabric
