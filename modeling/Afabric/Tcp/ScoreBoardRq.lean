import Afabric.Tcp.ScoreBoard
import Afabric.Tcp.SegListSpec

/-!
# Tcp — the scoreboard on a reassembly queue

`ScoreBoardRQ` (`tcp/scoreboard-rq.h`, `tcp/scoreboard-rq.cc`) keeps the SACKed packets in a
`ReassemblyQueue`, here its list of blocks (`SegList`).  The queue has `sack_min` as its
`rcv_nxt_`, by reference, so that each `add` may move it.

`sack_min` is meant to be one more than the highest cumulative ack.  `add` sets it to the end of
a block that starts at or below it, and so moves it back for a block that ends below it
(`stale_block`).  `rq_retran_new` is the result for the runs in which each SACK block ends above
the highest cumulative ack.  What the calls say is the `Board` of `ScoreBoard.lean`.
-/

namespace Afabric

/-- `ScoreBoardRQ`: `h_seqno_`, `sack_min`, `changed_` and `rq_`. -/
structure ScoreBoardRQ where
  hSeqno : ℤ
  sackMin : ℤ
  changed : Bool
  rq : List Block
deriving DecidableEq, Repr

namespace ScoreBoardRQ

/-- The constructor. -/
def init : ScoreBoardRQ := ⟨-1, -1, false, []⟩

/-- `GetNextRetran`. -/
def getNextRetran (s : ScoreBoardRQ) : ScoreBoardRQ × ℤ :=
  let h := if s.hSeqno < s.sackMin then s.sackMin else s.hSeqno
  let r := SegList.nexthole s.rq h
  if r.1 > 0 then
    if r.2.1 ≤ 0 then ({ s with hSeqno := h }, -1)
    else ({ s with hSeqno := if r.1 > h then r.1 else h }, r.1)
  else ({ s with hSeqno := h }, -1)

/-- The first part of `UpdateScoreBoard`: the beginning of the queue is one beyond `last_ack`. -/
def cleartonxt (s : ScoreBoardRQ) (lastAck : ℤ) : ScoreBoardRQ :=
  if s.sackMin ≤ lastAck then
    if s.rq ≠ [] then
      { s with
        sackMin := lastAck + 1
        changed := true
        rq := (SegList.clearto s.rq (lastAck + 1)).1 }
    else { s with sackMin := lastAck + 1, changed := false }
  else { s with changed := false }

/-- `rq_.add` of a SACK block. -/
def add (s : ScoreBoardRQ) (b : ℤ × ℤ) : ScoreBoardRQ :=
  let r := SegList.add s.rq s.sackMin b.1 b.2 0
  { s with sackMin := r.rcvNxt, rq := r.blocks }

/-- `UpdateScoreBoard`. -/
def updateScoreBoard (s : ScoreBoardRQ) (lastAck : ℤ) (blocks : List (ℤ × ℤ)) : ScoreBoardRQ :=
  let s' := blocks.foldl add (s.cleartonxt lastAck)
  { s' with changed := s'.changed || decide (SegList.total s.rq ≠ SegList.total s'.rq) }

/-- `MarkRetran`, of one argument or of two. -/
def markRetran (s : ScoreBoardRQ) (retranSeqno : ℤ) : ScoreBoardRQ :=
  if retranSeqno ≥ s.hSeqno then { s with hSeqno := retranSeqno + 1 } else s

/-- `ClearScoreBoard`. -/
def clearScoreBoard (s : ScoreBoardRQ) : ScoreBoardRQ := { s with rq := [], hSeqno := -1 }

/-- What a call does. -/
def step (s : ScoreBoardRQ) : ScoreBoard.Call → ScoreBoardRQ
  | .update lastAck blocks => s.updateScoreBoard lastAck blocks
  | .markRetran retranSeqno _ => s.markRetran retranSeqno
  | .clear => s.clearScoreBoard

end ScoreBoardRQ

/-! ### Holes -/

namespace SegList

/-- `nexthole` is a hole at or above `seq`. -/
theorem nexthole_spec {l : List Block} (hwf : Wf l) (seq : ℤ) :
    (nexthole l seq).1 = -1 ∨ seq ≤ (nexthole l seq).1 ∧ (nexthole l seq).1 ∉ bytes l := by
  induction l with
  | nil => exact .inl rfl
  | cons p l ih =>
      obtain ⟨h₁, h₂, h₃⟩ := Normal.cons_iff.mp hwf
      rw [nexthole]
      split_ifs with hgt hle hnil
      · refine .inr ⟨le_rfl, ?_⟩
        rintro ⟨x, hx, hxs, -⟩
        rcases List.mem_cons.mp hx with rfl | hx
        · omega
        · have := h₂ x hx
          omega
      all_goals try
        refine .inr ⟨hle, ?_⟩
        rintro ⟨x, hx, hxs, hxe⟩
        rcases List.mem_cons.mp hx with rfl | hx
        · dsimp only at hxe
          omega
        · have := h₂ x hx
          dsimp only at hxs
          omega
      · rcases ih h₃ with h | ⟨h, hn⟩
        · exact .inl h
        · refine .inr ⟨h, ?_⟩
          rintro ⟨x, hx, hxs, hxe⟩
          rcases List.mem_cons.mp hx with rfl | hx
          · omega
          · exact hn ⟨x, hx, hxs, hxe⟩

/-- If every block ends at or above `rcv_nxt_`, so it is after an `add`. -/
theorem add_le_stop {l : List Block} {start stop rcv : ℤ} {ti : TcpFlag} (hwf : Wf l)
    (hlt : start < stop) (hle : ∀ y ∈ l, rcv ≤ y.stop) :
    ∀ y ∈ (add l rcv start stop ti).blocks, (add l rcv start stop ti).rcvNxt ≤ y.stop := by
  obtain ⟨a, t, b, m, hj, hr⟩ := add_spec hwf hlt rcv ti
  have hwf' := hj.wf hwf hlt
  have hm : m.start < m.stop := hwf'.nonempty m (by simp)
  have hmle : rcv < m.start ∨ m.start ≤ rcv := lt_or_ge _ _
  have hall : rcv ≤ m.stop → ∀ y ∈ a ++ m :: b, rcv ≤ y.stop := by
    intro hrm y hy
    rcases List.mem_append.mp hy with hy | hy
    · exact hle y (by simp [hj.eq, hy])
    · rcases List.mem_cons.mp hy with rfl | hy
      · exact hrm
      · exact hle y (by simp [hj.eq, hy])
  rw [hr.blocks]
  -- `rcv_nxt_` moves to the end of the new block, of a block it has taken in, or of the first
  rcases hr.rcvNxt with he | ⟨x, hx, -, he⟩ | ⟨h, hh, he⟩
  · rw [he, bump]
    split_ifs with hc
    · -- a block before `m` would end below `rcv_nxt_`
      obtain ⟨-, -, hab⟩ := Normal.append_iff.mp hwf'
      obtain rfl : a = [] := List.eq_nil_iff_forall_not_mem.mpr fun x hx => by
        have := hab x hx m (by simp)
        have := hle x (by simp [hj.eq, hx])
        omega
      intro y hy
      rcases List.mem_cons.mp hy with rfl | hy
      · exact le_rfl
      · have := (Normal.cons_iff.mp hwf').2.1 y hy
        have := hwf'.nonempty y (by simp [hy])
        omega
    · exact hall (by omega)
  · rw [he]
    have := hle x (by simp [hj.eq, hx])
    have := (hj.spans x hx).2
    exact hall (by omega)
  · obtain ⟨rest, hrest⟩ : ∃ rest, a ++ m :: b = h :: rest := by
      cases hab : a ++ m :: b with
      | nil => simp at hab
      | cons y rest =>
          rw [hab, List.head?_cons, Option.some_inj] at hh
          exact ⟨rest, by rw [hh]⟩
    rw [he]
    rw [hrest] at hwf' ⊢
    obtain ⟨h₁, h₂, -⟩ := Normal.cons_iff.mp hwf'
    intro y hy
    have hy' : y = h ∨ h.stop < y.start ∧ y.start < y.stop := by
      rcases List.mem_cons.mp hy with rfl | hy'
      · exact .inl rfl
      · exact .inr ⟨h₂ y hy', hwf'.nonempty y hy⟩
    rw [bump]
    split_ifs with hc
    · rcases hy' with rfl | ⟨h₃, h₄⟩ <;> omega
    · rcases hy' with rfl | ⟨h₃, h₄⟩ <;> omega

/-- A segment that ends above `c` leaves `rcv_nxt_` above `c`. -/
theorem lt_add_rcvNxt {l : List Block} {start stop rcv c : ℤ} {ti : TcpFlag} (hwf : Wf l)
    (hlt : start < stop) (hle : ∀ y ∈ l, rcv ≤ y.stop) (hc : c < rcv) (hstop : c < stop) :
    c < (add l rcv start stop ti).rcvNxt := by
  obtain ⟨a, t, b, m, hj, hr⟩ := add_spec hwf hlt rcv ti
  have hm := hj.le_stop
  have hbump : ∀ y : Block, c < y.stop → c < bump rcv y := by
    intro y hy
    rw [bump]
    split_ifs
    · exact hy
    · exact hc
  rcases hr.rcvNxt with he | ⟨-, -, -, he⟩ | ⟨h, hh, he⟩
  · rw [he]
    exact hbump m (by omega)
  · rwa [he]
  · rw [he]
    refine hbump h ?_
    have hmem : h ∈ a ++ m :: b := List.mem_of_head? hh
    rcases List.mem_append.mp hmem with hy | hy
    · exact hc.trans_le (hle h (by simp [hj.eq, hy]))
    · rcases List.mem_cons.mp hy with rfl | hy
      · omega
      · exact hc.trans_le (hle h (by simp [hj.eq, hy]))

end SegList

namespace ScoreBoardRQ

open SegList

variable {s s' : ScoreBoardRQ} {b : Board} {x : ℤ × ℤ} {blocks : List (ℤ × ℤ)} {i lastAck : ℤ}

/-- What the queue and `sack_min` are for a board: the queue holds the SACKed packets above the
cumulative ack, and `sack_min` is above it once an update has come in. -/
structure Represents (s : ScoreBoardRQ) (b : Board) : Prop where
  wf : Wf s.rq
  le_stop : ∀ x ∈ s.rq, s.sackMin ≤ x.stop
  acked : -1 ≤ b.acked
  sackMin : b.acked < s.sackMin ∨ s.sackMin = -1 ∧ b.acked = -1 ∧ s.rq = []
  sacked : ∀ i ∈ b.sacked, i ≤ b.acked ∨ i ∈ bytes s.rq

theorem init_represents : init.Represents .init where
  wf := .nil
  le_stop := by simp [init]
  acked := le_rfl
  sackMin := .inr ⟨rfl, rfl, rfl⟩
  sacked i hi := hi.elim

namespace Represents

theorem cleartonxt (h : s.Represents b) (hlast : -1 ≤ lastAck) :
    (s.cleartonxt lastAck).Represents (b.ackTo lastAck) ∧
      (b.ackTo lastAck).acked < (s.cleartonxt lastAck).sackMin := by
  have hacked : (b.ackTo lastAck).acked = max b.acked lastAck := rfl
  have hge := h.acked
  rw [ScoreBoardRQ.cleartonxt]
  split_ifs with hle hne
  · have hwf := clearto_wf h.wf (lastAck + 1)
    have hlt : max b.acked lastAck < lastAck + 1 := by
      rcases h.sackMin with hs | ⟨-, ha, -⟩ <;> omega
    refine ⟨⟨hwf, fun x hx => ?_, by omega, .inl hlt, fun i hi => ?_⟩, hlt⟩
    · have := clearto_le h.wf x hx
      have := hwf.nonempty x hx
      dsimp only
      omega
    · rw [hacked, clearto_bytes h.wf, Set.mem_sdiff, Set.mem_Iio]
      rcases h.sacked i hi with h₁ | h₁
      · omega
      · by_cases h₂ : i < lastAck + 1
        · omega
        · exact .inr ⟨h₁, h₂⟩
  · have hlt : max b.acked lastAck < lastAck + 1 := by
      rcases h.sackMin with hs | ⟨-, ha, -⟩ <;> omega
    rw [not_not] at hne
    refine ⟨⟨h.wf, by simp [hne], by omega, .inl hlt, fun i hi => ?_⟩, hlt⟩
    rcases h.sacked i hi with h₁ | h₁
    · omega
    · exact .inr h₁
  · have hlt : max b.acked lastAck < s.sackMin := by
      rcases h.sackMin with hs | ⟨hs, ha, -⟩ <;> omega
    refine ⟨⟨h.wf, h.le_stop, by omega, .inl hlt, fun i hi => ?_⟩, hlt⟩
    rcases h.sacked i hi with h₁ | h₁
    · omega
    · exact .inr h₁

/-- A SACK block that ends above the cumulative ack. -/
theorem add (h : s.Represents b) (hs : b.acked < s.sackMin) (hx : x.1 < x.2)
    (hack : b.acked < x.2) :
    (s.add x).Represents (b.sack [x]) ∧ (b.sack [x]).acked < (s.add x).sackMin := by
  have hlt : _ < (SegList.add _ _ _ _ 0).rcvNxt := lt_add_rcvNxt h.wf hx h.le_stop hs hack
  refine ⟨⟨add_wf h.wf hx, add_le_stop h.wf hx h.le_stop, h.acked, .inl hlt, fun i hi => ?_⟩, hlt⟩
  rw [ScoreBoardRQ.add, add_bytes h.wf hx]
  rcases hi with hi | ⟨y, hy, h₁, h₂⟩
  · exact (h.sacked i hi).imp_right .inl
  · rw [List.mem_singleton] at hy
    exact .inr (.inr ⟨by rwa [← hy], by rwa [← hy]⟩)

/-- The SACK blocks. -/
theorem addAll (h : s.Represents b) (hs : b.acked < s.sackMin)
    (hb : ∀ x ∈ blocks, x.1 < x.2 ∧ b.acked < x.2) :
    (blocks.foldl ScoreBoardRQ.add s).Represents (b.sack blocks) := by
  induction blocks generalizing s b with
  | nil => simpa [Board.sack, Board.covered] using h
  | cons x blocks ih =>
      obtain ⟨h', hs'⟩ := h.add hs (hb x (by simp)).1 (hb x (by simp)).2
      have hcov : (b.sack [x]).sack blocks = b.sack (x :: blocks) := by
        have hunion : Board.covered (x :: blocks) = Board.covered [x] ∪ Board.covered blocks := by
          ext i
          simp [Board.covered]
        simp only [Board.sack, hunion, Set.union_assoc, Set.sdiff_sdiff]
      rw [List.foldl_cons, ← hcov]
      exact ih h' hs' fun y hy => hb y (by simp [hy])

end Represents

/-- The calls of `rq_retran_new`: the blocks of an update end above the highest cumulative ack so
far, that of the update included. -/
def Admits (b : Board) : ScoreBoard.Call → Prop
  | .update lastAck blocks =>
      -1 ≤ lastAck ∧ ∀ x ∈ blocks, x.1 < x.2 ∧ max b.acked lastAck < x.2
  | .markRetran _ _ => True
  | .clear => True

/-- A call does what it says. -/
theorem Represents.step {c : ScoreBoard.Call} (h : s.Represents b) (hadm : Admits b c) :
    (s.step c).Represents (b.step c) := by
  cases c with
  | update lastAck blocks =>
      obtain ⟨h₁, hs₁⟩ := h.cleartonxt hadm.1
      have h₂ := h₁.addAll hs₁ hadm.2
      exact ⟨h₂.wf, h₂.le_stop, h₂.acked, h₂.sackMin, h₂.sacked⟩
  | markRetran i sndNxt =>
      have hrq : (s.markRetran i).rq = s.rq ∧ (s.markRetran i).sackMin = s.sackMin := by
        rw [markRetran]
        split_ifs <;> exact ⟨rfl, rfl⟩
      refine ⟨?_, ?_, h.acked, ?_, ?_⟩
      all_goals simp only [ScoreBoardRQ.step, hrq]
      exacts [h.wf, h.le_stop, h.sackMin, h.sacked]
  | clear =>
      refine ⟨.nil, by simp [ScoreBoardRQ.step, clearScoreBoard], h.acked, ?_, fun i hi => hi.elim⟩
      rcases h.sackMin with hs | ⟨hs, ha, -⟩
      · exact .inl hs
      · exact .inr ⟨hs, ha, rfl⟩

/-- The packet `GetNextRetran` returns is neither acked nor SACKed. -/
theorem Represents.getNextRetran (h : s.Represents b) :
    s.getNextRetran.1.Represents b ∧
      (s.getNextRetran.2 = -1 ∨
        b.acked < s.getNextRetran.2 ∧ s.getNextRetran.2 ∉ b.sacked) := by
  obtain ⟨v, hv⟩ : ∃ v, v = if s.hSeqno < s.sackMin then s.sackMin else s.hSeqno := ⟨_, rfl⟩
  have hmin : s.sackMin ≤ v := by
    rw [hv]
    split_ifs <;> omega
  have hcases : s.getNextRetran.2 = -1 ∨
      s.getNextRetran.2 = (nexthole s.rq v).1 ∧ (nexthole s.rq v).1 > 0 := by
    rw [ScoreBoardRQ.getNextRetran, ← hv]
    split_ifs with h₁ h₂
    all_goals first | exact .inl rfl | exact .inr ⟨rfl, h₁⟩
  have hstate : s.getNextRetran.1.rq = s.rq ∧ s.getNextRetran.1.sackMin = s.sackMin := by
    rw [ScoreBoardRQ.getNextRetran]
    split_ifs <;> exact ⟨rfl, rfl⟩
  refine ⟨⟨by rw [hstate.1]; exact h.wf, by rw [hstate.1, hstate.2]; exact h.le_stop, h.acked,
    by rw [hstate.1, hstate.2]; exact h.sackMin, by rw [hstate.1]; exact h.sacked⟩, ?_⟩
  rcases hcases with hnone | ⟨he, hpos⟩
  · exact .inl hnone
  · rw [he]
    rcases nexthole_spec h.wf v with hneg | ⟨hle, hhole⟩
    · omega
    · have hlt : b.acked < (nexthole s.rq v).1 := by
        rcases h.sackMin with hs | ⟨-, -, hnil⟩
        · omega
        · rw [hnil, nexthole] at hpos
          omega
      refine .inr ⟨hlt, fun hs => ?_⟩
      rcases h.sacked _ hs with hle' | hin
      · omega
      · exact hhole hin

/-! ### Runs of calls -/

/-- The scoreboard and the board after a run of calls of `Admits`. -/
inductive Run : ScoreBoardRQ → Board → Prop
  | init : Run .init .init
  | step {s : ScoreBoardRQ} {b : Board} {c : ScoreBoard.Call} (h : Run s b) (hadm : Admits b c) :
      Run (s.step c) (b.step c)
  | getNextRetran {s : ScoreBoardRQ} {b : Board} (h : Run s b) : Run s.getNextRetran.1 b

theorem Run.represents (h : Run s b) : s.Represents b := by
  induction h with
  | init => exact init_represents
  | step _ hadm ih => exact ih.step hadm
  | getNextRetran _ ih => exact ih.getNextRetran.1

/-- **`GetNextRetran` returns no packet that has arrived.**  In a run in which the SACK blocks end
above the highest cumulative ack, a packet it returns is above that ack and was not SACKed. -/
theorem rq_retran_new (h : Run s b) :
    s.getNextRetran.2 = -1 ∨ b.acked < s.getNextRetran.2 ∧ s.getNextRetran.2 ∉ b.sacked :=
  h.represents.getNextRetran.2

/-- Packets 15 and 16 are SACKed on 10: packet 11 is sent again, and the next is 12. -/
theorem rq_retran_new_hole :
    ((init.step (.update 10 [(15, 17)])).step (.markRetran 11 none)).getNextRetran.2 = 12 ∧
      (12 : ℤ) ∉ ((Board.init.step (.update 10 [(15, 17)])).step (.markRetran 11 none)).sacked := by
  have hrun : Run ((init.step (.update 10 [(15, 17)])).step (.markRetran 11 none))
      ((Board.init.step (.update 10 [(15, 17)])).step (.markRetran 11 none)) :=
    .step (.step .init ⟨by decide, by decide⟩) trivial
  have hnext : ((init.step (.update 10 [(15, 17)])).step (.markRetran 11 none)).getNextRetran.2
      = 12 := by decide
  rcases rq_retran_new hrun with h | ⟨-, h⟩
  · rw [hnext] at h
    exact absurd h (by decide)
  · rw [hnext] at h
    exact ⟨hnext, h⟩

/-- A DSACK block for packet 3 on the cumulative ack 10, with packet 15 SACKed: packet 4 is to be
sent again. -/
theorem stale_block :
    (init.step (.update 10 [(3, 4), (15, 16)])).getNextRetran.2 = 4 ∧
      4 ≤ (Board.init.step (.update 10 [(3, 4), (15, 16)])).acked :=
  ⟨by decide, by decide⟩

end ScoreBoardRQ

end Afabric
