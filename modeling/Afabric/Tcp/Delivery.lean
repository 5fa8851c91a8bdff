import Afabric.Tcp.PendingAck

/-!
# Tcp — delivery

What a receiver has delivered and what it has buffered, over the arrivals of the data segments of
one stream in any order (`Arrivals`).  `Received` is the invariant: the bytes received are those
below `rcv_nxt_` and those of the queue.  From it follows that a stream is delivered in order and
each byte once (`delivers_in_order`).

What is left of the flow is counted by the length of the segments, not by what they deliver
(`spend`), so it is exact only while no segment delivers buffered bytes above its own
(`remaining_exact`).
-/

namespace Afabric

open SegList

/-! ### One segment -/

/-- The bytes from `a` on that the receiver has. -/
def RcvState.has (r : RcvState) (a : Int) : Set Int := Set.Ico a r.rcvNxt ∪ bytes r.rq

/-- What is left of a flow after `n` bytes. -/
def spend (rem n : Int) : Int :=
  let rem := if rem > 0 then rem - n else rem
  if rem = 0 then -1 else rem

/-- A buffered block reaches from within or the end of `[lo, hi)` beyond it. -/
def Leaps (l : List Block) (hi : Int) : Prop := ∃ b ∈ l, b.start ≤ hi ∧ hi < b.stop

/-- What a receiver does with the new bytes `[lo, hi)`. -/
structure RcvState.Takes (r : RcvState) (lo hi : Int) (r' : RcvState) : Prop where
  wf : r'.Wf
  finFree : FinFree r'.rq
  has : ∀ a ≤ r.rcvNxt, r'.has a = r.has a ∪ Set.Ico lo hi
  delivered : r'.delivered.sum = r.delivered.sum + (r'.rcvNxt - r.rcvNxt)
  ahead : r.rcvNxt < lo → r'.rcvNxt = r.rcvNxt ∧ r'.flowRemaining = r.flowRemaining
  fills : lo = r.rcvNxt → hi ≤ r'.rcvNxt ∧ (hi < r'.rcvNxt ↔ Leaps r.rq hi) ∧
    r'.flowRemaining = spend r.flowRemaining (hi - lo)

theorem SegList.Joined.finFree {start stop : Int} {ti : TcpFlag} {l a t b : List Block} {m : Block}
    (h : Joined start stop ti l a t b m) (hl : FinFree l) (hti : ti &&& TcpFlag.fin = 0) :
    FinFree (a ++ m :: b) := by
  intro x hx
  rcases List.mem_append.mp hx with hx | hx
  · exact hl x (by simp [h.eq, hx])
  rcases List.mem_cons.mp hx with rfl | hx
  · have hkept : FinFree (kept start stop t) := fun y hy =>
      hl y (by simp [h.eq, mem_of_mem_kept hy])
    rw [h.flags, BitVec.and_or_distrib_right, hti, FullTcpAgent.orFlags_fin hkept]
    rfl
  · exact hl x (by simp [h.eq, hx])

namespace RcvState

variable {r : RcvState} {lo hi : Int} {ti : TcpFlag}

theorem deliver_sum (r : RcvState) (n d : Int) :
    (r.deliver n d).delivered.sum = r.delivered.sum + n := by
  rw [deliver, List.sum_cons, add_comm]

/-- A segment above `rcv_nxt_`. -/
theorem accept_ahead (hw : r.Wf) (hf : FinFree r.rq) (hti : ti &&& TcpFlag.fin = 0)
    (hlo : r.rcvNxt < lo) (hlt : lo < hi) : r.Takes lo hi (r.accept lo hi ti) := by
  obtain ⟨-, habove⟩ := hw.add_ahead ti hlo hlt
  have he : r.accept lo hi ti = { r with rq := (add r.rq r.rcvNxt lo hi ti).blocks } := by
    simp only [accept]
    rw [if_neg (by omega), if_neg (by omega)]
  obtain ⟨a, t, b, m, hj, hr⟩ := add_spec hw.wf hlt r.rcvNxt ti
  rw [he]
  refine ⟨⟨add_wf hw.wf hlt, habove⟩, ?_, fun c _ => ?_, by simp, fun _ => ⟨rfl, rfl⟩,
    fun h => by omega⟩
  · rw [hr.blocks]
    exact hj.finFree hf hti
  · simp only [has, add_bytes hw.wf hlt]
    rw [Set.union_assoc]

/-- A segment at `rcv_nxt_`, with nothing buffered. -/
theorem accept_next (hrq : r.rq = []) (hlt : r.rcvNxt < hi) :
    r.Takes r.rcvNxt hi (r.accept r.rcvNxt hi ti) := by
  have he : r.accept r.rcvNxt hi ti =
      { r with rcvNxt := hi }.deliver (hi - r.rcvNxt) (hi - r.rcvNxt) := by
    simp only [accept]
    exact if_pos ⟨trivial, hrq⟩
  rw [he]
  refine ⟨⟨hrq ▸ .nil, by simp [deliver, hrq]⟩, ?_, fun a ha => ?_, deliver_sum _ _ _,
    fun h => absurd h (lt_irrefl _), fun _ => ⟨le_rfl, ?_, rfl⟩⟩
  · intro x hx
    simp [deliver, hrq] at hx
  · simp only [has, deliver, hrq, bytes, cover_nil, Set.union_empty]
    exact (Set.Ico_union_Ico_eq_Ico ha hlt.le).symm
  · simp [deliver, hrq, Leaps]

/-- A segment at `rcv_nxt_` that is joined with the blocks it reaches. -/
theorem accept_fill (hw : r.Wf) (hf : FinFree r.rq) (hrq : r.rq ≠ []) (hlt : r.rcvNxt < hi) :
    r.Takes r.rcvNxt hi (r.accept r.rcvNxt hi ti) := by
  obtain ⟨t, b, m, hj, hms, -, hbl, hrcv, -, hclear⟩ := hw.add_fill ti hlt
  have he : r.accept r.rcvNxt hi ti = { r with rq := b, rcvNxt := m.stop }.deliver
      (m.stop - r.rcvNxt) (hi - r.rcvNxt) := by
    simp only [accept]
    rw [if_neg (by simp [hrq]), if_pos trivial, hrcv, hbl, hclear]
  obtain ⟨-, hmb, hwb⟩ := Normal.cons_iff.mp (hj.wf hw.wf hlt)
  have hcov : bytes (m :: b) = bytes r.rq ∪ Set.Ico r.rcvNxt hi := hj.bytes_eq
  have hmem : ∀ x ∈ b, x ∈ r.rq := fun x hx => by rw [hj.eq]; simp [hx]
  have hle := hj.le_stop
  rw [he]
  refine ⟨⟨hwb, hmb⟩, fun x hx => hf x (hmem x hx), fun a ha => ?_, deliver_sum _ _ _,
    fun h => absurd h (lt_irrefl _), fun _ => ⟨hle, ⟨fun h => ?_, ?_⟩, rfl⟩⟩
  · rw [bytes, cover_cons, hms] at hcov
    simp only [has, deliver]
    rw [Set.union_assoc, ← hcov, ← Set.union_assoc,
      Set.Ico_union_Ico_eq_Ico ha (le_trans hlt.le hle)]
  · rcases hj.stop_eq with e | ⟨x, hx, e⟩
    · simp only [deliver, e] at h
      omega
    · refine ⟨x, by rw [hj.eq]; simp [hx], (hj.touch x hx).2, ?_⟩
      rw [e]
      exact h
  · rintro ⟨x, hx, hxs, hlt⟩
    rw [hj.eq, List.nil_append] at hx
    rcases List.mem_append.mp hx with hx | hx
    · exact lt_of_lt_of_le hlt (hj.spans x hx).2
    · have := hj.above x hx
      omega

/-- **What a receiver does with new bytes.** -/
theorem accept_spec (hw : r.Wf) (hf : FinFree r.rq) (hti : ti &&& TcpFlag.fin = 0)
    (hlo : r.rcvNxt ≤ lo) (hlt : lo < hi) : r.Takes lo hi (r.accept lo hi ti) := by
  rcases hlo.lt_or_eq with hlo | rfl
  · exact accept_ahead hw hf hti hlo hlt
  · by_cases hrq : r.rq = []
    · exact accept_next hrq hlt
    · exact accept_fill hw hf hrq hlt

end RcvState

/-! ### The arrivals of a stream -/

/-- The bytes from `a` on that some segments contain. -/
def segBytes (a : Int) (segs : List Segment) : Set Int :=
  {b | a ≤ b ∧ ∃ p ∈ segs, p.seqno ≤ b ∧ b < p.seqno + p.len}

/-- The receiver `r` after it has taken the segments, from `r₀` on. -/
structure Received (r₀ : RcvState) (segs : List Segment) (r : RcvState) : Prop where
  wf : r.Wf
  finFree : FinFree r.rq
  le : r₀.rcvNxt ≤ r.rcvNxt
  has : r.has r₀.rcvNxt = segBytes r₀.rcvNxt segs
  delivered : r.delivered.sum = r₀.delivered.sum + (r.rcvNxt - r₀.rcvNxt)

theorem Received.start {r₀ : RcvState} (h : r₀.rq = []) : Received r₀ [] r₀ := by
  refine ⟨⟨h ▸ .nil, by simp [h]⟩, by simp [FinFree, h], le_rfl, ?_, by simp⟩
  simp [RcvState.has, segBytes, h]

/-- The bytes a segment adds to those below `rcv_nxt_`. -/
theorem Ico_union_new {a n lo hi : Int} (ha : a ≤ n) :
    Set.Ico a n ∪ Set.Ico (max lo n) hi = Set.Ico a n ∪ {b | a ≤ b ∧ lo ≤ b ∧ b < hi} := by
  ext b
  simp only [Set.mem_union, Set.mem_Ico, Set.mem_ofPred_eq]
  omega

/-- One more segment. -/
theorem Received.receive {r₀ r : RcvState} {segs : List Segment} {p : Segment}
    (h : Received r₀ segs r) (hp : p.IsData) : Received r₀ (p :: segs) (r.receive p) := by
  have hcons : segBytes r₀.rcvNxt (p :: segs) =
      segBytes r₀.rcvNxt segs ∪ {b | r₀.rcvNxt ≤ b ∧ p.seqno ≤ b ∧ b < p.seqno + p.len} := by
    ext b
    simp only [segBytes, List.mem_cons, exists_eq_or_imp, Set.mem_ofPred_eq, Set.mem_union]
    rw [← and_or_left, or_comm]
  have hnew : r.has r₀.rcvNxt ∪ Set.Ico (max p.seqno r.rcvNxt) (p.seqno + p.len) =
      segBytes r₀.rcvNxt (p :: segs) := by
    rw [hcons, ← h.has, RcvState.has, Set.union_right_comm, Ico_union_new h.le,
      Set.union_right_comm]
  rw [RcvState.receive]
  split_ifs with hold
  · refine ⟨h.wf, h.finFree, h.le, ?_, h.delivered⟩
    rw [← hnew, Set.Ico_eq_empty (by omega), Set.union_empty]
  · have ht := RcvState.accept_spec h.wf h.finFree hp.fin (le_max_right p.seqno r.rcvNxt)
      (show max p.seqno r.rcvNxt < p.seqno + p.len by have := hp.len; omega)
    have hle : r.rcvNxt ≤ (r.accept (max p.seqno r.rcvNxt) (p.seqno + p.len) p.flags).rcvNxt := by
      rcases (le_max_right p.seqno r.rcvNxt).lt_or_eq with hlt | heq
      · exact (ht.ahead hlt).1.ge
      · have := (ht.fills heq.symm).1
        omega
    refine ⟨ht.wf, ht.finFree, h.le.trans hle, ?_, ?_⟩
    · rw [ht.has _ h.le, hnew]
    · rw [ht.delivered, h.delivered]
      ring

/-- `rcv_nxt_` is the first byte that is missing. -/
theorem Received.isLeast {r₀ r : RcvState} {segs : List Segment} (h : Received r₀ segs r) :
    IsLeast {b | r₀.rcvNxt ≤ b ∧ ∀ p ∈ segs, ¬ (p.seqno ≤ b ∧ b < p.seqno + p.len)} r.rcvNxt := by
  refine ⟨⟨h.le, fun p hp hin => ?_⟩, fun b hb => ?_⟩
  · have hmem : r.rcvNxt ∈ r.has r₀.rcvNxt := by
      rw [h.has]
      exact ⟨h.le, p, hp, hin⟩
    rcases hmem with hmem | ⟨x, hx, hle, -⟩
    · exact absurd hmem.2 (lt_irrefl _)
    · have := h.wf.above x hx
      omega
  · by_contra hlt
    have hmem : b ∈ r.has r₀.rcvNxt := .inl ⟨hb.1, not_le.mp hlt⟩
    rw [h.has] at hmem
    obtain ⟨-, p, hp, hin⟩ := hmem
    exact hb.2 p hp hin

/-! ### What is left of a flow -/

/-- The segment delivers buffered bytes above its own. -/
def Jumps (r : RcvState) (p : Segment) : Prop :=
  p.seqno ≤ r.rcvNxt ∧ r.rcvNxt < p.seqno + p.len ∧ Leaps r.rq (p.seqno + p.len)

/-- `flow_remaining_` of the receiver `r` is what is left of the flow of `n` bytes that starts with
`r₀`; it is -1 when nothing is left. -/
def Remains (r₀ : RcvState) (n : Int) (r : RcvState) : Prop :=
  r.flowRemaining = if r.rcvNxt = r₀.rcvNxt + n then -1 else n - (r.rcvNxt - r₀.rcvNxt)

/-- The receiver of a flow has no byte above it. -/
theorem Received.within {r₀ r : RcvState} {segs : List Segment} {n : Int}
    (h : Received r₀ segs r) (hn : 0 ≤ n)
    (hs : ∀ p ∈ segs, p.seqno + p.len ≤ r₀.rcvNxt + n) :
    r.rcvNxt ≤ r₀.rcvNxt + n := by
  by_contra hlt
  have hmem : r₀.rcvNxt + n ∈ r.has r₀.rcvNxt := .inl ⟨by omega, not_le.mp hlt⟩
  rw [h.has] at hmem
  obtain ⟨-, p, hp, hin⟩ := hmem
  have := hs p hp
  omega

theorem Received.remains_iff {r₀ r : RcvState} {segs : List Segment} {p : Segment} {n : Int}
    (h : Received r₀ segs r) (hn : 0 ≤ n)
    (hs : ∀ q ∈ p :: segs, q.seqno + q.len ≤ r₀.rcvNxt + n) (hp : p.IsData)
    (hr : Remains r₀ n r) : Remains r₀ n (r.receive p) ↔ ¬ Jumps r p := by
  have hle' := (h.receive hp).within hn hs
  have hpn := hs p (by simp)
  have hlen := hp.len
  rw [RcvState.receive] at hle' ⊢
  by_cases hold : p.seqno + p.len ≤ r.rcvNxt
  · rw [if_pos hold]
    exact ⟨fun _ hj => by have := hj.2.1; omega, fun _ => hr⟩
  rw [if_neg hold] at hle' ⊢
  have ht := RcvState.accept_spec h.wf h.finFree hp.fin (le_max_right p.seqno r.rcvNxt)
    (show max p.seqno r.rcvNxt < p.seqno + p.len by omega)
  generalize r.accept (max p.seqno r.rcvNxt) (p.seqno + p.len) p.flags = r' at hle' ht
  by_cases hahead : r.rcvNxt < p.seqno
  · obtain ⟨h₁, h₂⟩ := ht.ahead (by omega)
    rw [Remains, h₁, h₂]
    exact ⟨fun _ hj => by have := hj.1; omega, fun _ => hr⟩
  · obtain ⟨h₁, h₂, h₃⟩ := ht.fills (by omega)
    have hj : Jumps r p ↔ p.seqno + p.len < r'.rcvNxt := by
      rw [Jumps, ← h₂]
      omega
    rw [Remains, if_neg (by omega)] at hr
    simp only [hj, Remains, h₃, hr, spend]
    split_ifs <;> omega

/-- A segment that moves `rcv_nxt_` and delivers no more than its own bytes moves it to its end. -/
theorem Received.fills {r₀ r : RcvState} {segs : List Segment} {p : Segment}
    (h : Received r₀ segs r) (hp : p.IsData) (hj : ¬ Jumps r p)
    (hlt : r.rcvNxt < (r.receive p).rcvNxt) :
    p.seqno ≤ r.rcvNxt ∧ (r.receive p).rcvNxt = p.seqno + p.len := by
  have hlen := hp.len
  rw [RcvState.receive] at hlt ⊢
  by_cases hold : p.seqno + p.len ≤ r.rcvNxt
  · rw [if_pos hold] at hlt
    exact absurd hlt (lt_irrefl _)
  rw [if_neg hold] at hlt ⊢
  have ht := RcvState.accept_spec h.wf h.finFree hp.fin (le_max_right p.seqno r.rcvNxt)
    (show max p.seqno r.rcvNxt < p.seqno + p.len by omega)
  generalize r.accept (max p.seqno r.rcvNxt) (p.seqno + p.len) p.flags = r' at hlt ht
  by_cases hahead : r.rcvNxt < p.seqno
  · have := (ht.ahead (by omega)).1
    omega
  · obtain ⟨h₁, h₂, -⟩ := ht.fills (by omega)
    refine ⟨not_lt.mp hahead, le_antisymm (not_lt.mp fun hgt => hj ?_) h₁⟩
    exact ⟨not_lt.mp hahead, not_le.mp hold, h₂.mp hgt⟩

namespace FullTcpAgent

variable {κ : Type} {cfg : FullTcpConfig} {h : Hooks κ} {s₀ s s' : FullTcpAgent κ}
  {segs : List Segment} {p : Segment} {ok : FullTcpAgent κ → Segment → Prop}

/-- A receiver in ESTABLISHED, with the data segments that it has taken, the latest first: each
met `ok` when it came.  Between them the agent does as it likes with the rest of its state. -/
inductive Arrivals (cfg : FullTcpConfig) (h : Hooks κ) (ok : FullTcpAgent κ → Segment → Prop)
    (s₀ : FullTcpAgent κ) : List Segment → FullTcpAgent κ → Prop where
  | start : Arrivals cfg h ok s₀ [] s₀
  | taken {segs : List Segment} {s s' : FullTcpAgent κ} {fuel : Nat} {p : Segment} :
      Arrivals cfg h ok s₀ segs s → s.state = .established → p.IsData → ¬ Dropped cfg s p →
      ok s p → s.recv cfg h fuel p = some s' → Arrivals cfg h ok s₀ (p :: segs) s'
  | dropped {segs : List Segment} {s s' : FullTcpAgent κ} {fuel : Nat} {p : Segment} :
      Arrivals cfg h ok s₀ segs s → s.state = .established → p.IsData → Dropped cfg s p →
      s.recv cfg h fuel p = some s' → Arrivals cfg h ok s₀ segs s'
  | other {segs : List Segment} {s s' : FullTcpAgent κ} :
      Arrivals cfg h ok s₀ segs s → s'.rcv = s.rcv → Arrivals cfg h ok s₀ segs s'

theorem Arrivals.received (h₀ : s₀.rcv.rq = []) (ha : Arrivals cfg h ok s₀ segs s) :
    Received s₀.rcv segs s.rcv := by
  induction ha with
  | start => exact .start h₀
  | taken _ hst hp hnd _ he ih =>
      rw [((recv_handles hst hp he).rcv ih.wf ih.finFree hp).2 hnd]
      exact ih.receive hp
  | dropped _ hst hp hd he ih => rwa [((recv_handles hst hp he).rcv ih.wf ih.finFree hp).1 hd]
  | other _ he ih => rwa [he]

/-- **A stream is delivered in order, each byte once.**  Over any arrivals of data segments without
FIN, `rcv_nxt_` is the first byte of the stream that no segment taken contains, it never goes back,
and what has been delivered is what lies below it. -/
theorem delivers_in_order (cfg : FullTcpConfig) (h : Hooks κ) (s₀ s : FullTcpAgent κ)
    (segs : List Segment) (h₀ : s₀.rcv.rq = [])
    (ha : Arrivals cfg h (fun _ _ => True) s₀ segs s) :
    IsLeast {b | s₀.rcv.rcvNxt ≤ b ∧ ∀ p ∈ segs, ¬ (p.seqno ≤ b ∧ b < p.seqno + p.len)}
      s.rcv.rcvNxt ∧
    s.rcv.delivered.sum = s₀.rcv.delivered.sum + (s.rcv.rcvNxt - s₀.rcv.rcvNxt) ∧
    ∀ fuel p s', s.state = .established → p.IsData → s.recv cfg h fuel p = some s' →
      s.rcv.rcvNxt ≤ s'.rcv.rcvNxt := by
  have hr := ha.received h₀
  refine ⟨hr.isLeast, hr.delivered, fun fuel p s' hst hp he => ?_⟩
  obtain ⟨hdrop, hkeep⟩ := (recv_handles hst hp he).rcv hr.wf hr.finFree hp
  by_cases hd : Dropped cfg s p
  · rw [hdrop hd]
  · rw [hkeep hd]
    exact (hr.receive hp).isLeast.mono hr.isLeast fun b hb =>
      ⟨hb.1, fun q hq => hb.2 q (List.mem_cons_of_mem p hq)⟩

end FullTcpAgent

namespace NsDefault

open FullTcpAgent

/-- A listening agent that expects a flow of `n` bytes. -/
def listener (n : Int) : FullTcpAgent Bool :=
  { agent with state := .listen, rcv := { agent.rcv with flowRemaining := n } }

/-- A segment with a time stamp. -/
def stamped (seqno ackno len : Int) (flags : TcpFlag) (ts : ℚ) : Segment :=
  { segment seqno ackno len flags with ts := ts }

/-- A data segment. -/
def data (seqno len : Int) (ts : ℚ) : Segment := stamped seqno 1 len TcpFlag.ack ts

/-- The listener, with the time stamp option if `ts`, after the handshake and the segments. -/
def accepts (ts : Bool) (n : Int) (segs : List Segment) : Option (FullTcpAgent Bool) :=
  let cfg := { config .reno with tsOption := ts }
  (listener n).run cfg (hooks cfg) 5 ((stamped 0 0 0 TcpFlag.syn 1 :: stamped 1 1 0 TcpFlag.ack 2 ::
    segs).map fun p => (10, .recv p))

/-- A receiver after the handshake. -/
def sink (n : Int) : FullTcpAgent Bool :=
  { agent with
    state := .established
    snd := { agent.snd with tSeqno := 1, maxseq := 1, highestAck := 1 }
    rcv := { agent.rcv with rcvNxt := 1, irs := 0, flowRemaining := n }
    ctl := { agent.ctl with lastAckSent := 1 } }

end NsDefault

open NsDefault in
/-- A segment that was sent before the retransmission that overtakes it is dropped by its time
stamp, and its bytes are still missing. -/
theorem late_segment_dropped :
    (accepts true (-1) []).map (fun s => (s.state, s.rcv.rcvNxt)) = some (.established, 1) ∧
    (accepts true (-1) [data 1 10 5]).map (fun s => (s.state, s.rcv.rcvNxt)) =
      some (.established, 11) ∧
    (accepts true (-1) [data 1 10 5, data 11 10 3]).map (fun s => (s.state, s.rcv.rcvNxt)) =
      some (.established, 11) ∧
    ¬ IsLeast {b : Int | 1 ≤ b ∧ ∀ p ∈ [data 11 10 3, data 1 10 5],
      ¬ (p.seqno ≤ b ∧ b < p.seqno + p.len)} 11 := by
  refine ⟨by decide +kernel, by decide +kernel, by decide +kernel, fun h => ?_⟩
  exact h.1.2 (data 11 10 3) (by simp) (by decide)

namespace FullTcpAgent

open NsDefault in
/-- Two segments in reverse order. -/
theorem delivers_in_order_swapped : ∃ s, Arrivals (config .reno) (hooks (config .reno))
      (fun _ _ => True) (sink (-1)) [data 1 10 5, data 11 10 5] s ∧
    IsLeast {b : Int | 1 ≤ b ∧ ∀ p ∈ [data 1 10 5, data 11 10 5],
      ¬ (p.seqno ≤ b ∧ b < p.seqno + p.len)} s.rcv.rcvNxt ∧ s.rcv.delivered.sum = 20 := by
  have hrun : (((sink (-1)).recv (config .reno) (hooks (config .reno)) 5 (data 11 10 5)).bind
      fun s => s.recv (config .reno) (hooks (config .reno)) 5 (data 1 10 5)).map
        (fun s => s.rcv.rcvNxt) = some 21 := by decide +kernel
  obtain ⟨s, he, hnxt⟩ := Option.map_eq_some_iff.mp hrun
  obtain ⟨s₁, he₁, he₂⟩ := Option.bind_eq_some_iff.mp he
  have hmid : ((sink (-1)).recv (config .reno) (hooks (config .reno)) 5 (data 11 10 5)).map
      (fun s => (s.state, decide (Dropped (config .reno) s (data 1 10 5)))) =
        some (.established, false) := by decide +kernel
  rw [he₁, Option.map_some, Option.some_inj, Prod.mk.injEq, decide_eq_false_iff_not] at hmid
  have hfirst : ¬ Dropped (config .reno) (sink (-1)) (data 11 10 5) := by decide +kernel
  have ha : Arrivals (config .reno) (hooks (config .reno)) (fun _ _ => True) (sink (-1))
      [data 1 10 5, data 11 10 5] s :=
    .taken (.taken .start rfl (by decide) hfirst trivial he₁) hmid.1 (by decide) hmid.2 trivial he₂
  obtain ⟨hleast, hsum, -⟩ := delivers_in_order _ _ _ _ _ rfl ha
  refine ⟨s, ha, hleast, ?_⟩
  rw [hsum, hnxt]
  rfl

/-- The arrivals of a flow of `n` bytes in which no segment delivers buffered bytes above its
own. -/
abbrev FlowArrivals (cfg : FullTcpConfig) (h : Hooks κ) (n : Int) (s₀ : FullTcpAgent κ) :
    List Segment → FullTcpAgent κ → Prop :=
  Arrivals cfg h (fun s p => p.seqno + p.len ≤ s₀.rcv.rcvNxt + n ∧ ¬ Jumps s.rcv p) s₀

theorem FlowArrivals.remains {n : Int} (h₀ : s₀.rcv.rq = []) (hn : 0 < n)
    (hrem : s₀.rcv.flowRemaining = n) (ha : FlowArrivals cfg h n s₀ segs s) :
    (∀ p ∈ segs, p.seqno + p.len ≤ s₀.rcv.rcvNxt + n) ∧ Remains s₀.rcv n s.rcv := by
  induction ha with
  | start =>
      refine ⟨by simp, ?_⟩
      rw [Remains, hrem, if_neg (by omega)]
      omega
  | @taken segs s s' fuel p ha hst hp hnd hok he ih =>
      have hr := ha.received h₀
      have hs : ∀ q ∈ p :: segs, q.seqno + q.len ≤ s₀.rcv.rcvNxt + n :=
        List.forall_mem_cons.mpr ⟨hok.1, ih.1⟩
      refine ⟨hs, ?_⟩
      rw [((recv_handles hst hp he).rcv hr.wf hr.finFree hp).2 hnd]
      exact (hr.remains_iff hn.le hs hp ih.2).mpr hok.2
  | dropped ha hst hp hd he ih =>
      have hr := ha.received h₀
      rwa [((recv_handles hst hp he).rcv hr.wf hr.finFree hp).1 hd]
  | other _ he ih => rwa [he]

/-- **When `flow_remaining_` is exact.**  It is what is left of the flow as long as no segment
delivers buffered bytes above its own; a segment that does makes it wrong.  The segment that
completes the flow is acknowledged at once, but for a `DDTcpAgent`, which may leave the ACK
pending. -/
theorem remaining_exact (cfg : FullTcpConfig) (h : Hooks κ) (s₀ s : FullTcpAgent κ) (n : Int)
    (segs : List Segment) (h₀ : s₀.rcv.rq = []) (hn : 0 < n) (hrem : s₀.rcv.flowRemaining = n)
    (ha : FlowArrivals cfg h n s₀ segs s) :
    Remains s₀.rcv n s.rcv ∧
    ∀ fuel p s', s.state = .established → p.IsData → ¬ Dropped cfg s p →
      p.seqno + p.len ≤ s₀.rcv.rcvNxt + n → s.recv cfg h fuel p = some s' →
      (Remains s₀.rcv n s'.rcv ↔ ¬ Jumps s.rcv p) ∧
      (¬ Jumps s.rcv p → s.rcv.rcvNxt < s₀.rcv.rcvNxt + n →
        s'.rcv.rcvNxt = s₀.rcv.rcvNxt + n →
        Acks s'.rcv.rcvNxt s s' ∨ cfg.kind = .dd ∧ s'.ctl.ackNow = true) := by
  have hr := Arrivals.received h₀ ha
  obtain ⟨hs, hrem⟩ := ha.remains h₀ hn hrem
  refine ⟨hrem, fun fuel p s' hst hp hnd hpn he => ?_⟩
  have hs : ∀ q ∈ p :: segs, q.seqno + q.len ≤ s₀.rcv.rcvNxt + n :=
    List.forall_mem_cons.mpr ⟨hpn, hs⟩
  have hh := recv_handles hst hp he
  have hrcv := (hh.rcv hr.wf hr.finFree hp).2 hnd
  refine ⟨by rw [hrcv]; exact hr.remains_iff hn.le hs hp hrem, fun hj hlt hfull => ?_⟩
  obtain ⟨hle, hend⟩ := hr.fills hp hj (by rw [← hrcv, hfull]; exact hlt)
  rw [← hrcv, hfull] at hend
  rw [Remains, if_neg hlt.ne] at hrem
  exact hh.acks hr.wf hr.finFree hp hnd hle (by omega) (by omega)

open NsDefault in
/-- The segment that fills the hole below a buffered one delivers both and is counted alone: 20 of
30 bytes are left with 10 to come, and the end of the flow is never noticed. -/
theorem hole_filler_miscounted :
    (accepts false 30 [data 11 10 1, data 1 10 2]).map
      (fun s => (s.state, s.rcv.rcvNxt, s.rcv.flowRemaining)) = some (.established, 21, 20) ∧
    (accepts false 30 [data 11 10 1, data 1 10 2, data 21 10 3]).map
      (fun s => (s.state, s.rcv.rcvNxt, s.rcv.flowRemaining)) = some (.established, 31, 10) ∧
    ¬ Remains (sink 30).rcv 30 { (sink 30).rcv with rcvNxt := 21, flowRemaining := 20 } ∧
    ¬ Remains (sink 30).rcv 30 { (sink 30).rcv with rcvNxt := 31, flowRemaining := 10 } := by
  refine ⟨by decide +kernel, by decide +kernel, ?_, ?_⟩ <;> simp [Remains, sink]

open NsDefault in
/-- A flow of 20 bytes whose second half comes first, and then the whole. -/
theorem remaining_exact_overlap : ∃ s s', (sink 20).recv (config .reno) (hooks (config .reno)) 5
      (data 11 10 1) = some s ∧
    s.recv (config .reno) (hooks (config .reno)) 5 (data 1 20 2) = some s' ∧
    Remains (sink 20).rcv 20 s.rcv ∧ Remains (sink 20).rcv 20 s'.rcv ∧
    Acks s'.rcv.rcvNxt s s' := by
  have hrun : (((sink 20).recv (config .reno) (hooks (config .reno)) 5 (data 11 10 1)).bind
      fun s => s.recv (config .reno) (hooks (config .reno)) 5 (data 1 20 2)).map
        (fun s => s.rcv.rcvNxt) = some 21 := by decide +kernel
  obtain ⟨s', he, hnxt⟩ := Option.map_eq_some_iff.mp hrun
  obtain ⟨s, he₁, he₂⟩ := Option.bind_eq_some_iff.mp he
  have hmid : ((sink 20).recv (config .reno) (hooks (config .reno)) 5 (data 11 10 1)).map
      (fun s => (s.state, decide (Dropped (config .reno) s (data 1 20 2)), s.rcv.rcvNxt, s.rcv.rq)) =
        some (.established, false, 1, [⟨11, 21, TcpFlag.ack⟩]) := by decide +kernel
  simp only [he₁, Option.map_some, Option.some_inj, Prod.mk.injEq, decide_eq_false_iff_not] at hmid
  obtain ⟨hst, hnd, hlow, hrq⟩ := hmid
  have hfirst : ¬ Dropped (config .reno) (sink 20) (data 11 10 1) := by decide +kernel
  have hahead : ¬ Jumps (sink 20).rcv (data 11 10 1) := fun hj => absurd hj.1 (by decide)
  have ha : FlowArrivals (config .reno) (hooks (config .reno)) 20 (sink 20) [data 11 10 1] s :=
    .taken .start rfl (by decide) hfirst ⟨by decide, hahead⟩ he₁
  obtain ⟨hrem, hnext⟩ := remaining_exact _ _ _ _ 20 _ rfl (by decide) rfl ha
  obtain ⟨hiff, hack⟩ := hnext 5 (data 1 20 2) s' hst (by decide) hnd (by decide) he₂
  have hj : ¬ Jumps s.rcv (data 1 20 2) := by
    rintro ⟨-, -, b, hb, -, hlt⟩
    rw [hrq, List.mem_singleton] at hb
    rw [hb] at hlt
    exact absurd hlt (by decide)
  refine ⟨s, s', he₁, he₂, hrem, hiff.mpr hj, (hack hj ?_ ?_).resolve_right fun hd => ?_⟩
  · rw [hlow]
    decide
  · rw [hnxt]
    decide
  · exact absurd hd.1 (by decide)

end FullTcpAgent

end Afabric
