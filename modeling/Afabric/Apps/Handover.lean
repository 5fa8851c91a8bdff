import Afabric.Apps.Chunks
import Afabric.Tcp.Connection

/-!
# Apps — the release of the chunks

What `ChunksApplication` hands to its agent: `send` announces a flow and hands over its first chunk
at once, and a timer hands over the others, each at its time (`apps/app-chunks.cc`).

The chunks are as many as there are packets, up to the limit, they are of whole packets, as even as
can be, and they have the bytes of the flow (`generateChunks_spec`); the timer hands over all of them
in the order of their times, with `DAT_EOF` on the last (`chunks_handed_over`).
-/

namespace Afabric

open FullTcpAgent (MsgFlag)

/-- A call of `sendmsg`, with its time. -/
structure Handover where
  time : ℚ
  bytes : ℕ
  flag : MsgFlag
deriving DecidableEq, Repr

/-- The application while it sends a flow: its chunks and its timer, the delays the timer was set
to, and what was handed over. -/
structure ChunkSender where
  curChunks : List Chunk
  nextChunkIdx : ℕ
  clock : ℚ
  timer : Option ℚ
  delays : List ℚ
  handed : List Handover
deriving DecidableEq, Repr

namespace ChunkSender

/-- `send_next_chunk`. -/
def sendNextChunk (s : ChunkSender) : Option ChunkSender := do
  let c ← s.curChunks[s.nextChunkIdx]?
  let flag := if s.nextChunkIdx + 1 = s.curChunks.length then .datEof else .plain
  let s := { s with
    handed := s.handed ++ [⟨s.clock, c.sizeInBytes, flag⟩]
    nextChunkIdx := s.nextChunkIdx + 1 }
  match s.curChunks[s.nextChunkIdx]? with
  | some c =>
      let delay := c.time - s.clock
      return { s with timer := some (s.clock + delay), delays := s.delays ++ [delay] }
  | none => return s

/-- The timer expires. -/
def expire (s : ChunkSender) : Option ChunkSender := do
  let t ← s.timer
  { s with clock := t, timer := none }.sendNextChunk

/-- The timer expires as long as it is pending. -/
def drain : ℕ → ChunkSender → Option ChunkSender
  | 0, s => if s.timer = none then some s else none
  | fuel + 1, s => if s.timer = none then some s else s.expire.bind (drain fuel)

/-- After `sendmsg(0, "DAT_NEW")` and `init_chunks`. -/
def init (chunks : List Chunk) (clock : ℚ) : ChunkSender :=
  ⟨chunks, 0, clock, none, [], [⟨clock, 0, .datNew⟩]⟩

end ChunkSender

namespace ChunksApplication

/-- `send`, with the engine after it. -/
def sendFlow (app : ChunksApplication) (clock : ℚ) (nbytes rng : ℕ) :
    Option (ChunkSender × ℕ) := do
  match ← app.send clock nbytes rng with
  | (some chunks, rng) => return (← (ChunkSender.init chunks clock).sendNextChunk, rng)
  | (none, rng) =>
      return ({ ChunkSender.init [] clock with
        handed := [⟨clock, 0, .datNew⟩, ⟨clock, nbytes, .datEof⟩] }, rng)

end ChunksApplication

/-! ### The chunks -/

instance : Std.Total Chunk.LE where
  total a b := by
    unfold Chunk.LE
    rcases lt_trichotomy a.time b.time with h | h | h
    · exact .inl (.inl h)
    · rcases le_total a.sizeInBytes b.sizeInBytes with hs | hs
      · exact .inl (.inr ⟨h, hs⟩)
      · exact .inr (.inr ⟨h.symm, hs⟩)
    · exact .inr (.inl h)

instance : IsTrans Chunk Chunk.LE where
  trans a b c := by
    unfold Chunk.LE
    rintro (h₁ | ⟨h₁, hs₁⟩) (h₂ | ⟨h₂, hs₂⟩)
    · exact .inl (h₁.trans h₂)
    · exact .inl (h₂ ▸ h₁)
    · exact .inl (h₁ ▸ h₂)
    · exact .inr ⟨h₁.trans h₂, hs₁.trans hs₂⟩

theorem Chunk.LE.time {a b : Chunk} (h : a.LE b) : a.time ≤ b.time := by
  rcases h with h | ⟨h, -⟩
  · exact h.le
  · exact h.le

namespace ChunksApplication

variable {app : ChunksApplication}

/-- A configuration of a flow that can be cut: packets have a size, and the times are spread
forward. -/
structure CanCut (app : ChunksApplication) : Prop where
  packetSize : 0 < app.packetSizeBytes
  maxNumChunks : 1 ≤ app.maxNumChunks
  alpha : 0 ≤ app.alpha
  linkRate : 0 < app.linkRateGbps

theorem getNextRandomDouble_ge {start stop : ℚ} (h : start ≤ stop) (rng : ℕ) :
    start ≤ (getNextRandomDouble start stop rng).1 := by
  have hx : 0 ≤ (Minstd.generateCanonical rng).1 := by
    unfold Minstd.generateCanonical
    positivity
  have := mul_nonneg hx (sub_nonneg.mpr h)
  show start ≤ start + _ * (stop - start)
  linarith

/-- The chunks that are drawn, in packets `cs` and one more for the first `nb`. -/
theorem drawChunks_spec (hp : 0 < app.packetSizeBytes) {start stop : ℚ} (h : start ≤ stop)
    {cs : ℕ} (hcs : 0 < cs) (nb i k rng : ℕ) :
    ∃ r, app.drawChunks start stop cs nb i k rng = some r ∧ (∀ c ∈ r.1, start ≤ c.time) ∧
      r.1.map (·.sizeInBytes) =
        (List.range' i k).map fun i => app.packetSizeBytes * if i < nb then cs + 1 else cs := by
  induction k generalizing i rng with
  | zero => exact ⟨([], rng), rfl, by simp, rfl⟩
  | succ k ih =>
    obtain ⟨r, he, htime, hsize⟩ := ih (i + 1) (getNextRandomDouble start stop rng).2
    have hpos : ¬ app.packetSizeBytes * (if i < nb then cs + 1 else cs) ≤ 0 := by
      refine not_le.mpr (Nat.mul_pos hp ?_)
      split <;> omega
    refine ⟨(⟨(getNextRandomDouble start stop rng).1,
      app.packetSizeBytes * if i < nb then cs + 1 else cs⟩ :: r.1, r.2), ?_, ?_, ?_⟩
    · simp only [drawChunks, if_neg hpos, he, Option.bind_eq_bind, Option.bind_some]
    · exact List.forall_mem_cons.mpr ⟨getNextRandomDouble_ge h rng, htime⟩
    · rw [List.map_cons, hsize, List.range'_succ, List.map_cons]

/-- The packets of the chunks from `i` on. -/
theorem sum_packets (p cs nb i k : ℕ) :
    ((List.range' i k).map fun i => p * if i < nb then cs + 1 else cs).sum =
      p * (cs * k + (min nb (i + k) - min nb i)) := by
  induction k generalizing i with
  | zero => simp
  | succ k ih =>
    rw [List.range'_succ, List.map_cons, List.sum_cons, ih, ← Nat.mul_add, Nat.mul_succ]
    congr 1
    split <;> omega

/-- What `generate_chunks` returns for a flow of `k` packets: as many chunks as there are packets,
up to the limit, in the order of their times, of whole packets, as even as can be, and with the bytes
of the flow. -/
structure Cut (app : ChunksApplication) (start : ℚ) (k : ℕ) (l : List Chunk) : Prop where
  count : l.length = min k app.maxNumChunks
  sorted : l.Pairwise (·.time ≤ ·.time)
  notBefore : ∀ c ∈ l, start ≤ c.time
  whole : ∀ c ∈ l, ∃ m, 0 < m ∧ c.sizeInBytes = app.packetSizeBytes * m
  even : ∀ c ∈ l, ∀ c' ∈ l, c.sizeInBytes ≤ c'.sizeInBytes + app.packetSizeBytes
  total : (l.map (·.sizeInBytes)).sum = app.packetSizeBytes * k

theorem generateChunks_spec (h : app.CanCut) (start : ℚ) {k : ℕ} (hk : 1 ≤ k) (rng : ℕ) :
    ∃ r, app.generateChunks start (app.packetSizeBytes * k) rng = some r ∧ app.Cut start k r.1 := by
  have hp := h.packetSize
  have hdiv : app.packetSizeBytes * k / app.packetSizeBytes = k := Nat.mul_div_cancel_left k hp
  obtain ⟨n, hn⟩ : ∃ n, min k app.maxNumChunks = n := ⟨_, rfl⟩
  have hn₀ : 0 < n := by have := h.maxNumChunks; omega
  have hcs : 0 < k / n := Nat.div_pos (by omega) hn₀
  have hmod := Nat.mod_lt k hn₀
  -- the draws are uniform over the time of the flow at the line rate, stretched by `alpha`
  obtain ⟨stop, hstop, hle⟩ : ∃ stop, start + app.alpha *
      ((((app.packetSizeBytes + app.headerSizeBytes) * 8 : ℕ) : ℚ) /
        (app.linkRateGbps * 1000000000)) * k = stop ∧ start ≤ stop := by
    have := h.alpha
    have := h.linkRate
    exact ⟨_, rfl, le_add_of_nonneg_right (by positivity)⟩
  obtain ⟨r, he, htime, hsize⟩ := drawChunks_spec hp hle hcs (k % n) 0 n rng
  have hsum : (r.1.map (·.sizeInBytes)).sum = app.packetSizeBytes * k := by
    rw [hsize, sum_packets, Nat.zero_add, Nat.min_eq_left hmod.le, Nat.min_zero, Nat.sub_zero,
      Nat.mul_comm (k / n), Nat.div_add_mod]
  have hperm : (r.1.insertionSort Chunk.LE).Perm r.1 := List.perm_insertionSort _ _
  -- sorting by time moves the chunks, and the first `k % n` of them had one packet more
  have hmem : ∀ c ∈ r.1.insertionSort Chunk.LE, c.sizeInBytes = app.packetSizeBytes * (k / n + 1) ∨
      c.sizeInBytes = app.packetSizeBytes * (k / n) := by
    intro c hc
    have hc' : c.sizeInBytes ∈ r.1.map (·.sizeInBytes) :=
      List.mem_map_of_mem (hperm.mem_iff.mp hc)
    rw [hsize] at hc'
    obtain ⟨i, -, hi⟩ := List.mem_map.mp hc'
    rw [← hi]
    split
    · exact .inl rfl
    · exact .inr rfl
  refine ⟨(r.1.insertionSort Chunk.LE, r.2), ?_, ?_⟩
  · simp only [generateChunks, hdiv, hn, hstop, if_neg hn₀.ne', he, Option.bind_eq_bind,
      Option.bind_some, hsum, ne_eq, not_true_eq_false, if_false]
  · refine ⟨?_, (List.pairwise_insertionSort Chunk.LE r.1).imp Chunk.LE.time, ?_, ?_, ?_, ?_⟩
    · have hlen : r.1.length = (r.1.map (·.sizeInBytes)).length := (List.length_map _).symm
      rw [hperm.length_eq, hlen, hsize, List.length_map, List.length_range', hn]
    · exact fun c hc => htime c (hperm.mem_iff.mp hc)
    · intro c hc
      rcases hmem c hc with h | h
      · exact ⟨k / n + 1, Nat.succ_pos _, h⟩
      · exact ⟨k / n, hcs, h⟩
    · intro c hc c' hc'
      have hsucc : app.packetSizeBytes * (k / n + 1) =
          app.packetSizeBytes * (k / n) + app.packetSizeBytes := Nat.mul_succ _ _
      rcases hmem c hc with h | h <;> rcases hmem c' hc' with h' | h' <;> omega
    · rw [(hperm.map _).sum_eq, hsum]

end ChunksApplication

/-! ### The timer -/

/-- The calls that hand over the chunks of a list, each at its time. -/
def chunkCalls : List Chunk → List Handover
  | [] => []
  | [c] => [⟨c.time, c.sizeInBytes, .datEof⟩]
  | c :: c' :: l => ⟨c.time, c.sizeInBytes, .plain⟩ :: chunkCalls (c' :: l)

/-- The delays from one chunk to the next, from the time `clock` on. -/
def chunkDelays : ℚ → List Chunk → List ℚ
  | _, [] => []
  | clock, c :: l => (c.time - clock) :: chunkDelays c.time l

theorem chunkCalls_time : ∀ l : List Chunk, (chunkCalls l).map (·.time) = l.map (·.time)
  | [] => rfl
  | [_] => rfl
  | c :: c' :: l => by
      rw [chunkCalls, List.map_cons, chunkCalls_time (c' :: l)]
      rfl

theorem chunkCalls_bytes : ∀ l : List Chunk, (chunkCalls l).map (·.bytes) = l.map (·.sizeInBytes)
  | [] => rfl
  | [_] => rfl
  | c :: c' :: l => by
      rw [chunkCalls, List.map_cons, chunkCalls_bytes (c' :: l)]
      rfl

theorem chunkCalls_flag : ∀ l : List Chunk, l ≠ [] →
    (chunkCalls l).map (·.flag) = List.replicate (l.length - 1) MsgFlag.plain ++ [MsgFlag.datEof]
  | [], h => absurd rfl h
  | [_], _ => rfl
  | c :: c' :: l, _ => by
      rw [chunkCalls, List.map_cons, chunkCalls_flag (c' :: l) (List.cons_ne_nil _ _)]
      rfl

/-- Chunks in the order of their times need no negative delay. -/
theorem chunkDelays_nonneg {clock : ℚ} {l : List Chunk} (h : ∀ c ∈ l, clock ≤ c.time)
    (hs : l.Pairwise (·.time ≤ ·.time)) : ∀ d ∈ chunkDelays clock l, 0 ≤ d := by
  induction l generalizing clock with
  | nil => simp [chunkDelays]
  | cons c l ih =>
    rw [List.pairwise_cons] at hs
    exact List.forall_mem_cons.mpr
      ⟨sub_nonneg.mpr (h c List.mem_cons_self), ih hs.1 hs.2⟩

namespace ChunkSender

variable {s : ChunkSender}

/-- `send_next_chunk` on the last chunk: the timer stays as it is. -/
theorem sendNextChunk_last {pre : List Chunk} {c : Chunk} (hc : s.curChunks = pre ++ [c])
    (hi : s.nextChunkIdx = pre.length) : s.sendNextChunk = some { s with
      handed := s.handed ++ [⟨s.clock, c.sizeInBytes, .datEof⟩]
      nextChunkIdx := pre.length + 1 } := by
  have h₀ : s.curChunks[pre.length]? = some c := by simp [hc]
  have h₁ : s.curChunks[pre.length + 1]? = none := by simp [hc]
  have h₂ : pre.length + 1 = s.curChunks.length := by simp [hc]
  simp only [sendNextChunk, hi, h₀, h₁, Option.bind_eq_bind, Option.bind_some, if_pos h₂,
    Option.pure_def]

/-- `send_next_chunk` on a chunk that others follow. -/
theorem sendNextChunk_more {pre rest : List Chunk} {c c' : Chunk}
    (hc : s.curChunks = pre ++ c :: c' :: rest) (hi : s.nextChunkIdx = pre.length) :
    s.sendNextChunk = some { s with
      handed := s.handed ++ [⟨s.clock, c.sizeInBytes, .plain⟩]
      nextChunkIdx := pre.length + 1
      timer := some c'.time
      delays := s.delays ++ [c'.time - s.clock] } := by
  have h₀ : s.curChunks[pre.length]? = some c := by simp [hc]
  have h₁ : s.curChunks[pre.length + 1]? = some c' := by simp [hc]
  have h₂ : ¬ pre.length + 1 = s.curChunks.length := by simp [hc]
  simp only [sendNextChunk, hi, h₀, h₁, Option.bind_eq_bind, Option.bind_some, if_neg h₂,
    Option.pure_def, add_sub_cancel]

/-- The timer, pending for the chunks of `c :: rest`, hands over all of them. -/
theorem drain_spec {pre rest : List Chunk} {c : Chunk} (hc : s.curChunks = pre ++ c :: rest)
    (hi : s.nextChunkIdx = pre.length) (ht : s.timer = some c.time) {fuel : ℕ}
    (hf : rest.length < fuel) :
    ∃ s', drain fuel s = some s' ∧ s'.timer = none ∧
      s'.handed = s.handed ++ chunkCalls (c :: rest) ∧
      s'.delays = s.delays ++ chunkDelays c.time rest := by
  obtain ⟨fuel, rfl⟩ : ∃ n, fuel = n + 1 := ⟨fuel - 1, by omega⟩
  induction rest generalizing s pre c fuel with
  | nil =>
    let s₁ : ChunkSender := { s with
      clock := c.time
      timer := none
      handed := s.handed ++ [⟨c.time, c.sizeInBytes, .datEof⟩]
      nextChunkIdx := pre.length + 1 }
    -- the last chunk goes with `DAT_EOF`, and the timer is not set again
    have hexp : s.expire = some s₁ := by
      rw [expire, ht]
      exact sendNextChunk_last hc hi
    refine ⟨s₁, ?_, rfl, rfl, (List.append_nil _).symm⟩
    rw [drain, if_neg (by simp [ht]), hexp, Option.bind_some]
    cases fuel <;> rfl
  | cons c' rest ih =>
    let s₁ : ChunkSender := { s with
      clock := c.time
      handed := s.handed ++ [⟨c.time, c.sizeInBytes, .plain⟩]
      nextChunkIdx := pre.length + 1
      timer := some c'.time
      delays := s.delays ++ [c'.time - c.time] }
    have hexp : s.expire = some s₁ := by
      rw [expire, ht]
      exact sendNextChunk_more hc hi
    have hcur : s₁.curChunks = (pre ++ [c]) ++ c' :: rest := by
      rw [List.append_assoc]
      exact hc
    have hidx : s₁.nextChunkIdx = (pre ++ [c]).length := by simp [s₁]
    rw [List.length_cons] at hf
    obtain ⟨fuel, rfl⟩ : ∃ n, fuel = n + 1 := ⟨fuel - 1, by omega⟩
    obtain ⟨s', he, h₁, h₂, h₃⟩ := ih hcur hidx rfl fuel (by omega)
    refine ⟨s', ?_, h₁, ?_, ?_⟩
    · rw [drain, if_neg (by simp [ht]), hexp, Option.bind_some, he]
    · rw [h₂, List.append_assoc]
      rfl
    · rw [h₃, List.append_assoc]
      rfl

/-- From `init_chunks` on: the first chunk at once, the others at their times. -/
theorem send_spec {c : Chunk} {rest : List Chunk} (clock : ℚ) {fuel : ℕ}
    (hf : rest.length < fuel) :
    ∃ s s', (init (c :: rest) clock).sendNextChunk = some s ∧ drain fuel s = some s' ∧
      s'.timer = none ∧
      s'.handed = ⟨clock, 0, .datNew⟩ :: chunkCalls ({ c with time := clock } :: rest) ∧
      s'.delays = chunkDelays clock rest := by
  cases rest with
  | nil =>
    let s₁ : ChunkSender := ⟨[c], 1, clock, none, [],
      [⟨clock, 0, .datNew⟩, ⟨clock, c.sizeInBytes, .datEof⟩]⟩
    have he : (init [c] clock).sendNextChunk = some s₁ :=
      sendNextChunk_last (show _ = [] ++ [c] from rfl) rfl
    refine ⟨s₁, s₁, he, ?_, rfl, rfl, rfl⟩
    cases fuel <;> rfl
  | cons c' rest =>
    let s₁ : ChunkSender := ⟨c :: c' :: rest, 1, clock, some (c'.time), [c'.time - clock],
      [⟨clock, 0, .datNew⟩, ⟨clock, c.sizeInBytes, .plain⟩]⟩
    have he : (init (c :: c' :: rest) clock).sendNextChunk = some s₁ :=
      sendNextChunk_more (show _ = [] ++ c :: c' :: rest from rfl) rfl
    rw [List.length_cons] at hf
    obtain ⟨s', hd, h₁, h₂, h₃⟩ := drain_spec (show s₁.curChunks = [c] ++ c' :: rest from rfl)
      rfl rfl (show rest.length < fuel by omega)
    exact ⟨s₁, s', he, hd, h₁, h₂, h₃⟩

end ChunkSender

namespace ChunksApplication

variable {app : ChunksApplication}

/-- **The chunks of a flow and their release.**  A flow of `k` packets is cut without an exception
into chunks as `Cut` says.  When it is sent cut, the first chunk is handed over at once and the
others at their times, all of them and in their order, `DAT_EOF` comes with the last one only, and
the timer is never set to a negative delay. -/
theorem chunks_handed_over (h : app.CanCut) (clock : ℚ) {k : ℕ} (hk : 1 ≤ k) :
    (∀ rng, ∃ r, app.generateChunks clock (app.packetSizeBytes * k) rng = some r ∧
      app.Cut clock k r.1) ∧
    ∀ rng, (app.checkIfUsingAlpha rng).1 = true → ∃ chunks rng' s s' calls,
      app.generateChunks clock (app.packetSizeBytes * k) (app.checkIfUsingAlpha rng).2 =
        some (chunks, rng') ∧
      app.sendFlow clock (app.packetSizeBytes * k) rng = some (s, rng') ∧
      ChunkSender.drain chunks.length s = some s' ∧ s'.timer = none ∧
      s'.handed = ⟨clock, 0, .datNew⟩ :: calls ∧
      calls.map (·.bytes) = chunks.map (·.sizeInBytes) ∧
      (calls.map (·.bytes)).sum = app.packetSizeBytes * k ∧
      calls.map (·.time) = clock :: chunks.tail.map (·.time) ∧
      calls.map (·.flag) = List.replicate (chunks.length - 1) MsgFlag.plain ++ [MsgFlag.datEof] ∧
      ∀ d ∈ s'.delays, 0 ≤ d := by
  refine ⟨fun rng => generateChunks_spec h clock hk rng, fun rng halpha => ?_⟩
  obtain ⟨⟨chunks, rng'⟩, he, hcut⟩ := generateChunks_spec h clock hk (app.checkIfUsingAlpha rng).2
  obtain ⟨c, rest, rfl⟩ : ∃ c rest, chunks = c :: rest := by
    have hmax := h.maxNumChunks
    have hcount : chunks.length = min k app.maxNumChunks := hcut.count
    exact List.exists_cons_of_length_pos (by omega)
  obtain ⟨s, s', hs, hd, ht, hh, hdel⟩ :=
    ChunkSender.send_spec (c := c) clock (Nat.lt_succ_self rest.length)
  have hsend : app.send clock (app.packetSizeBytes * k) rng = some (some (c :: rest), rng') := by
    rw [send, if_pos halpha, he]
    rfl
  refine ⟨c :: rest, rng', s, s', _, he, ?_, hd, ht, hh, ?_, ?_, ?_, ?_, ?_⟩
  · simp only [sendFlow, hsend, hs, Option.bind_eq_bind, Option.bind_some, Option.pure_def]
  · rw [chunkCalls_bytes]
    rfl
  · rw [chunkCalls_bytes]
    exact hcut.total
  · rw [chunkCalls_time]
    rfl
  · rw [chunkCalls_flag _ (List.cons_ne_nil _ _)]
    rfl
  · rw [hdel]
    refine chunkDelays_nonneg (fun x hx => hcut.notBefore x (List.mem_cons_of_mem _ hx)) ?_
    exact (List.pairwise_cons.mp hcut.sorted).2

/-- The settings of the experiments, on a flow of five packets in at most three chunks. -/
def spineChunks : ChunksApplication := ⟨-1, 2, 10, 3, 1460, 40⟩

theorem five_packets_handed_over : ∃ chunks rng' s s' calls,
    spineChunks.generateChunks 0 (1460 * 5) (spineChunks.checkIfUsingAlpha 1).2 =
      some (chunks, rng') ∧
    spineChunks.sendFlow 0 (1460 * 5) 1 = some (s, rng') ∧
    ChunkSender.drain chunks.length s = some s' ∧ s'.timer = none ∧
    s'.handed = ⟨0, 0, .datNew⟩ :: calls ∧
    calls.map (·.bytes) = chunks.map (·.sizeInBytes) ∧
    (calls.map (·.bytes)).sum = 1460 * 5 ∧
    calls.map (·.time) = 0 :: chunks.tail.map (·.time) ∧
    calls.map (·.flag) = List.replicate (chunks.length - 1) MsgFlag.plain ++ [MsgFlag.datEof] ∧
    ∀ d ∈ s'.delays, 0 ≤ d :=
  (chunks_handed_over (show spineChunks.CanCut from ⟨by decide, by decide, by decide, by decide⟩) 0
    (show 1 ≤ 5 by decide)).2 1 (by decide +kernel)

end ChunksApplication

end Afabric
