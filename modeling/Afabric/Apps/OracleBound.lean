import Afabric.Apps.Handover
import Afabric.Apps.Replay
import Afabric.Support.Schedule

/-!
# Apps — the completion time of the oracle

`get_oracle_fct` (`plot_generation/append_true_fct.cpp`) serves the chunks of a flow one after the
other, each from the time that was drawn for it on.  For batches that are released at these times
this is the least completion time (`completion_isLeast`).

But `send` hands over the first chunk at once.  The oracle bounds what the simulator can do if it
drew the start of the flow for that chunk (`oracle_bound_iff`).
-/

namespace Afabric

/-- The packets of a call, released at its time. -/
def Handover.batch (h : Handover) : Batch ℚ := ⟨h.time, h.bytes / Oracle.packetSize⟩

/-- The packets of a chunk, released at its time. -/
def Chunk.batch (c : Chunk) : Batch ℚ := ⟨c.time, c.sizeInBytes / Oracle.packetSize⟩

namespace Oracle

/-- The `end_time` of `get_oracle_fct`. -/
def endTime (params : SimulationParams) (chunks : List Chunk) : ℚ :=
  chunks.foldl (fun endTime c =>
    max c.time endTime + (c.sizeInBytes / packetSize : ℕ) * getPacketTime params) 0

/-- `get_oracle_fct`. -/
def getOracleFct (params : SimulationParams) (linkDelay hostDelay : ℚ) (src dst : ℕ)
    (chunks : List Chunk) : ℚ :=
  let numHops := if src / 16 = dst / 16 then 2 else 4
  endTime params chunks + 2 * (numHops * linkDelay + 2 * hostDelay)

variable {params : SimulationParams}

/-- The fold is the service in the order of the chunks. -/
theorem foldl_eq_completion (chunks : List Chunk) (e : ℚ) :
    chunks.foldl (fun endTime c =>
      max c.time endTime + (c.sizeInBytes / packetSize : ℕ) * getPacketTime params) e =
      completion (getPacketTime params) e (chunks.map Chunk.batch) := by
  induction chunks generalizing e with
  | nil => rfl
  | cons c chunks ih => exact ih _

theorem endTime_eq (chunks : List Chunk) :
    endTime params chunks = completion (getPacketTime params) 0 (chunks.map Chunk.batch) :=
  foldl_eq_completion chunks 0

end Oracle

/-! ### Batches that are released later -/

/-- The batch in a flow that starts at `start`. -/
def Batch.shift (start : ℚ) (r : Batch ℚ) : Batch ℚ := ⟨start + r.time, r.units⟩

theorem completion_shift (period start e : ℚ) (rs : List (Batch ℚ)) :
    completion period (start + e) (rs.map (Batch.shift start)) = start + completion period e rs := by
  induction rs generalizing e with
  | nil => rfl
  | cons r rs ih =>
    rw [List.map_cons, completion, completion]
    show completion period (max (start + r.time) (start + e) + r.units * period) _ = _
    rw [max_add_add_left, add_assoc, ih]

theorem shift_batch (start : ℚ) (l : List Chunk) :
    (l.map (Chunk.shift start)).map Chunk.batch = (l.map Chunk.batch).map (Batch.shift start) := by
  rw [List.map_map, List.map_map]
  rfl

theorem chunkCalls_batch : ∀ l : List Chunk,
    (chunkCalls l).map Handover.batch = l.map Chunk.batch
  | [] => rfl
  | [_] => rfl
  | c :: c' :: l => by
      rw [chunkCalls, List.map_cons, chunkCalls_batch (c' :: l)]
      rfl

/-! ### The oracle and the simulator -/

variable {app : ChunksApplication} {params : Oracle.SimulationParams}

/-- For a flow of `n` packets the oracle draws `chunks`, and from the same state of the engine the
simulator hands them over by `calls`. -/
def Sends (app : ChunksApplication) (params : Oracle.SimulationParams) (start : ℚ) (n rng : ℕ)
    (chunks : List Chunk) (calls : List Handover) : Prop :=
  ∃ rng' s s', Oracle.generateChunks params (Oracle.packetSize * n) rng = some (chunks, rng') ∧
    app.sendFlow start (Oracle.packetSize * n) rng = some (s, rng') ∧
    ChunkSender.drain chunks.length s = some s' ∧ s'.timer = none ∧
    s'.handed = ⟨start, 0, .datNew⟩ :: calls

/-- Whatever schedule sends at most one packet in a packet time, each after it was handed over, it is
not done before the oracle. -/
def BoundsBelow (params : Oracle.SimulationParams) (start : ℚ) (chunks : List Chunk)
    (calls : List Handover) : Prop :=
  ∀ starts T, Schedules (Oracle.getPacketTime params) (calls.map Handover.batch) starts T →
    start + Oracle.endTime params chunks ≤ T

/-- No chunk is handed over before the time the oracle drew for it. -/
def NeverEarly (start : ℚ) (chunks : List Chunk) (calls : List Handover) : Prop :=
  List.Forall₂ (fun c k => start + c.time ≤ k.time) chunks calls

/-- What the oracle draws, and what the simulator does with it. -/
theorem sends_spec (h : Matches app params) (hα : 0 ≤ params.alpha) (start : ℚ) {n : ℕ}
    (hn : 1 ≤ n) (rng : ℕ) : ∃ c rest calls, Sends app params start n rng (c :: rest) calls ∧
      calls = chunkCalls ({ c.shift start with time := start } :: rest.map (Chunk.shift start)) ∧
      (c :: rest).Pairwise (·.time ≤ ·.time) ∧ (∀ x ∈ c :: rest, 0 ≤ x.time) ∧
      ∀ x ∈ c :: rest, 0 < x.sizeInBytes / Oracle.packetSize := by
  have hcut : app.CanCut := by
    refine ⟨by rw [h.packetSize]; decide, ?_, by rw [h.alpha]; exact hα, ?_⟩
    · rw [h.maxNumChunks]
      exact h.maxNumChunks_pos
    · have hr := h.rate ▸ h.rate_pos
      linarith
  obtain ⟨r, ho, ha⟩ := generateChunks_eq h start hn rng
  obtain ⟨r', ha', hspec⟩ := ChunksApplication.generateChunks_spec hcut start hn rng
  rw [h.packetSize, ha] at ha'
  obtain rfl := Option.some.inj ha'
  obtain ⟨c, rest, hr⟩ : ∃ c rest, r.1 = c :: rest := by
    have hcount : (r.1.map (Chunk.shift start)).length = min n app.maxNumChunks := hspec.count
    have hmax := hcut.maxNumChunks
    rw [List.length_map] at hcount
    exact List.exists_cons_of_length_pos (by omega)
  have hsize : ∀ x ∈ r.1, 0 < x.sizeInBytes / Oracle.packetSize := fun x hx => by
    obtain ⟨m, hm, he⟩ := hspec.whole _ (List.mem_map_of_mem hx)
    have he' : x.sizeInBytes = Oracle.packetSize * m := by rw [← h.packetSize]; exact he
    rw [he', Nat.mul_div_cancel_left m (by decide)]
    exact hm
  have htime : ∀ x ∈ r.1, 0 ≤ x.time := fun x hx => by
    have : start ≤ start + x.time := hspec.notBefore _ (List.mem_map_of_mem hx)
    linarith
  have hsorted : r.1.Pairwise (·.time ≤ ·.time) := by
    refine (List.pairwise_map.mp hspec.sorted).imp fun {a b} hab => ?_
    have : start + a.time ≤ start + b.time := hab
    linarith
  obtain ⟨s, s', hs, hd, ht, hh, -⟩ := ChunkSender.send_spec (c := c.shift start)
    start (show (rest.map (Chunk.shift start)).length < (c :: rest).length by simp)
  have hsend : app.send start (Oracle.packetSize * n) rng =
      some (some (r.1.map (Chunk.shift start)), r.2) := by
    rw [ChunksApplication.send, ChunksApplication.checkIfUsingAlpha, if_pos h.always]
    simp only [if_true, ha, Option.map_some]
  rw [hr] at hsize htime hsorted hsend
  refine ⟨c, rest, _, ⟨r.2, s, s', ?_, ?_, hd, ht, hh⟩, rfl, hsorted, htime, hsize⟩
  · rw [ho, ← hr]
  · rw [ChunksApplication.sendFlow, hsend]
    simp only [Option.bind_eq_bind, Option.bind_some, List.map_cons, hs, Option.pure_def]

section Bound

variable {start : ℚ} {c : Chunk} {rest : List Chunk} {calls : List Handover}

/-- The packet time of a link. -/
theorem Matches.packetTime_nonneg (h : Matches app params) : 0 ≤ Oracle.getPacketTime params := by
  have := h.rate_pos
  unfold Oracle.getPacketTime
  positivity

/-- The bound compares two completions: of the chunks as drawn, and with the first one at once. -/
theorem boundsBelow_iff (hP : 0 ≤ Oracle.getPacketTime params)
    (hcalls : calls =
      chunkCalls ({ c.shift start with time := start } :: rest.map (Chunk.shift start)))
    (hsorted : (c :: rest).Pairwise (·.time ≤ ·.time)) (htime : ∀ x ∈ c :: rest, 0 ≤ x.time)
    (hsize : ∀ x ∈ c :: rest, 0 < x.sizeInBytes / Oracle.packetSize) :
    BoundsBelow params start (c :: rest) calls ↔
      completion (Oracle.getPacketTime params) (c.time + (c.sizeInBytes / Oracle.packetSize : ℕ) *
        Oracle.getPacketTime params) (rest.map Chunk.batch) ≤
      completion (Oracle.getPacketTime params) (0 + (c.sizeInBytes / Oracle.packetSize : ℕ) *
        Oracle.getPacketTime params) (rest.map Chunk.batch) := by
  rw [List.forall_mem_cons] at htime hsize
  rw [List.pairwise_cons] at hsorted
  -- what the simulator releases, from the start of the flow on
  have hbatches : calls.map Handover.batch =
      ((⟨0, c.sizeInBytes / Oracle.packetSize⟩ :: rest.map Chunk.batch).map
        (Batch.shift start)) := by
    rw [hcalls, chunkCalls_batch, List.map_cons, shift_batch, List.map_cons, Batch.shift, add_zero]
    rfl
  have hunits : ∀ r ∈ calls.map Handover.batch, 0 < r.units := by
    rw [hbatches, List.map_cons, List.forall_mem_cons, List.forall_mem_map, List.forall_mem_map]
    exact hsize
  have hord : (calls.map Handover.batch).Pairwise (·.time ≤ ·.time) := by
    rw [hbatches, List.pairwise_map, List.pairwise_cons, List.forall_mem_map, List.pairwise_map]
    exact ⟨fun x hx => add_le_add_right (htime.2 x hx) start,
      hsorted.2.imp fun h => add_le_add_right h start⟩
  have hfrom : ∀ r ∈ calls.map Handover.batch, start ≤ r.time := by
    rw [hbatches, List.map_cons, List.forall_mem_cons, List.forall_mem_map, List.forall_mem_map]
    exact ⟨le_add_of_nonneg_right le_rfl, fun x hx => le_add_of_nonneg_right (htime.2 x hx)⟩
  have hleast := completion_isLeast hP (by rw [hbatches]; simp) hunits hord hfrom
  have hsim : completion (Oracle.getPacketTime params) start (calls.map Handover.batch) = start +
      completion (Oracle.getPacketTime params) (0 + (c.sizeInBytes / Oracle.packetSize : ℕ) *
        Oracle.getPacketTime params) (rest.map Chunk.batch) := by
    have hshift := completion_shift (Oracle.getPacketTime params) start 0
      (⟨0, c.sizeInBytes / Oracle.packetSize⟩ :: rest.map Chunk.batch)
    rw [add_zero] at hshift
    rw [hbatches, hshift, completion, max_self]
  have horacle : Oracle.endTime params (c :: rest) = completion (Oracle.getPacketTime params)
      (c.time + (c.sizeInBytes / Oracle.packetSize : ℕ) * Oracle.getPacketTime params)
      (rest.map Chunk.batch) := by
    rw [Oracle.endTime_eq, List.map_cons, completion]
    show completion _ (max c.time 0 + _) _ = _
    rw [max_eq_left htime.1]
    rfl
  rw [hsim] at hleast
  rw [← horacle]
  constructor
  · intro h
    obtain ⟨starts, hs⟩ := hleast.1
    exact le_of_add_le_add_left (h starts _ hs)
  · intro h starts T hs
    exact (add_le_add_right h start).trans (hleast.2 ⟨starts, hs⟩)

/-- **The bound of the oracle.**  For each flow and whatever is drawn, no schedule of the packets as
the simulator hands them over is done before the end time of the oracle and none is handed over early,
if and only if the first chunk was drawn for the start of the flow. -/
theorem oracle_bound_iff (h : Matches app params) (hα : 0 ≤ params.alpha) (start : ℚ) {n : ℕ}
    (hn : 1 ≤ n) (rng : ℕ) : ∃ c rest calls, Sends app params start n rng (c :: rest) calls ∧
      (BoundsBelow params start (c :: rest) calls ∧ NeverEarly start (c :: rest) calls ↔
        c.time = 0) := by
  obtain ⟨c, rest, calls, hsend, hcalls, hsorted, htime, hsize⟩ := sends_spec h hα start hn rng
  refine ⟨c, rest, calls, hsend, ?_⟩
  have hmap : calls.map (·.time) = start :: rest.map (fun x => start + x.time) := by
    rw [hcalls, chunkCalls_time, List.map_cons, List.map_map]
    rfl
  have hearly : NeverEarly start (c :: rest) calls ↔ start + c.time ≤ start := by
    have hf : NeverEarly start (c :: rest) calls ↔
        List.Forall₂ (fun (c : Chunk) t => start + c.time ≤ t) (c :: rest) (calls.map (·.time)) :=
      List.forall₂_map_right_iff.symm
    rw [hf, hmap, List.forall₂_cons, List.forall₂_map_right_iff, List.forall₂_same]
    exact and_iff_left fun _ _ => le_rfl
  rw [hearly, boundsBelow_iff h.packetTime_nonneg hcalls hsorted htime hsize]
  have hc := htime c List.mem_cons_self
  constructor
  · rintro ⟨-, hle⟩
    linarith
  · intro hzero
    rw [hzero]
    exact ⟨le_rfl, by rw [add_zero]⟩

/-- A flow of three packets, with the engine in the state after a seed of 1. -/
theorem oracle_bound_three : 1 ≤ 3 ∧ ∃ c rest calls,
    Sends exampleApp ⟨2, 10000000000, 32⟩ 0 3 1 (c :: rest) calls ∧
    (BoundsBelow ⟨2, 10000000000, 32⟩ 0 (c :: rest) calls ∧ NeverEarly 0 (c :: rest) calls ↔
      c.time = 0) :=
  ⟨by decide, oracle_bound_iff exampleApp_matches (by norm_num) 0 (by decide) 1⟩

/-- The only packet of a flow is drawn for a time after the start, and sent at the start. -/
theorem oracle_waits_longer : ∃ chunks calls,
    Sends exampleApp ⟨2, 10000000000, 32⟩ 0 1 1 chunks calls ∧
    ¬ BoundsBelow ⟨2, 10000000000, 32⟩ 0 chunks calls ∧ ¬ NeverEarly 0 chunks calls := by
  have hp : Oracle.getPacketTime ⟨2, 10000000000, 32⟩ = 3 / 2500000 := by decide +kernel
  refine ⟨[⟨101101829246635169 / 320255972905378702500000, 1460⟩], [⟨0, 1460, .datEof⟩],
    ⟨282475249, _, _, by decide +kernel, by rfl, by rfl, by rfl, by rfl⟩, fun h => ?_, fun h => ?_⟩
  · have hsched : Schedules (3 / 2500000 : ℚ) [⟨0, 1⟩] [[0]] (3 / 2500000) :=
      ⟨.cons ⟨rfl, by simp⟩ .nil, by simp, by simp⟩
    have hle := h [[0]] (3 / 2500000) (hp ▸ hsched)
    revert hle
    decide +kernel
  · rw [NeverEarly, List.forall₂_cons] at h
    revert h
    norm_num

end Bound

end Afabric
