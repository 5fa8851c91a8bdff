import Afabric.Apps.Chunks
import Mathlib.Tactic.Ring

/-!
# Apps — the oracle and the application

From one state of the engine the oracle draws the chunks of the application, flow after flow
(`sendAll_eq`).  The two are seeded differently, so it replays them only where the two seeds lead to
one state, or where the times do not depend on what is drawn (`oracle_replays_iff`).
-/

namespace Afabric

/-- The chunk in a flow that starts at `start`. -/
def Chunk.shift (start : ℚ) (c : Chunk) : Chunk := { c with time := start + c.time }

/-- The application and the oracle have the same parameters, and the application always cuts its
flows. -/
structure Matches (app : ChunksApplication) (params : Oracle.SimulationParams) : Prop where
  always : app.useAlphaProbability < 0
  alpha : app.alpha = params.alpha
  rate : app.linkRateGbps * 1000000000 = params.rate
  maxNumChunks : app.maxNumChunks = params.maxNumChunks
  packetSize : app.packetSizeBytes = Oracle.packetSize
  headerSize : app.headerSizeBytes = Oracle.headerSize
  rate_pos : 0 < params.rate
  maxNumChunks_pos : 0 < params.maxNumChunks

variable {app : ChunksApplication} {params : Oracle.SimulationParams}

/-! ### One flow -/

theorem drawChunks_shift (hp : app.packetSizeBytes = Oracle.packetSize) (start c : ℚ) {cs : Nat}
    (hcs : 0 < cs) (nb i k rng : Nat) :
    app.drawChunks start (start + c) cs nb i k rng
      = some ((Oracle.drawChunks 0 (0 + c) cs nb i k rng).1.map (Chunk.shift start),
          (Oracle.drawChunks 0 (0 + c) cs nb i k rng).2) := by
  induction k generalizing i rng with
  | zero => rfl
  | succ k ih =>
      have htime : ∀ x : ℚ, start + x * (start + c - start) = start + (0 + x * (0 + c - 0)) := by
        intro x
        ring
      have hsize : ¬ Oracle.packetSize * (if i < nb then cs + 1 else cs) ≤ 0 := by
        have hpos : 0 < if i < nb then cs + 1 else cs := by split <;> omega
        have := Nat.mul_pos (show 0 < Oracle.packetSize by decide) hpos
        omega
      simp only [ChunksApplication.drawChunks, ChunksApplication.getNextRandomDouble, if_neg hsize, ih,
        Oracle.drawChunks, Oracle.generateNextRandomDouble, List.map_cons, Chunk.shift, htime, hp]
      rfl

/-- The chunks have the bytes of the flow. -/
theorem drawChunks_size (start stop : ℚ) (cs nb i k rng : Nat) :
    ((Oracle.drawChunks start stop cs nb i k rng).1.map (·.sizeInBytes)).sum
      = Oracle.packetSize * (cs * k + (min nb (i + k) - min nb i)) := by
  induction k generalizing i rng with
  | zero => simp [Oracle.drawChunks]
  | succ k ih =>
      rw [Oracle.drawChunks]
      simp only [List.map_cons, List.sum_cons, ih, ← Nat.mul_add]
      congr 1
      rw [Nat.mul_succ]
      have h₁ : i + 1 + k = i + (k + 1) := by omega
      rw [h₁]
      split <;> omega

theorem shift_le (start : ℚ) (a b : Chunk) :
    a.LE b ↔ (a.shift start).LE (b.shift start) := by
  simp [Chunk.LE, Chunk.shift]

/-- The application draws the chunks of the oracle, from the start of the flow on. -/
theorem generateChunks_eq (h : Matches app params) (start : ℚ) {n : Nat} (hn : 0 < n) (rng : Nat) :
    ∃ r, Oracle.generateChunks params (Oracle.packetSize * n) rng = some r ∧
      app.generateChunks start (Oracle.packetSize * n) rng
        = some (r.1.map (Chunk.shift start), r.2) := by
  have hdiv : Oracle.packetSize * n / Oracle.packetSize = n := Nat.mul_div_cancel_left n (by decide)
  obtain ⟨k, hk⟩ : ∃ k, min n params.maxNumChunks = k := ⟨_, rfl⟩
  have hmax := h.maxNumChunks_pos
  have hk₀ : 0 < k := by omega
  have hcs : 0 < n / k := Nat.div_pos (by omega) hk₀
  have htime : (((app.packetSizeBytes + app.headerSizeBytes) * 8 : Nat) : ℚ)
      / (app.linkRateGbps * 1000000000) = Oracle.getPacketTime params := by
    rw [Oracle.getPacketTime, h.packetSize, h.headerSize, h.rate]
  have hsize : ∀ c : ℚ, ((Oracle.drawChunks 0 (0 + c) (n / k) (n % k) 0 k rng).1.map
      (·.sizeInBytes)).sum = Oracle.packetSize * n := by
    intro c
    have hlt := Nat.mod_lt n hk₀
    rw [drawChunks_size, Nat.zero_add, Nat.min_eq_left (by omega), Nat.min_zero, Nat.sub_zero,
      Nat.mul_comm (n / k), Nat.div_add_mod]
  refine ⟨_, by
    rw [Oracle.generateChunks]
    simp only [hdiv, hk]
    rw [if_neg (by omega)], ?_⟩
  rw [ChunksApplication.generateChunks]
  rw [h.packetSize] at htime
  simp only [h.packetSize, hdiv, h.maxNumChunks, hk, htime, h.alpha, if_neg (Nat.ne_of_gt hk₀),
    drawChunks_shift h.packetSize start _ hcs, Option.bind_eq_bind, Option.bind_some]
  have hmap : ∀ l : List Chunk, (l.map (Chunk.shift start)).map (·.sizeInBytes)
      = l.map (·.sizeInBytes) := fun l => List.map_map
  rw [hmap, hsize, if_neg (not_not_intro rfl),
    List.map_insertionSort _ _ _ _ fun a _ b _ => shift_le start a b]

/-! ### The flows of a pair -/

/-- The packets of the flows, as the application and the oracle get them. -/
def inBytes (flows : List (ℚ × Nat)) : List (ℚ × Nat) :=
  flows.map fun f => (f.1, Oracle.packetSize * f.2)

/-- From one state, the application and the oracle cut all flows alike. -/
theorem sendAll_eq (h : Matches app params) {flows : List (ℚ × Nat)} (hf : ∀ f ∈ flows, 0 < f.2)
    (rng : Nat) : ∃ chunks, Oracle.flowChunks params (flows.map (·.2)) rng = some chunks ∧
      app.sendAll (inBytes flows) rng = some (chunks.map some) := by
  induction flows generalizing rng with
  | nil => exact ⟨[], rfl, rfl⟩
  | cons f flows ih =>
      rw [List.forall_mem_cons] at hf
      obtain ⟨r, ho, ha⟩ := generateChunks_eq h f.1 hf.1 rng
      obtain ⟨chunks, hos, has⟩ := ih hf.2 r.2
      refine ⟨r.1 :: chunks, ?_, ?_⟩
      · simp only [List.map_cons, Oracle.flowChunks, ho, hos, Option.bind_eq_bind,
          Option.bind_some]
      · have hsend : app.send f.1 (Oracle.packetSize * f.2) rng
            = some (some (r.1.map (Chunk.shift f.1)), r.2) := by
          rw [ChunksApplication.send, ChunksApplication.checkIfUsingAlpha, if_pos h.always]
          simp only [if_true, ha, Option.map_some]
        have hback : (r.1.map (Chunk.shift f.1)).map
            (fun c : Chunk => { c with time := c.time - f.1 }) = r.1 := by
          rw [List.map_map]
          refine (List.map_congr_left fun c _ => ?_).trans (List.map_id _)
          simp [Chunk.shift]
        have hin : inBytes (f :: flows) = (f.1, Oracle.packetSize * f.2) :: inBytes flows := rfl
        rw [hin, ChunksApplication.sendAll, hsend]
        simp only [has, Option.bind_eq_bind, Option.bind_some, Option.map_some, hback,
          List.map_cons]

/-- With no spread, the chunks do not depend on what is drawn. -/
theorem drawChunks_const (cs nb i k rng rng' : Nat) :
    (Oracle.drawChunks 0 0 cs nb i k rng).1 = (Oracle.drawChunks 0 0 cs nb i k rng').1 := by
  induction k generalizing i rng rng' with
  | zero => rfl
  | succ k ih =>
      simp only [Oracle.drawChunks, Oracle.generateNextRandomDouble]
      rw [ih (i + 1) _ (Minstd.generateCanonical rng').2]
      simp

theorem flowChunks_const (hα : params.alpha = 0) (flows : List Nat) (rng rng' : Nat) :
    Oracle.flowChunks params flows rng = Oracle.flowChunks params flows rng' := by
  induction flows generalizing rng rng' with
  | nil => rfl
  | cons n flows ih =>
      have hgen : (Oracle.generateChunks params (Oracle.packetSize * n) rng).map (·.1)
          = (Oracle.generateChunks params (Oracle.packetSize * n) rng').map (·.1) := by
        simp only [Oracle.generateChunks, hα, zero_mul, add_zero]
        split
        · rfl
        · simp only [Option.map_some]
          rw [drawChunks_const]
      rw [Oracle.flowChunks, Oracle.flowChunks]
      cases h₁ : Oracle.generateChunks params (Oracle.packetSize * n) rng with
      | none =>
          rw [h₁] at hgen
          rw [Option.map_eq_none_iff.mp hgen.symm]
      | some r =>
          rw [h₁] at hgen
          obtain ⟨r', h₂, hr⟩ := Option.map_eq_some_iff.mp hgen.symm
          rw [h₂]
          simp only [Option.bind_eq_bind, Option.bind_some, ih r.2 r'.2, hr]

/-- A flow of one packet shows what was drawn for it. -/
theorem flowChunks_single (h : 0 < params.maxNumChunks) (rng : Nat) :
    Oracle.flowChunks params [1] rng = some [[⟨(Minstd.generateCanonical rng).1
      * (params.alpha * Oracle.getPacketTime params), Oracle.packetSize⟩]] := by
  have hmin : min 1 params.maxNumChunks = 1 := by omega
  have hdiv : Oracle.packetSize * 1 / Oracle.packetSize = 1 := by decide
  simp only [Oracle.flowChunks, Oracle.generateChunks, hdiv, hmin]
  simp [Oracle.drawChunks, Oracle.generateNextRandomDouble]

/-- The oracle draws, for each sequence of flows of a pair, the chunks that the application drew. -/
def Replays (app : ChunksApplication) (params : Oracle.SimulationParams) (src dst pid : Nat) :
    Prop :=
  ∀ flows : List (ℚ × Nat), (∀ f ∈ flows, 0 < f.2) →
    ((Tcl.appSeed src dst pid).bind fun s => app.sendAll (inBytes flows) (Minstd.seed s))
      = (Oracle.flowChunks params (flows.map (·.2))
          (Minstd.seed (Oracle.seed src dst pid))).map (·.map some)

/-- The oracle replays the chunks if nothing depends on the draws, or if the engines start from one
state. -/
theorem replays_iff_seed (h : Matches app params) {src dst pid s : Nat}
    (hseed : Tcl.appSeed src dst pid = some s) :
    Replays app params src dst pid ↔
      params.alpha = 0 ∨ Minstd.seed s = Minstd.seed (Oracle.seed src dst pid) := by
  refine ⟨fun hr => ?_, fun hcond flows hf => ?_⟩
  · by_cases hα : params.alpha = 0
    · exact .inl hα
    · right
      have hf : ∀ f ∈ [((0 : ℚ), 1)], 0 < f.2 := by simp
      have h₁ := hr [(0, 1)] hf
      obtain ⟨chunks, hc₁, hc₂⟩ := sendAll_eq h hf (Minstd.seed s)
      rw [hseed, Option.bind_some, hc₂] at h₁
      simp only [List.map_cons, List.map_nil, flowChunks_single h.maxNumChunks_pos] at hc₁ h₁
      cases hc₁
      have htime : (Minstd.generateCanonical (Minstd.seed s)).1
            * (params.alpha * Oracle.getPacketTime params)
          = (Minstd.generateCanonical (Minstd.seed (Oracle.seed src dst pid))).1
            * (params.alpha * Oracle.getPacketTime params) := by simpa using h₁
      have hpt : params.alpha * Oracle.getPacketTime params ≠ 0 := by
        refine mul_ne_zero hα (div_ne_zero ?_ (ne_of_gt h.rate_pos))
        norm_num [Oracle.packetSize, Oracle.headerSize]
      exact Minstd.generateCanonical_inj (Minstd.seed_valid _) (Minstd.seed_valid _)
        (mul_right_cancel₀ hpt htime)
  · obtain ⟨chunks, hc₁, hc₂⟩ := sendAll_eq h hf (Minstd.seed s)
    have hsame : Oracle.flowChunks params (flows.map (·.2)) (Minstd.seed (Oracle.seed src dst pid))
        = some chunks := by
      rcases hcond with hα | heq
      · rw [flowChunks_const hα _ _ (Minstd.seed s), hc₁]
      · rw [← heq, hc₁]
    rw [hseed, Option.bind_some, hc₂, hsame]
    rfl

/-- **The oracle replays the chunks of a pair**, in times that are not rounded, if and only if the
times do not depend on the draws (`alpha` is zero), or the seed of the driver, which is
`21148 * pid` for all groups but `"0 0"`, and the seed of the oracle leave the same remainder, zero
and one counting as one. -/
theorem oracle_replays_iff (h : Matches app params) (src dst pid : Nat) :
    Replays app params src dst pid ↔ params.alpha = 0 ∨
      let s := if src = 0 ∧ dst = 0 then 1244 + pid else 21148 * pid
      let t := 17 * src + 1244 * dst + pid
      s % (2 ^ 31 - 1) = t % (2 ^ 31 - 1) ∨ s % (2 ^ 31 - 1) ≤ 1 ∧ t % (2 ^ 31 - 1) ≤ 1 := by
  rw [replays_iff_seed h (Tcl.appSeed_eq src dst pid), Minstd.seed_eq_iff]
  rfl

/-- The parameters of a run: a spread of two, links of 10 Gb/s, at most 32 chunks. -/
def exampleApp : ChunksApplication := ⟨-1, 2, 10, 32, 1460, 40⟩

theorem exampleApp_matches : Matches exampleApp ⟨2, 10000000000, 32⟩ := by
  refine ⟨?_, rfl, ?_, rfl, rfl, rfl, ?_, by decide⟩
  · norm_num [exampleApp]
  · norm_num [exampleApp]
  · norm_num

/-- The seeds of pair 1 from host 439 to host 11 agree. -/
theorem oracle_replays_agree : Matches exampleApp ⟨2, 10000000000, 32⟩ ∧
    Replays exampleApp ⟨2, 10000000000, 32⟩ 439 11 1 :=
  ⟨exampleApp_matches, (oracle_replays_iff exampleApp_matches 439 11 1).mpr (.inr (by decide))⟩

/-- For pair 0 from host 0 to host 1 the driver seeds with 0, and the oracle with 1244. -/
theorem oracle_not_replayed : ¬ Replays exampleApp ⟨2, 10000000000, 32⟩ 0 1 0 := by
  rw [replays_iff_seed exampleApp_matches (Tcl.appSeed_eq 0 1 0)]
  rintro (hα | hseed)
  · norm_num at hα
  · revert hseed
    decide

end Afabric
