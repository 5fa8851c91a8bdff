import Afabric.Support.Minstd
import Mathlib.Data.List.Sort

/-!
# Apps — the chunks of a flow

`ChunksApplication` (`apps/app-chunks.cc`) cuts a flow into chunks that are released at random times,
and `append_true_fct.cpp` draws the same times again, to compute what an oracle could have done with
the flow.  The application is seeded by the Tcl driver (`tcp-common-opt.tcl`), the oracle by its
`main`, each with its own formula over the source, the destination and the number of the pair.

A `double` is a rational, and an `int` that counts bytes or packets a number without bound.
`none` is an exception, or a division by zero.
-/

namespace Afabric

/-- A chunk, with the time of its release. -/
structure Chunk where
  time : ℚ
  sizeInBytes : Nat
deriving DecidableEq, Repr

namespace Chunk

/-- The order of `std::sort`, by `operator<` on the time and the size. -/
def LE (a b : Chunk) : Prop := a.time < b.time ∨ a.time = b.time ∧ a.sizeInBytes ≤ b.sizeInBytes

instance : DecidableRel LE := fun _ _ => inferInstanceAs (Decidable (_ ∨ _ ∧ _))

end Chunk

/-! ### The application -/

/-- The bound variables of a `ChunksApplication`. -/
structure ChunksApplication where
  useAlphaProbability : ℚ
  alpha : ℚ
  linkRateGbps : ℚ
  maxNumChunks : Nat
  packetSizeBytes : Nat
  headerSizeBytes : Nat

namespace ChunksApplication

/-- `get_next_random_double`. -/
def getNextRandomDouble (min max : ℚ) (rng : Nat) : ℚ × Nat :=
  let x := Minstd.generateCanonical rng
  (min + x.1 * (max - min), x.2)

/-- The loop of `generate_chunks` over the chunks from `i` on: an empty chunk is an exception. -/
def drawChunks (app : ChunksApplication) (start stop : ℚ) (chunkSizePkts numBiggerChunks : Nat) :
    Nat → Nat → Nat → Option (List Chunk × Nat)
  | _, 0, rng => some ([], rng)
  | i, k + 1, rng => do
      let t := getNextRandomDouble start stop rng
      let size := app.packetSizeBytes *
        (if i < numBiggerChunks then chunkSizePkts + 1 else chunkSizePkts)
      if size ≤ 0 then none
      else
        let r ← drawChunks app start stop chunkSizePkts numBiggerChunks (i + 1) k t.2
        some (⟨t.1, size⟩ :: r.1, r.2)

/-- `generate_chunks`. -/
def generateChunks (app : ChunksApplication) (startTime : ℚ) (numBytes rng : Nat) :
    Option (List Chunk × Nat) := do
  let numPackets := numBytes / app.packetSizeBytes
  let packetTime := ((app.packetSizeBytes + app.headerSizeBytes) * 8 : Nat)
    / (app.linkRateGbps * 1000000000)
  let numChunks := min numPackets app.maxNumChunks
  if numChunks = 0 then none
  else
    let r ← app.drawChunks startTime (startTime + app.alpha * packetTime * numPackets)
      (numPackets / numChunks) (numPackets % numChunks) 0 numChunks rng
    if (r.1.map (·.sizeInBytes)).sum ≠ numBytes then none
    else some (r.1.insertionSort Chunk.LE, r.2)

/-- `check_if_using_alpha`, with the engine after it. -/
def checkIfUsingAlpha (app : ChunksApplication) (rng : Nat) : Bool × Nat :=
  if app.useAlphaProbability < 0 then (true, rng)
  else
    let x := Minstd.generateCanonical rng
    (x.1 < app.useAlphaProbability, x.2)

/-- `send`, up to the first message: the chunks, if the flow is cut. -/
def send (app : ChunksApplication) (clock : ℚ) (nbytes rng : Nat) :
    Option (Option (List Chunk) × Nat) :=
  let u := app.checkIfUsingAlpha rng
  if u.1 then (app.generateChunks clock nbytes u.2).map fun r => (some r.1, r.2)
  else some (none, u.2)

/-- The flows of a pair, each with the time and the bytes of its `send`: their chunks, with the
times relative to the `send`. -/
def sendAll (app : ChunksApplication) : List (ℚ × Nat) → Nat → Option (List (Option (List Chunk)))
  | [], _ => some []
  | f :: flows, rng => do
      let r ← app.send f.1 f.2 rng
      let rest ← app.sendAll flows r.2
      some (r.1.map (·.map fun c => { c with time := c.time - f.1 }) :: rest)

end ChunksApplication

/-! ### The oracle -/

namespace Oracle

def packetSize : Nat := 1460

def headerSize : Nat := 40

/-- The `simulation_params` that `generate_chunks` reads. -/
structure SimulationParams where
  alpha : ℚ
  rate : ℚ
  maxNumChunks : Nat

/-- `generate_next_random_double`. -/
def generateNextRandomDouble (min max : ℚ) (rng : Nat) : ℚ × Nat :=
  let x := Minstd.generateCanonical rng
  (min + x.1 * (max - min), x.2)

/-- `get_packet_time`. -/
def getPacketTime (params : SimulationParams) : ℚ :=
  ((packetSize + headerSize) * 8 : Nat) / params.rate

/-- The loop of `generate_chunks` over the chunks from `i` on. -/
def drawChunks (start stop : ℚ) (chunkSizePkts numBiggerChunks : Nat) :
    Nat → Nat → Nat → List Chunk × Nat
  | _, 0, rng => ([], rng)
  | i, k + 1, rng =>
      let t := generateNextRandomDouble start stop rng
      let size := packetSize * (if i < numBiggerChunks then chunkSizePkts + 1 else chunkSizePkts)
      let r := drawChunks start stop chunkSizePkts numBiggerChunks (i + 1) k t.2
      (⟨t.1, size⟩ :: r.1, r.2)

/-- `generate_chunks`. -/
def generateChunks (params : SimulationParams) (numBytes rng : Nat) : Option (List Chunk × Nat) :=
  let numPackets := numBytes / packetSize
  let numChunks := min numPackets params.maxNumChunks
  if numChunks = 0 then none
  else
    let endTime := 0 + params.alpha * getPacketTime params * numPackets
    let r := drawChunks 0 endTime (numPackets / numChunks) (numPackets % numChunks) 0 numChunks rng
    some (r.1.insertionSort Chunk.LE, r.2)

/-- The loop of `main` over the flows of one pair, each with its packets: their chunks. -/
def flowChunks (params : SimulationParams) : List Nat → Nat → Option (List (List Chunk))
  | [], _ => some []
  | numPkts :: flows, rng => do
      let r ← generateChunks params (packetSize * numPkts) rng
      let rest ← flowChunks params flows r.2
      some (r.1 :: rest)

/-- The seed of a pair in `main`. -/
def seed (src dst pid : Nat) : Nat := 17 * src + 1244 * dst + pid

end Oracle

/-! ### The seeds of the driver -/

namespace Tcl

/-- `lindex` of a number: as a list it has one element, itself, and what is not there is empty.  An
index that is a list selects in steps. -/
def lindex (list : Option Nat) (index : List Nat) : Option Nat :=
  index.foldl (fun w k => if k = 0 then w else none) list

/-- A token of `expr`. -/
inductive Token where
  | num (n : Nat)
  | plus
  | star

/-- An operand: a number, after any unary plus. -/
def operand : List Token → Option (Nat × List Token)
  | .plus :: ts => operand ts
  | .num n :: ts => some (n, ts)
  | _ => none

/-- The rest of a product. -/
def productFrom (acc : Nat) : Nat → List Token → Option (Nat × List Token)
  | fuel + 1, .star :: ts => do
      let r ← operand ts
      productFrom (acc * r.1) fuel r.2
  | _, ts => some (acc, ts)

/-- The rest of a sum. -/
def sumFrom (acc : Nat) : Nat → List Token → Option (Nat × List Token)
  | fuel + 1, .plus :: ts => do
      let r ← operand ts
      let p ← productFrom r.1 fuel r.2
      sumFrom (acc + p.1) fuel p.2
  | _, ts => some (acc, ts)

/-- `expr` of a sum of products, where an empty word adds nothing to the text. -/
def expr (words : List (Option Token)) : Option Nat := do
  let ts := words.filterMap id
  let r ← operand ts
  let p ← productFrom r.1 ts.length r.2
  let s ← sumFrom p.1 ts.length p.2
  if s.2.isEmpty then some s.1 else none

/-- The `app_seed` of `Agent_Aggr_pair` for the group `"src dst"` and the pair `pid`, with the
arguments of `lindex` as they are there. -/
def appSeed (src dst pid : Nat) : Option Nat :=
  expr [some (.num 17), some .star, (lindex (some 0) [src, dst]).map .num, some .plus,
    some (.num 1244), some .star, (lindex (some 1) [src, dst]).map .num, some .plus,
    some (.num pid)]

/-- The seed does not depend on the group, but for `"0 0"`: the empty words leave
`17 * + 1244 * + pid`, with two unary plus signs. -/
theorem appSeed_eq (src dst pid : Nat) :
    appSeed src dst pid = some (if src = 0 ∧ dst = 0 then 1244 + pid else 21148 * pid) := by
  by_cases h : src = 0 ∧ dst = 0
  · obtain ⟨rfl, rfl⟩ := h
    show some (17 * 0 + 1244 * 1 + pid) = some (1244 + pid)
    congr 1
  · have hl : ∀ n, lindex (some n) [src, dst] = none := by
      intro n
      simp only [lindex, List.foldl_cons, List.foldl_nil]
      by_cases hd : dst = 0
      · rw [if_pos hd, if_neg fun hs => h ⟨hs, hd⟩]
      · rw [if_neg hd]
    rw [if_neg h, appSeed, hl, hl]
    show some (17 * 1244 * pid) = some (21148 * pid)
    congr 1

end Tcl

end Afabric
