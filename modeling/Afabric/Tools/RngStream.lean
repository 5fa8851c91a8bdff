import Afabric.Support.Matrix3
import Afabric.Tools.RngMatrix

/-!
# Tools — streams of random numbers

`RNG` of `tools/rng.cc`: `U01`, the streams and substreams, and `advance_state`, over the matrices
of `RngMatrix`.  A state is two triples, `Cg_[0..2]` and `Cg_[3..5]`; each recurrence of `U01`
multiplies its triple by a matrix, and the tables hold that matrix to other powers.

The seeds of `set_seed` for a source end in that for a `long`, so they are among its calls.
-/

namespace Afabric

namespace Rng

def m1 : ℕ := 4294967087

def m2 : ℕ := 4294944443

def norm : ℚ := 1 / (m1 + 1)

def a12 : ℚ := 1403580

def a13n : ℚ := 810728

def a21 : ℚ := 527612

def a23n : ℚ := 1370589

/-- `1 / 2^24`. -/
def fact : ℚ := 1 / 16777216

def invA1 : Matrix (Fin 3) (Fin 3) ℤ := !![184888585, 0, 1945170933; 1, 0, 0; 0, 1, 0]

def invA2 : Matrix (Fin 3) (Fin 3) ℤ := !![0, 360363334, 4225571728; 1, 0, 0; 0, 1, 0]

def a1p0 : Matrix (Fin 3) (Fin 3) ℤ := !![0, 1, 0; 0, 0, 1; -810728, 1403580, 0]

def a2p0 : Matrix (Fin 3) (Fin 3) ℤ := !![0, 1, 0; 0, 0, 1; -1370589, 0, 527612]

def a1p76 : Matrix (Fin 3) (Fin 3) ℤ :=
  !![82758667, 1871391091, 4127413238;
    3672831523, 69195019, 1871391091;
    3672091415, 3528743235, 69195019]

def a2p76 : Matrix (Fin 3) (Fin 3) ℤ :=
  !![1511326704, 3759209742, 1610795712;
    4292754251, 1511326704, 3889917532;
    3859662829, 4292754251, 3708466080]

def a1p127 : Matrix (Fin 3) (Fin 3) ℤ :=
  !![2427906178, 3580155704, 949770784;
    226153695, 1230515664, 3580155704;
    1988835001, 986791581, 1230515664]

def a2p127 : Matrix (Fin 3) (Fin 3) ℤ :=
  !![1464411153, 277697599, 1610723613;
    32183930, 1464411153, 1022607788;
    2824425944, 32183930, 2093834863]

/-- The table as doubles. -/
def doubles (A : Matrix (Fin 3) (Fin 3) ℤ) : Mat := fun i j => A i j

end Rng

open Rng

attribute [local instance] neZero_three

structure RngState where
  /-- The first three components. -/
  g₁ : Vec
  g₂ : Vec

namespace RngState

/-- `U01`: the number drawn and the state after it. -/
def u01 (anti : Bool) (s : RngState) : ℚ × RngState :=
  let p1 := residue (a12 * s.g₁ 1 - a13n * s.g₁ 0) m1
  let p2 := residue (a21 * s.g₂ 2 - a23n * s.g₂ 0) m2
  let u := if p2 < p1 then (p1 - p2) * Rng.norm else (p1 - p2 + m1) * Rng.norm
  (if anti then 1 - u else u, ⟨![s.g₁ 1, s.g₁ 2, p1], ![s.g₂ 1, s.g₂ 2, p2]⟩)

/-- `U01d`. -/
def u01d (anti : Bool) (s : RngState) : ℚ × RngState :=
  let r := s.u01 anti
  let r' := r.2.u01 anti
  if anti then
    let u := r.1 + (r'.1 - 1) * fact
    (if u < 0 then u + 1 else u, r'.2)
  else
    let u := r.1 + r'.1 * fact
    (if u < 1 then u else u - 1, r'.2)

/-- A step of the recurrences. -/
def step (s : RngState) : RngState := (s.u01 false).2

/-- The matrix of `advance_state` for one of the recurrences. -/
def jumpMatrix (A inv : Matrix (Fin 3) (Fin 3) ℤ) (m : ℕ) (e c : ℤ) : Option Mat :=
  let C := matPowModM (doubles (if 0 ≤ c then A else inv)) m c.natAbs
  if e = 0 then some C
  else
    match matTwoPowModM (doubles (if 0 < e then A else inv)) m e.natAbs with
    | none => none
    | some B => some (matMatModM B C m)

/-- `advance_state`. -/
def advanceState (e c : ℤ) (s : RngState) : Option RngState :=
  match jumpMatrix a1p0 invA1 m1 e c, jumpMatrix a2p0 invA2 m2 e c with
  | some C₁, some C₂ => some ⟨matVecModM C₁ s.g₁ m1, matVecModM C₂ s.g₂ m2⟩
  | _, _ => none

/-- `CheckSeed`. -/
def checkSeed (seed : Fin 6 → ℕ) : Bool :=
  seed 0 < m1 ∧ seed 1 < m1 ∧ seed 2 < m1 ∧ seed 3 < m2 ∧ seed 4 < m2 ∧ seed 5 < m2 ∧
    ¬ (seed 0 = 0 ∧ seed 1 = 0 ∧ seed 2 = 0) ∧ ¬ (seed 3 = 0 ∧ seed 4 = 0 ∧ seed 5 = 0)

def ofSeed (seed : Fin 6 → ℕ) : RngState where
  g₁ := ![seed 0, seed 1, seed 2]
  g₂ := ![seed 3, seed 4, seed 5]

/-- The triple is of numbers below the modulus that are not all zero. -/
def Seeds (m : ℕ) (s : Vec) : Prop := ∃ n : Fin 3 → ℕ, (∀ i, n i < m) ∧ n ≠ 0 ∧ ∀ i, s i = n i

structure Valid (s : RngState) : Prop where
  seeds₁ : Seeds m1 s.g₁
  seeds₂ : Seeds m2 s.g₂

end RngState

structure RNG where
  Cg : RngState
  Bg : RngState
  Ig : RngState
  anti : Bool
  incPrec : Bool

/-- The package: `next_seed_` and the generators made so far. -/
structure RngPackage where
  nextSeed : RngState := .ofSeed fun _ => 12345
  streams : List RNG := []

inductive RngCall where
  | create
  | init (i : ℕ)
  | setPackageSeed (seed : Fin 6 → ℕ)
  | setSeed (i : ℕ) (seed : Fin 6 → ℕ)
  /-- `set_seed(long)`, with a seed other than zero. -/
  | setSeedLong (i : ℕ) (seed : ℤ)
  | u01 (i : ℕ)
  | u01d (i : ℕ)
  | resetStartStream (i : ℕ)
  | resetStartSubstream (i : ℕ)
  | resetNextSubstream (i : ℕ)
  | advanceState (i : ℕ) (e c : ℤ)
  | setAntithetic (i : ℕ) (a : Bool)
  | increasedPrecis (i : ℕ) (incp : Bool)

namespace RNG

/-- `reset_next_substream`. -/
def resetNextSubstream (r : RNG) : RNG :=
  let b : RngState := ⟨matVecModM (doubles a1p76) r.Bg.g₁ m1, matVecModM (doubles a2p76) r.Bg.g₂ m2⟩
  { r with Bg := b, Cg := b }

end RNG

namespace RngPackage

/-- `init`: the generator that starts, and the package. -/
def init (S : RngPackage) : RNG × RngPackage :=
  (⟨S.nextSeed, S.nextSeed, S.nextSeed, false, false⟩,
    { S with nextSeed :=
        ⟨matVecModM (doubles a1p127) S.nextSeed.g₁ m1,
          matVecModM (doubles a2p127) S.nextSeed.g₂ m2⟩ })

/-- A generator of the package changes; `start` is the start of its stream, if one begins. -/
def modify (S : RngPackage) (i : ℕ) (start : Option RngState) (f : RNG → Option RNG) :
    Option (Option RngState × RngPackage) :=
  match S.streams[i]? with
  | none => none
  | some r =>
    match f r with
    | none => none
    | some r => some (start, { S with streams := S.streams.set i r })

/-- A call, with the start of the stream that it begins. -/
def handle (S : RngPackage) : RngCall → Option (Option RngState × RngPackage)
  | .create => some (some S.init.1.Ig, { S.init.2 with streams := S.streams ++ [S.init.1] })
  | .init i => S.init.2.modify i (some S.init.1.Ig) fun _ => some S.init.1
  | .setPackageSeed seed =>
    if RngState.checkSeed seed then some (none, { S with nextSeed := .ofSeed seed }) else none
  | .setSeed i seed =>
    if RngState.checkSeed seed then
      S.modify i none fun r =>
        some { r with Cg := .ofSeed seed, Bg := .ofSeed seed, Ig := .ofSeed seed }
    else none
  | .setSeedLong i seed =>
    let seed : Fin 6 → ℕ := fun _ => (seed % 2 ^ 64).toNat
    if RngState.checkSeed seed then
      let S : RngPackage := { S with nextSeed := .ofSeed seed }
      S.init.2.modify i (some S.init.1.Ig) fun _ => some S.init.1
    else none
  | .u01 i => S.modify i none fun r => some { r with Cg := (r.Cg.u01 r.anti).2 }
  | .u01d i => S.modify i none fun r => some { r with Cg := (r.Cg.u01d r.anti).2 }
  | .resetStartStream i => S.modify i none fun r => some { r with Cg := r.Ig, Bg := r.Ig }
  | .resetStartSubstream i => S.modify i none fun r => some { r with Cg := r.Bg }
  | .resetNextSubstream i => S.modify i none fun r => some r.resetNextSubstream
  | .advanceState i e c => S.modify i none fun r =>
    match r.Cg.advanceState e c with
    | none => none
    | some s => some { r with Cg := s }
  | .setAntithetic i a => S.modify i none fun r => some { r with anti := a }
  | .increasedPrecis i b => S.modify i none fun r => some { r with incPrec := b }

/-- A run, with the starts of the streams that it begins. -/
def run : RngPackage → List RngCall → Option (List RngState × RngPackage)
  | S, [] => some ([], S)
  | S, c :: cs =>
    match S.handle c with
    | none => none
    | some (start, S) =>
      match S.run cs with
      | none => none
      | some (starts, S) => some (start.toList ++ starts, S)

end RngPackage

end Afabric
