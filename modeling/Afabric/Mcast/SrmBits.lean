import Afabric.Mcast.Srm
import Afabric.Support.Buffer
import Mathlib.Data.List.Induction
import Mathlib.Data.Nat.Log

/-!
# Mcast — the bit vector of an SRM agent

`received_` and `recvmax_` of `SRMinfo` (`mcast/srm-state.h`): `ifReceived` makes room for an id
before it reads its bit, and `setReceived` and `resetReceived` call it before they write the bit.
`resize` doubles the size, in bytes, until it exceeds the id; however much that is, it clears only
as many new bytes as there were old ones.  `Represents` is what the vector holds after some calls,
with the bytes that were not cleared (`Uncleared`) told apart.
-/

namespace Afabric

/-- `received_` and `recvmax_`. -/
structure SrmBits where
  received : Option (Buffer (BitVec 8))
  recvmax : ℤ

/-- A call of `SRMinfo`, with an id that passes `assert(id >= 0)`. -/
inductive BitCall where
  | setReceived (id : ℕ)
  | resetReceived (id : ℕ)
  | ifReceived (id : ℕ)
deriving DecidableEq, Repr

namespace SrmBits

/-- `BITVEC_SIZE_DEFAULT`. -/
def bitvecSizeDefault : ℕ := 256

/-- `SRMinfo(sender)`. -/
def new : SrmBits := ⟨none, -1⟩

/-- `while (nsize <= id) nsize *= 2`; none if `nsize` overflows.  An `int` that is not negative is
doubled 31 times at most. -/
def doubledSize (id : ℤ) : ℕ → ℤ → Option ℤ
  | 0, _ => none
  | fuel + 1, nsize =>
      if nsize ≤ id then
        if 2 * nsize < 2 ^ 31 then doubledSize id fuel (2 * nsize) else none
      else some nsize

section Code

-- What the memory that `new char[n]` returns holds; no vector has the size of an earlier one.
variable (mem : ℕ → ℕ → BitVec 8)

/-- The start of `resize`. -/
def first (s : SrmBits) : Option SrmBits :=
  match s.received with
  | some _ => some s
  | none => do
      let v : Buffer (BitVec 8) := ⟨bitvecSizeDefault, mem bitvecSizeDefault⟩
      let v ← v.memset 0 0#8 bitvecSizeDefault
      return ⟨some v, bitvecSizeDefault⟩

def resize (id : ℤ) (s : SrmBits) : Option SrmBits := do
  let s ← first mem s
  if s.recvmax ≤ id then
    let received ← s.received
    let osize := s.recvmax
    let nsize ← doubledSize id 31 osize
    let nvec : Buffer (BitVec 8) := ⟨nsize.toNat, mem nsize.toNat⟩
    let nvec ← nvec.memcpy received osize.toNat
    let nvec ← nvec.memset osize.toNat 0#8 osize.toNat
    return ⟨some nvec, nsize⟩
  else return s

/-- The start of `ifReceived`. -/
def makeRoom (id : ℤ) (s : SrmBits) : Option SrmBits :=
  if s.recvmax ≤ id then resize mem id s else some s

/-- `ifReceived`; none if its assertion fails. -/
def ifReceived (id : ℤ) (s : SrmBits) : Option (BitVec 8 × SrmBits) := do
  guard (0 ≤ id)
  let s ← makeRoom mem id s
  let received ← s.received
  let c ← received.read (id.toNat / 8)
  return (c &&& 1#8 <<< (id.toNat % 8), s)

/-- The byte of `id` is changed by `op`, with a mask for the bit. -/
def change (op : BitVec 8 → BitVec 8 → BitVec 8) (id : ℤ) (s : SrmBits) :
    Option (BitVec 8 × SrmBits) := do
  let (obit, s) ← ifReceived mem id s
  let received ← s.received
  let c ← received.read (id.toNat / 8)
  let received ← received.write (id.toNat / 8) (op c (1#8 <<< (id.toNat % 8)))
  return (obit, { s with received := some received })

def setReceived (id : ℤ) (s : SrmBits) : Option (BitVec 8 × SrmBits) :=
  change mem (fun c mask => c ||| mask) id s

def resetReceived (id : ℤ) (s : SrmBits) : Option (BitVec 8 × SrmBits) :=
  change mem (fun c mask => c &&& ~~~mask) id s

def step (s : SrmBits) : BitCall → Option SrmBits
  | .setReceived id => (setReceived mem id s).map Prod.snd
  | .resetReceived id => (resetReceived mem id s).map Prod.snd
  | .ifReceived id => (ifReceived mem id s).map Prod.snd

/-- The calls on a new `SRMinfo`; none if one does not return, or reaches outside the vector. -/
def run (cs : List BitCall) : Option SrmBits := cs.foldlM (step mem) new

end Code

end SrmBits

/-! ### What the calls ask for -/

namespace BitCall

def id : BitCall → ℕ
  | .setReceived i => i
  | .resetReceived i => i
  | .ifReceived i => i

/-- What the call writes to the bit of `i`. -/
def writes (i : ℕ) : BitCall → Option Bool
  | .setReceived j => if i = j then some true else none
  | .resetReceived j => if i = j then some false else none
  | .ifReceived _ => none

end BitCall

namespace SrmBits

/-- What the last `setReceived` or `resetReceived` of `i` wrote; none if there was none. -/
def lastWrite (cs : List BitCall) (i : ℕ) : Option Bool :=
  (cs.filterMap (BitCall.writes i)).getLast?

/-- The calls return, with each access inside the vector, and `ifReceived` is nonzero just if the
last call that wrote the bit set it. -/
structure Correct (mem : ℕ → ℕ → BitVec 8) (cs : List BitCall) : Prop where
  returns : (run mem cs).isSome
  answers : ∀ pre (i : ℕ) s r, pre ++ [.ifReceived i] <+: cs → run mem pre = some s →
    ifReceived mem i s = some r → (r.1 ≠ 0#8 ↔ lastWrite pre i = some true)

/-- The size of a vector of `o` bytes once it has been asked for `i`. -/
def grow (o i : ℕ) : ℕ := if i < o then o else 2 ^ (Nat.log 2 i + 1)

/-- The size of the vector after some calls. -/
def vecSize (cs : List BitCall) : ℕ := cs.foldl (fun o c => grow o c.id) bitvecSizeDefault

/-- The byte `b` is in the part of the vector that a growth to more than twice the size, in one of
the calls, has not cleared. -/
def Uncleared (cs : List BitCall) (b : ℕ) : Prop :=
  ∃ pre c, pre ++ [c] <+: cs ∧ 2 * vecSize pre ≤ b ∧ b < vecSize (pre ++ [c])

variable {mem : ℕ → ℕ → BitVec 8} {cs pre : List BitCall} {c : BitCall} {s : SrmBits}
  {v : Buffer (BitVec 8)} {i j k o : ℕ}

theorem lastWrite_concat (cs : List BitCall) (c : BitCall) (i : ℕ) :
    lastWrite (cs ++ [c]) i = (c.writes i).or (lastWrite cs i) := by
  rw [lastWrite, List.filterMap_append, List.getLast?_append]
  cases hc : c.writes i <;> simp [hc, lastWrite]

theorem lastWrite_update {x : Bool} (h : ∀ j, c.writes j = if j = i then some x else none) :
    lastWrite (cs ++ [c]) = Function.update (lastWrite cs) i (some x) := by
  funext j
  rw [lastWrite_concat, h, Function.update_apply]
  split_ifs
  · rfl
  · rfl

theorem vecSize_concat (cs : List BitCall) (c : BitCall) :
    vecSize (cs ++ [c]) = grow (vecSize cs) c.id := by
  rw [vecSize, List.foldl_append]
  rfl

theorem uncleared_nil (b : ℕ) : ¬ Uncleared [] b := by
  rintro ⟨pre, c, hpre, -⟩
  have hlen := hpre.length_le
  simp at hlen

theorem uncleared_concat (cs : List BitCall) (c : BitCall) (b : ℕ) :
    Uncleared (cs ++ [c]) b ↔
      Uncleared cs b ∨ 2 * vecSize cs ≤ b ∧ b < grow (vecSize cs) c.id := by
  rw [← vecSize_concat]
  constructor
  · rintro ⟨pre, d, hpre, hb⟩
    rcases List.prefix_concat_iff.mp hpre with heq | hpre
    · obtain ⟨rfl, hd⟩ := List.append_inj' heq rfl
      cases hd
      exact .inr hb
    · exact .inl ⟨pre, d, hpre, hb⟩
  · rintro (⟨pre, d, hpre, hb⟩ | hb)
    · exact ⟨pre, d, hpre.trans (List.prefix_append _ _), hb⟩
    · exact ⟨cs, c, List.prefix_rfl, hb⟩

/-! ### Sizes -/

theorem le_grow (o i : ℕ) : o ≤ grow o i := by
  rw [grow]
  split_ifs with h
  · exact le_rfl
  · exact (not_lt.mp h).trans (Nat.lt_pow_succ_log_self Nat.one_lt_two i).le

theorem lt_grow (o i : ℕ) : i < grow o i := by
  rw [grow]
  split_ifs with h
  · exact h
  · exact Nat.lt_pow_succ_log_self Nat.one_lt_two i

theorem id_lt_vecSize (hc : c ∈ cs) : c.id < vecSize cs := by
  induction cs using List.reverseRecOn with
  | nil => cases hc
  | append_singleton cs d ih =>
      rw [vecSize_concat]
      rcases List.mem_append.mp hc with hc | hc
      · exact (ih hc).trans_le (le_grow _ _)
      · obtain rfl := List.mem_singleton.mp hc
        exact lt_grow _ _

/-- A size that is doubled on the way to `i`. -/
theorem grow_double (h : 2 ^ j ≤ i) : grow (2 ^ (j + 1)) i = grow (2 ^ j) i := by
  rw [grow, grow, if_neg (not_lt.mpr h)]
  split_ifs with hi
  · rw [Nat.log_eq_of_pow_le_of_lt_pow h hi]
  · rfl

theorem grow_pow (h : i < 2 ^ 30) (hj : j ≤ 30) : ∃ k, j ≤ k ∧ k ≤ 30 ∧ grow (2 ^ j) i = 2 ^ k := by
  rw [grow]
  split_ifs with hi
  · exact ⟨j, le_rfl, hj, rfl⟩
  · refine ⟨Nat.log 2 i + 1, ?_, ?_, rfl⟩
    · have hpos : i ≠ 0 := fun h0 => hi (h0 ▸ Nat.two_pow_pos j)
      exact Nat.le_succ_of_le (Nat.le_log_of_pow_le Nat.one_lt_two (not_lt.mp hi))
    · exact Nat.log_lt_of_lt_pow' (by decide) h

/-- The size is a power of two. -/
theorem vecSize_pow (h : ∀ c ∈ cs, c.id < 2 ^ 30) : ∃ k, 8 ≤ k ∧ k ≤ 30 ∧ vecSize cs = 2 ^ k := by
  induction cs using List.reverseRecOn with
  | nil => exact ⟨8, le_rfl, by decide, rfl⟩
  | append_singleton cs c ih =>
      obtain ⟨j, h8, hj, hsize⟩ := ih fun d hd => h d (List.mem_append_left _ hd)
      obtain ⟨k, hjk, hk, hgrow⟩ := grow_pow (h c (by simp)) hj
      refine ⟨k, h8.trans hjk, hk, ?_⟩
      rw [vecSize_concat, hsize, hgrow]

theorem two_mul_pow (j : ℕ) : (2 : ℤ) * ((2 ^ j : ℕ) : ℤ) = ((2 ^ (j + 1) : ℕ) : ℤ) := by
  rw [pow_succ']
  norm_cast

theorem doubledSize_eq (h : i < 2 ^ 30) {fuel : ℕ} (hj : j ≤ 30) (hfuel : 31 ≤ j + fuel) :
    doubledSize i fuel ((2 ^ j : ℕ) : ℤ) = some ((grow (2 ^ j) i : ℕ) : ℤ) := by
  induction fuel generalizing j with
  | zero => omega
  | succ fuel ih =>
      rw [doubledSize]
      by_cases hi : 2 ^ j ≤ i
      · have hlt : j < 30 := (Nat.pow_lt_pow_iff_right Nat.one_lt_two).mp (hi.trans_lt h)
        have hmax : 2 ^ (j + 1) < 2 ^ 31 := Nat.pow_lt_pow_right Nat.one_lt_two (by omega)
        rw [if_pos (by exact_mod_cast hi), two_mul_pow, if_pos (by exact_mod_cast hmax),
          ih hlt (by omega), grow_double hi]
      · rw [if_neg (by exact_mod_cast hi), grow, if_pos (not_le.mp hi)]

/-- No `int` exceeds an id from `2 ^ 30` on by doubling. -/
theorem doubledSize_overflow (h : 2 ^ 30 ≤ i) (fuel : ℕ) (hj : j ≤ 30) :
    doubledSize i fuel ((2 ^ j : ℕ) : ℤ) = none := by
  induction fuel generalizing j with
  | zero => rfl
  | succ fuel ih =>
      have hi : 2 ^ j ≤ i := (Nat.pow_le_pow_right Nat.two_pos hj).trans h
      rw [doubledSize, if_pos (by exact_mod_cast hi), two_mul_pow]
      split_ifs with hmax
      · have hlt : 2 ^ (j + 1) < 2 ^ 31 := by exact_mod_cast hmax
        exact ih (Nat.lt_succ_iff.mp ((Nat.pow_lt_pow_iff_right Nat.one_lt_two).mp hlt))
      · rfl

/-! ### Contents -/

/-- A vector of `n` bytes: `w` is what was written to its bits, and `u` are the bytes that were not
cleared. -/
structure Stored (mem : ℕ → ℕ → BitVec 8) (w : ℕ → Option Bool) (u : ℕ → Prop) (n : ℕ)
    (v : Buffer (BitVec 8)) : Prop where
  size : v.size = n
  inside : ∀ i, w i ≠ none → i / 8 < n
  within : ∀ b, u b → b < n
  written : ∀ i x, w i = some x → v.bit i = x
  cleared : ∀ i, i / 8 < n → w i = none → ¬ u (i / 8) → v.bit i = false
  uncleared : (∀ n b, mem n b = BitVec.allOnes 8) →
    ∀ i, i / 8 < n → w i = none → u (i / 8) → v.bit i = true

variable {w : ℕ → Option Bool} {u : ℕ → Prop} {n : ℕ}

/-- The vector of `n` bytes that takes the place of one of `o` bytes. -/
def enlarged (mem : ℕ → ℕ → BitVec 8) (o n : ℕ) (v : Buffer (BitVec 8)) : Buffer (BitVec 8) where
  size := n
  get b := if o ≤ b ∧ b < o + o then 0#8 else if b < o then v.get b else mem n b

theorem enlarged_of_lt {b : ℕ} (h : b < o) : (enlarged mem o n v).get b = v.get b := by
  rw [enlarged]
  dsimp only
  rw [if_neg fun hb => absurd hb.1 (not_le.mpr h), if_pos h]

theorem enlarged_cleared {b : ℕ} (h₁ : o ≤ b) (h₂ : b < 2 * o) :
    (enlarged mem o n v).get b = 0#8 := by
  rw [enlarged]
  dsimp only
  rw [if_pos ⟨h₁, by omega⟩]

theorem enlarged_uncleared {b : ℕ} (h : 2 * o ≤ b) : (enlarged mem o n v).get b = mem n b := by
  rw [enlarged]
  dsimp only
  rw [if_neg fun hb => by omega, if_neg (by omega)]

/-- The vector is copied, and as many bytes again are cleared. -/
theorem Stored.enlarge (h : Stored mem w u o v) (hn : 2 * o ≤ n) :
    Stored mem w (fun b => u b ∨ 2 * o ≤ b ∧ b < n) n (enlarged mem o n v) where
  size := rfl
  inside i hw := (h.inside i hw).trans_le (by omega)
  within b hb := by
    rcases hb with hu | hb
    · have hlt := h.within b hu
      omega
    · exact hb.2
  written i x hw := by
    have hlt : i / 8 < o := h.inside i (by simp [hw])
    rw [Buffer.bit, enlarged_of_lt hlt]
    exact h.written i x hw
  cleared i hi hw hu := by
    have hu₁ : ¬ u (i / 8) := fun hb => hu (.inl hb)
    by_cases hlt : i / 8 < o
    · rw [Buffer.bit, enlarged_of_lt hlt]
      exact h.cleared i hlt hw hu₁
    · have hnew : i / 8 < 2 * o := by
        by_contra hge
        exact hu (.inr ⟨not_lt.mp hge, hi⟩)
      rw [Buffer.bit, enlarged_cleared (not_lt.mp hlt) hnew]
      exact BitVec.getLsbD_zero
  uncleared hmem i hi hw hu := by
    rcases hu with hu | hb
    · have hlt := h.within _ hu
      rw [Buffer.bit, enlarged_of_lt hlt]
      exact h.uncleared hmem i hlt hw hu
    · rw [Buffer.bit, enlarged_uncleared hb.1, hmem, BitVec.getLsbD_allOnes]
      exact decide_eq_true (Nat.mod_lt i (by decide))

theorem update_eq_none {x : Bool} (h : Function.update w i (some x) j = none) :
    j ≠ i ∧ w j = none := by
  by_cases hj : j = i
  · rw [hj, Function.update_self] at h
    cases h
  · rw [Function.update_of_ne hj] at h
    exact ⟨hj, h⟩

/-- A bit is written. -/
theorem Stored.assign (h : Stored mem w u n v) {c : BitVec 8} {x : Bool} (hi : i / 8 < n)
    (hc : ∀ j, c.getLsbD j = if j = i % 8 then x else (v.get (i / 8)).getLsbD j) :
    Stored mem (Function.update w i (some x)) u n (v.assign (i / 8) c) where
  size := h.size
  inside j hw := by
    by_cases hj : j = i
    · rwa [hj]
    · rw [Function.update_of_ne hj] at hw
      exact h.inside j hw
  within := h.within
  written j y hw := by
    rw [Buffer.bit_assign hc]
    by_cases hj : j = i
    · rw [hj, Function.update_self] at hw
      rw [if_pos hj]
      exact Option.some.inj hw
    · rw [Function.update_of_ne hj] at hw
      rw [if_neg hj]
      exact h.written j y hw
  cleared j hlt hw hu := by
    obtain ⟨hj, hw⟩ := update_eq_none hw
    rw [Buffer.bit_assign hc, if_neg hj]
    exact h.cleared j hlt hw hu
  uncleared hmem j hlt hw hu := by
    obtain ⟨hj, hw⟩ := update_eq_none hw
    rw [Buffer.bit_assign hc, if_neg hj]
    exact h.uncleared hmem j hlt hw hu

/-- The state after the calls `cs`. -/
inductive Represents (mem : ℕ → ℕ → BitVec 8) : List BitCall → SrmBits → Prop where
  | new : Represents mem [] new
  | vector {cs : List BitCall} {v : Buffer (BitVec 8)}
      (h : Stored mem (lastWrite cs) (Uncleared cs) (vecSize cs) v) :
      Represents mem cs ⟨some v, vecSize cs⟩

/-- The first vector is cleared. -/
theorem first_new : ∃ v, first mem new = some ⟨some v, (vecSize [] : ℕ)⟩ ∧
    Stored mem (lastWrite []) (Uncleared []) (vecSize []) v := by
  refine ⟨_, rfl, rfl, ?_, ?_, ?_, ?_, ?_⟩
  · exact fun i hw => absurd rfl hw
  · exact fun b hb => absurd hb (uncleared_nil b)
  · exact fun i x hw => by cases hw
  · intro i hi _ _
    rw [Buffer.bit]
    dsimp only
    rw [if_pos ⟨Nat.zero_le _, (by rwa [zero_add])⟩]
    exact BitVec.getLsbD_zero
  · exact fun _ i _ _ hu => absurd hu (uncleared_nil _)

/-- The loop and the copy of `resize`, where the id is past the end. -/
theorem resize_of_le (hs : first mem s = some ⟨some v, (o : ℕ)⟩) (hi : o ≤ i) (hv : v.size = o) :
    resize mem i s = (doubledSize i 31 o).bind fun nsize =>
      if 2 * o ≤ nsize.toNat then some ⟨some (enlarged mem o nsize.toNat v), nsize⟩ else none := by
  rw [resize, hs]
  simp only [Option.bind_eq_bind, Option.bind_some, Int.ofNat_le.mpr hi, if_true,
    Int.toNat_natCast]
  refine congrArg _ (funext fun nsize => ?_)
  by_cases hn : 2 * o ≤ nsize.toNat
  · rw [if_pos hn, Buffer.memcpy, if_pos ⟨by dsimp only; omega, hv.ge⟩, Option.bind_some,
      Buffer.memset, if_pos (by dsimp only; omega)]
    rfl
  · rw [if_neg hn, Buffer.memcpy]
    split_ifs with hcopy
    · rw [Option.bind_some, Buffer.memset, if_neg (by dsimp only; omega)]
      rfl
    · rfl

theorem resize_of_lt (hs : first mem s = some ⟨some v, (o : ℕ)⟩) (hi : i < o) :
    resize mem i s = some ⟨some v, (o : ℕ)⟩ := by
  rw [resize, hs]
  simp only [Option.bind_eq_bind, Option.bind_some, not_le.mpr (Int.ofNat_lt.mpr hi), if_false]
  rfl

theorem two_mul_le_grow (h : 2 ^ j ≤ i) : 2 * 2 ^ j ≤ grow (2 ^ j) i := by
  rw [grow, if_neg (not_lt.mpr h), ← pow_succ']
  have hpos : i ≠ 0 := (lt_of_lt_of_le (Nat.two_pow_pos j) h).ne'
  exact Nat.pow_le_pow_right Nat.two_pos (Nat.succ_le_succ (Nat.le_log_of_pow_le Nat.one_lt_two h))

theorem grow_le_two_mul (h : i < 2 * 2 ^ j) : grow (2 ^ j) i ≤ 2 * 2 ^ j := by
  rw [grow]
  split_ifs with hi
  · exact Nat.le_mul_of_pos_left _ Nat.two_pos
  · rw [← pow_succ'] at h ⊢
    exact Nat.pow_le_pow_right Nat.two_pos (Nat.log_lt_of_lt_pow' (Nat.succ_ne_zero j) h)

/-- **`resize`** makes room for the id; what it has not cleared is past twice the old size. -/
theorem resize_stored (h : Stored mem w u (2 ^ j) v) (hj : j ≤ 30) (hi : i < 2 ^ 30)
    (hs : first mem s = some ⟨some v, (2 ^ j : ℕ)⟩) :
    ∃ v', resize mem i s = some ⟨some v', (grow (2 ^ j) i : ℕ)⟩ ∧
      Stored mem w (fun b => u b ∨ 2 * 2 ^ j ≤ b ∧ b < grow (2 ^ j) i) (grow (2 ^ j) i) v' := by
  by_cases hle : 2 ^ j ≤ i
  · have hn := two_mul_le_grow hle
    refine ⟨enlarged mem (2 ^ j) (grow (2 ^ j) i) v, ?_, h.enlarge hn⟩
    rw [resize_of_le hs hle h.size, doubledSize_eq hi hj (by omega), Option.bind_some,
      Int.toNat_natCast, if_pos hn]
  · have hlt := not_le.mp hle
    have hsame : grow (2 ^ j) i = 2 ^ j := if_pos hlt
    refine ⟨v, ?_, ?_⟩
    · rw [resize_of_lt hs hlt, hsame]
    · rw [hsame]
      have hu : (fun b => u b ∨ 2 * 2 ^ j ≤ b ∧ b < 2 ^ j) = u := by
        funext b
        refine propext ⟨fun hb => hb.resolve_right ?_, .inl⟩
        omega
      rwa [hu]

/-! ### Calls -/

theorem Represents.first (h : Represents mem cs s) :
    ∃ v, SrmBits.first mem s = some ⟨some v, (vecSize cs : ℕ)⟩ ∧
      Stored mem (lastWrite cs) (Uncleared cs) (vecSize cs) v := by
  cases h with
  | new => exact first_new
  | vector h => exact ⟨_, rfl, h⟩

/-- `resize` does nothing where it is not called. -/
theorem Represents.makeRoom (h : Represents mem cs s) (i : ℕ) :
    SrmBits.makeRoom mem i s = resize mem i s := by
  rw [SrmBits.makeRoom]
  cases h with
  | new => exact if_pos (by dsimp only [SrmBits.new]; omega)
  | vector h =>
      split_ifs with hle
      · rfl
      · exact (resize_of_lt rfl (Int.ofNat_lt.mp (not_le.mp hle))).symm

theorem ifReceived_eq (h : Represents mem cs s) (i : ℕ) :
    SrmBits.ifReceived mem i s = (resize mem i s).bind fun s => s.received.bind fun v =>
      (v.read (i / 8)).bind fun c => some (c &&& 1#8 <<< (i % 8), s) := by
  rw [SrmBits.ifReceived, h.makeRoom, Int.toNat_natCast, guard, if_pos (Int.natCast_nonneg i)]
  rfl

/-- **`ifReceived`**, by itself or in another call, reads the bit from a vector with room for it. -/
theorem Represents.ifReceived (h : Represents mem cs s) (hcs : ∀ c ∈ cs, c.id < 2 ^ 30)
    (hc : c.id < 2 ^ 30) : ∃ v,
      SrmBits.ifReceived mem c.id s = some (v.get (c.id / 8) &&& 1#8 <<< (c.id % 8),
        ⟨some v, (vecSize (cs ++ [c]) : ℕ)⟩) ∧
      Stored mem (lastWrite cs) (Uncleared (cs ++ [c])) (vecSize (cs ++ [c])) v ∧
      c.id / 8 < vecSize (cs ++ [c]) := by
  obtain ⟨v, hfirst, hv⟩ := h.first
  obtain ⟨j, -, hj, hsize⟩ := vecSize_pow hcs
  have hu : Uncleared (cs ++ [c]) =
      fun b => Uncleared cs b ∨ 2 * vecSize cs ≤ b ∧ b < grow (vecSize cs) c.id :=
    funext fun b => propext (uncleared_concat cs c b)
  rw [ifReceived_eq h, hu, vecSize_concat]
  rw [hsize] at hfirst hv ⊢
  obtain ⟨v', hresize, hv'⟩ := resize_stored hv hj hc hfirst
  have hlt : c.id / 8 < grow (2 ^ j) c.id := (Nat.div_le_self _ _).trans_lt (lt_grow _ _)
  refine ⟨v', ?_, hv', hlt⟩
  rw [hresize, Option.bind_some, Option.bind_some, Buffer.read_of_lt (by rwa [hv'.size]),
    Option.bind_some]

/-- The loop of `resize` overflows. -/
theorem Represents.ifReceived_overflow (h : Represents mem cs s) (hcs : ∀ c ∈ cs, c.id < 2 ^ 30)
    (hi : 2 ^ 30 ≤ i) : SrmBits.ifReceived mem i s = none := by
  obtain ⟨v, hfirst, hv⟩ := h.first
  obtain ⟨j, -, hj, hsize⟩ := vecSize_pow hcs
  rw [hsize] at hfirst hv
  have hle : 2 ^ j ≤ i := (Nat.pow_le_pow_right Nat.two_pos hj).trans hi
  rw [ifReceived_eq h, resize_of_le hfirst hle hv.size, doubledSize_overflow hi 31 hj]
  rfl

/-- `setReceived` and `resetReceived`: `op` changes one bit of a byte. -/
theorem Represents.change (h : Represents mem cs s) (hcs : ∀ c ∈ cs, c.id < 2 ^ 30)
    (hc : c.id < 2 ^ 30) (op : BitVec 8 → BitVec 8 → BitVec 8) {x : Bool}
    (hop : ∀ (b : BitVec 8) k, k < 8 →
      ∀ j, (op b (1#8 <<< k)).getLsbD j = if j = k then x else b.getLsbD j)
    (hw : lastWrite (cs ++ [c]) = Function.update (lastWrite cs) c.id (some x)) :
    ∃ obit s', SrmBits.change mem op c.id s = some (obit, s') ∧
      Represents mem (cs ++ [c]) s' := by
  obtain ⟨v, hv, hstored, hlt⟩ := h.ifReceived hcs hc
  have hlt' : c.id / 8 < v.size := by rwa [hstored.size]
  have hnew := hstored.assign hlt (hop (v.get (c.id / 8)) (c.id % 8) (Nat.mod_lt _ (by decide)))
  rw [← hw] at hnew
  refine ⟨v.get (c.id / 8) &&& 1#8 <<< (c.id % 8), _, ?_, .vector hnew⟩
  rw [SrmBits.change, hv]
  simp only [Option.bind_eq_bind, Option.bind_some, Int.toNat_natCast, Buffer.read_of_lt hlt',
    Buffer.write_of_lt hlt']
  rfl

/-- **A call** with an id below `2 ^ 30` returns. -/
theorem Represents.step (h : Represents mem cs s) (hcs : ∀ c ∈ cs, c.id < 2 ^ 30)
    (hc : c.id < 2 ^ 30) :
    ∃ s', SrmBits.step mem s c = some s' ∧ Represents mem (cs ++ [c]) s' := by
  cases c with
  | setReceived i =>
      obtain ⟨obit, s', hs', h'⟩ := h.change hcs hc (fun c mask => c ||| mask)
        (fun b k hk => Buffer.or_mask hk) (lastWrite_update fun _ => rfl)
      refine ⟨s', ?_, h'⟩
      rw [SrmBits.step, setReceived]
      exact congrArg (Option.map Prod.snd) hs'
  | resetReceived i =>
      obtain ⟨obit, s', hs', h'⟩ := h.change hcs hc (fun c mask => c &&& ~~~mask)
        (fun b k hk => Buffer.and_not_mask hk) (lastWrite_update fun _ => rfl)
      refine ⟨s', ?_, h'⟩
      rw [SrmBits.step, resetReceived]
      exact congrArg (Option.map Prod.snd) hs'
  | ifReceived i =>
      have hw : lastWrite (cs ++ [.ifReceived i]) = lastWrite cs :=
        funext fun j => lastWrite_concat cs _ j
      obtain ⟨v, hv, hstored, -⟩ := h.ifReceived hcs hc
      rw [← hw] at hstored
      exact ⟨_, congrArg (Option.map Prod.snd) hv, .vector hstored⟩

theorem Represents.change_overflow (h : Represents mem cs s) (hcs : ∀ c ∈ cs, c.id < 2 ^ 30)
    (hi : 2 ^ 30 ≤ i) (op : BitVec 8 → BitVec 8 → BitVec 8) : SrmBits.change mem op i s = none := by
  rw [SrmBits.change, h.ifReceived_overflow hcs hi]
  rfl

theorem Represents.step_overflow (h : Represents mem cs s) (hcs : ∀ c ∈ cs, c.id < 2 ^ 30)
    (hc : 2 ^ 30 ≤ c.id) : SrmBits.step mem s c = none := by
  cases c with
  | setReceived i => exact congrArg (Option.map Prod.snd) (h.change_overflow hcs hc _)
  | resetReceived i => exact congrArg (Option.map Prod.snd) (h.change_overflow hcs hc _)
  | ifReceived i => exact congrArg (Option.map Prod.snd) (h.ifReceived_overflow hcs hc)

/-! ### Runs -/

theorem run_concat (mem : ℕ → ℕ → BitVec 8) (cs : List BitCall) (c : BitCall) :
    run mem (cs ++ [c]) = (run mem cs).bind fun s => SrmBits.step mem s c := by
  rw [run, List.foldlM_append]
  simp [run]

theorem represents_run (mem : ℕ → ℕ → BitVec 8) (h : ∀ c ∈ cs, c.id < 2 ^ 30) :
    ∃ s, run mem cs = some s ∧ Represents mem cs s := by
  induction cs using List.reverseRecOn with
  | nil => exact ⟨_, rfl, .new⟩
  | append_singleton cs c ih =>
      have hcs : ∀ d ∈ cs, d.id < 2 ^ 30 := fun d hd => h d (List.mem_append_left _ hd)
      obtain ⟨s, hs, hrep⟩ := ih hcs
      obtain ⟨s', hs', hrep'⟩ := hrep.step hcs (h c (by simp))
      refine ⟨s', ?_, hrep'⟩
      rw [run_concat, hs, Option.bind_some, hs']

/-- A run returns only if each id is below `2 ^ 30`. -/
theorem lt_of_run (hs : (run mem cs).isSome) : ∀ c ∈ cs, c.id < 2 ^ 30 := by
  induction cs using List.reverseRecOn with
  | nil => simp
  | append_singleton cs c ih =>
      rw [run_concat] at hs
      obtain ⟨s', hs'⟩ := Option.isSome_iff_exists.mp hs
      obtain ⟨s, hrun, hstep⟩ := Option.bind_eq_some_iff.mp hs'
      have hcs := ih (Option.isSome_of_eq_some hrun)
      obtain ⟨s₁, hrun₁, hrep⟩ := represents_run mem hcs
      obtain rfl := Option.some.inj (hrun.symm.trans hrun₁)
      intro d hd
      rcases List.mem_append.mp hd with hd | hd
      · exact hcs d hd
      · obtain rfl := List.mem_singleton.mp hd
        by_contra hge
        rw [hrep.step_overflow hcs (not_lt.mp hge)] at hstep
        cases hstep

/-- What `ifReceived` gives after a run. -/
theorem ifReceived_bit (hpre : ∀ c ∈ pre, c.id < 2 ^ 30) (hi : i < 2 ^ 30)
    {r : BitVec 8 × SrmBits} (hs : run mem pre = some s) (hr : ifReceived mem i s = some r) :
    ∃ v, Stored mem (lastWrite pre) (Uncleared (pre ++ [.ifReceived i]))
      (vecSize (pre ++ [.ifReceived i])) v ∧ i / 8 < vecSize (pre ++ [.ifReceived i]) ∧
      (r.1 ≠ 0#8 ↔ v.bit i = true) := by
  obtain ⟨s', hs', hrep⟩ := represents_run mem hpre
  obtain rfl := Option.some.inj (hs.symm.trans hs')
  obtain ⟨v, hv, hstored, hlt⟩ := hrep.ifReceived (c := .ifReceived i) hpre hi
  obtain rfl := Option.some.inj (hr.symm.trans hv)
  exact ⟨v, hstored, hlt, Buffer.and_mask_ne_zero (Nat.mod_lt i (by decide))⟩

theorem ids_lt_pow (hcs : ∀ c ∈ cs, c.id < 2 ^ 30) (hpre : pre ++ [c] <+: cs) :
    (∀ d ∈ pre, d.id < 2 ^ 30) ∧ c.id < 2 ^ 30 :=
  ⟨fun d hd => hcs d (hpre.mem (List.mem_append_left _ hd)), hcs c (hpre.mem (by simp))⟩

theorem correct_of_cleared (hcs : ∀ c ∈ cs, c.id < 2 ^ 30)
    (hclear : ∀ pre i, pre ++ [.ifReceived i] <+: cs → lastWrite pre i = none →
      ¬ Uncleared (pre ++ [.ifReceived i]) (i / 8)) (mem : ℕ → ℕ → BitVec 8) :
    Correct mem cs where
  returns := by
    obtain ⟨s, hs, -⟩ := represents_run mem hcs
    exact Option.isSome_of_eq_some hs
  answers pre i s r hpre hs hr := by
    obtain ⟨hbelow, hi⟩ := ids_lt_pow hcs hpre
    obtain ⟨v, hstored, hlt, hbit⟩ := ifReceived_bit (i := i) hbelow hi hs hr
    rw [hbit]
    cases hw : lastWrite pre i with
    | none => simp [hstored.cleared i hlt hw (hclear pre i hpre hw)]
    | some x => simp [hstored.written i x hw]

/-- **A vector that grows step by step**: where no id reaches twice the size of the vector, every
byte is cleared, and the answers are right. -/
theorem correct_of_lt_double (hcs : ∀ c ∈ cs, c.id < 2 ^ 30)
    (hdouble : ∀ pre c, pre ++ [c] <+: cs → c.id < 2 * vecSize pre) (mem : ℕ → ℕ → BitVec 8) :
    Correct mem cs := by
  refine correct_of_cleared hcs (fun pre i hpre _ hu => ?_) mem
  obtain ⟨pre', c, hpre', hle, hlt⟩ := hu
  have hcs' := ids_lt_pow hcs (hpre'.trans hpre)
  obtain ⟨k, -, -, hk⟩ := vecSize_pow hcs'.1
  have hid := hdouble pre' c (hpre'.trans hpre)
  rw [vecSize_concat] at hlt
  rw [hk] at hle hlt hid
  exact absurd (hle.trans_lt hlt) (not_lt.mpr (grow_le_two_mul hid))

/-- **Ids one after the other**, as the loop of `SRMAgent::request` takes them: each call is for an
id that is next, or has been asked for. -/
theorem correct_of_next (hcs : ∀ c ∈ cs, c.id < 2 ^ 30)
    (hnext : ∀ pre c, pre ++ [c] <+: cs → c.id = 0 ∨ ∃ d ∈ pre, c.id ≤ d.id + 1)
    (mem : ℕ → ℕ → BitVec 8) : Correct mem cs := by
  refine correct_of_lt_double hcs (fun pre c hpre => ?_) mem
  obtain ⟨k, -, -, hsize⟩ := vecSize_pow (ids_lt_pow hcs hpre).1
  have hpos : 0 < vecSize pre := by
    rw [hsize]
    exact Nat.two_pow_pos k
  rcases hnext pre c hpre with h0 | ⟨d, hd, hle⟩
  · omega
  · have hlt := id_lt_vecSize hd
    omega

theorem correct_of_next_two :
    Correct (fun _ _ => BitVec.allOnes 8) [.setReceived 0, .ifReceived 1] := by
  refine correct_of_next (by decide) (fun pre c hpre => ?_) _
  obtain ⟨post, h⟩ := hpre
  rcases pre with _ | ⟨d, _ | ⟨d', pre⟩⟩
  · obtain rfl := (List.cons.inj h).1
    exact .inl rfl
  · obtain ⟨rfl, htail⟩ := List.cons.inj h
    obtain rfl := (List.cons.inj htail).1
    exact .inr ⟨.setReceived 0, List.mem_cons_self, le_rfl⟩
  · simp at h

/-- With memory of ones, a bit that no call has written is one in a byte that was not cleared. -/
theorem not_uncleared_of_correct (h : Correct (fun _ _ => BitVec.allOnes 8) cs)
    (hpre : pre ++ [.ifReceived i] <+: cs) (hw : lastWrite pre i = none) :
    ¬ Uncleared (pre ++ [.ifReceived i]) (i / 8) := by
  intro hu
  obtain ⟨hbelow, hi⟩ := ids_lt_pow (lt_of_run h.returns) hpre
  obtain ⟨s, hs, hrep⟩ := represents_run (fun _ _ => BitVec.allOnes 8) hbelow
  obtain ⟨v, hv, -⟩ := hrep.ifReceived (c := .ifReceived i) hbelow hi
  obtain ⟨v', hstored, hlt, hbit⟩ := ifReceived_bit (i := i) hbelow hi hs hv
  have hone := hstored.uncleared (fun _ _ => rfl) i hlt hw hu
  have hset := (h.answers pre i s _ hpre hs hv).mp (hbit.mpr hone)
  rw [hw] at hset
  cases hset

/-- **The bit vector is right** for a list of calls, whatever the memory holds, just if each id is
below `2 ^ 30`, and `ifReceived` asks for no bit that no call has written, in a byte that was not
cleared. -/
theorem correct_iff (cs : List BitCall) :
    (∀ mem, Correct mem cs) ↔ (∀ c ∈ cs, c.id < 2 ^ 30) ∧
      ∀ pre i, pre ++ [.ifReceived i] <+: cs → lastWrite pre i = none →
        ¬ Uncleared (pre ++ [.ifReceived i]) (i / 8) := by
  constructor
  · intro h
    have hones := h fun _ _ => BitVec.allOnes 8
    exact ⟨lt_of_run hones.returns, fun pre i hpre hw => not_uncleared_of_correct hones hpre hw⟩
  · rintro ⟨hcs, hclear⟩ mem
    exact correct_of_cleared hcs hclear mem

/-- On a new `SRMinfo`, `ifReceived(5000)` makes a vector of 8192 bytes, of which it clears 512; the
bit is in byte 625. -/
theorem not_correct_5000 : ¬ ∀ mem, Correct mem [.ifReceived 5000] := by
  intro h
  obtain ⟨r, hr, hne⟩ : ∃ r, ifReceived (fun _ _ => 255#8) (5000 : ℕ) new = some r ∧ r.1 ≠ 0#8 :=
    ⟨_, rfl, by decide⟩
  have hset := ((h _).answers [] 5000 new r List.prefix_rfl rfl hr).mp hne
  cases hset

/-! ### The agent -/

end SrmBits

end Afabric
