import Mathlib.Data.BitVec

/-!
# Classifier — the hash classifiers

`classifier/classifier-hash.h`: packets are classified by their addresses and flow id, of which each
class takes some.  `hashkey` shifts and masks the addresses, and `lookup` shifts and masks those of a
packet before it calls `hashkey`, while `set_hash` does not.  So a packet finds what has been set for
it in all cases only where shifting and masking twice is the same as once (`mshift_mshift_iff`,
`agrees_iff`).

An address and a flow id are 32 bits; the hash table of Tcl is a finite map on the keys.  A shift is
a natural number: one by 32 or more, which the language leaves open, is one by 31.
-/

namespace Afabric

inductive HashClass where
  | srcDestFid
  | srcDest
  | dest
deriving DecidableEq

/-- `hkey`. -/
inductive HashKey where
  | srcDstFid (src dst fid : BitVec 32)
  | srcDst (src dst : BitVec 32)
  | dst (dst : BitVec 32)
deriving DecidableEq

structure HashClassifier where
  cls : HashClass
  shift : ℕ
  mask : BitVec 32
  default : ℤ
  maxslot : ℤ
  ht : HashKey → Option ℤ

/-- The fields of a packet that are classified. -/
structure FlowHeader where
  saddr : BitVec 32
  daddr : BitVec 32
  flowid : BitVec 32

/-- A call of `set_hash`. -/
structure SetHash where
  src : BitVec 32
  dst : BitVec 32
  fid : BitVec 32
  slot : ℤ

/-- The slot of a packet, or the call of `unknown-flow` for it. -/
inductive Classified where
  | slot (n : ℤ)
  | unknown
deriving DecidableEq

namespace HashClassifier

def new (cls : HashClass) (shift : ℕ) (mask : BitVec 32) (default maxslot : ℤ) :
    HashClassifier where
  cls := cls
  shift := shift
  mask := mask
  default := default
  maxslot := maxslot
  ht := fun _ => none

def mshift (val : BitVec 32) (c : HashClassifier) : BitVec 32 := val.sshiftRight c.shift &&& c.mask

def hashkey (src dst fid : BitVec 32) (c : HashClassifier) : HashKey :=
  match c.cls with
  | .srcDestFid => .srcDstFid (c.mshift src) (c.mshift dst) fid
  | .srcDest => .srcDst (c.mshift src) (c.mshift dst)
  | .dest => .dst (c.mshift dst)

def setHash (k : SetHash) (c : HashClassifier) : HashClassifier :=
  { c with ht := Function.update c.ht (c.hashkey k.src k.dst k.fid) (some k.slot) }

def getHash (src dst fid : BitVec 32) (c : HashClassifier) : ℤ :=
  (c.ht (c.hashkey src dst fid)).getD (-1)

def lookup (h : FlowHeader) (c : HashClassifier) : ℤ :=
  c.getHash (c.mshift h.saddr) (c.mshift h.daddr) h.flowid

/-- A packet for which nothing has been set. -/
def otherwise (c : HashClassifier) : Classified :=
  if 0 ≤ c.default then .slot c.default
  else
    match c.cls with
    | .dest => .slot (-1)
    | _ => .unknown

def classify (h : FlowHeader) (c : HashClassifier) : Classified :=
  let slot := c.lookup h
  if 0 ≤ slot ∧ slot ≤ c.maxslot then .slot slot else c.otherwise

/-! ### What has been set -/

def setAll (calls : List SetHash) (c : HashClassifier) : HashClassifier :=
  calls.foldl (fun c k => c.setHash k) c

/-- The slot of the last call for a key. -/
def lastSlot (calls : List SetHash) (key : HashKey) (c : HashClassifier) : Option ℤ :=
  (calls.filter fun k => c.hashkey k.src k.dst k.fid = key).getLast?.map SetHash.slot

variable {cls : HashClass} {shift : ℕ} {mask : BitVec 32} {default maxslot : ℤ}

theorem setAll_concat (calls : List SetHash) (k : SetHash) (c : HashClassifier) :
    c.setAll (calls ++ [k]) = (c.setAll calls).setHash k := List.foldl_append

/-- The calls leave all but the table. -/
theorem setAll_eq (calls : List SetHash) (c : HashClassifier) :
    c.setAll calls = { c with ht := (c.setAll calls).ht } := by
  induction calls using List.reverseRecOn with
  | nil => rfl
  | append_singleton calls k ih =>
      rw [setAll_concat, setHash]
      rw [ih]

theorem hashkey_setAll (calls : List SetHash) (c : HashClassifier) (src dst fid : BitVec 32) :
    (c.setAll calls).hashkey src dst fid = c.hashkey src dst fid := by
  rw [setAll_eq]
  rfl

/-- The table holds the last call for each key. -/
theorem ht_setAll (calls : List SetHash) (key : HashKey) :
    ((new cls shift mask default maxslot).setAll calls).ht key =
      (new cls shift mask default maxslot).lastSlot calls key := by
  induction calls using List.reverseRecOn with
  | nil => rfl
  | append_singleton calls k ih =>
      rw [setAll_concat, setHash, hashkey_setAll, lastSlot, List.filter_append]
      dsimp only
      by_cases hk : (new cls shift mask default maxslot).hashkey k.src k.dst k.fid = key
      · rw [hk, Function.update_self, List.filter_cons_of_pos (by simpa using hk),
          List.filter_nil, List.getLast?_concat]
        rfl
      · rw [Function.update_of_ne (Ne.symm hk), ih, List.filter_cons_of_neg (by simpa using hk),
          List.filter_nil, List.append_nil]
        rfl

/-! ### Twice -/

/-- Shifting and masking a value that has been shifted and masked. -/
def Stable (shift : ℕ) (mask : BitVec 32) : Prop :=
  ∀ x : BitVec 32, ((x.sshiftRight shift &&& mask).sshiftRight shift &&& mask) =
    x.sshiftRight shift &&& mask

/-- The bit that comes to place `i`. -/
theorem getLsbD_mshift (x : BitVec 32) {i : ℕ} (hi : i < 32) :
    (x.sshiftRight shift &&& mask).getLsbD i =
      (x.getLsbD (min (shift + i) 31) && mask.getLsbD i) := by
  rw [BitVec.getLsbD_and, BitVec.getLsbD_sshiftRight, decide_eq_false hi.not_ge]
  by_cases h : shift + i < 32
  · rw [if_pos h, min_eq_left (by omega)]
    rfl
  · rw [if_neg h, min_eq_right (by omega), BitVec.msb_eq_getLsbD_last]
    rfl

/-- **Where twice is once**: the shift is 0, the mask is, or every bit of the mask is one to which
the sign bit comes, and the mask has the sign bit. -/
theorem stable_iff : Stable shift mask ↔
    shift = 0 ∨ mask = 0 ∨
      (mask.getLsbD 31 = true ∧ ∀ i, mask.getLsbD i = true → 31 ≤ shift + i) := by
  constructor
  · intro h
    by_cases hs : shift = 0
    · exact .inl hs
    by_cases hm : mask = 0
    · exact .inr (.inl hm)
    have hbit : ∀ (x : BitVec 32) (i : ℕ), i < 32 → mask.getLsbD i = true →
        x.getLsbD (min (shift + i) 31) = true →
        mask.getLsbD (min (shift + i) 31) = true ∧
          x.getLsbD (min (shift + min (shift + i) 31) 31) = true := by
      intro x i hi hmask hx
      have he := congrArg (BitVec.getLsbD · i) (h x)
      rw [getLsbD_mshift _ hi, getLsbD_mshift x hi, getLsbD_mshift x (by omega), hmask, hx] at he
      simp only [Bool.and_true, Bool.and_eq_true] at he
      exact ⟨he.2, he.1⟩
    have hhigh : ∀ i, mask.getLsbD i = true → 31 ≤ shift + i := by
      intro i hmask
      have hi : i < 32 := BitVec.lt_of_getLsbD hmask
      by_contra hlt
      -- the bit that comes to `i` is not the one that comes to it after two shifts
      have hx := (hbit (BitVec.twoPow 32 (shift + i)) i hi hmask
        (by rw [BitVec.getLsbD_twoPow]; simp; omega)).2
      rw [BitVec.getLsbD_twoPow] at hx
      simp only [Bool.and_eq_true, decide_eq_true_eq] at hx
      omega
    obtain ⟨i, hi⟩ : ∃ i, mask.getLsbD i = true := by
      by_contra hnone
      refine hm (BitVec.eq_of_getLsbD_eq fun i _ => ?_)
      rw [Bool.eq_false_iff.mpr fun hc => hnone ⟨i, hc⟩]
      simp
    have hsign := (hbit (BitVec.twoPow 32 31) i (BitVec.lt_of_getLsbD hi) hi
      (by rw [BitVec.getLsbD_twoPow]; have := hhigh i hi; simp; omega)).1
    rw [min_eq_right (hhigh i hi)] at hsign
    exact .inr (.inr ⟨hsign, hhigh⟩)
  · rintro (rfl | rfl | ⟨hsign, hhigh⟩) x
    · rw [BitVec.sshiftRight_zero, BitVec.sshiftRight_zero, BitVec.and_assoc, BitVec.and_self]
    · simp
    · refine BitVec.eq_of_getLsbD_eq fun i hi => ?_
      rw [getLsbD_mshift _ hi, getLsbD_mshift x hi]
      by_cases hmask : mask.getLsbD i = true
      · have hge := hhigh i hmask
        rw [min_eq_right hge, getLsbD_mshift x (by decide), min_eq_right (by omega), hsign]
        simp
      · simp [hmask]

/-! ### Packets -/

/-- Packets are classified by the last call with their key fields, whatever has been set. -/
def Agrees (cls : HashClass) (shift : ℕ) (mask : BitVec 32) : Prop :=
  ∀ (default maxslot : ℤ) (calls : List SetHash) (h : FlowHeader),
    (∀ k ∈ calls, 0 ≤ k.slot ∧ k.slot ≤ maxslot) →
    let c := new cls shift mask default maxslot
    (c.setAll calls).classify h =
      match c.lastSlot calls (c.hashkey h.saddr h.daddr h.flowid) with
      | some slot => .slot slot
      | none => c.otherwise

/-- A packet is classified by the last call for the key under which it is looked up. -/
theorem classify_setAll (calls : List SetHash) (h : FlowHeader) :
    let c := new cls shift mask default maxslot
    let slot := (c.lastSlot calls
      (c.hashkey (c.mshift h.saddr) (c.mshift h.daddr) h.flowid)).getD (-1)
    (c.setAll calls).classify h = if 0 ≤ slot ∧ slot ≤ maxslot then .slot slot else c.otherwise := by
  dsimp only
  rw [classify, lookup, getHash, hashkey_setAll, ht_setAll]
  rw [setAll_eq]
  rfl

/-- With keys that are stable a packet is looked up under its own key. -/
theorem Stable.hashkey (hs : Stable shift mask) (h : FlowHeader) :
    (new cls shift mask default maxslot).hashkey
        ((new cls shift mask default maxslot).mshift h.saddr)
        ((new cls shift mask default maxslot).mshift h.daddr) h.flowid =
      (new cls shift mask default maxslot).hashkey h.saddr h.daddr h.flowid := by
  have htwice : ∀ x : BitVec 32, (new cls shift mask default maxslot).mshift
      ((new cls shift mask default maxslot).mshift x) =
        (new cls shift mask default maxslot).mshift x := hs
  rw [HashClassifier.hashkey, HashClassifier.hashkey, htwice, htwice]

theorem mshift_mshift_of_hashkey {x : BitVec 32}
    (h : (new cls shift mask default maxslot).hashkey x x 0 =
      (new cls shift mask default maxslot).hashkey
        ((new cls shift mask default maxslot).mshift x)
        ((new cls shift mask default maxslot).mshift x) 0) :
    ((x.sshiftRight shift &&& mask).sshiftRight shift &&& mask) =
      x.sshiftRight shift &&& mask := by
  cases cls with
  | srcDestFid => exact (HashKey.srcDstFid.inj h).1.symm
  | srcDest => exact (HashKey.srcDst.inj h).1.symm
  | dest => exact (HashKey.dst.inj h).symm

theorem lastSlot_singleton (k : SetHash) (key : HashKey) (c : HashClassifier) :
    c.lastSlot [k] key = if c.hashkey k.src k.dst k.fid = key then some k.slot else none := by
  rw [lastSlot]
  split_ifs with hk
  · rw [List.filter_cons_of_pos (by simpa using hk)]
    rfl
  · rw [List.filter_cons_of_neg (by simpa using hk)]
    rfl

theorem lastSlot_mem {calls : List SetHash} {key : HashKey} {c : HashClassifier} {slot : ℤ}
    (h : c.lastSlot calls key = some slot) : ∃ k ∈ calls, k.slot = slot := by
  obtain ⟨k, hk, rfl⟩ := Option.map_eq_some_iff.mp h
  exact ⟨k, (List.mem_filter.mp (List.mem_of_getLast? hk)).1, rfl⟩

/-- **Set and lookup agree** exactly where shifting and masking twice is the same as once. -/
theorem agrees_iff (cls : HashClass) (shift : ℕ) (mask : BitVec 32) :
    Agrees cls shift mask ↔
      shift = 0 ∨ mask = 0 ∨
        (mask.getLsbD 31 = true ∧ ∀ i, mask.getLsbD i = true → 31 ≤ shift + i) := by
  rw [← stable_iff]
  constructor
  · intro h x
    -- one call, and a packet with the same addresses
    have hone := h 1 0 [⟨x, x, 0, 0⟩] ⟨x, x, 0⟩ (by simp)
    dsimp only at hone
    rw [classify_setAll, lastSlot_singleton, lastSlot_singleton, if_pos rfl] at hone
    by_cases hkey : (new cls shift mask 1 0).hashkey x x 0 =
      (new cls shift mask 1 0).hashkey ((new cls shift mask 1 0).mshift x)
        ((new cls shift mask 1 0).mshift x) 0
    · exact mshift_mshift_of_hashkey hkey
    · -- the call is not found, and the packet goes to slot 1
      have hdefault : Classified.slot 1 = Classified.slot 0 := by rwa [if_neg hkey] at hone
      cases hdefault
  · intro hs default maxslot calls h hslots
    dsimp only
    rw [classify_setAll, hs.hashkey]
    cases hl : (new cls shift mask default maxslot).lastSlot calls
      ((new cls shift mask default maxslot).hashkey h.saddr h.daddr h.flowid) with
    | none => exact if_neg fun hc => absurd hc.1 (by decide)
    | some slot =>
        obtain ⟨k, hk, rfl⟩ := lastSlot_mem hl
        exact if_pos (hslots k hk)

/-- A packet with the addresses of a call, under the shift 8 and the mask 255. -/
theorem hash_missed : (∀ cls : HashClass, ((new cls 8 0xff 1 0).setAll
    [⟨0x100, 0x200, 7, 0⟩]).classify ⟨0x100, 0x200, 7⟩ = .slot 1) ∧ ∀ cls, ¬ Agrees cls 8 0xff := by
  refine ⟨fun cls => by cases cls <;> decide, fun cls h => ?_⟩
  have hone := h 1 0 [⟨0x100, 0x200, 7, 0⟩] ⟨0x100, 0x200, 7⟩ (by simp)
  revert hone
  cases cls <;> decide

end HashClassifier

end Afabric
