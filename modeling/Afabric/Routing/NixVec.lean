import Mathlib.Data.List.Induction
import Mathlib.Data.Nat.Bitwise
import Mathlib.Tactic.Ring

/-!
# Routing — nix-vectors

`NixVec` (`nix/nixvec.cc`): neighbour indices of up to 32 bits, one after the other in words of 32
bits, where `unsigned long` has 64.  The first word lives in the pointer itself until there is a
second one.  A word is a function of its place here (`Holds`); `Add` puts the bits of an index into
one word or two (`put`), and what it leaves in the words is what `Extract` finds (`Stored`).

The mask of `Extract` is made by shifting `0x80000000` to the right, which fills with ones only
where a `long` has 32 bits.  With 64 it is a single bit: of an index within one word the last bit
comes back, and an index across two words comes back because the second word keeps all of its bits.
-/

namespace Afabric

/-- `m_pNV`: the vector itself, or a pointer to its words. -/
inductive NixStore where
  | lone (n : ℕ)
  | array (a : List ℕ)
deriving DecidableEq, Repr

/-- `NixVec`. -/
structure NixVec where
  pNV : NixStore
  used : ℕ
  alth : ℕ
deriving DecidableEq, Repr

/-- `NIX_NONE`. -/
def nixNone : ℕ := 0xffffffff

/-- `x << s`, of 64 bits. -/
def shl (x s : ℕ) : ℕ := (x <<< s) % 2 ^ 64

/-- A difference of unsigned numbers, of 64 bits. -/
def unsigned (x : ℤ) : ℕ := (x % 2 ^ 64).toNat

/-- `a[i] |= x`; none outside the array. -/
def orAt (i x : ℕ) (a : List ℕ) : Option (List ℕ) := a[i]?.map fun w => a.set i (w ||| x)

namespace NixVec

/-- `NixVec()`. -/
def empty : NixVec := ⟨.lone 0, 0, 0⟩

/-- `Lth`, in bits. -/
def lth (v : NixVec) : ℕ := if v.alth = 0 then 32 else ((v.alth - 1) / 32 + 1) * 32

/-- The words, as they are copied; none if the pointer is not what `Lth` says. -/
def copied (v : NixVec) : Option (List ℕ) :=
  match v.pNV with
  | .lone n => if v.lth = 32 then some [n] else none
  | .array a =>
      if v.lth = 32 ∨ a.length < v.lth / 32 then none else some (a.take (v.lth / 32))

/-- The word at `k`; none if the pointer is not what `Lth` says, or outside the array. -/
def wordAt (k : ℕ) (v : NixVec) : Option ℕ :=
  match v.pNV with
  | .lone n => if v.lth = 32 then some n else none
  | .array a => if v.lth = 32 then none else a[k]?

/-- `m_pNV[k]`. -/
def deref (k : ℕ) (v : NixVec) : Option ℕ :=
  match v.pNV with
  | .lone _ => none
  | .array a => a[k]?

/-- The words after `Add`; none for an access outside them. -/
def added (p : ℕ × ℕ) (v : NixVec) : Option NixStore :=
  if v.lth < v.used + p.2 then do
    let pNew := (← v.copied) ++ [0]
    if v.used = v.lth then do
      let newbits := shl p.1 (unsigned (32 - v.used + (v.lth + 32 - 32) - p.2))
      return .array (← orAt (v.used / 32) newbits pNew)
    else do
      let left := v.lth - v.used
      let pNew ← orAt (v.used / 32) (p.1 >>> (p.2 - left)) pNew
      return .array (← orAt (v.used / 32 + 1) (shl p.1 (32 - (p.2 - left))) pNew)
  else
    let newbits := shl p.1 (unsigned (32 - v.used + (v.lth - 32) - p.2))
    match v.pNV with
    | .lone n => if v.lth = 32 then some (.lone (n ||| newbits)) else none
    | .array a => if v.lth = 32 then none else (orAt (v.used / 32) newbits a).map .array

/-- `Add(p)`. -/
def add (p : ℕ × ℕ) (v : NixVec) : Option NixVec :=
  if p.2 = 0 then some v
  else (added p v).map fun pNV => ⟨pNV, v.used + p.2, max v.alth (v.used + p.2)⟩

/-- `Reset`. -/
def reset (v : NixVec) : NixVec := { v with used := 0 }

/-- `Extract(n)`, for at least one bit; `long` of 64 bits holds `0x80000000` as a positive number.
-/
def extract (n : ℕ) (v : NixVec) : Option (ℕ × NixVec) :=
  let word := v.used / 32
  let bit := v.used - word * 32
  if v.alth < v.used + n then some (nixNone, v)
  else if bit + n ≤ 32 then do
    let u := (0x80000000 >>> (n - 1)) >>> bit
    let w ← v.wordAt word
    return ((w &&& u) >>> (32 - bit - n), { v with used := v.used + n })
  else do
    let t := 32 - bit
    let u := (0x80000000 >>> (t - 1)) >>> bit
    let w ← v.wordAt word
    let next ← v.deref (word + 1)
    return (shl (w &&& u) (n - t) ||| (next >>> (32 - (n - t))), { v with used := v.used + n })

def addAll (ps : List (ℕ × ℕ)) (v : NixVec) : Option NixVec := ps.foldlM (fun v p => add p v) v

def extractAll : List ℕ → NixVec → Option (List ℕ × NixVec)
  | [], v => some ([], v)
  | n :: ns, v => do
      let (x, v) ← extract n v
      let (xs, v) ← extractAll ns v
      return (x :: xs, v)

/-! ### Bits -/

variable {W : ℕ → ℕ} {v : NixVec} {k n u b s t o x y : ℕ} {p : ℕ × ℕ} {ps : List (ℕ × ℕ)}

theorem shl_eq (hx : x < 2 ^ 32) (hs : s ≤ 32) : shl x s = x <<< s := by
  rw [shl, Nat.shiftLeft_eq]
  refine Nat.mod_eq_of_lt ?_
  calc x * 2 ^ s < 2 ^ 32 * 2 ^ s := Nat.mul_lt_mul_of_pos_right hx (Nat.two_pow_pos s)
    _ ≤ 2 ^ 32 * 2 ^ 32 := Nat.mul_le_mul_left _ (Nat.pow_le_pow_right (by decide) hs)
    _ = 2 ^ 64 := by norm_num

theorem unsigned_eq {z : ℤ} (hz : z = n) (hn : n < 2 ^ 64) : unsigned z = n := by
  rw [unsigned, hz]
  omega

/-- A single bit, moved to the end. -/
theorem and_two_pow_shiftRight (w k : ℕ) : (w &&& 2 ^ k) >>> k = (w.testBit k).toNat := by
  rw [Nat.and_two_pow, Nat.shiftRight_eq_div_pow, Nat.mul_div_cancel _ (Nat.two_pow_pos k)]

/-- The mask is a single bit. -/
theorem mask_eq (hn : 1 ≤ n) (hb : b + n ≤ 32) :
    (0x80000000 >>> (n - 1)) >>> b = 2 ^ (32 - b - n) := by
  have hpow : (0x80000000 : ℕ) = 2 ^ (32 - b - n) * 2 ^ (n - 1 + b) := by
    rw [← pow_add, show 32 - b - n + (n - 1 + b) = 31 by omega]
    rfl
  rw [Nat.shiftRight_eq_div_pow, Nat.shiftRight_eq_div_pow, Nat.div_div_eq_div_mul, ← pow_add, hpow]
  exact Nat.mul_div_cancel _ (Nat.two_pow_pos _)

theorem testBit_of_le (hy : y < 2 ^ n) (hk : n ≤ k) : y.testBit k = false :=
  Nat.testBit_lt_two_pow (hy.trans_le (Nat.pow_le_pow_right (by decide) hk))

/-! ### What the words hold -/

/-- Words with the bits of `x` put at `u`. -/
def put (W : ℕ → ℕ) (u : ℕ) (p : ℕ × ℕ) : ℕ → ℕ :=
  if u % 32 + p.2 ≤ 32 then
    Function.update W (u / 32) (W (u / 32) ||| p.1 <<< (32 - u % 32 - p.2))
  else
    Function.update
      (Function.update W (u / 32) (W (u / 32) ||| p.1 >>> (u % 32 + p.2 - 32)))
      (u / 32 + 1) (p.1 <<< (32 - (u % 32 + p.2 - 32)))

/-- From `u` on there are no bits in the words. -/
structure Clean (W : ℕ → ℕ) (u : ℕ) : Prop where
  bits : ∀ j < 32 - u % 32, (W (u / 32)).testBit j = false
  words : ∀ k, u ≤ 32 * k → W k = 0

/-- What `Extract` reads of the bits of `p` at `o`. -/
def Stored (W : ℕ → ℕ) (o : ℕ) (p : ℕ × ℕ) : Prop :=
  if o % 32 + p.2 ≤ 32 then (W (o / 32)).testBit (32 - o % 32 - p.2) = p.1.testBit 0
  else (W (o / 32)).testBit 0 = p.1.testBit (o % 32 + p.2 - 32) ∧
    W (o / 32 + 1) >>> (32 - (o % 32 + p.2 - 32)) = p.1

/-- An index of at most 32 bits. -/
def Fits (p : ℕ × ℕ) : Prop := 1 ≤ p.2 ∧ p.2 ≤ 32 ∧ p.1 < 2 ^ p.2

instance : DecidablePred Fits := fun _ => inferInstanceAs (Decidable (_ ∧ _ ∧ _))

theorem Fits.lt (hp : Fits p) : p.1 < 2 ^ 32 :=
  hp.2.2.trans_le (Nat.pow_le_pow_right (by decide) hp.2.1)

theorem put_stored (hw : Clean W u) (hp : Fits p) : Stored (put W u p) u p := by
  obtain ⟨x, n⟩ := p
  obtain ⟨hn, hn', -⟩ := hp
  simp only at hn hn'
  rw [Stored, put]
  split_ifs with hone
  · rw [Function.update_self, Nat.testBit_or, hw.bits _ (by simp only at hone ⊢; omega),
      Nat.testBit_shiftLeft]
    simp
  · rw [Function.update_self, Function.update_of_ne (Nat.succ_ne_self _).symm, Function.update_self,
      Nat.testBit_or, hw.bits 0 (by omega), Nat.testBit_shiftRight, Nat.shiftLeft_shiftRight]
    simp

theorem put_clean (hw : Clean W u) (hp : Fits p) : Clean (put W u p) (u + p.2) := by
  obtain ⟨x, n⟩ := p
  obtain ⟨hn, hn', -⟩ := hp
  simp only at hn hn' ⊢
  rw [put]
  split_ifs with hone
  · simp only at hone
    refine ⟨fun j hj => ?_, fun k hk => ?_⟩
    · rcases Nat.lt_or_ge (u % 32 + n) 32 with hlt | hge
      · have hword : (u + n) / 32 = u / 32 := by omega
        rw [hword, Function.update_self, Nat.testBit_or, hw.bits j (by omega),
          Nat.testBit_shiftLeft, decide_eq_false (by simp only; omega)]
        rfl
      · have hword : (u + n) / 32 = u / 32 + 1 := by omega
        rw [hword, Function.update_of_ne (Nat.succ_ne_self _), hw.words _ (by omega),
          Nat.zero_testBit]
    · rw [Function.update_of_ne (by omega), hw.words k (by omega)]
  · simp only at hone
    have hword : (u + n) / 32 = u / 32 + 1 := by omega
    refine ⟨fun j hj => ?_, fun k hk => ?_⟩
    · rw [hword, Function.update_self, Nat.testBit_shiftLeft,
        decide_eq_false (by simp only; omega)]
      rfl
    · rw [Function.update_of_ne (by omega), Function.update_of_ne (by omega), hw.words k (by omega)]

/-- Before `u`, a put only adds low bits of the word at `u`. -/
theorem put_before (hp : Fits p) : (∀ k < u / 32, put W u p k = W k) ∧
    ∃ y < 2 ^ (32 - u % 32), put W u p (u / 32) = W (u / 32) ||| y := by
  obtain ⟨x, n⟩ := p
  obtain ⟨hn, hn', hx⟩ := hp
  simp only at hn hn' hx
  rw [put]
  split_ifs with hone
  · refine ⟨fun k hk => Function.update_of_ne hk.ne _ _, x <<< (32 - u % 32 - n), ?_,
      Function.update_self _ _ _⟩
    simp only at hone
    rw [Nat.shiftLeft_eq]
    calc x * 2 ^ (32 - u % 32 - n) < 2 ^ n * 2 ^ (32 - u % 32 - n) :=
          Nat.mul_lt_mul_of_pos_right hx (Nat.two_pow_pos _)
      _ = 2 ^ (32 - u % 32) := by rw [← pow_add]; congr 1; omega
  · simp only at hone
    refine ⟨fun k hk => ?_, x >>> (u % 32 + n - 32), ?_, ?_⟩
    · rw [Function.update_of_ne (by omega), Function.update_of_ne hk.ne]
    · rw [Nat.shiftRight_eq_div_pow]
      refine Nat.div_lt_of_lt_mul (hx.trans_eq ?_)
      rw [← pow_add]
      congr 1
      omega
    · rw [Function.update_of_ne (Nat.succ_ne_self _).symm, Function.update_self]

theorem Stored.put {q : ℕ × ℕ} (hs : Stored W o q) (hq : Fits q) (hp : Fits p) (hle : o + q.2 ≤ u) :
    Stored (put W u p) o q := by
  obtain ⟨hlow, y, hy, hword⟩ := put_before (W := W) (u := u) hp
  obtain ⟨z, m⟩ := q
  obtain ⟨hm, hm', -⟩ := hq
  simp only at hm hm' hle
  rw [Stored] at hs ⊢
  split_ifs at hs ⊢ with hone
  · simp only at hone hs ⊢
    rcases Nat.lt_or_ge (o / 32) (u / 32) with hlt | hge
    · rw [hlow _ hlt, hs]
    · have heq : o / 32 = u / 32 := by omega
      rw [heq, hword, Nat.testBit_or, testBit_of_le hy (by omega), Bool.or_false, ← heq, hs]
  · simp only at hone hs ⊢
    have hlt : o / 32 < u / 32 := by omega
    rw [hlow _ hlt]
    refine ⟨hs.1, ?_⟩
    rcases Nat.lt_or_ge (o / 32 + 1) (u / 32) with hlt' | hge
    · rw [hlow _ hlt', hs.2]
    · have heq : o / 32 + 1 = u / 32 := by omega
      have hzero : y >>> (32 - (o % 32 + m - 32)) = 0 := by
        rw [Nat.shiftRight_eq_div_pow]
        exact Nat.div_eq_of_lt (hy.trans_le (Nat.pow_le_pow_right (by decide) (by omega)))
      rw [heq, hword, Nat.shiftRight_or_distrib, hzero, Nat.or_zero, ← heq, hs.2]

/-! ### The operations -/

/-- The words of a vector. -/
def Holds (W : ℕ → ℕ) (v : NixVec) : Prop :=
  if v.lth = 32 then v.pNV = .lone (W 0) else v.pNV = .array ((List.range (v.lth / 32)).map W)

/-- The length is the next multiple of 32, and at least 32. -/
theorem lth_spec (v : NixVec) :
    v.lth = 32 * (v.lth / 32) ∧ 1 ≤ v.lth / 32 ∧ v.alth ≤ v.lth ∧
      (v.alth = 0 ∧ v.lth = 32 ∨ v.lth < v.alth + 32) := by
  rw [lth]
  split_ifs with hzero
  · omega
  · omega

theorem Holds.copied (h : Holds W v) : v.copied = some ((List.range (v.lth / 32)).map W) := by
  rw [Holds] at h
  rw [NixVec.copied]
  split_ifs at h with hl
  · rw [h, hl]
    rfl
  · have hlen : ¬ (v.lth = 32 ∨ ((List.range (v.lth / 32)).map W).length < v.lth / 32) := by
      rw [List.length_map, List.length_range]
      omega
    simp only [h, if_neg hlen]
    rw [List.take_of_length_le (by simp)]

theorem Holds.wordAt (h : Holds W v) (hk : k < v.lth / 32) : v.wordAt k = some (W k) := by
  rw [Holds] at h
  rw [NixVec.wordAt]
  split_ifs at h with hl
  · obtain rfl : k = 0 := by omega
    simp only [h, if_pos hl]
  · simp only [h, if_neg hl]
    simp [hk]

theorem Holds.deref (h : Holds W v) (hl : v.lth ≠ 32) (hk : k < v.lth / 32) :
    v.deref k = some (W k) := by
  rw [Holds, if_neg hl] at h
  rw [NixVec.deref, h]
  simp [hk]

theorem orAt_map (hk : k < n) :
    orAt k x ((List.range n).map W) =
      some ((List.range n).map (Function.update W k (W k ||| x))) := by
  rw [orAt, List.getElem?_map, List.getElem?_range hk]
  refine congrArg some (List.ext_getElem (by simp) fun i hi hi' => ?_)
  simp only [List.getElem_set, List.getElem_map, List.getElem_range, Function.update_apply,
    eq_comm (a := k)]

theorem map_range_succ (h : W n = 0) :
    (List.range n).map W ++ [0] = (List.range (n + 1)).map W := by
  rw [List.range_succ, List.map_append, List.map_singleton, h]

/-- The words after `Add`, when all that is there has been used. -/
theorem added_eq (h : Holds W v) (hw : Clean W v.used) (hp : Fits p) (hfull : v.alth = v.used) :
    added p v = some
      (if v.used + p.2 ≤ 32 then .lone (put W v.used p 0)
      else .array ((List.range ((v.used + p.2 + 31) / 32)).map (put W v.used p))) := by
  obtain ⟨hlth, hpos, hle, hlt⟩ := lth_spec v
  have hx := hp.lt
  obtain ⟨x, n⟩ := p
  obtain ⟨hn, hn', -⟩ := hp
  simp only at hn hn' hx ⊢
  rw [hfull] at hle hlt
  rw [added]
  by_cases hgrow : v.lth < v.used + n
  · have hlen : (v.used + n + 31) / 32 = v.lth / 32 + 1 := by omega
    rw [if_pos hgrow, if_neg (show ¬ v.used + n ≤ 32 by omega), h.copied, hlen]
    simp only [Option.bind_eq_bind, Option.bind_some, Option.pure_def]
    rw [map_range_succ (hw.words _ (by omega))]
    by_cases hend : v.used = v.lth
    · rw [if_pos hend, orAt_map (by omega), unsigned_eq (n := 32 - v.used % 32 - n) (by omega)
        (by omega), shl_eq hx (by omega), put, if_pos (show v.used % 32 + n ≤ 32 by omega)]
      rfl
    · have hleft : n - (v.lth - v.used) = v.used % 32 + n - 32 := by omega
      have hnext : W (v.used / 32 + 1) = 0 := hw.words _ (by omega)
      rw [if_neg hend, orAt_map (by omega), Option.bind_some, orAt_map (by omega), Option.bind_some,
        put, if_neg (show ¬ v.used % 32 + n ≤ 32 by omega), hleft, shl_eq hx (by omega),
        Function.update_of_ne (Nat.succ_ne_self _), hnext, Nat.zero_or]
  · have hlen : v.used + n ≤ 32 ↔ v.lth = 32 := by omega
    have hone : v.used % 32 + n ≤ 32 := by omega
    rw [if_neg hgrow, unsigned_eq (n := 32 - v.used % 32 - n) (by omega) (by omega),
      shl_eq hx (by omega)]
    rw [Holds] at h
    simp only [put, if_pos hone, hlen]
    split_ifs at h ⊢ with hl
    · have hword : v.used / 32 = 0 := by omega
      rw [h, hword, Function.update_self]
    · have hlen' : (v.used + n + 31) / 32 = v.lth / 32 := by omega
      simp only [h]
      rw [orAt_map (by omega), hlen']
      rfl

/-- One `Add`, when all that is there has been used. -/
theorem add_holds (h : Holds W v) (hw : Clean W v.used) (hp : Fits p) (hfull : v.alth = v.used) :
    ∃ v', add p v = some v' ∧ Holds (put W v.used p) v' ∧ v'.used = v.used + p.2 ∧
      v'.alth = v.used + p.2 := by
  have hn : p.2 ≠ 0 := Nat.one_le_iff_ne_zero.mp hp.1
  rw [add, if_neg hn, added_eq h hw hp hfull]
  have hmax : max v.alth (v.used + p.2) = v.used + p.2 := by
    rw [hfull]
    exact max_eq_right (Nat.le_add_right _ _)
  refine ⟨_, rfl, ?_, rfl, hmax⟩
  have hlth : ∀ s, lth ⟨s, v.used + p.2, max v.alth (v.used + p.2)⟩ =
      32 * ((v.used + p.2 + 31) / 32) := by
    intro s
    rw [lth, hmax]
    dsimp only
    rw [if_neg (by omega)]
    omega
  rw [Holds, hlth, Nat.mul_div_cancel_left _ (by decide)]
  dsimp only
  split_ifs
  · rfl
  · omega
  · omega
  · rfl

/-- What comes back of an index at `o`. -/
def returned (o : ℕ) (p : ℕ × ℕ) : ℕ := if o % 32 + p.2 ≤ 32 then p.1 % 2 else p.1

theorem toNat_testBit_zero (x : ℕ) : (x.testBit 0).toNat = x % 2 := by
  rcases Nat.mod_two_eq_zero_or_one x with h | h
  · simp [Nat.testBit_zero, h]
  · simp [Nat.testBit_zero, h]

/-- A number with one of its own bits. -/
theorem shiftLeft_bit_or (x t : ℕ) : (x.testBit t).toNat <<< t ||| x = x := by
  refine Nat.eq_of_testBit_eq fun j => ?_
  rw [Nat.testBit_or, Nat.testBit_shiftLeft]
  rcases Nat.lt_trichotomy j t with hj | rfl | hj
  · rw [decide_eq_false hj.not_ge, Bool.false_and, Bool.false_or]
  · cases x.testBit j <;> simp
  · rw [testBit_of_le (n := 1) (Bool.toNat_lt _) (Nat.sub_pos_of_lt hj), Bool.and_false,
      Bool.false_or]

theorem extract_eq (h : Holds W v) (hs : Stored W v.used p) (hp : Fits p)
    (hle : v.used + p.2 ≤ v.alth) :
    extract p.2 v = some (returned v.used p, { v with used := v.used + p.2 }) := by
  obtain ⟨hlth, hpos, hlth', -⟩ := lth_spec v
  obtain ⟨x, n⟩ := p
  obtain ⟨hn, hn', -⟩ := hp
  simp only at hn hn' hle ⊢
  have hbit : v.used - v.used / 32 * 32 = v.used % 32 := by omega
  have hword := h.wordAt (k := v.used / 32) (by omega)
  rw [Stored] at hs
  rw [extract, returned]
  simp only [hbit, if_neg (show ¬ v.alth < v.used + n by omega), hword, Option.bind_eq_bind,
    Option.bind_some]
  split_ifs at hs ⊢ with hone
  · rw [mask_eq hn hone, and_two_pow_shiftRight, hs, toNat_testBit_zero]
    rfl
  · simp only at hone hs
    have hnext := h.deref (k := v.used / 32 + 1) (by omega) (by omega)
    have ht : n - (32 - v.used % 32) = v.used % 32 + n - 32 := by omega
    have hmask : (0x80000000 >>> (32 - v.used % 32 - 1)) >>> (v.used % 32) = 2 ^ 0 := by
      rw [mask_eq (by omega) (by omega)]
      congr 1
      omega
    have hlast : W (v.used / 32) &&& 2 ^ 0 = (x.testBit (v.used % 32 + n - 32)).toNat := by
      rw [← hs.1, ← and_two_pow_shiftRight]
      rfl
    have hlt : (x.testBit (v.used % 32 + n - 32)).toNat < 2 ^ 32 :=
      (Bool.toNat_lt _).trans (by decide)
    rw [hmask, hnext, Option.bind_some, hlast, ht, shl_eq hlt (by omega), hs.2, shiftLeft_bit_or]
    rfl

/-- Past the end there is nothing. -/
theorem extract_end (hn : v.alth < v.used + n) : extract n v = some (nixNone, v) := by
  rw [extract, if_pos hn]

/-! ### Runs -/

/-- The number of bits. -/
def total (ps : List (ℕ × ℕ)) : ℕ := (ps.map Prod.snd).sum

/-- Every index is in the words, from `o` on. -/
def StoredAll (W : ℕ → ℕ) : ℕ → List (ℕ × ℕ) → Prop
  | _, [] => True
  | o, p :: ps => Stored W o p ∧ StoredAll W (o + p.2) ps

/-- What comes back of the indices from `o` on. -/
def returnedAll : ℕ → List (ℕ × ℕ) → List ℕ
  | _, [] => []
  | o, p :: ps => returned o p :: returnedAll (o + p.2) ps

theorem StoredAll.append (h : StoredAll W o ps) (hp : Stored W (o + total ps) p) :
    StoredAll W o (ps ++ [p]) := by
  induction ps generalizing o with
  | nil => exact ⟨hp, trivial⟩
  | cons q ps ih =>
      refine ⟨h.1, ih h.2 ?_⟩
      rwa [total, List.map_cons, List.sum_cons, ← Nat.add_assoc] at hp

theorem StoredAll.put (h : StoredAll W o ps) (hps : ∀ q ∈ ps, Fits q) (hp : Fits p)
    (hle : o + total ps ≤ u) : StoredAll (put W u p) o ps := by
  induction ps generalizing o with
  | nil => trivial
  | cons q ps ih =>
      rw [total, List.map_cons, List.sum_cons] at hle
      have hle' : o + q.2 + total ps ≤ u := by
        rw [total]
        omega
      exact ⟨h.1.put (hps q List.mem_cons_self) hp (by omega),
        ih h.2 (fun r hr => hps r (List.mem_cons_of_mem _ hr)) hle'⟩

/-- All indices of a run have been added. -/
structure Packed (ps : List (ℕ × ℕ)) (v : NixVec) (W : ℕ → ℕ) : Prop where
  holds : Holds W v
  used : v.used = total ps
  alth : v.alth = total ps
  clean : Clean W (total ps)
  stored : StoredAll W 0 ps

theorem Packed.empty : Packed [] empty fun _ => 0 where
  holds := rfl
  used := rfl
  alth := rfl
  clean := ⟨fun _ _ => Nat.zero_testBit _, fun _ _ => rfl⟩
  stored := trivial

theorem Packed.add (h : Packed ps v W) (hps : ∀ q ∈ ps, Fits q) (hp : Fits p) :
    ∃ v', add p v = some v' ∧ Packed (ps ++ [p]) v' (put W (total ps) p) := by
  have htotal : total (ps ++ [p]) = total ps + p.2 := by
    rw [total, List.map_append, List.sum_append]
    rfl
  obtain ⟨v', hv', hholds, hused, halth⟩ :=
    add_holds h.holds (h.used ▸ h.clean) hp (h.alth.trans h.used.symm)
  rw [h.used] at hholds hused halth
  refine ⟨v', hv', hholds, hused.trans htotal.symm, halth.trans htotal.symm, ?_, ?_⟩
  · rw [htotal]
    exact put_clean h.clean hp
  · refine (h.stored.put hps hp (Nat.zero_add _).le).append ?_
    rw [Nat.zero_add]
    exact put_stored h.clean hp

theorem addAll_packed (hps : ∀ q ∈ ps, Fits q) :
    ∃ v W, addAll ps NixVec.empty = some v ∧ Packed ps v W := by
  induction ps using List.reverseRecOn with
  | nil => exact ⟨_, _, rfl, .empty⟩
  | append_singleton ps p ih =>
      have hps' : ∀ q ∈ ps, Fits q := fun q hq => hps q (List.mem_append_left _ hq)
      obtain ⟨v, W, hv, h⟩ := ih hps'
      obtain ⟨v', hv', h'⟩ := h.add hps' (hps p (by simp))
      refine ⟨v', _, ?_, h'⟩
      rw [addAll] at hv ⊢
      rw [List.foldlM_append, hv]
      simp [hv']

theorem extractAll_eq (h : Holds W v) (hs : StoredAll W v.used ps) (hps : ∀ q ∈ ps, Fits q)
    (hle : v.used + total ps ≤ v.alth) :
    extractAll (ps.map Prod.snd) v =
      some (returnedAll v.used ps, { v with used := v.used + total ps }) := by
  induction ps generalizing v with
  | nil => rfl
  | cons p ps ih =>
      rw [total, List.map_cons, List.sum_cons] at hle
      have hle' : v.used + p.2 ≤ v.alth := by omega
      have hrest := ih (v := { v with used := v.used + p.2 }) h hs.2
        (fun q hq => hps q (List.mem_cons_of_mem _ hq)) (show v.used + p.2 + total ps ≤ v.alth by
          rw [total]
          omega)
      rw [List.map_cons, extractAll, extract_eq h hs.1 (hps p List.mem_cons_self) hle']
      simp only [Option.bind_eq_bind, Option.bind_some, hrest]
      rw [total, total, List.map_cons, List.sum_cons, Nat.add_assoc]
      rfl

/-- An index that lies in one word has to be `0` or `1`. -/
def Survive : ℕ → List (ℕ × ℕ) → Prop
  | _, [] => True
  | o, p :: ps => (o % 32 + p.2 ≤ 32 → p.1 < 2) ∧ Survive (o + p.2) ps

instance decidableSurvive : ∀ o ps, Decidable (Survive o ps)
  | _, [] => .isTrue trivial
  | o, p :: ps =>
      have := decidableSurvive (o + p.2) ps
      inferInstanceAs (Decidable ((o % 32 + p.2 ≤ 32 → p.1 < 2) ∧ _))

theorem returned_eq_iff : returned o p = p.1 ↔ (o % 32 + p.2 ≤ 32 → p.1 < 2) := by
  rw [returned]
  split_ifs with hone
  · constructor
    · omega
    · intro hlt
      exact Nat.mod_eq_of_lt (hlt hone)
  · exact ⟨fun _ hc => absurd hc hone, fun _ => rfl⟩

theorem returnedAll_eq_iff : returnedAll o ps = ps.map Prod.fst ↔ Survive o ps := by
  induction ps generalizing o with
  | nil => exact ⟨fun _ => trivial, fun _ => rfl⟩
  | cons p ps ih =>
      rw [returnedAll, List.map_cons, List.cons_eq_cons, returned_eq_iff, ih, Survive]

/-- **Indices come back from a nix-vector if and only if each of them that lies within one word is
`0` or `1`**; after them there is nothing, in any case. -/
theorem roundTrip_iff (hps : ∀ q ∈ ps, Fits q) :
    (∃ v v', addAll ps NixVec.empty = some v ∧
      extractAll (ps.map Prod.snd) v.reset = some (ps.map Prod.fst, v') ∧
      (extract 1 v').map Prod.fst = some nixNone) ↔ Survive 0 ps := by
  obtain ⟨v, W, hv, h⟩ := addAll_packed hps
  have hback : extractAll (ps.map Prod.snd) v.reset =
      some (returnedAll 0 ps, { v.reset with used := 0 + total ps }) :=
    extractAll_eq (v := v.reset) h.holds h.stored hps (by
      rw [reset, h.alth]
      exact (Nat.zero_add _).le)
  rw [← returnedAll_eq_iff]
  constructor
  · rintro ⟨v₁, v', hv₁, hout, -⟩
    obtain rfl := Option.some.inj (hv.symm.trans hv₁)
    exact (Prod.mk.inj (Option.some.inj (hback.symm.trans hout))).1
  · intro heq
    refine ⟨v, _, hv, heq ▸ hback, ?_⟩
    rw [extract_end]
    · rfl
    · rw [reset, h.alth, Nat.zero_add]
      exact Nat.lt_succ_self _

theorem roundTrip_iff_three :
    ∃ v v', addAll [(1, 1), (0, 1), (0xabcdef12, 32)] NixVec.empty = some v ∧
      extractAll [1, 1, 32] v.reset = some ([1, 0, 0xabcdef12], v') ∧
      (extract 1 v').map Prod.fst = some nixNone :=
  (@roundTrip_iff [(1, 1), (0, 1), (0xabcdef12, 32)] (by decide)).mpr (by decide)

/-- Of `2`, in two bits, the last one comes back. -/
theorem roundTrip_two : Fits (2, 2) ∧
    ((addAll [(2, 2)] NixVec.empty).bind fun v => extractAll [2] v.reset).map Prod.fst =
      some [0] := by
  decide

end NixVec

end Afabric
