import Afabric.Support.Loops

/-!
# Routing — the fields of a hierarchical address

`AllocAddr` (`alloc-address.cc`) and the procedures of `ns-address.tcl` that ask it for the fields
of an address: one bit for multicast, then one field a level, from the top of the address down.  A
field is placed by a first-fit search of the bitmap; as only `setbit` changes the bitmap, what is
free is the bottom of the address, and the fields follow one another (`setHieraddress_eq`).
-/

namespace Afabric

/-- A field as `Address` knows it: `bpl_`, `NodeShift_` and `NodeMask_` of a level. -/
structure AddrField where
  bpl : ℕ
  shift : ℕ
  mask : BitVec 32
deriving DecidableEq

structure AllocAddr where
  size : ℕ := 0
  bitmap : ℕ → Bool := fun _ => false

namespace AllocAddr

/-- `check_size`, where the bitmap is allocated. -/
def checkSize (a : AllocAddr) (n : ℕ) : Option AllocAddr :=
  if n ≤ a.size then some a
  else if a.size = 0 then some { size := n }
  else none

/-- The inner loop of `find_free`, with `k` bits to go and `r` bits from here down, and the two
variables that it leaves. -/
def freeRun (bitmap : ℕ → Bool) : ℕ → ℕ → ℕ → ℕ × ℕ
  | 0, r, count => (count, r)
  | _ + 1, 0, count => (count, 0)
  | k + 1, r + 1, count => if bitmap r then (0, r + 1) else freeRun bitmap k r (count + 1)

/-- The outer loop of `find_free`, over the `r` lowest bits; a pass takes at least one of them. -/
def findFrom (bitmap : ℕ → Bool) (len : ℕ) : ℕ → ℕ → ℕ → Option ℕ
  | 0, _, _ => none
  | _ + 1, 0, _ => none
  | passes + 1, r + 1, count =>
    if bitmap r then findFrom bitmap len passes r count
    else
      let c := freeRun bitmap len (r + 1) count
      if c.1 = len then some r else findFrom bitmap len passes (c.2 - 1) c.1

def findFree (a : AllocAddr) (len : ℕ) : Option ℕ := findFrom a.bitmap len a.size a.size 0

def getMask (fieldsize : ℕ) : BitVec 32 := (1#32 <<< fieldsize) - 1

/-- `set_field`. -/
def setField (a : AllocAddr) (offset len : ℕ) : AddrField × AllocAddr :=
  (⟨len, offset - (len - 1), getMask len⟩,
    { a with bitmap := loop 0 len (fun k b => Function.update b (offset - k) true) a.bitmap })

/-- The command `setbit`. -/
def setbit (a : AllocAddr) (fieldlen addrsize : ℕ) : Option (AddrField × AllocAddr) :=
  match a.checkSize addrsize with
  | none => none
  | some a =>
    match a.findFree fieldlen with
    | none => none
    | some offset => some (a.setField offset fieldlen)

/-- The loop of `set-idbits` over the widths of the levels, with the checks of `chksize`, for an
address of `size` bits. -/
def setIdbits (size mcastsize : ℕ) : ℕ → AllocAddr → List ℕ → Option (List AddrField)
  | _, _, [] => some []
  | idsize, a, w :: ws =>
    let idsize := idsize + w
    if w = 0 ∨ size < idsize + mcastsize then none
    else
      match a.setbit w size with
      | none => none
      | some (f, a) => (setIdbits size mcastsize idsize a ws).map (f :: ·)

/-- `set-hieraddress`: the field for multicast, if it is on, and those of the levels. -/
def setHieraddress (size : ℕ) (multicast : Bool) (ws : List ℕ) :
    Option (Option AddrField × List AddrField) :=
  if multicast then
    match ({} : AllocAddr).setbit 1 size with
    | none => none
    | some (f, a) => (setIdbits size 1 0 a ws).map fun fs => (some f, fs)
  else (setIdbits size 0 0 {} ws).map fun fs => (none, fs)

/-! ### The search -/

variable {a : AllocAddr} {p r len : ℕ}

/-- The `p` lowest bits are free, and no others. -/
def FreeBelow (a : AllocAddr) (p : ℕ) : Prop :=
  p ≤ a.size ∧ ∀ i < a.size, a.bitmap i = decide (p ≤ i)

theorem freeRun_free {b : ℕ → Bool} (hb : ∀ i < r, b i = false) {k count : ℕ} (hk : k ≤ r) :
    freeRun b k r count = (count + k, r - k) := by
  induction k generalizing r count with
  | zero => rfl
  | succ k ih =>
    cases r with
    | zero => omega
    | succ r =>
      rw [freeRun, if_neg (by rw [hb r (Nat.lt_succ_self r)]; decide),
        ih (fun i hi => hb i (Nat.lt_succ_of_lt hi)) (Nat.le_of_succ_le_succ hk)]
      exact Prod.ext (by omega) (by omega)

/-- The search skips what is taken and stops at the first free bit. -/
theorem findFrom_eq {b : ℕ → Bool} (hb : ∀ i < r, b i = decide (p ≤ i)) (hp : len ≤ p)
    (hlen : 0 < len) (hr : p ≤ r) {passes : ℕ} (hpasses : r - p < passes) :
    findFrom b len passes r 0 = some (p - 1) := by
  induction passes generalizing r with
  | zero => omega
  | succ passes ih =>
    cases r with
    | zero => omega
    | succ r =>
      by_cases h : p ≤ r
      · rw [findFrom, if_pos (by rw [hb r (Nat.lt_succ_self r)]; exact decide_eq_true h)]
        exact ih (fun i hi => hb i (Nat.lt_succ_of_lt hi)) h (by omega)
      · have hpr : p = r + 1 := by omega
        have hfree : ∀ i < r + 1, b i = false := fun i hi => by
          rw [hb i hi]
          exact decide_eq_false (by omega)
        rw [findFrom, if_neg (by rw [hfree r (Nat.lt_succ_self r)]; decide),
          freeRun_free hfree (by omega)]
        simp [hpr]

theorem FreeBelow.findFree (h : a.FreeBelow p) (hlen : 0 < len) (hp : len ≤ p) :
    a.findFree len = some (p - 1) :=
  findFrom_eq h.2 hp hlen h.1 (by have := h.1; omega)

theorem FreeBelow.setField (h : a.FreeBelow p) (hlen : 0 < len) (hp : len ≤ p) :
    (a.setField (p - 1) len).2.FreeBelow (p - len) := by
  refine ⟨(Nat.sub_le p len).trans h.1, fun i hi => ?_⟩
  by_cases hin : p - len ≤ i ∧ i ≤ p - 1
  · have hk : loop 0 len (fun k b => Function.update b (p - 1 - k) true) a.bitmap
        (p - 1 - (p - 1 - i)) = true :=
      loop_update (fun k l _ hk _ hl he => by omega) (Nat.zero_le _) (by omega)
    have hi' : p - 1 - (p - 1 - i) = i := by omega
    rw [hi'] at hk
    exact hk.trans (decide_eq_true hin.1).symm
  · have hk : loop 0 len (fun k b => Function.update b (p - 1 - k) true) a.bitmap i = a.bitmap i :=
      loop_update_of_notMem fun k _ hk => by omega
    refine hk.trans ((h.2 i hi).trans (decide_eq_decide.mpr ?_))
    omega

/-- The field of `len` bits below the bit `p`. -/
def fieldBelow (p len : ℕ) : AddrField := ⟨len, p - len, getMask len⟩

theorem FreeBelow.setbit (h : a.FreeBelow p) (hlen : 0 < len) (hp : len ≤ p) :
    ∃ a', a.setbit len a.size = some (fieldBelow p len, a') ∧ a'.size = a.size ∧
      a'.FreeBelow (p - len) := by
  refine ⟨(a.setField (p - 1) len).2, ?_, rfl, h.setField hlen hp⟩
  have hshift : p - 1 - (len - 1) = p - len := by omega
  rw [AllocAddr.setbit, checkSize, if_pos le_rfl]
  simp only [h.findFree hlen hp]
  rw [AllocAddr.setField, hshift, fieldBelow]

theorem setbit_first (size : ℕ) (hlen : 0 < len) (hp : len ≤ size) :
    ∃ a', ({} : AllocAddr).setbit len size = some (fieldBelow size len, a') ∧ a'.size = size ∧
      a'.FreeBelow (size - len) := by
  have hfree : FreeBelow { size := size } size :=
    ⟨le_rfl, fun i hi => (decide_eq_false (Nat.not_le_of_lt hi)).symm⟩
  obtain ⟨a', hset, hsize, hbelow⟩ := hfree.setbit hlen hp
  refine ⟨a', ?_, hsize, hbelow⟩
  have hcheck : checkSize {} size = some { size := size } := by
    rw [checkSize, if_neg (by exact Nat.not_le_of_lt (hlen.trans_le hp)), if_pos rfl]
  rw [AllocAddr.setbit, checkSize, if_pos le_rfl] at hset
  rw [AllocAddr.setbit, hcheck]
  exact hset

/-- The fields one below the other, from the bit `p` down. -/
def layout : ℕ → List ℕ → List AddrField
  | _, [] => []
  | p, w :: ws => fieldBelow p w :: layout (p - w) ws

theorem FreeBelow.setIdbits {size mcastsize : ℕ} {ws : List ℕ} (h : a.FreeBelow p)
    (hsize : a.size = size) {idsize : ℕ} (hp : idsize + p + mcastsize = size)
    (hpos : ∀ w ∈ ws, 0 < w) (hsum : ws.sum ≤ p) :
    setIdbits size mcastsize idsize a ws = some (layout p ws) := by
  induction ws generalizing a p idsize with
  | nil => rfl
  | cons w ws ih =>
    rw [List.sum_cons] at hsum
    have hw := hpos w List.mem_cons_self
    obtain ⟨a', hset, hsize', hbelow⟩ := h.setbit hw (by omega : w ≤ p)
    rw [hsize] at hset hsize'
    rw [AllocAddr.setIdbits, if_neg (by omega)]
    simp only [hset]
    rw [ih hbelow hsize' (by omega) (fun v hv => hpos v (List.mem_cons_of_mem w hv)) (by omega)]
    rfl

theorem setIdbits_first {size : ℕ} {ws : List ℕ} (hpos : ∀ w ∈ ws, 0 < w) (hsum : ws.sum ≤ size) :
    setIdbits size 0 0 {} ws = some (layout size ws) := by
  cases ws with
  | nil => rfl
  | cons w ws =>
    rw [List.sum_cons] at hsum
    have hw := hpos w List.mem_cons_self
    obtain ⟨a', hset, hsize', hbelow⟩ := setbit_first size hw (by omega)
    rw [AllocAddr.setIdbits, if_neg (by omega)]
    simp only [hset]
    rw [hbelow.setIdbits hsize' (by omega) (fun v hv => hpos v (List.mem_cons_of_mem w hv))
      (by omega)]
    rfl

/-- The number of bits set aside for multicast. -/
def mcastsize (multicast : Bool) : ℕ := if multicast then 1 else 0

/-- **Allocation** succeeds if the widths fit, with the fields one below the other. -/
theorem setHieraddress_eq {size : ℕ} {multicast : Bool} {ws : List ℕ} (hpos : ∀ w ∈ ws, 0 < w)
    (hsum : ws.sum + mcastsize multicast ≤ size) :
    setHieraddress size multicast ws
      = some (if multicast then some (fieldBelow size 1) else none,
          layout (size - mcastsize multicast) ws) := by
  cases multicast with
  | false =>
    simp only [setHieraddress, mcastsize, Bool.false_eq_true, if_false] at hsum ⊢
    rw [setIdbits_first hpos hsum]
    rfl
  | true =>
    simp only [mcastsize, if_true] at hsum
    obtain ⟨a', hset, hsize', hbelow⟩ := setbit_first size one_pos (by omega)
    simp only [setHieraddress, if_true, hset, mcastsize]
    rw [hbelow.setIdbits hsize' (by omega) hpos (by omega)]
    rfl

end AllocAddr

end Afabric
