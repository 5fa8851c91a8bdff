import Afabric.Routing.AllocAddr
import Afabric.Support.Decimal
import Mathlib.Algebra.Order.BigOperators.Group.List

/-!
# Routing — hierarchical addresses

`Address::str2addr` and `Address::print_nodeaddr` (`address.cc`) for two levels or more, with
`RouteLogic::ns_strtok` (`route.cc`), over the fields that `AllocAddr` places.  Both convert through
a buffer of `SMALL_LEN` characters, and a text that runs over one has no result; nor has an address
with another number of components than levels.

`str2addr` lets a component through that is one too large for its field, and `atoi` one that does
not fit an `int`; each is cut down to its field.  So an address comes back as it was exactly when it
spells components that fit (`hierarchical_round_trip`).
-/

namespace Afabric

namespace Address

def SMALL_LEN : ℕ := 32

/-- `set_word_field`. -/
def setWordField (word field : BitVec 32) (shift : ℕ) (mask : BitVec 32) : BitVec 32 :=
  ((field &&& mask) <<< shift) ||| (~~~(mask <<< shift) &&& word)

/-- `ns_strtok`. -/
def nsStrtok (s : List Char) : List ℤ := (pieces '.' s).map fun p => atoi p + 1

/-- `(unsigned long) (1 << bpl)`. -/
def limit (bpl : ℕ) : ℕ := ((1#32 <<< bpl).signExtend 64).toNat

/-- The loop of `str2addr`. -/
def strLoop : List AddrField → List ℤ → BitVec 32 → Option (BitVec 32)
  | [], [], addr => some addr
  | f :: fs, c :: istr, addr =>
    -- the assertion, then the exit
    if c - 1 < 0 then none
    else if limit f.bpl < c - 1 then none
    else strLoop fs istr (setWordField addr (BitVec.ofInt 32 (c - 1)) f.shift f.mask)
  | _, _, _ => none

def str2addr (fs : List AddrField) (s : List Char) : Option (BitVec 32) :=
  if SMALL_LEN ≤ s.length then none else strLoop fs (nsStrtok s) 0

/-- `(address >> NodeShift_[i]) & NodeMask_[i]`. -/
def component (address : BitVec 32) (f : AddrField) : BitVec 32 :=
  address.sshiftRight f.shift &&& f.mask

/-- `print_nodeaddr`; the last dot goes. -/
def printNodeaddr (fs : List AddrField) (address : BitVec 32) : Option (List Char) :=
  let str := fs.flatMap fun f => decimal (component address f).toInt ++ ['.']
  if SMALL_LEN ≤ str.length then none else some str.dropLast

/-! ### Fields of a word -/

/-- The bits of a field are its own. -/
def Apart (f g : AddrField) : Prop := g.shift + g.bpl ≤ f.shift ∨ f.shift + f.bpl ≤ g.shift

/-- A field as it is placed in an address of at most 31 bits with two levels. -/
structure Placed (f : AddrField) : Prop where
  mask : f.mask = AllocAddr.getMask f.bpl
  bpl : f.bpl ≤ 30
  fits : f.shift + f.bpl ≤ 31

variable {f g : AddrField} {fs : List AddrField} {x c : BitVec 32} {i : ℕ}

theorem getMask_toNat {w : ℕ} (hw : w ≤ 30) : (AllocAddr.getMask w).toNat = 2 ^ w - 1 := by
  have h : ∀ w < 31, (AllocAddr.getMask w).toNat = 2 ^ w - 1 := by decide
  exact h w (Nat.lt_succ_of_le hw)

theorem getLsbD_mask (hf : Placed f) : f.mask.getLsbD i = decide (i < f.bpl) := by
  rw [hf.mask, BitVec.getLsbD, getMask_toNat hf.bpl, Nat.testBit_two_pow_sub_one]

theorem limit_eq {w : ℕ} (hw : w ≤ 30) : limit w = 2 ^ w := by
  have h : ∀ w < 31, limit w = 2 ^ w := by decide
  exact h w (Nat.lt_succ_of_le hw)

theorem toNat_and_mask (hf : Placed f) : (c &&& f.mask).toNat = c.toNat % 2 ^ f.bpl := by
  rw [BitVec.toNat_and, hf.mask, getMask_toNat hf.bpl, Nat.and_two_pow_sub_one_eq_mod]

theorem getLsbD_component (hf : Placed f) :
    (component x f).getLsbD i = (decide (i < f.bpl) && x.getLsbD (f.shift + i)) := by
  rw [component, BitVec.getLsbD_and, getLsbD_mask hf, BitVec.getLsbD_sshiftRight]
  by_cases hi : i < f.bpl
  · have h1 : ¬ 32 ≤ i := by have := hf.bpl; omega
    have h2 : f.shift + i < 32 := by have := hf.fits; omega
    simp [hi, h1, h2]
  · simp [hi]

/-- A bit of a word after a write. -/
theorem getLsbD_setWordField (hg : Placed g) (hi : i < 32) :
    (setWordField x c g.shift g.mask).getLsbD i
      = if g.shift ≤ i ∧ i < g.shift + g.bpl then c.getLsbD (i - g.shift) else x.getLsbD i := by
  simp only [setWordField, BitVec.getLsbD_or, BitVec.getLsbD_and, BitVec.getLsbD_shiftLeft,
    BitVec.getLsbD_not, getLsbD_mask hg, hi, decide_true, Bool.true_and]
  by_cases h1 : i < g.shift
  · simp [h1, Nat.not_le_of_lt h1]
  · by_cases h2 : i < g.shift + g.bpl
    · have h3 : i - g.shift < g.bpl := by omega
      simp [h1, h2, h3, Nat.le_of_not_lt h1]
    · have h3 : ¬ i - g.shift < g.bpl := by omega
      simp [h1, h2, h3]

/-- A field that was written is read back, cut down to its bits. -/
theorem component_set_self (hf : Placed f) :
    component (setWordField x c f.shift f.mask) f = c &&& f.mask := by
  refine BitVec.eq_of_getLsbD_eq fun i _ => ?_
  rw [getLsbD_component hf, BitVec.getLsbD_and, getLsbD_mask hf]
  by_cases hi : i < f.bpl
  · have hw : f.shift + i < 32 := by have := hf.fits; omega
    rw [getLsbD_setWordField hf hw, if_pos (by omega), Nat.add_sub_cancel_left]
    exact Bool.and_comm _ _
  · simp [hi]

/-- A write leaves the other fields. -/
theorem component_set_of_apart (hf : Placed f) (hg : Placed g) (h : Apart f g) :
    component (setWordField x c g.shift g.mask) f = component x f := by
  refine BitVec.eq_of_getLsbD_eq fun i _ => ?_
  rw [getLsbD_component hf, getLsbD_component hf]
  by_cases hi : i < f.bpl
  · have hw : f.shift + i < 32 := by have := hf.fits; omega
    have hout : ¬ (g.shift ≤ f.shift + i ∧ f.shift + i < g.shift + g.bpl) := by
      rcases h with h | h <;> omega
    rw [getLsbD_setWordField hg hw, if_neg hout]
  · simp [hi]

/-- Fields apart have no bit of an address in common. -/
theorem disjoint_of_apart (hf : Placed f) (hg : Placed g) (h : Apart f g) :
    (f.mask <<< f.shift) &&& (g.mask <<< g.shift) = 0 := by
  refine BitVec.eq_of_getLsbD_eq fun i hi => ?_
  simp only [BitVec.getLsbD_and, BitVec.getLsbD_shiftLeft, getLsbD_mask hf, getLsbD_mask hg, hi,
    decide_true, Bool.true_and]
  have hboth : ¬ ((¬ i < f.shift ∧ i - f.shift < f.bpl) ∧ ¬ i < g.shift ∧ i - g.shift < g.bpl) := by
    rcases h with h | h <;> omega
  simp only [BitVec.ofNat_eq_ofNat, BitVec.getLsbD_zero]
  rw [← Bool.not_eq_true]
  simpa using hboth

/-! ### The address of a list of components -/

/-- The fields written one after the other. -/
def place : List AddrField → List ℕ → BitVec 32 → BitVec 32
  | f :: fs, n :: ns, x => place fs ns (setWordField x (BitVec.ofNat 32 n) f.shift f.mask)
  | _, _, x => x

/-- Fields in their places, each apart from the others. -/
structure Format (fs : List AddrField) : Prop where
  placed : ∀ f ∈ fs, Placed f
  apart : fs.Pairwise Apart

/-- The components cut down to their fields. -/
def cut (fs : List AddrField) (ns : List ℕ) : List ℕ := List.zipWith (fun f n => n % 2 ^ f.bpl) fs ns

theorem Format.tail (h : Format (f :: fs)) : Format fs :=
  ⟨fun g hg => h.placed g (List.mem_cons_of_mem f hg), (List.pairwise_cons.mp h.apart).2⟩

theorem component_place_of_apart (hf : Placed f) (hfs : ∀ g ∈ fs, Placed g ∧ Apart f g)
    (ns : List ℕ) : component (place fs ns x) f = component x f := by
  induction fs generalizing ns x with
  | nil => rfl
  | cons g fs ih =>
    cases ns with
    | nil => rfl
    | cons n ns =>
      obtain ⟨hg, ha⟩ := hfs g List.mem_cons_self
      rw [place, ih (fun k hk => hfs k (List.mem_cons_of_mem g hk)), component_set_of_apart hf hg ha]

theorem ofNat_and_mask (hf : Placed f) (n : ℕ) :
    (BitVec.ofNat 32 n &&& f.mask).toNat = n % 2 ^ f.bpl := by
  have hle : f.bpl ≤ 32 := hf.bpl.trans (by decide)
  rw [toNat_and_mask hf, BitVec.toNat_ofNat, Nat.mod_mod_of_dvd _ (Nat.pow_dvd_pow 2 hle)]

/-- What is written is read back, cut down. -/
theorem components_place (h : Format fs) {ns : List ℕ} (hl : ns.length = fs.length) :
    fs.map (fun f => (component (place fs ns x) f).toInt) = (cut fs ns).map Int.ofNat := by
  induction fs generalizing ns x with
  | nil => rfl
  | cons f fs ih =>
    cases ns with
    | nil => cases hl
    | cons n ns =>
      have hf := h.placed f List.mem_cons_self
      have hrest : ∀ g ∈ fs, Placed g ∧ Apart f g := fun g hg =>
        ⟨h.tail.placed g hg, (List.pairwise_cons.mp h.apart).1 g hg⟩
      have hhead : (component (place fs ns (setWordField x (BitVec.ofNat 32 n) f.shift f.mask))
          f).toInt = ((n % 2 ^ f.bpl : ℕ) : ℤ) := by
        rw [component_place_of_apart hf hrest, component_set_self hf, BitVec.toInt_eq_toNat_of_lt,
          ofNat_and_mask hf]
        rw [ofNat_and_mask hf]
        have hlt : n % 2 ^ f.bpl < 2 ^ f.bpl := Nat.mod_lt _ (Nat.two_pow_pos _)
        have hle : 2 ^ f.bpl ≤ 2 ^ 30 := Nat.pow_le_pow_right Nat.two_pos hf.bpl
        omega
      rw [List.map_cons, cut, List.zipWith_cons_cons, List.map_cons, place, hhead]
      exact congrArg _ (ih h.tail (Nat.succ.inj hl))

/-- Only what is left of the components counts. -/
theorem place_cut (h : Format fs) (ns : List ℕ) : place fs (cut fs ns) x = place fs ns x := by
  induction fs generalizing ns x with
  | nil => rfl
  | cons f fs ih =>
    cases ns with
    | nil => rfl
    | cons n ns =>
      have hf := h.placed f List.mem_cons_self
      have hword : setWordField x (BitVec.ofNat 32 (n % 2 ^ f.bpl)) f.shift f.mask
          = setWordField x (BitVec.ofNat 32 n) f.shift f.mask := by
        have hand : BitVec.ofNat 32 (n % 2 ^ f.bpl) &&& f.mask = BitVec.ofNat 32 n &&& f.mask := by
          refine BitVec.eq_of_toNat_eq ?_
          rw [ofNat_and_mask hf, ofNat_and_mask hf, Nat.mod_mod]
        rw [setWordField, setWordField, hand]
      rw [cut, List.zipWith_cons_cons, place, place, hword]
      exact ih h.tail ns

/-- What the loop of `str2addr` makes of components that it lets through. -/
theorem strLoop_eq (h : Format fs) {ns : List ℕ}
    (hns : List.Forall₂ (fun n f => n ≤ 2 ^ f.bpl) ns fs) :
    strLoop fs (ns.map fun n : ℕ => (n : ℤ) + 1) x = some (place fs ns x) := by
  induction hns generalizing x with
  | nil => rfl
  | cons hn _ ih =>
    rw [List.map_cons, strLoop, limit_eq (h.placed _ List.mem_cons_self).bpl, add_sub_cancel_right,
      if_neg (by omega), if_neg (by exact_mod_cast Nat.not_lt.mpr hn), ih h.tail, place]
    rfl

/-- It lets no others through. -/
theorem of_strLoop (h : Format fs) {istr : List ℤ} {a : BitVec 32}
    (hl : strLoop fs istr x = some a) :
    ∃ ns : List ℕ, istr = ns.map (fun n : ℕ => (n : ℤ) + 1) ∧
      List.Forall₂ (fun n f => n ≤ 2 ^ f.bpl) ns fs := by
  induction fs generalizing x istr with
  | nil =>
    cases istr with
    | nil => exact ⟨[], rfl, .nil⟩
    | cons c istr => cases hl
  | cons f fs ih =>
    cases istr with
    | nil => cases hl
    | cons c istr =>
      rw [strLoop, limit_eq (h.placed f List.mem_cons_self).bpl] at hl
      split at hl
      · cases hl
      split at hl
      · cases hl
      next h1 h2 =>
        obtain ⟨ns, rfl, hns⟩ := ih h.tail hl
        obtain ⟨n, hn⟩ := Int.eq_ofNat_of_zero_le (Int.not_lt.mp h1)
        rw [hn] at h2
        refine ⟨n :: ns, ?_, .cons (by exact_mod_cast Int.not_lt.mp h2) hns⟩
        rw [List.map_cons, ← hn, sub_add_cancel]

/-! ### Text -/

/-- The dotted spelling of components. -/
def dotted (ns : List ℕ) : List Char := ['.'].intercalate (ns.map (Nat.toDigits 10))

/-- A dotted address whose components fit their fields, and whose text fits `print_nodeaddr`. -/
def Fits (fs : List AddrField) (s : List Char) : Prop :=
  ∃ ns : List ℕ, s = dotted ns ∧ List.Forall₂ (fun n f => n < 2 ^ f.bpl) ns fs ∧
    s.length + 1 < SMALL_LEN

theorem flatMap_decimal {ns : List ℕ} (hn : ns ≠ []) :
    (ns.flatMap fun n => Nat.toDigits 10 n ++ ['.']) = dotted ns ++ ['.'] := by
  induction ns with
  | nil => exact absurd rfl hn
  | cons n ns ih =>
    cases ns with
    | nil => simp [dotted]
    | cons m ns =>
      rw [List.flatMap_cons, ih (List.cons_ne_nil m ns)]
      simp only [dotted, List.map_cons, List.intercalate_cons_cons, List.append_assoc]

theorem nsStrtok_dotted {ns : List ℕ} (h : ∀ n ∈ ns, n < 2 ^ 31) :
    nsStrtok (dotted ns) = ns.map fun n : ℕ => (n : ℤ) + 1 := by
  have hpieces : pieces '.' (dotted ns) = ns.map (Nat.toDigits 10) := by
    refine pieces_intercalate fun p hp => ?_
    obtain ⟨n, -, rfl⟩ := List.mem_map.mp hp
    refine ⟨Nat.toDigits_ne_nil, fun hdot => ?_⟩
    exact absurd (Nat.isDigit_of_mem_toDigits (by decide) (by decide) hdot) (by decide)
  rw [nsStrtok, hpieces, List.map_map]
  refine List.map_congr_left fun n hn => ?_
  rw [Function.comp_apply, atoi_toDigits (h n hn)]

theorem lt_of_fits (h : Format fs) {ns : List ℕ}
    (hns : List.Forall₂ (fun n f => n < 2 ^ f.bpl) ns fs) : ∀ n ∈ ns, n < 2 ^ 31 := by
  induction hns with
  | nil => exact fun n hn => absurd hn List.not_mem_nil
  | cons hn _ ih =>
    intro m hm
    rcases List.mem_cons.mp hm with rfl | hm
    · have hle := Nat.pow_le_pow_right Nat.two_pos (h.placed _ List.mem_cons_self).bpl
      omega
    · exact ih h.tail m hm

theorem printNodeaddr_place (h : Format fs) (hne : fs ≠ []) {ns : List ℕ}
    (hl : ns.length = fs.length) :
    printNodeaddr fs (place fs ns x)
      = if SMALL_LEN ≤ (dotted (cut fs ns)).length + 1 then none else some (dotted (cut fs ns)) := by
  have hstr : (fs.flatMap fun f => decimal (component (place fs ns x) f).toInt ++ ['.'])
      = dotted (cut fs ns) ++ ['.'] := by
    have hmap := congrArg (List.flatMap fun z => decimal z ++ ['.']) (components_place (x := x) h hl)
    rw [List.flatMap_map, List.flatMap_map] at hmap
    have hcut : cut fs ns ≠ [] := by
      rw [← List.length_pos_iff, cut, List.length_zipWith, hl, min_self]
      exact List.length_pos_iff.mpr hne
    exact hmap.trans (flatMap_decimal hcut)
  rw [printNodeaddr]
  simp only [hstr, List.length_append, List.length_singleton, List.dropLast_concat]

theorem cut_eq_self {ns : List ℕ} (h : List.Forall₂ (fun n f => n < 2 ^ f.bpl) ns fs) :
    cut fs ns = ns := by
  induction h with
  | nil => rfl
  | cons hn _ ih => rw [cut, List.zipWith_cons_cons, Nat.mod_eq_of_lt hn, ← cut, ih]

theorem cut_lt {ns : List ℕ} (hl : ns.length = fs.length) :
    List.Forall₂ (fun n f => n < 2 ^ f.bpl) (cut fs ns) fs := by
  induction fs generalizing ns with
  | nil =>
    cases ns with
    | nil => exact .nil
    | cons n ns => cases hl
  | cons f fs ih =>
    cases ns with
    | nil => cases hl
    | cons n ns => exact .cons (Nat.mod_lt _ (Nat.two_pow_pos _)) (ih (Nat.succ.inj hl))

/-! ### Round trips -/

/-- What the two conversions do for a format. -/
structure RoundTrips (fs : List AddrField) : Prop where
  /-- An accepted address comes back unchanged exactly when it fits. -/
  unchanged_iff : ∀ s a, str2addr fs s = some a → (printNodeaddr fs a = some s ↔ Fits fs s)
  accepts : ∀ s, Fits fs s → (str2addr fs s).isSome
  injective : ∀ s t a, str2addr fs s = some a → str2addr fs t = some a → Fits fs s → Fits fs t →
    s = t
  /-- What is printed of an address fits, and is read as this address. -/
  image : ∀ s a t, str2addr fs s = some a → printNodeaddr fs a = some t →
    Fits fs t ∧ str2addr fs t = some a

/-- An accepted address, and what is printed of it. -/
theorem of_str2addr (h : Format fs) (hne : fs ≠ []) {s : List Char} {a : BitVec 32}
    (hs : str2addr fs s = some a) :
    ∃ ns : List ℕ, nsStrtok s = ns.map (fun n : ℕ => (n : ℤ) + 1) ∧ ns.length = fs.length ∧
      a = place fs ns 0 ∧ printNodeaddr fs a
        = if SMALL_LEN ≤ (dotted (cut fs ns)).length + 1 then none
          else some (dotted (cut fs ns)) := by
  rw [str2addr] at hs
  split at hs
  · cases hs
  obtain ⟨ns, heq, hns⟩ := of_strLoop h hs
  rw [heq, strLoop_eq h hns] at hs
  cases hs
  exact ⟨ns, heq, hns.length_eq, rfl, printNodeaddr_place h hne hns.length_eq⟩

theorem str2addr_dotted (h : Format fs) {ns : List ℕ}
    (hns : List.Forall₂ (fun n f => n < 2 ^ f.bpl) ns fs) (hl : (dotted ns).length < SMALL_LEN) :
    str2addr fs (dotted ns) = some (place fs ns 0) := by
  rw [str2addr, if_neg (Nat.not_le_of_lt hl), nsStrtok_dotted (lt_of_fits h hns)]
  exact strLoop_eq h (hns.imp fun _ _ => le_of_lt)

theorem Format.unchanged_iff (h : Format fs) (hne : fs ≠ []) {s : List Char} {a : BitVec 32}
    (hs : str2addr fs s = some a) : printNodeaddr fs a = some s ↔ Fits fs s := by
  obtain ⟨ns, heq, hl, rfl, hprint⟩ := of_str2addr h hne hs
  rw [hprint]
  constructor
  · intro hp
    split at hp
    next => cases hp
    next hlen =>
      cases hp
      exact ⟨cut fs ns, rfl, cut_lt hl, Nat.lt_of_not_le hlen⟩
  · rintro ⟨cs, rfl, hcs, hlen⟩
    rw [nsStrtok_dotted (lt_of_fits h hcs)] at heq
    have hinj : Function.Injective fun n : ℕ => (n : ℤ) + 1 := fun m n hmn =>
      Int.ofNat.inj (add_right_cancel hmn)
    obtain rfl := List.map_injective_iff.mpr hinj heq
    rw [cut_eq_self hcs, if_neg (Nat.not_le_of_lt hlen)]

theorem Format.roundTrips (h : Format fs) (hne : fs ≠ []) : RoundTrips fs where
  unchanged_iff _ _ hs := h.unchanged_iff hne hs
  accepts s hs := by
    obtain ⟨ns, rfl, hns, hl⟩ := hs
    rw [str2addr_dotted h hns (Nat.lt_of_succ_lt hl)]
    rfl
  injective s t a hs ht hfs hft := by
    have hps := (h.unchanged_iff hne hs).mpr hfs
    rw [(h.unchanged_iff hne ht).mpr hft] at hps
    exact (Option.some.inj hps).symm
  image s a t hs ht := by
    obtain ⟨ns, -, hl, rfl, hprint⟩ := of_str2addr h hne hs
    rw [hprint] at ht
    split at ht
    next => cases ht
    next hlen =>
      cases ht
      refine ⟨⟨cut fs ns, rfl, cut_lt hl, Nat.lt_of_not_le hlen⟩, ?_⟩
      rw [str2addr_dotted h (cut_lt hl) (by omega), place_cut h]

/-! ### The fields that are allocated -/

open AllocAddr

theorem layout_below {p : ℕ} {ws : List ℕ} (hsum : ws.sum ≤ p) (hg : g ∈ layout p ws) :
    g.shift + g.bpl ≤ p ∧ g.bpl ∈ ws ∧ g.mask = getMask g.bpl := by
  induction ws generalizing p with
  | nil => exact absurd hg List.not_mem_nil
  | cons w ws ih =>
    rw [List.sum_cons] at hsum
    rcases List.mem_cons.mp hg with rfl | hg
    · exact ⟨by simp only [fieldBelow]; omega, List.mem_cons_self, rfl⟩
    · obtain ⟨h1, h2, h3⟩ := ih (by omega) hg
      exact ⟨by omega, List.mem_cons_of_mem w h2, h3⟩

theorem layout_apart {p : ℕ} {ws : List ℕ} (hsum : ws.sum ≤ p) :
    (layout p ws).Pairwise Apart := by
  induction ws generalizing p with
  | nil => exact .nil
  | cons w ws ih =>
    rw [List.sum_cons] at hsum
    refine .cons (fun g hg => ?_) (ih (by omega))
    exact .inl (layout_below (by omega) hg).1

/-- With another level, a width stays below the sum. -/
theorem lt_sum_of_mem {ws : List ℕ} {w : ℕ} (hl : 2 ≤ ws.length) (hpos : ∀ w ∈ ws, 0 < w)
    (hw : w ∈ ws) : w < ws.sum := by
  have hrest : (ws.erase w).length ≤ (ws.erase w).sum :=
    List.length_le_sum_of_one_le _ fun v hv => hpos v (List.mem_of_mem_erase hv)
  rw [List.length_erase_of_mem hw] at hrest
  rw [(List.perm_cons_erase hw).sum_eq, List.sum_cons]
  omega

theorem layout_format {p : ℕ} {ws : List ℕ} (hp : p ≤ 31) (hl : 2 ≤ ws.length)
    (hpos : ∀ w ∈ ws, 0 < w) (hsum : ws.sum ≤ p) : Format (layout p ws) := by
  refine ⟨fun f hf => ?_, layout_apart hsum⟩
  obtain ⟨hbelow, hmem, hmask⟩ := layout_below hsum hf
  have hlt := lt_sum_of_mem hl hpos hmem
  exact ⟨hmask, by omega, by omega⟩

theorem layout_bpl (p : ℕ) (ws : List ℕ) : (layout p ws).map (·.bpl) = ws := by
  induction ws generalizing p with
  | nil => rfl
  | cons w ws ih => rw [layout, List.map_cons, ih, fieldBelow]

theorem Format.pairwise_disjoint (h : Format fs) :
    fs.Pairwise fun f g => f.mask <<< f.shift &&& g.mask <<< g.shift = 0 :=
  h.apart.imp_of_mem fun hf hg ha => disjoint_of_apart (h.placed _ hf) (h.placed _ hg) ha

/-- The bit for multicast is the first field of a format of its own. -/
theorem mcast_format {size : ℕ} {ws : List ℕ} (hsize : size ≤ 31) (hl : 2 ≤ ws.length)
    (hpos : ∀ w ∈ ws, 0 < w) (hsum : ws.sum + 1 ≤ size) :
    Format (fieldBelow size 1 :: layout (size - 1) ws) := by
  have h := layout_format (p := size - 1) (by omega) hl hpos (by omega)
  refine ⟨fun f hf => ?_, .cons (fun g hg => ?_) h.apart⟩
  · rcases List.mem_cons.mp hf with rfl | hf
    · exact ⟨rfl, by simp [fieldBelow], by simp only [fieldBelow]; omega⟩
    · exact h.placed f hf
  · exact .inl (layout_below (by omega) hg).1

/-- **Hierarchical addresses.** For two levels or more, whose widths fit an address of at most 31
bits, the fields are allocated and have no bit in common, not even with that for multicast; and an
accepted address makes the round trip exactly when its components fit. -/
theorem hierarchical_round_trip (size : ℕ) (multicast : Bool) (ws : List ℕ) (hsize : size ≤ 31)
    (hl : 2 ≤ ws.length) (hpos : ∀ w ∈ ws, 0 < w) (hsum : ws.sum + mcastsize multicast ≤ size) :
    ∃ mcast fs, setHieraddress size multicast ws = some (mcast, fs) ∧ fs.map (·.bpl) = ws ∧
      (mcast.toList ++ fs).Pairwise (fun f g => f.mask <<< f.shift &&& g.mask <<< g.shift = 0) ∧
      RoundTrips fs := by
  have hformat : Format (layout (size - mcastsize multicast) ws) :=
    layout_format (by omega) hl hpos (by omega)
  have hne : layout (size - mcastsize multicast) ws ≠ [] := by
    intro h
    have hbpl := layout_bpl (size - mcastsize multicast) ws
    rw [h, List.map_nil] at hbpl
    rw [← hbpl] at hl
    exact absurd hl (by decide)
  refine ⟨_, _, setHieraddress_eq hpos hsum, layout_bpl _ ws, ?_, hformat.roundTrips hne⟩
  cases multicast with
  | false => exact hformat.pairwise_disjoint
  | true => exact (mcast_format hsize hl hpos hsum).pairwise_disjoint

/-- The default format takes a component of 512 in a field of nine bits for 0, which is another
address. -/
theorem component_at_the_edge : ∃ fs, setHieraddress 31 false [9, 11, 11] = some (none, fs) ∧
    str2addr fs ['5', '1', '2', '.', '0', '.', '0'] = some 0 ∧
    printNodeaddr fs 0 = some ['0', '.', '0', '.', '0'] ∧
    str2addr fs ['0', '.', '0', '.', '0'] = some 0 :=
  ⟨layout 31 [9, 11, 11], setHieraddress_eq (by decide) (by decide), by decide +kernel,
    by decide +kernel, by decide +kernel⟩

/-- The default format with multicast. -/
theorem hierarchical_round_trip_default : (31 ≤ 31 ∧ 2 ≤ [8, 11, 11].length ∧
    (∀ w ∈ [8, 11, 11], 0 < w) ∧ [8, 11, 11].sum + mcastsize true ≤ 31) ∧
    ∃ mcast fs, setHieraddress 31 true [8, 11, 11] = some (mcast, fs) ∧
      fs.map (·.bpl) = [8, 11, 11] ∧ RoundTrips fs := by
  obtain ⟨mcast, fs, h1, h2, -, h4⟩ :=
    hierarchical_round_trip 31 true [8, 11, 11] le_rfl (by decide) (by decide) (by decide)
  exact ⟨⟨le_rfl, by decide, by decide, by decide⟩, mcast, fs, h1, h2, h4⟩

end Address

end Afabric
