import Afabric.Support.Loops

/-!
# Classifier — the slot table

`classifier/classifier.cc`: a table that maps slot numbers to objects, grows by doubling, and keeps
the number of its highest slot in use in `maxslot_`, −1 if none is.  Every operation keeps this so
(`WellFormed`).

A slot number is a natural number; `clear` of a slot outside the table is a write outside the array
and has no result.  An object is a value of a type `α`.
-/

namespace Afabric

structure Classifier (α : Type*) where
  /-- `slot_`, empty where the pointer is null. -/
  slot : ℕ → Option α
  nslot : ℕ
  maxslot : ℤ

namespace Classifier

variable {α : Type*} {c : Classifier α} {i : ℕ}

def init : Classifier α where
  slot := fun _ => none
  nslot := 0
  maxslot := -1

/-- `nsize` is the size set by `set_table_size`, 0 if none was. -/
def alloc (nsize i : ℕ) (c : Classifier α) : Classifier α :=
  let n := if c.nslot = 0 then if nsize ≠ 0 then nsize else 32 else c.nslot
  { c with nslot := doubled i (i + 1) n
           slot := fun j => if j < c.nslot then c.slot j else none }

def install (nsize i : ℕ) (p : α) (c : Classifier α) : Classifier α :=
  let c := if c.nslot ≤ i then alloc nsize i c else c
  { c with slot := Function.update c.slot i (some p)
           maxslot := if c.maxslot ≤ i then i else c.maxslot }

/-- `while (--maxslot_ >= 0 && slot_[maxslot_] == 0)`, from `maxslot_ = i`. -/
def lowered (slot : ℕ → Option α) : ℕ → ℤ
  | 0 => -1
  | i + 1 => if (slot i).isSome then i else lowered slot i

def clear (i : ℕ) (c : Classifier α) : Option (Classifier α) :=
  if i < c.nslot then
    let slot := Function.update c.slot i none
    some { c with slot := slot
                  maxslot := if (i : ℤ) = c.maxslot then lowered slot i else c.maxslot }
  else none

/-- `m` is the highest slot in use, −1 if there is none. -/
structure Highest (slot : ℕ → Option α) (m : ℤ) : Prop where
  lower : -1 ≤ m
  used : ∀ i : ℕ, (i : ℤ) = m → slot i ≠ none
  above : ∀ i : ℕ, m < i → slot i = none

structure WellFormed (c : Classifier α) : Prop where
  highest : Highest c.slot c.maxslot
  bound : ∀ i, c.slot i ≠ none → i < c.nslot

theorem Highest.le {slot : ℕ → Option α} {m : ℤ} (h : Highest slot m) (hi : slot i ≠ none) :
    (i : ℤ) ≤ m :=
  not_lt.mp fun hlt => hi (h.above i hlt)

theorem Highest.eq {slot : ℕ → Option α} {m m' : ℤ} (h : Highest slot m) (h' : Highest slot m') :
    m = m' := by
  have hle : ∀ {a b : ℤ}, Highest slot a → Highest slot b → a ≤ b := by
    intro a b ha hb
    by_contra hlt
    have hlow := hb.lower
    obtain ⟨i, hi⟩ := Int.eq_ofNat_of_zero_le (show 0 ≤ a by omega)
    exact absurd (hb.le (ha.used i hi.symm)) (by omega)
  exact le_antisymm (hle h h') (hle h' h)

theorem lowered_highest (slot : ℕ → Option α) (h : ∀ j, i ≤ j → slot j = none) :
    Highest slot (lowered slot i) := by
  induction i with
  | zero => exact ⟨le_rfl, fun j hj => by rw [lowered] at hj; omega, fun j _ => h j (Nat.zero_le j)⟩
  | succ i ih =>
      rw [lowered]
      split_ifs with hs
      · refine ⟨by omega, fun j hj => ?_, fun j hj => h j (by omega)⟩
        rw [Int.ofNat.inj hj]
        exact Option.isSome_iff_ne_none.mp hs
      · refine ih fun j hj => ?_
        rcases Nat.eq_or_lt_of_le hj with rfl | hlt
        · exact Option.not_isSome_iff_eq_none.mp hs
        · exact h j hlt

theorem wellFormed_init : WellFormed (init : Classifier α) where
  highest := ⟨le_rfl, fun i hi => by dsimp only [init] at hi; omega, fun _ _ => rfl⟩
  bound := fun _ h => absurd rfl h

theorem WellFormed.alloc (h : WellFormed c) (nsize i : ℕ) :
    WellFormed (alloc nsize i c) ∧ (alloc nsize i c).slot = c.slot ∧ i < (alloc nsize i c).nslot := by
  have hsame : (Classifier.alloc nsize i c).slot = c.slot := by
    funext j
    rw [Classifier.alloc]
    dsimp only
    split_ifs with hj
    · rfl
    · by_contra hne
      exact hj (h.bound j (Ne.symm hne))
  have hbase : 1 ≤ if c.nslot = 0 then if nsize ≠ 0 then nsize else 32 else c.nslot := by
    split_ifs <;> omega
  have hold : c.nslot ≤ if c.nslot = 0 then if nsize ≠ 0 then nsize else 32 else c.nslot := by
    split_ifs <;> omega
  have hle : c.nslot ≤ (Classifier.alloc nsize i c).nslot := hold.trans (le_doubled _ _ _)
  have hlt : i < (Classifier.alloc nsize i c).nslot := by
    refine lt_doubled ?_
    calc i < 2 ^ (i + 1) := (Nat.lt_succ_self i).trans Nat.lt_two_pow_self
      _ ≤ _ := Nat.le_mul_of_pos_right _ hbase
  refine ⟨⟨?_, fun j hj => ?_⟩, hsame, hlt⟩
  · rw [hsame]
    exact h.highest
  · rw [hsame] at hj
    exact (h.bound j hj).trans_le hle

theorem WellFormed.install (h : WellFormed c) (nsize i : ℕ) (p : α) :
    WellFormed (install nsize i p c) := by
  obtain ⟨d, hd⟩ : ∃ d, d = if c.nslot ≤ i then Classifier.alloc nsize i c else c := ⟨_, rfl⟩
  have hwf : WellFormed d ∧ i < d.nslot := by
    rw [hd]
    split_ifs with hn
    · exact ⟨(h.alloc nsize i).1, (h.alloc nsize i).2.2⟩
    · exact ⟨h, not_le.mp hn⟩
  rw [Classifier.install, ← hd]
  obtain ⟨⟨hhigh, hbound⟩, hi⟩ := hwf
  constructor
  case highest =>
    dsimp only
    have hlow := hhigh.lower
    refine ⟨by split_ifs <;> omega, fun j hj => ?_, fun j hj => ?_⟩
    · by_cases hji : j = i
      · rw [hji, Function.update_self]
        exact Option.some_ne_none p
      · rw [Function.update_of_ne hji]
        refine hhigh.used j ?_
        split_ifs at hj with hm
        · exact absurd (Int.ofNat.inj hj) hji
        · exact hj
    · have hji : j ≠ i := by
        rintro rfl
        split_ifs at hj with hm <;> omega
      rw [Function.update_of_ne hji]
      refine hhigh.above j ?_
      split_ifs at hj with hm <;> omega
  case bound =>
    intro j hj
    by_cases hji : j = i
    · exact hji ▸ hi
    · dsimp only at hj
      rw [Function.update_of_ne hji] at hj
      exact hbound j hj

theorem WellFormed.clear {d : Classifier α} (h : WellFormed c) (hc : clear i c = some d) :
    WellFormed d := by
  have hi : i < c.nslot := by
    by_contra hi
    rw [Classifier.clear, if_neg hi] at hc
    cases hc
  rw [Classifier.clear, if_pos hi] at hc
  obtain rfl := Option.some.inj hc
  have hother : ∀ j, j ≠ i → Function.update c.slot i none j = c.slot j := fun j hj =>
    Function.update_of_ne hj _ _
  constructor
  case highest =>
    dsimp only
    split_ifs with hm
    · refine lowered_highest _ fun j hj => ?_
      by_cases hji : j = i
      · rw [hji, Function.update_self]
      · rw [hother j hji]
        exact h.highest.above j (by omega)
    · refine ⟨h.highest.lower, fun j hj => ?_, fun j hj => ?_⟩
      · rw [hother j fun hji => hm (hji ▸ hj)]
        exact h.highest.used j hj
      · by_cases hji : j = i
        · rw [hji, Function.update_self]
        · rw [hother j hji]
          exact h.highest.above j hj
  case bound =>
    intro j hj
    have hji : j ≠ i := by
      rintro rfl
      exact hj (Function.update_self _ _ _)
    dsimp only at hj
    rw [hother j hji] at hj
    exact h.bound j hj

end Classifier

end Afabric
