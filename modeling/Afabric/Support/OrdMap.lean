import Mathlib.Data.List.Basic
import Mathlib.Data.List.Pairwise
import Mathlib.Order.Nat

/-!
# Support — ordered maps

A finite map from numbers that is iterated in the order of its keys.  Its entries are strictly
sorted, so an entry is found exactly where it stands (`find_eq_some_iff`), and a map is known by
what is found in it.
-/

namespace Afabric

structure OrdMap (β : Type*) where
  entries : List (ℕ × β)
  sorted : entries.Pairwise fun e f => e.1 < f.1

namespace OrdMap

variable {β : Type*} {m : OrdMap β} {j k : ℕ} {b c : β}

def empty : OrdMap β := ⟨[], .nil⟩

def find (m : OrdMap β) (k : ℕ) : Option β := (m.entries.find? fun e => e.1 = k).map Prod.snd

/-- The map with `b` at `k`. -/
def set (k : ℕ) (b : β) (m : OrdMap β) : OrdMap β where
  entries := m.entries.filter (fun e => e.1 < k) ++ (k, b) :: m.entries.filter fun e => k < e.1
  sorted := by
    have hlow : ∀ e ∈ m.entries.filter (fun e => decide (e.1 < k)), e.1 < k := fun e he =>
      of_decide_eq_true (List.mem_filter.mp he).2
    have hhigh : ∀ e ∈ m.entries.filter (fun e => decide (k < e.1)), k < e.1 := fun e he =>
      of_decide_eq_true (List.mem_filter.mp he).2
    refine List.pairwise_append.mpr ⟨m.sorted.filter _, List.pairwise_cons.mpr
      ⟨hhigh, m.sorted.filter _⟩, fun e he f hf => ?_⟩
    rcases List.mem_cons.mp hf with rfl | hf
    · exact hlow e he
    · exact (hlow e he).trans (hhigh f hf)

def erase (k : ℕ) (m : OrdMap β) : OrdMap β where
  entries := m.entries.filter fun e => e.1 ≠ k
  sorted := m.sorted.filter _

theorem find_eq_some_iff : m.find k = some b ↔ (k, b) ∈ m.entries := by
  rw [find, Option.map_eq_some_iff]
  constructor
  · rintro ⟨⟨j, c⟩, he, rfl⟩
    have hj : j = k := by simpa using List.find?_some he
    exact hj ▸ List.mem_of_find?_eq_some he
  · intro hmem
    obtain ⟨a, z, hm⟩ := List.append_of_mem hmem
    refine ⟨(k, b), ?_, rfl⟩
    have hs := m.sorted
    rw [hm, List.pairwise_append] at hs
    have hnone : a.find? (fun e => decide (e.1 = k)) = none := by
      refine List.find?_eq_none.mpr fun e he => ?_
      have hlt : e.1 < k := hs.2.2 e he (k, b) List.mem_cons_self
      simpa using hlt.ne
    rw [hm, List.find?_append, hnone, Option.none_or, List.find?_cons_of_pos (by simp)]

theorem find_eq_none_iff : m.find k = none ↔ ∀ b, (k, b) ∉ m.entries := by
  constructor
  · intro hnone b hb
    rw [find_eq_some_iff.mpr hb] at hnone
    cases hnone
  · intro hall
    cases h : m.find k with
    | none => rfl
    | some b => exact absurd (find_eq_some_iff.mp h) (hall b)

@[simp] theorem find_empty : (empty : OrdMap β).find k = none := rfl

theorem mem_set : (j, c) ∈ (m.set k b).entries ↔ (j = k ∧ c = b) ∨ (j ≠ k ∧ (j, c) ∈ m.entries) := by
  simp only [set, List.mem_append, List.mem_filter, List.mem_cons, Prod.mk.injEq, decide_eq_true_eq]
  constructor
  · rintro (⟨hm, hlt⟩ | ⟨rfl, rfl⟩ | ⟨hm, hlt⟩)
    · exact .inr ⟨hlt.ne, hm⟩
    · exact .inl ⟨rfl, rfl⟩
    · exact .inr ⟨hlt.ne', hm⟩
  · rintro (⟨rfl, rfl⟩ | ⟨hne, hm⟩)
    · exact .inr (.inl ⟨rfl, rfl⟩)
    · rcases lt_or_gt_of_ne hne with hlt | hlt
      · exact .inl ⟨hm, hlt⟩
      · exact .inr (.inr ⟨hm, hlt⟩)

theorem mem_erase : (j, c) ∈ (m.erase k).entries ↔ j ≠ k ∧ (j, c) ∈ m.entries := by
  rw [erase, List.mem_filter, and_comm]
  simp

@[simp] theorem find_set : (m.set k b).find j = if j = k then some b else m.find j := by
  refine Option.ext fun c => ?_
  rw [find_eq_some_iff, mem_set]
  split_ifs with h
  · simp [h, eq_comm]
  · simp [h, find_eq_some_iff]

@[simp] theorem find_erase : (m.erase k).find j = if j = k then none else m.find j := by
  refine Option.ext fun c => ?_
  rw [find_eq_some_iff, mem_erase]
  split_ifs with h
  · simp [h]
  · simp [h, find_eq_some_iff]

theorem entries_eq_nil_iff : m.entries = [] ↔ ∀ k, m.find k = none := by
  rw [List.eq_nil_iff_forall_not_mem]
  constructor
  · exact fun h k => find_eq_none_iff.mpr fun b => h (k, b)
  · exact fun h e he => find_eq_none_iff.mp (h e.1) e.2 he

end OrdMap

end Afabric
