import Afabric.Support.TailCircle
import Mathlib.Tactic.Ring

/-!
# Tcp — the lists of a session

`slist_base` and its iterator (`nilist.cc`): a circle of links that is known by its last one.  A
link is known by its address.  `Holds` says which list the links are; an iterator stands behind the
part of the list that it has returned (`pos`), also after the link it has returned is taken out.
-/

namespace Afabric

structure SlistBase where
  last : Option ℕ
  next : ℕ → Option ℕ
  count : ℤ

namespace SlistBase

def empty : SlistBase := ⟨none, fun _ => none, 0⟩

def append (a : ℕ) (s : SlistBase) : SlistBase :=
  match s.last with
  | some z =>
      { last := some a
        next := Function.update (Function.update s.next a (s.next z)) z (some a)
        count := s.count + 1 }
  | none => { last := some a, next := Function.update s.next a (some a), count := s.count + 1 }

/-- The link before `a`, if `prev` does not say which it is. -/
def before (a : ℕ) (prev : Option ℕ) (z : ℕ) (s : SlistBase) : Option ℕ :=
  match prev with
  | some p => some p
  | none => if s.next z = some a then some z else none

def remove (a : ℕ) (prev : Option ℕ) (s : SlistBase) : SlistBase :=
  match s.last with
  | none => { s with count := s.count - 1 }
  | some z =>
      match s.before a prev z with
      | none => { s with count := s.count - 1 }
      | some p =>
          let next := Function.update s.next p (s.next a)
          let last := if z = a then p else z
          { last := if next last = some a then none else some last
            next := next
            count := s.count - 1 }

/-- `operator()` of an iterator that stands at `ce`: what it returns, and where it stands then. -/
def iter (s : SlistBase) (ce : Option ℕ) : Option ℕ × Option ℕ :=
  (ce.bind s.next, if ce.bind s.next = s.last then none else ce.bind s.next)

/-- What an iterator that stands at `ce` returns until the end. -/
def visits (s : SlistBase) : ℕ → Option ℕ → List ℕ
  | 0, _ => []
  | fuel + 1, ce =>
      match s.iter ce with
      | (none, _) => []
      | (some x, ce) => x :: s.visits fuel ce

/-- What a fresh iterator returns. -/
def items (s : SlistBase) : List ℕ := s.visits (s.count.toNat + 1) s.last

structure Holds (s : SlistBase) (l : List ℕ) : Prop where
  circle : TailCircle s.next s.last l
  count : s.count = l.length

/-- Where an iterator stands that has returned `a`, with `b` still to come. -/
def pos (s : SlistBase) (a b : List ℕ) : Option ℕ := if b = [] then none else a.getLast?.or s.last

variable {s : SlistBase} {a b l : List ℕ} {x : ℕ} {fuel : ℕ}

theorem empty_holds : Holds empty [] := ⟨.nil, rfl⟩

theorem Holds.append (h : Holds s l) (hx : x ∉ l) : Holds (s.append x) (l ++ [x]) := by
  have hcount : s.count + 1 = (l ++ [x]).length := by
    rw [h.count, List.length_append, List.length_singleton]
    push_cast
    ring
  rw [SlistBase.append]
  cases hl : s.last with
  | none =>
      obtain rfl := h.circle.eq_nil_iff.mp hl
      exact ⟨.single, hcount⟩
  | some z => exact ⟨(hl ▸ h.circle).append hx, hcount⟩

/-- The link before one of the list. -/
theorem Holds.before_eq {z : ℕ} (h : Holds s (a ++ x :: b)) (hz : s.last = some z) :
    s.before x a.getLast? z = a.getLast?.or s.last := by
  have hafter := h.circle.after_pos
  rw [before.eq_def]
  cases hp : a.getLast? with
  | some p => rfl
  | none =>
      rw [hp, hz] at hafter
      rw [hz]
      exact if_pos hafter

theorem Holds.remove (h : Holds s (a ++ x :: b)) : Holds (s.remove x a.getLast?) (a ++ b) := by
  have hcount : s.count - 1 = (a ++ b).length := by
    rw [h.count]
    simp only [List.length_append, List.length_cons]
    push_cast
    ring
  obtain ⟨z, hz⟩ : ∃ z, s.last = some z := by
    rw [← Option.isSome_iff_exists, h.circle.last_eq]
    simp
  obtain ⟨y, hy⟩ : ∃ y, a.getLast?.or s.last = some y := by
    rw [hz]
    cases a.getLast? <;> exact ⟨_, rfl⟩
  have hy' : a.getLast?.or (some z) = some y := hz ▸ hy
  simp only [SlistBase.remove, hz, h.before_eq hz, hy']
  refine ⟨?_, hcount⟩
  by_cases hne : a ++ b = []
  · -- the only link: it comes before itself
    obtain ⟨rfl, rfl⟩ := List.append_eq_nil_iff.mp hne
    have hzx : z = x := Option.some.inj (hz.symm.trans h.circle.last_eq)
    subst hzx
    have hyz : z = y := Option.some.inj (hz.symm.trans hy)
    subst hyz
    have hself : s.next z = some z := h.circle.next_eq
    simp only [if_true, Function.update_self, hself]
    exact .nil
  · have hcircle := h.circle.remove hy hne
    have hlast : (if s.last = some x then some y else s.last) = some (if z = x then y else z) := by
      rw [hz]
      simp only [Option.some_inj]
      split_ifs <;> rfl
    rw [hlast] at hcircle
    have hnot : x ∉ a ++ b := fun hm =>
      (List.mem_append.mp hm).elim h.circle.not_mem.1 h.circle.not_mem.2
    have hhead : ¬ Function.update s.next y (s.next x) (if z = x then y else z) = some x := by
      rw [hcircle.next_last]
      exact fun he => hnot (List.mem_of_mem_head? he)
    rw [if_neg hhead]
    exact hcircle

/-! ### Iterators -/

theorem Holds.pos_start (h : Holds s l) : s.pos [] l = s.last := by
  rw [pos]
  split_ifs with hl
  · exact (h.circle.eq_nil_iff.mpr hl).symm
  · rfl

theorem iter_end : s.iter (s.pos a []) = (none, none) := by
  simp [pos, iter]

theorem Holds.iter_cons (h : Holds s (a ++ x :: b)) :
    s.iter (s.pos a (x :: b)) = (some x, s.pos (a ++ [x]) b) := by
  have hnext := h.circle.after_pos
  have hlast := h.circle.last_eq_some_iff
  rw [iter, pos, if_neg (List.cons_ne_nil x b), hnext, pos, List.getLast?_concat]
  simp only [eq_comm (a := some x), hlast, Option.some_or]

/-- Where the iterator is set when the link it has returned is taken out. -/
theorem pos_remove :
    (match s.pos (a ++ [x]) b with
      | none => none
      | some _ => a.getLast?.or (s.remove x a.getLast?).last) =
        (s.remove x a.getLast?).pos a b := by
  rw [pos, List.getLast?_concat, Option.some_or]
  split_ifs with hb
  · rw [pos, if_pos hb]
  · rw [pos, if_neg hb]

theorem Holds.visits_eq (h : Holds s (a ++ b)) (hf : b.length < fuel) :
    s.visits fuel (s.pos a b) = b := by
  induction b generalizing a fuel with
  | nil =>
      obtain ⟨fuel, rfl⟩ := exists_fuel hf
      rw [visits, iter_end]
  | cons x b ih =>
      obtain ⟨fuel, rfl⟩ := exists_fuel hf
      rw [visits, h.iter_cons]
      rw [List.append_cons] at h
      exact congrArg (x :: ·) (ih h (Nat.lt_of_succ_lt_succ hf))

theorem Holds.items_eq (h : Holds s l) : s.items = l := by
  have hf : l.length < s.count.toNat + 1 := by
    rw [h.count]
    simp
  rw [items, ← h.pos_start]
  exact Holds.visits_eq (a := []) h hf

end SlistBase

end Afabric
