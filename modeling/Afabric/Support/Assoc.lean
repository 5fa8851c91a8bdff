import Mathlib.Data.List.Basic
import Mathlib.Logic.Relation

/-!
# Support — association lists

`put` writes the value of a key where it stands, and puts a new key at the head; `lookup_put` is all
that a proof needs of it.  `foldlM_invariant` and `foldlM_isSome_iff` are the rules for a loop that
may abort, and `acyclic_of_le` says that a graph inside a strict order has no cycle.
-/

namespace Afabric

/-! ### Writing at a key -/

namespace Assoc

variable {α β : Type*} [DecidableEq α]

/-- `b` in the place of what stands at `k`. -/
def overwrite (k : α) (b : β) (l : List (α × β)) : List (α × β) :=
  l.map fun e => if e.1 = k then (k, b) else e

def put (k : α) (b : β) (l : List (α × β)) : List (α × β) :=
  if (l.lookup k).isSome then overwrite k b l else (k, b) :: l

variable {k j : α} {b : β} {l : List (α × β)}

theorem lookup_cons (a : α) (c : β) :
    ((a, c) :: l).lookup j = if j = a then some c else l.lookup j := by
  split_ifs with h
  · rw [h, List.lookup_cons_self]
  · rw [List.lookup_cons, beq_eq_false_iff_ne.mpr h]

theorem lookup_overwrite :
    (overwrite k b l).lookup j = if j = k then (l.lookup k).map fun _ => b else l.lookup j := by
  induction l with
  | nil => simp [overwrite]
  | cons e l ih =>
      obtain ⟨a, c⟩ := e
      rw [overwrite, List.map_cons, ← overwrite]
      by_cases ha : a = k
      · subst ha
        rw [if_pos rfl]
        simp only [lookup_cons, ih, if_true, Option.map_some]
        split_ifs <;> rfl
      · rw [if_neg ha]
        simp only [lookup_cons, ih, if_neg (Ne.symm ha)]
        split_ifs with h h'
        · exact absurd (h.symm.trans h') ha
        all_goals rfl

@[simp] theorem lookup_put : (put k b l).lookup j = if j = k then some b else l.lookup j := by
  rw [put]
  split_ifs with h hj hj
  · obtain ⟨c, hc⟩ := Option.isSome_iff_exists.mp h
    rw [lookup_overwrite, if_pos hj, hc, Option.map_some]
  · rw [lookup_overwrite, if_neg hj]
  · rw [lookup_cons, if_pos hj]
  · rw [lookup_cons, if_neg hj]

end Assoc

/-! ### Loops that may abort -/

variable {α σ : Type*}

/-- What every round keeps, the loop keeps. -/
theorem foldlM_invariant (P : σ → Prop) {f : σ → α → Option σ} {l : List α} {s s' : σ}
    (h : l.foldlM f s = some s') (h₀ : P s)
    (hstep : ∀ a ∈ l, ∀ t t', P t → f t a = some t' → P t') : P s' := by
  induction l generalizing s with
  | nil => exact Option.some.inj h ▸ h₀
  | cons a l ih =>
      obtain ⟨t, ht, h'⟩ := Option.bind_eq_some_iff.mp h
      exact ih h' (hstep a List.mem_cons_self s t h₀ ht)
        fun b hb => hstep b (List.mem_cons_of_mem a hb)

/-- A loop whose rounds each depend on their own element alone ends if they all do. -/
theorem foldlM_isSome_iff (P : σ → Prop) {c : α → Prop} {f : σ → α → Option σ} {l : List α} {s : σ}
    (h₀ : P s) (hc : ∀ t, P t → ∀ a, (f t a).isSome ↔ c a)
    (hstep : ∀ a t t', P t → f t a = some t' → P t') :
    (l.foldlM f s).isSome ↔ ∀ a ∈ l, c a := by
  induction l generalizing s with
  | nil => exact iff_of_true rfl fun a ha => absurd ha List.not_mem_nil
  | cons a l ih =>
      rw [List.forall_mem_cons, ← hc s h₀ a]
      cases hf : f s a with
      | none =>
          have hnone : (a :: l).foldlM f s = none := Option.bind_eq_none_iff.mpr fun t ht => by
            rw [hf] at ht
            cases ht
          rw [hnone]
          exact ⟨fun h => absurd h Bool.false_ne_true, fun h => absurd h.1 Bool.false_ne_true⟩
      | some t =>
          have hsome : (a :: l).foldlM f s = l.foldlM f t := by rw [List.foldlM_cons, hf]; rfl
          rw [hsome, ih (hstep a s t h₀ hf)]
          exact (and_iff_right rfl).symm

/-! ### Graphs without a cycle -/

theorem acyclic_of_le {r p : α → α → Prop} (hrp : ∀ a b, r a b → p a b)
    (htrans : ∀ a b c, p a b → p b c → p a c) (hirrefl : ∀ a, ¬ p a a) (a : α) :
    ¬ Relation.TransGen r a a := by
  intro h
  have : IsTrans α p := ⟨htrans⟩
  have hp : Relation.TransGen p a a := Relation.TransGen.mono (fun a b => hrp a b) a a h
  rw [Relation.transGen_eq_self] at hp
  exact hirrefl a hp

end Afabric
