import Mathlib.Tactic.Common

/-!
# Support — outcomes of fallible steps

`Outcome F P x` says of a step that may fail that its result has `P` and its fault has `F`.  With a
false `F` it is total correctness, with a true one partial correctness, and the rules are the same.
-/

namespace Afabric

universe u v w

variable {ε : Type u} {α β σ : Type v} {γ : Type w} {F : ε → Prop} {P Q : α → Prop}

/-- The result has `P`, or the fault has `F`. -/
def Outcome (F : ε → Prop) (P : α → Prop) : Except ε α → Prop
  | .ok a => P a
  | .error e => F e

namespace Outcome

@[simp] theorem error_iff {e : ε} : Outcome F P (.error e : Except ε α) ↔ F e := Iff.rfl

theorem imp {x : Except ε α} (h : Outcome F P x) (hP : ∀ a, P a → Q a) : Outcome F Q x := by
  cases x with
  | ok a => exact hP a h
  | error e => exact h

theorem bind {x : Except ε α} {f : α → Except ε β} {R : β → Prop} (hx : Outcome F P x)
    (hf : ∀ a, P a → Outcome F R (f a)) : Outcome F R (x >>= f) := by
  cases x with
  | ok a => exact hf a hx
  | error e => exact hx

/-- What every round keeps, the loop keeps. -/
theorem foldlM {I : σ → Prop} {f : σ → γ → Except ε σ} {l : List γ} {s : σ} (h₀ : I s)
    (hf : ∀ a ∈ l, ∀ t, I t → Outcome F I (f t a)) : Outcome F I (l.foldlM f s) := by
  induction l generalizing s with
  | nil => exact h₀
  | cons a l ih =>
      rw [List.foldlM_cons]
      refine bind (hf a List.mem_cons_self s h₀) ?_
      intro t ht
      exact ih ht fun b hb => hf b (List.mem_cons_of_mem a hb)

end Outcome

end Afabric
