import Afabric.Support.Links
import Mathlib.Data.List.Nodup

/-!
# Support — circular linked lists

`Circular nxt prv hd l` says that the nodes of `l`, in this order from the node `hd`, are doubly
linked in a circle: a run of `Linked` nodes that is entered from its own last node and left towards
its own first.  The circle can be entered at any of its nodes (`rotate`), so an operation next to
one node is an operation at the head.
-/

namespace Afabric

variable {α : Type*} {nxt nxt' prv prv' : α → Option α}

structure Circular (nxt prv : α → Option α) (hd : Option α) (l : List α) : Prop where
  head_eq : hd = l.head?
  linked : Linked nxt prv l.getLast? l l.head?
  nodup : l.Nodup

namespace Circular

variable {hd : Option α} {a b l : List α} {x z : α}

theorem nil : Circular nxt prv none ([] : List α) := ⟨rfl, trivial, List.nodup_nil⟩

theorem eq_cons (h : Circular nxt prv (some x) l) : ∃ b, l = x :: b := by
  have hh := h.head_eq
  cases l with
  | nil => cases hh
  | cons y b => exact ⟨b, by rw [Option.some.inj hh]⟩

/-- A circle entered at another node. -/
theorem rotate (hb : b ≠ []) (h : Circular nxt prv hd (a ++ b)) :
    Circular nxt prv b.head? (b ++ a) := by
  have hnd : (b ++ a).Nodup := (List.perm_append_comm.nodup_iff).mp h.nodup
  by_cases ha : a = []
  · subst ha
    rw [List.append_nil]
    exact ⟨rfl, h.linked, h.nodup⟩
  · obtain ⟨y, hy⟩ := Option.isSome_iff_exists.mp (List.isSome_head?.mpr hb)
    obtain ⟨u, hu⟩ : ∃ u, a.getLast? = some u := ⟨_, List.getLast?_eq_some_getLast ha⟩
    obtain ⟨v, hv⟩ := Option.isSome_iff_exists.mp (List.isSome_head?.mpr ha)
    obtain ⟨w, hw⟩ : ∃ w, b.getLast? = some w := ⟨_, List.getLast?_eq_some_getLast hb⟩
    obtain ⟨hla, hlb⟩ := Linked.append_iff.mp h.linked
    simp only [List.head?_append, List.getLast?_append, hy, hu, hv, hw, Option.some_or] at hla hlb
    refine ⟨?_, Linked.append_iff.mpr ⟨?_, ?_⟩, hnd⟩
    · rw [List.head?_append, hy, Option.some_or]
    all_goals
      simp only [List.head?_append, List.getLast?_append, hy, hu, hv, hw, Option.some_or]
      assumption

/-- The circle from the next node on. -/
theorem step (h : Circular nxt prv hd (x :: b)) : Circular nxt prv (nxt x) (b ++ [x]) := by
  have hnx : nxt x = (b ++ [x]).head? := by
    rw [h.linked.2.1]
    cases b <;> rfl
  by_cases hb : b = []
  · subst hb
    exact ⟨hnx, h.linked, h.nodup⟩
  · have hrot := h.rotate (a := [x]) hb
    refine ⟨hnx, hrot.linked, hrot.nodup⟩

variable [DecidableEq α]

/-- **Insertion** before the head, which makes the node the last of the circle. -/
theorem insert (h : Circular nxt prv hd (z :: l)) (hx : x ∉ z :: l) :
    Circular (setLink (Function.update nxt x (some z)) (prv z) (some x))
      (Function.update (Function.update prv x (prv z)) z (some x)) hd (z :: l ++ [x]) := by
  have hpz : prv z = (z :: l).getLast? := h.linked.1
  obtain ⟨y, hy⟩ : ∃ y, (z :: l).getLast? = some y := ⟨_, List.getLast?_eq_some_getLast (by simp)⟩
  have hyx : y ≠ x := fun e => hx (e ▸ List.mem_of_mem_getLast? hy)
  have hzx : z ≠ x := fun e => hx (by simp [e])
  rw [hpz]
  have hnd : (z :: l ++ [x]).Nodup := by
    refine List.nodup_append.mpr ⟨h.nodup, by simp, fun u hu v hv => ?_⟩
    rw [List.mem_singleton.mp hv]
    exact fun e => hx (e ▸ hu)
  refine ⟨h.head_eq, Linked.append_iff.mpr ⟨?_, ?_⟩, hnd⟩
  · have hrun := (h.linked.setLink_next (m := some x) h.nodup)
    have hrun' := hrun.setPrev (q := some x) h.nodup
    have hlast : (z :: l ++ [x]).getLast? = some x := List.getLast?_concat
    rw [hlast]
    refine hrun'.congr (fun u hu => ?_) fun u hu => ?_
    · have hux : u ≠ x := fun e => hx (e ▸ hu)
      rw [hy]
      simp only [setLink_some, Function.update_apply, if_neg hux]
    · have hux : u ≠ x := fun e => hx (e ▸ hu)
      simp only [Function.update_apply, if_neg hux]
  · refine ⟨?_, ?_, trivial⟩
    · rw [Function.update_of_ne (Ne.symm hzx), Function.update_self, hy]
      rfl
    · rw [hy, setLink_some, Function.update_of_ne (Ne.symm hyx), Function.update_self]
      rfl

/-- The first node of a circle, in a circle of its own. -/
theorem single : Circular (Function.update nxt x (some x)) (Function.update prv x (some x)) (some x)
    [x] := by
  refine ⟨rfl, ⟨?_, ?_, trivial⟩, List.nodup_singleton x⟩
  · exact Function.update_self _ _ _
  · exact Function.update_self _ _ _

/-- **Removal** of the head. -/
theorem removeHead (h : Circular nxt prv hd (x :: b)) (hb : b ≠ []) :
    Circular (setLink nxt (prv x) (nxt x)) (setLink prv (nxt x) (prv x)) (nxt x) b := by
  obtain ⟨hpx, hnx, hrun⟩ := h.linked
  have hnx' : nxt x = b.head? := by
    rw [hnx]
    cases b with
    | nil => exact absurd rfl hb
    | cons y b => rfl
  have hpx' : prv x = b.getLast? := by
    rw [hpx]
    cases b with
    | nil => exact absurd rfl hb
    | cons y b => rw [List.getLast?_cons_cons]
  have hnb : b.Nodup := (List.nodup_cons.mp h.nodup).2
  rw [hnx', hpx']
  exact ⟨rfl, (hrun.setLink_next hnb).setLink_prev hnb, hnb⟩

/-- **Removal** of another node. -/
theorem remove (h : Circular nxt prv hd (a ++ x :: b)) (ha : a ≠ []) :
    Circular (setLink nxt (prv x) (nxt x)) (setLink prv (nxt x) (prv x)) hd (a ++ b) := by
  have hrot := h.rotate (List.cons_ne_nil x b)
  have hne : b ++ a ≠ [] := fun e => ha (List.append_eq_nil_iff.mp e).2
  have hrem := hrot.removeHead hne
  have hback := hrem.rotate ha
  refine ⟨?_, hback.linked, hback.nodup⟩
  rw [h.head_eq, List.head?_append_of_ne_nil _ ha, List.head?_append_of_ne_nil _ ha]

end Circular

end Afabric
