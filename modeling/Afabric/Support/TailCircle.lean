import Afabric.Support.SinglyLinked

/-!
# Support — circles known by their last node

`TailCircle nxt last l` says that the nodes of `l` are singly linked in a circle, and that `last`
is the last of them, so that `nxt last` is the first.  A scan that stands at a node, or at `last`
before the first one, finds the next node by its link (`after_pos`); what a node is linked to, and
what is left when it is taken out, depends on the node before it, which for the first is `last`.
-/

namespace Afabric

variable {α : Type*} {nxt nxt' : α → Option α} {last : Option α} {a b l : List α} {x y : α}

structure TailCircle (nxt : α → Option α) (last : Option α) (l : List α) : Prop where
  last_eq : last = l.getLast?
  seg : Seg nxt l.head? l l.head?
  nodup : l.Nodup

namespace TailCircle

theorem nil : TailCircle nxt none ([] : List α) := ⟨rfl, rfl, List.nodup_nil⟩

theorem congr (hn : ∀ x ∈ l, nxt' x = nxt x) (h : TailCircle nxt last l) :
    TailCircle nxt' last l :=
  ⟨h.last_eq, h.seg.congr hn, h.nodup⟩

theorem eq_nil_iff (h : TailCircle nxt last l) : last = none ↔ l = [] := by
  rw [h.last_eq]
  exact List.getLast?_eq_none_iff

theorem not_mem (h : TailCircle nxt last (a ++ x :: b)) : x ∉ a ∧ x ∉ b := by
  have hnd := List.nodup_append.mp h.nodup
  exact ⟨fun hm => hnd.2.2 x hm x List.mem_cons_self rfl, (List.nodup_cons.mp hnd.2.1).1⟩

theorem last_eq_some_iff (h : TailCircle nxt last (a ++ x :: b)) : last = some x ↔ b = [] := by
  rw [h.last_eq]
  refine ⟨fun he => ?_, fun he => by rw [he]; exact List.getLast?_concat⟩
  by_contra hb
  rw [List.append_cons, List.getLast?_append_of_ne_nil _ hb] at he
  exact h.not_mem.2 (List.mem_of_mem_getLast? he)

theorem next_eq (h : TailCircle nxt last (a ++ x :: b)) :
    nxt x = b.head?.or (a ++ x :: b).head? := h.seg.next_eq

/-- The last node is linked to the first. -/
theorem next_last (h : TailCircle nxt (some y) l) : nxt y = l.head? := by
  obtain ⟨a, rfl⟩ := List.getLast?_eq_some_iff.mp h.last_eq.symm
  exact h.next_eq

/-- The node after a position: that of the node passed last, or of the last one at the start. -/
theorem after_pos (h : TailCircle nxt last (a ++ x :: b)) :
    (a.getLast?.or last).bind nxt = some x := by
  rcases List.eq_nil_or_concat' a with rfl | ⟨a, y, rfl⟩
  · obtain ⟨z, hz⟩ : ∃ z, last = some z := by
      rw [← Option.isSome_iff_exists, h.last_eq]
      simp
    subst hz
    exact h.next_last
  · rw [List.getLast?_concat]
    rw [List.append_assoc] at h
    exact h.next_eq

/-- A circle goes round from each of its nodes. -/
theorem rotate (h : TailCircle nxt last (a ++ b)) : TailCircle nxt (b ++ a).getLast? (b ++ a) := by
  refine ⟨rfl, ?_, List.nodup_append_comm.mp h.nodup⟩
  rcases b with _ | ⟨y, b⟩
  · rw [List.append_nil] at h
    exact h.seg
  · obtain ⟨mid, ha, hb⟩ := Seg.append_iff.mp h.seg
    have hmid : mid = some y := hb.1
    subst hmid
    refine Seg.append_iff.mpr ⟨_, hb, ?_⟩
    rwa [List.cons_append, List.head?_cons]

variable [DecidableEq α]

theorem single : TailCircle (Function.update nxt x (some x)) (some x) [x] :=
  ⟨rfl, ⟨rfl, Function.update_self _ _ _⟩, List.nodup_singleton x⟩

/-- A new last node, which is linked to what the old one was linked to. -/
theorem append (h : TailCircle nxt (some y) l) (hx : x ∉ l) :
    TailCircle (Function.update (Function.update nxt x (nxt y)) y (some x)) (some x) (l ++ [x]) := by
  obtain ⟨a, rfl⟩ := List.getLast?_eq_some_iff.mp h.last_eq.symm
  have hxy : x ≠ y := fun e => hx (by simp [e])
  have hnd : (a ++ [y] ++ [x]).Nodup := by
    refine List.nodup_append.mpr ⟨h.nodup, List.nodup_singleton x, fun u hu v hv => ?_⟩
    rw [List.mem_singleton.mp hv]
    exact fun e => hx (e ▸ hu)
  refine ⟨List.getLast?_concat.symm, ?_, hnd⟩
  have hseg : Seg (Function.update nxt x (nxt y)) (a ++ [y]).head? (a ++ [y]) (a ++ [y]).head? :=
    h.seg.congr fun z hz => Function.update_of_ne (fun e : z = x => hx (e ▸ hz)) _ _
  have hnew : Seg (Function.update nxt x (nxt y)) (some x) [x] (a ++ [y]).head? :=
    ⟨rfl, (Function.update_self _ _ _).trans h.next_last⟩
  have hhead : (a ++ [y] ++ [x]).head? = (a ++ [y]).head? := by
    cases a <;> rfl
  rw [hhead, List.append_assoc]
  exact hseg.splice hnew (h.not_mem (b := [])).1 (by simpa using hxy.symm)

/-- A new node, after the first. -/
theorem second (h : TailCircle nxt last (y :: l)) (hx : x ∉ y :: l) :
    TailCircle (Function.update (Function.update nxt x (nxt y)) y (some x)) (y :: x :: l).getLast?
      (y :: x :: l) := by
  have hround : TailCircle nxt (l ++ [y]).getLast? (l ++ [y]) := rotate (a := [y]) h
  rw [List.getLast?_concat] at hround
  have hnew := hround.append fun hm => hx (by simpa [or_comm] using hm)
  rw [List.append_assoc] at hnew
  exact rotate hnew

/-- **Removal** of a node, where the one before it is known. -/
theorem remove (h : TailCircle nxt last (a ++ x :: b)) (hy : a.getLast?.or last = some y)
    (hne : a ++ b ≠ []) :
    TailCircle (Function.update nxt y (nxt x)) (if last = some x then some y else last) (a ++ b) := by
  have hlast := h.last_eq_some_iff
  have hsub : (a ++ b).Sublist (a ++ x :: b) := by simp
  have hnd := h.nodup.sublist hsub
  rcases List.eq_nil_or_concat' a with rfl | ⟨a, z, rfl⟩
  · -- the first node: the last one comes before it
    rw [List.nil_append] at hne hnd ⊢
    obtain ⟨b, rfl⟩ : ∃ b', b = b' ++ [y] :=
      List.getLast?_eq_some_iff.mp ((List.getLast?_append_of_ne_nil [x] hne).symm.trans
        (h.last_eq.symm.trans hy))
    have hyb : y ∉ b := fun hm => (List.nodup_append.mp hnd).2.2 y hm y (by simp) rfl
    have hx : nxt x = (b ++ [y]).head? := by
      rw [h.next_eq]
      cases b <;> rfl
    refine ⟨?_, ?_, hnd⟩
    · rw [if_neg (mt hlast.mp hne), List.getLast?_concat]
      exact hy
    · rw [hx]
      exact (hx ▸ h.seg.2 : Seg nxt (b ++ [y]).head? (b ++ [y]) (some x)).splice rfl hyb
        List.not_mem_nil
  · rw [List.getLast?_concat] at hy
    obtain rfl := Option.some.inj hy
    rw [List.append_assoc] at h hnd ⊢
    obtain ⟨-, hzb, hdis⟩ := List.nodup_append.mp hnd
    have hza : z ∉ a := fun hm => hdis z hm z List.mem_cons_self rfl
    have hhead : (a ++ ([z] ++ b)).head? = (a ++ ([z] ++ x :: b)).head? := by
      cases a <;> rfl
    refine ⟨?_, ?_, hnd⟩
    · split_ifs with hx
      · rw [hlast.mp hx, List.append_nil, List.getLast?_concat]
      · obtain ⟨u, c, rfl⟩ := List.exists_cons_of_ne_nil (mt hlast.mpr hx)
        rw [h.last_eq]
        simp [List.getLast?_append, List.getLast?_cons_cons]
    · rw [hhead]
      refine h.seg.splice ?_ hza (List.nodup_cons.mp hzb).1
      have hrest : Seg nxt (nxt z) (x :: b) (a ++ ([z] ++ x :: b)).head? := h.seg.drop
      exact hrest.2

end TailCircle

end Afabric
