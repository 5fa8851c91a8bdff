import Afabric.Support.Links
import Mathlib.Data.List.Nodup

/-!
# Support — queues of singly linked nodes

`Seg nxt hd l stop` says that the links lead from `hd` through the nodes of `l` to `stop`; a chain
to the end is one to `none`.  `SLQ nxt hd tl l` says that the nodes of `l` are chained from `hd` and
that `tl` is the last of them.  A scan from the head (`walk`) stops at the first node it looks for,
with the node before it; redirecting that node (`Seg.splice`) takes a node out (`SLQ.removeAfter`)
or puts one in (`SLQ.insertAfter`, `SLQ.append`).
-/

namespace Afabric

variable {α : Type*} {nxt nxt' : α → Option α} {hd tl p prev stop stop' : Option α}
  {a b c l : List α} {x y : α}

/-- From `hd` the links lead through the nodes of `l` to `stop`. -/
def Seg (nxt : α → Option α) : Option α → List α → Option α → Prop
  | hd, [], stop => hd = stop
  | hd, x :: l, stop => hd = some x ∧ Seg nxt (nxt x) l stop

namespace Seg

theorem congr (hn : ∀ x ∈ l, nxt' x = nxt x) (h : Seg nxt hd l stop) : Seg nxt' hd l stop := by
  induction l generalizing hd with
  | nil => exact h
  | cons x l ih =>
      refine ⟨h.1, ?_⟩
      rw [hn x List.mem_cons_self]
      exact ih (fun y hy => hn y (List.mem_cons_of_mem x hy)) h.2

theorem drop (h : Seg nxt hd (a ++ x :: b) stop) : Seg nxt (nxt x) b stop := by
  induction a generalizing hd with
  | nil => exact h.2
  | cons y a ih => exact ih h.2

theorem head_eq (h : Seg nxt hd l stop) : hd = l.head?.or stop := by
  cases l with
  | nil => exact h
  | cons x l => exact h.1

theorem next_eq (h : Seg nxt hd (a ++ x :: b) stop) : nxt x = b.head?.or stop := h.drop.head_eq

theorem append_iff : Seg nxt hd (a ++ b) stop ↔ ∃ mid, Seg nxt hd a mid ∧ Seg nxt mid b stop := by
  induction a generalizing hd with
  | nil =>
      constructor
      · exact fun h => ⟨hd, rfl, h⟩
      · rintro ⟨mid, rfl, h⟩
        exact h
  | cons x a ih =>
      constructor
      · rintro ⟨hx, h⟩
        obtain ⟨mid, ha, hb⟩ := ih.mp h
        exact ⟨mid, ⟨hx, ha⟩, hb⟩
      · rintro ⟨mid, ⟨hx, ha⟩, hb⟩
        exact ⟨hx, ih.mpr ⟨mid, ha, hb⟩⟩

/-- Past one of its nodes a segment can be led on to another. -/
theorem splice [DecidableEq α] (h : Seg nxt hd (a ++ y :: c) stop) (hb : Seg nxt p b stop')
    (hya : y ∉ a) (hyb : y ∉ b) : Seg (Function.update nxt y p) hd (a ++ y :: b) stop' := by
  induction a generalizing hd with
  | nil =>
      refine ⟨h.1, ?_⟩
      rw [Function.update_self]
      refine hb.congr fun z hz => Function.update_of_ne ?_ _ _
      rintro rfl
      exact hyb hz
  | cons z a ih =>
      have hne : z ≠ y := fun e => hya (by rw [e]; exact List.mem_cons_self)
      refine ⟨h.1, ?_⟩
      rw [Function.update_of_ne hne]
      exact ih h.2 fun hm => hya (List.mem_cons_of_mem _ hm)

end Seg

/-! ### Chains to the end -/

theorem sll_iff_seg : SLL nxt hd l ↔ Seg nxt hd l none := by
  induction l generalizing hd with
  | nil => exact Iff.rfl
  | cons x l ih => exact and_congr Iff.rfl ih

theorem SLL.head_eq (h : SLL nxt hd l) : hd = l.head? := by
  rw [(sll_iff_seg.mp h).head_eq, Option.or_none]

theorem SLL.drop (h : SLL nxt hd (a ++ x :: b)) : SLL nxt (nxt x) b :=
  sll_iff_seg.mpr (sll_iff_seg.mp h).drop

/-- The link of a node in the middle. -/
theorem SLL.next_eq (h : SLL nxt hd (a ++ x :: b)) : nxt x = b.head? := h.drop.head_eq

theorem SLL.splice [DecidableEq α] (h : SLL nxt hd (a ++ y :: c)) (hb : SLL nxt p b) (hya : y ∉ a)
    (hyb : y ∉ b) : SLL (Function.update nxt y p) hd (a ++ y :: b) :=
  sll_iff_seg.mpr ((sll_iff_seg.mp h).splice (sll_iff_seg.mp hb) hya hyb)

/-! ### Scans -/

/-- `for (p = hd; p; prev = p, p = p->next) if (found(p)) return`, with `p` and `prev` at its end. -/
def walk (nxt : α → Option α) (found : α → Bool) : ℕ → Option α → Option α →
    Option (Option α × Option α)
  | 0, _, _ => none
  | _ + 1, none, prev => some (none, prev)
  | fuel + 1, some x, prev =>
      if found x then some (some x, prev) else walk nxt found fuel (nxt x) (some x)

theorem walk_found {found : α → Bool} {fuel : ℕ} (h : SLL nxt hd (a ++ x :: b))
    (ha : ∀ y ∈ a, found y = false) (hx : found x = true) (hf : a.length < fuel) :
    walk nxt found fuel hd prev = some (some x, a.getLast?.or prev) := by
  induction a generalizing hd prev fuel with
  | nil =>
      obtain ⟨f, rfl⟩ := exists_fuel hf
      obtain ⟨rfl, -⟩ := h
      rw [walk, if_pos hx]
      rfl
  | cons y a ih =>
      obtain ⟨f, rfl⟩ := exists_fuel hf
      obtain ⟨rfl, hn⟩ := h
      rw [List.length_cons] at hf
      have hy : ¬ found y = true := by rw [ha y List.mem_cons_self]; exact Bool.false_ne_true
      rw [walk, if_neg hy, ih hn (fun z hz => ha z (List.mem_cons_of_mem _ hz)) (by omega),
        getLast?_cons_or]

theorem walk_none {found : α → Bool} {fuel : ℕ} (h : SLL nxt hd l)
    (hl : ∀ y ∈ l, found y = false) (hf : l.length < fuel) :
    walk nxt found fuel hd prev = some (none, l.getLast?.or prev) := by
  induction l generalizing hd prev fuel with
  | nil =>
      obtain ⟨f, rfl⟩ := exists_fuel hf
      cases h
      rfl
  | cons y l ih =>
      obtain ⟨f, rfl⟩ := exists_fuel hf
      obtain ⟨rfl, hn⟩ := h
      rw [List.length_cons] at hf
      have hy : ¬ found y = true := by rw [hl y List.mem_cons_self]; exact Bool.false_ne_true
      rw [walk, if_neg hy, ih hn (fun z hz => hl z (List.mem_cons_of_mem _ hz)) (by omega),
        getLast?_cons_or]

/-! ### Queues -/

structure SLQ (nxt : α → Option α) (hd tl : Option α) (l : List α) : Prop where
  chain : SLL nxt hd l
  tail_eq : tl = l.getLast?
  nodup : l.Nodup

namespace SLQ

theorem nil : SLQ nxt none none ([] : List α) := ⟨rfl, rfl, List.nodup_nil⟩

theorem congr (hn : ∀ x ∈ l, nxt' x = nxt x) (h : SLQ nxt hd tl l) : SLQ nxt' hd tl l :=
  ⟨h.chain.congr hn, h.tail_eq, h.nodup⟩

theorem unique {l' : List α} (h : SLQ nxt hd tl l) (h' : SLQ nxt hd tl l') : l = l' :=
  h.chain.unique h'.chain

theorem head_eq (h : SLQ nxt hd tl l) : hd = l.head? := h.chain.head_eq

theorem not_mem (h : SLQ nxt hd tl (a ++ x :: b)) : x ∉ a ∧ x ∉ b := by
  have hnd := List.nodup_append.mp h.nodup
  exact ⟨fun hm => hnd.2.2 x hm x List.mem_cons_self rfl, (List.nodup_cons.mp hnd.2.1).1⟩

theorem head_eq_some_iff (h : SLQ nxt hd tl (a ++ x :: b)) : hd = some x ↔ a = [] := by
  rw [h.head_eq]
  refine ⟨fun he => ?_, fun he => by rw [he]; rfl⟩
  cases a with
  | nil => rfl
  | cons y a =>
      obtain rfl := Option.some.inj he
      exact absurd List.mem_cons_self h.not_mem.1

theorem tail_eq_some_iff (h : SLQ nxt hd tl (a ++ x :: b)) : tl = some x ↔ b = [] := by
  rw [h.tail_eq]
  refine ⟨fun he => ?_, fun he => by rw [he]; exact List.getLast?_concat⟩
  by_contra hb
  rw [List.append_cons, List.getLast?_append_of_ne_nil _ hb] at he
  exact h.not_mem.2 (List.mem_of_mem_getLast? he)

/-- The head is the tail of no other queue than that of at most one node. -/
theorem head_eq_tail_iff (h : SLQ nxt hd tl l) : hd = tl ↔ l.tail = [] := by
  rw [h.head_eq, h.tail_eq]
  cases l with
  | nil => simp
  | cons x l =>
      rw [List.head?_cons, List.tail_cons, List.getLast?_cons, Option.some_inj]
      refine ⟨fun he => ?_, fun he => by rw [he]; rfl⟩
      by_contra hl
      obtain ⟨y, hy⟩ : ∃ y, l.getLast? = some y := ⟨_, List.getLast?_eq_some_getLast hl⟩
      rw [hy, Option.getD_some] at he
      exact (List.nodup_cons.mp h.nodup).1 (he ▸ List.mem_of_mem_getLast? hy)

theorem removeHead (h : SLQ nxt hd tl (x :: b)) (hb : b ≠ []) : SLQ nxt (nxt x) tl b where
  chain := h.chain.2
  tail_eq := by
    rw [h.tail_eq]
    cases b with
    | nil => exact absurd rfl hb
    | cons y b => exact List.getLast?_cons_cons
  nodup := (List.nodup_cons.mp h.nodup).2

variable [DecidableEq α]

/-- **Removal** of the node after `y`. -/
theorem removeAfter (h : SLQ nxt hd tl (a ++ y :: x :: b)) :
    SLQ (Function.update nxt y (nxt x)) hd (if b = [] then some y else tl) (a ++ y :: b) := by
  have hnd := h.nodup
  have hsub : (a ++ y :: b).Sublist (a ++ y :: x :: b) := by simp
  have hnd' := hnd.sublist hsub
  obtain ⟨-, hny, hay⟩ := List.nodup_append.mp hnd'
  have hya : y ∉ a := fun hm => hay y hm y List.mem_cons_self rfl
  refine ⟨h.chain.splice ?_ hya (List.nodup_cons.mp hny).1, ?_, hnd'⟩
  · rw [List.append_cons] at h
    exact h.chain.drop
  · rw [h.tail_eq]
    split_ifs with hb
    · rw [hb]
      exact List.getLast?_concat.symm
    · obtain ⟨z, c, rfl⟩ := List.exists_cons_of_ne_nil hb
      simp [List.getLast?_append, List.getLast?_cons_cons]

/-- **Insertion** after `y`. -/
theorem insertAfter (h : SLQ nxt hd tl (a ++ y :: b)) (hx : x ∉ a ++ y :: b) :
    SLQ (Function.update (Function.update nxt x (nxt y)) y (some x)) hd
      (if tl = some y then some x else tl) (a ++ y :: x :: b) := by
  obtain ⟨hxa, hxb⟩ : x ∉ a ∧ x ∉ y :: b := ⟨fun hm => hx (List.mem_append_left _ hm),
    fun hm => hx (List.mem_append_right _ hm)⟩
  have hxy : x ≠ y := fun e => hxb (e ▸ List.mem_cons_self)
  have hb := h.not_mem.2
  have hchain : SLL (Function.update nxt x (nxt y)) hd (a ++ y :: b) :=
    h.chain.congr fun z hz => Function.update_of_ne (fun e => hx (by rwa [← e])) _ _
  have hnew : SLL (Function.update nxt x (nxt y)) (some x) (x :: b) := by
    refine ⟨rfl, ?_⟩
    rw [Function.update_self]
    refine h.chain.drop.congr fun z hz => Function.update_of_ne ?_ _ _
    exact fun e => hxb (List.mem_cons_of_mem y (e ▸ hz))
  refine ⟨hchain.splice hnew h.not_mem.1 fun hm => ?_, ?_, ?_⟩
  · rcases List.mem_cons.mp hm with he | hm
    · exact hxy he.symm
    · exact hb hm
  · have hiff := h.tail_eq_some_iff
    by_cases hnil : b = []
    · rw [if_pos (hiff.mpr hnil), hnil]
      simp
    · rw [if_neg fun he => hnil (hiff.mp he), h.tail_eq]
      obtain ⟨z, c, rfl⟩ := List.exists_cons_of_ne_nil hnil
      simp [List.getLast?_append, List.getLast?_cons_cons]
  · have hperm : (a ++ y :: x :: b).Perm (x :: (a ++ y :: b)) := by
      rw [List.append_cons, List.append_cons a y b]
      exact List.perm_middle
    exact hperm.nodup_iff.mpr (List.nodup_cons.mpr ⟨hx, h.nodup⟩)

/-- **Insertion** at the end. -/
theorem append (h : SLQ nxt hd tl l) (hx : x ∉ l) (hnx : nxt x = none) :
    SLQ (setLink nxt tl (some x)) (if hd = none then some x else hd) (some x) (l ++ [x]) := by
  have hnd : (l ++ [x]).Nodup := by
    refine List.nodup_append.mpr ⟨h.nodup, List.nodup_singleton x, fun u hu v hv => ?_⟩
    rw [List.mem_singleton.mp hv]
    exact fun e => hx (e ▸ hu)
  refine ⟨?_, List.getLast?_concat.symm, hnd⟩
  rw [h.head_eq, h.tail_eq]
  rcases List.eq_nil_or_concat' l with rfl | ⟨a, y, rfl⟩
  · exact ⟨rfl, hnx⟩
  · have hne : ¬ (a ++ [y]).head? = none := by simp
    have hya : y ∉ a := fun hm => (List.nodup_append.mp h.nodup).2.2 y hm y (by simp) rfl
    rw [if_neg hne, List.getLast?_concat, setLink_some, ← h.head_eq, List.append_assoc]
    refine h.chain.splice (c := []) ⟨rfl, hnx⟩ hya fun hm => ?_
    rw [List.mem_singleton.mp hm] at hx
    exact hx (by simp)

end SLQ

end Afabric
