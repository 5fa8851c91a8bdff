import Mathlib.Data.List.Perm.Basic

/-!
# Support — linked lists in a store

A store of nodes is read through two maps, `nxt` and `prv`, from a node to the node its link
points at (`none` for a null link).  `Linked nxt prv p l n` says that the nodes of `l`, in this
order, are doubly linked: the first one's `prv` is `p`, the last one's `nxt` is `n`, and
neighbours point at each other.  `DLL` closes such a run at both ends with a head and a tail
pointer; `SLL` is the singly linked chain a free list is.

`Linked` splits at every append (`Linked.append_iff`), so an update at a node is a fact about
the run that ends there or starts there (`Linked.setNext`, `Linked.setPrev`), and the rest of
the list is untouched (`Linked.congr`).  The two operations a list supports, `DLL.unlink` and
`DLL.insert`, follow.
-/

namespace Afabric

/-- A loop that has more fuel than it needs has some for a first round. -/
theorem exists_fuel {n fuel : ℕ} (h : n < fuel) : ∃ m, fuel = m + 1 :=
  ⟨fuel - 1, by omega⟩

variable {α : Type*} {nxt nxt' prv prv' : α → Option α}

/-! ### Runs of doubly linked nodes -/

/-- The nodes of the list are doubly linked, entered from `p` and left towards `n`. -/
def Linked (nxt prv : α → Option α) : Option α → List α → Option α → Prop
  | _, [], _ => True
  | p, x :: l, n => prv x = p ∧ nxt x = l.head?.or n ∧ Linked nxt prv (some x) l n

theorem getLast?_cons_or (x : α) (l : List α) (p : Option α) :
    ((x :: l).getLast?).or p = l.getLast?.or (some x) := by
  rw [List.getLast?_cons]
  cases l.getLast? <;> rfl

theorem Linked.append_iff {p n : Option α} {a b : List α} :
    Linked nxt prv p (a ++ b) n ↔
      Linked nxt prv p a (b.head?.or n) ∧ Linked nxt prv (a.getLast?.or p) b n := by
  induction a generalizing p with
  | nil => simp [Linked]
  | cons x a ih =>
      simp only [List.cons_append, Linked, ih, List.head?_append, Option.or_assoc,
        getLast?_cons_or, and_assoc]

/-- Links of nodes outside the run do not matter. -/
theorem Linked.congr {p n : Option α} {l : List α} (hn : ∀ x ∈ l, nxt' x = nxt x)
    (hp : ∀ x ∈ l, prv' x = prv x) (h : Linked nxt prv p l n) : Linked nxt' prv' p l n := by
  induction l generalizing p with
  | nil => trivial
  | cons x l ih =>
      obtain ⟨h₁, h₂, h₃⟩ := h
      refine ⟨by rw [hp x (by simp), h₁], by rw [hn x (by simp), h₂], ?_⟩
      exact ih (fun y hy => hn y (by simp [hy])) (fun y hy => hp y (by simp [hy])) h₃

section Update

variable [DecidableEq α]

/-- Redirecting the last node of a run. -/
theorem Linked.setNext {p n m : Option α} {l : List α} {y : α} (hy : l.getLast? = some y)
    (hd : l.Nodup) (h : Linked nxt prv p l n) :
    Linked (Function.update nxt y m) prv p l m := by
  obtain ⟨a, rfl⟩ := List.getLast?_eq_some_iff.mp hy
  rw [Linked.append_iff] at h ⊢
  obtain ⟨h₁, h₂, -, -⟩ := h
  have hya : y ∉ a := fun hm => (List.nodup_append.mp hd).2.2 y hm y (by simp) rfl
  refine ⟨?_, h₂, by simp, trivial⟩
  have hne : ∀ x ∈ a, x ≠ y := fun x hx e => hya (e ▸ hx)
  exact h₁.congr (fun x hx => Function.update_of_ne (hne x hx) _ _) fun _ _ => rfl

/-- Redirecting the first node of a run. -/
theorem Linked.setPrev {p q n : Option α} {l : List α} {z : α} (hd : (z :: l).Nodup)
    (h : Linked nxt prv p (z :: l) n) :
    Linked nxt (Function.update prv z q) q (z :: l) n := by
  obtain ⟨-, h₂, h₃⟩ := h
  have hz : z ∉ l := (List.nodup_cons.mp hd).1
  refine ⟨by simp, h₂, ?_⟩
  have hne : ∀ x ∈ l, x ≠ z := fun x hx e => hz (e ▸ hx)
  exact h₃.congr (fun _ _ => rfl) fun x hx => Function.update_of_ne (hne x hx) _ _

/-- `nxt` after the link out of `p`, when there is one, is set to `v`. -/
def setLink (m : α → Option α) (p v : Option α) : α → Option α :=
  match p with
  | some y => Function.update m y v
  | none => m

@[simp] theorem setLink_none (m : α → Option α) (v : Option α) : setLink m none v = m := rfl

@[simp] theorem setLink_some (m : α → Option α) (y : α) (v : Option α) :
    setLink m (some y) v = Function.update m y v := rfl

theorem setLink_of_ne {m : α → Option α} {p v : Option α} {x : α} (h : p ≠ some x) :
    setLink m p v x = m x := by
  cases p with
  | none => rfl
  | some y =>
      have hne : x ≠ y := fun e => h (congrArg some e.symm)
      exact Function.update_of_ne hne _ _

theorem Linked.setLink_next {p n m : Option α} {l : List α} (hd : l.Nodup)
    (h : Linked nxt prv p l n) : Linked (setLink nxt l.getLast? m) prv p l m := by
  cases e : l.getLast? with
  | none =>
      obtain rfl : l = [] := by simpa using e
      trivial
  | some y => exact h.setNext e hd

theorem Linked.setLink_prev {p q n : Option α} {l : List α} (hd : l.Nodup)
    (h : Linked nxt prv p l n) : Linked nxt (setLink prv l.head? q) q l n := by
  cases l with
  | nil => trivial
  | cons z l => exact h.setPrev hd

end Update

/-! ### Lists with a head and a tail pointer -/

/-- The first element of a list whose second part changes. -/
theorem ite_getLast?_head? (a b c : List α) :
    (if a.getLast? = none then c.head? else (a ++ b).head?) = (a ++ c).head? := by
  cases a with
  | nil => simp
  | cons y a => simp

/-- The last element of a list whose first part changes. -/
theorem ite_head?_getLast? (a b c : List α) :
    (if b.head? = none then c.getLast? else (a ++ b).getLast?) = (c ++ b).getLast? := by
  cases b with
  | nil => simp
  | cons z b =>
      rw [List.getLast?_append_of_ne_nil a (List.cons_ne_nil z b),
        List.getLast?_append_of_ne_nil c (List.cons_ne_nil z b)]
      exact if_neg (by simp)

/-- `l` is the doubly linked list between `hd` and `tl`. -/
structure DLL (nxt prv : α → Option α) (hd tl : Option α) (l : List α) : Prop where
  head_eq : hd = l.head?
  tail_eq : tl = l.getLast?
  linked : Linked nxt prv none l none
  nodup : l.Nodup

namespace DLL

variable {hd tl : Option α} {a b l : List α} {x : α}

theorem nil : DLL nxt prv none none ([] : List α) := ⟨rfl, rfl, trivial, List.nodup_nil⟩

theorem congr (hn : ∀ x ∈ l, nxt' x = nxt x) (hp : ∀ x ∈ l, prv' x = prv x)
    (h : DLL nxt prv hd tl l) : DLL nxt' prv' hd tl l :=
  ⟨h.head_eq, h.tail_eq, h.linked.congr hn hp, h.nodup⟩

/-- The links of a node in the middle. -/
theorem links (h : DLL nxt prv hd tl (a ++ x :: b)) :
    nxt x = b.head? ∧ prv x = a.getLast? := by
  have := (Linked.append_iff.mp h.linked).2
  simp only [Linked, Option.or_none] at this
  exact ⟨this.2.1, this.1⟩

theorem not_mem (h : DLL nxt prv hd tl (a ++ x :: b)) : x ∉ a ∧ x ∉ b := by
  have hnd := List.nodup_append.mp h.nodup
  exact ⟨fun hm => hnd.2.2 x hm x (by simp) rfl, (List.nodup_cons.mp hnd.2.1).1⟩

theorem eq_nil_iff (h : DLL nxt prv hd tl l) : hd = none ↔ l = [] := by
  rw [h.head_eq]; simp

variable [DecidableEq α]

/-- **Removal.**  The node before `x` is linked to the one after it; at an end of the list the
head or the tail pointer moves. -/
theorem unlink (h : DLL nxt prv hd tl (a ++ x :: b)) :
    DLL (setLink nxt (prv x) (nxt x)) (setLink prv (nxt x) (prv x))
      (if prv x = none then nxt x else hd) (if nxt x = none then prv x else tl) (a ++ b) := by
  obtain ⟨hnx, hpx⟩ := h.links
  rw [hnx, hpx]
  have hnd := h.nodup
  have hndab : (a ++ b).Nodup := hnd.sublist (by simp)
  obtain ⟨hna, hnb, hab⟩ := List.nodup_append.mp hndab
  obtain ⟨hla, -, -, hlb⟩ := Linked.append_iff.mp h.linked
  refine ⟨?_, ?_, ?_, hndab⟩
  · rw [h.head_eq, ite_getLast?_head?]
  · rw [h.tail_eq, List.append_cons, ite_head?_getLast?]
  · rw [Linked.append_iff]
    have hfa : ∀ y ∈ a, b.head? ≠ some y := fun y hy e =>
      hab y hy y (List.mem_of_mem_head? e) rfl
    have hfb : ∀ z ∈ b, a.getLast? ≠ some z := fun z hz e =>
      hab z (List.mem_of_mem_getLast? e) z hz rfl
    constructor
    · refine (hla.setLink_next (m := b.head?.or none) hna).congr (fun y hy => ?_) fun y hy => ?_
      · rw [Option.or_none]
      · exact setLink_of_ne (hfa y hy)
    · refine (hlb.setLink_prev (q := a.getLast?.or none) hnb).congr (fun z hz => ?_)
        fun z hz => ?_
      · exact setLink_of_ne (hfb z hz)
      · rw [Option.or_none]

/-- **Insertion.**  A node outside the list, linked between the last node of `a` and the first
of `b`, with its neighbours redirected to it. -/
theorem insert (h : DLL nxt prv hd tl (a ++ b)) (hx : x ∉ a ++ b) (hnx : nxt x = b.head?)
    (hpx : prv x = a.getLast?) :
    DLL (setLink nxt a.getLast? (some x)) (setLink prv b.head? (some x))
      (if a.getLast? = none then some x else hd) (if b.head? = none then some x else tl)
      (a ++ x :: b) := by
  have hndab := h.nodup
  obtain ⟨hna, hnb, hab⟩ := List.nodup_append.mp hndab
  obtain ⟨hla, hlb⟩ := Linked.append_iff.mp h.linked
  have hxa : x ∉ a := fun hm => hx (by simp [hm])
  have hxb : x ∉ b := fun hm => hx (by simp [hm])
  have hfa : ∀ y ∈ a, b.head? ≠ some y := fun y hy e =>
    hab y hy y (List.mem_of_mem_head? e) rfl
  have hfb : ∀ z ∈ b, a.getLast? ≠ some z := fun z hz e =>
    hab z (List.mem_of_mem_getLast? e) z hz rfl
  have hxl : some x = (a ++ [x]).getLast? := List.getLast?_concat.symm
  refine ⟨?_, ?_, ?_, ?_⟩
  · rw [h.head_eq]
    exact ite_getLast?_head? a b (x :: b)
  · rw [h.tail_eq, hxl, ite_head?_getLast?, ← List.append_cons]
  · rw [Linked.append_iff]
    refine ⟨?_, ?_, ?_, ?_⟩
    · exact (hla.setLink_next (m := some x) hna).congr (fun _ _ => rfl)
        fun y hy => setLink_of_ne (hfa y hy)
    · rw [setLink_of_ne fun e => hxb (List.mem_of_mem_head? e), hpx, Option.or_none]
    · rw [setLink_of_ne fun e => hxa (List.mem_of_mem_getLast? e), hnx, Option.or_none]
    · exact (hlb.setLink_prev (q := some x) hnb).congr
        (fun z hz => setLink_of_ne (hfb z hz)) fun _ _ => rfl
  · refine List.nodup_append.mpr ⟨hna, List.nodup_cons.mpr ⟨hxb, hnb⟩, fun y hy z hz => ?_⟩
    rcases List.mem_cons.mp hz with rfl | hz
    · exact fun e => hxa (e ▸ hy)
    · exact hab y hy z hz

end DLL

/-! ### Singly linked chains -/

/-- `l` is the chain that starts at `hd` and ends in a null link. -/
def SLL (nxt : α → Option α) : Option α → List α → Prop
  | hd, [] => hd = none
  | hd, x :: l => hd = some x ∧ SLL nxt (nxt x) l

theorem SLL.congr {hd : Option α} {l : List α} (hn : ∀ x ∈ l, nxt' x = nxt x)
    (h : SLL nxt hd l) : SLL nxt' hd l := by
  induction l generalizing hd with
  | nil => exact h
  | cons x l ih =>
      refine ⟨h.1, ?_⟩
      rw [hn x (by simp)]
      exact ih (fun y hy => hn y (by simp [hy])) h.2

/-- The forward links of a doubly linked run. -/
theorem Linked.sll {p : Option α} {l : List α} (h : Linked nxt prv p l none) :
    SLL nxt l.head? l := by
  induction l generalizing p with
  | nil => rfl
  | cons x l ih =>
      obtain ⟨-, h₂, h₃⟩ := h
      refine ⟨rfl, ?_⟩
      rw [h₂, Option.or_none]
      exact ih h₃

theorem SLL.unique {hd : Option α} {l l' : List α} (h : SLL nxt hd l) (h' : SLL nxt hd l') :
    l = l' := by
  induction l generalizing hd l' with
  | nil =>
      cases l' with
      | nil => rfl
      | cons y l' => exact absurd (h.symm.trans h'.1) (by simp)
  | cons x l ih =>
      cases l' with
      | nil => exact absurd (h'.symm.trans h.1) (by simp)
      | cons y l' =>
          obtain rfl : x = y := Option.some.inj (h.1.symm.trans h'.1)
          rw [ih h.2 h'.2]

/-- The pointers determine the list. -/
theorem DLL.unique {hd tl : Option α} {l l' : List α} (h : DLL nxt prv hd tl l)
    (h' : DLL nxt prv hd tl l') : l = l' :=
  SLL.unique (h.head_eq ▸ h.linked.sll) (h'.head_eq ▸ h'.linked.sll)

end Afabric
