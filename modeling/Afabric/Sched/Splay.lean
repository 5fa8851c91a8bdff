import Afabric.Sched.EventList
import Afabric.Support.SearchTree

/-!
# Sched — `SplayScheduler`

The events are in a binary search tree (`common/splay-scheduler.cc`), on `prev_` and `next_` as
left and right pointers.  `insert` splits the tree at the time of the new event, which becomes the
root, by the top-down splaying of Sleator and Tarjan; `deque` removes the leftmost event and rotates
on its way; `cancel` searches for an event by time and number.

In-order, the tree is the event list (`splayScheduler_refines`).
-/

namespace Afabric

open SearchTree

/-- A `SplayScheduler`. -/
structure SplayTree where
  root : SearchTree Event
  qsize : Int

namespace SplayTree

def init : SplayTree := ⟨nil, 0⟩

/-- The loop of `insert`: what is left of the tree, and the edges of the left and the right tree
from below.  A rotation comes before a link of two nodes in one direction. -/
def splayLoop (time : ℚ) : SearchTree Event → List (SearchTree Event × Event) →
    List (Event × SearchTree Event) → SearchTree Event × SearchTree Event
  | nil, L, R => (attachLeft L nil, attachRight R nil)
  | node a t b, L, R =>
      if time < t.time then
        match a with
        | nil => (attachLeft L nil, attachRight R (node nil t b))
        | node a₁ x a₂ =>
            if time < x.time then splayLoop time a₁ L ((x, node a₂ t b) :: R)
            else splayLoop time (node a₁ x a₂) L ((t, b) :: R)
      else
        match b with
        | nil => (attachLeft L (node a t nil), attachRight R nil)
        | node b₁ x b₂ =>
            if x.time ≤ time then splayLoop time b₂ ((node a t b₁, x) :: L) R
            else splayLoop time (node b₁ x b₂) ((a, t) :: L) R

/-- `insert`. -/
def insert (s : SplayTree) (n : Event) : SplayTree :=
  match s.root with
  | nil => ⟨node nil n nil, s.qsize + 1⟩
  | t =>
      let r := splayLoop n.time t [] []
      ⟨node r.1 n r.2, s.qsize + 1⟩

/-- `head`. -/
def head (s : SplayTree) : Option Event := s.root.leftmost

/-- The loop of `deque` at a left child: the event, and what hangs in the place of the child. -/
def dequeLoop (ll : SearchTree Event) (l : Event) (r : SearchTree Event) :
    Event × SearchTree Event :=
  match ll with
  | nil => (l, r)
  | node nil e₂ r₂ => (e₂, node r₂ l r)
  | node (node lll e₃ r₃) e₂ r₂ =>
      let p := dequeLoop lll e₃ r₃
      (p.1, node p.2 e₂ (node r₂ l r))

/-- `deque`. -/
def deque (s : SplayTree) : Option Event × SplayTree :=
  match s.root with
  | nil => (none, s)
  | node nil t r => (some t, ⟨r, s.qsize - 1⟩)
  | node (node ll l r') t r =>
      let p := dequeLoop ll l r'
      (some p.1, ⟨node p.2 t r, s.qsize - 1⟩)

/-- What takes the place of a removed node with these children. -/
def unlink : SearchTree Event → SearchTree Event → SearchTree Event
  | l, nil => l
  | nil, r => r
  | l, node nil p r => node l p r
  | l, node (node a q b) p r =>
      let m := unlinkMin a q b
      node l m.1 (node m.2 p r)

/-- The search of `cancel`, which aborts if the event is not found. -/
def cancelIn (e : Event) : SearchTree Event → Option (SearchTree Event)
  | nil => none
  | node a t b =>
      if t.obj = e.obj then some (unlink a b)
      else if t.time < e.time ∨ e.time = t.time ∧ t.uid < e.uid then
        (cancelIn e b).map fun b => node a t b
      else (cancelIn e a).map fun a => node a t b

/-- `cancel` of an event with a number. -/
def cancel (s : SplayTree) (e : Event) : Option SplayTree :=
  (cancelIn e s.root).map fun t => ⟨t, s.qsize - 1⟩

end SplayTree

/-- The operations of a `SplayScheduler`. -/
def splayScheduler : EventQueue SplayTree where
  init := .init
  insert := fun s e => some (s.insert e)
  cancel := fun s e => s.cancel e
  deque := fun s => some s.deque

/-! ### The tree and the list -/

namespace SplayTree

/-- The traversal is in order of time. -/
abbrev Timed (t : SearchTree Event) : Prop := t.inorder.Pairwise fun x y => x.time ≤ y.time

theorem Timed.left {a b : SearchTree Event} {t : Event} (h : Timed (node a t b)) : Timed a :=
  (List.pairwise_append.mp h).1

theorem Timed.right {a b : SearchTree Event} {t : Event} (h : Timed (node a t b)) : Timed b :=
  (List.pairwise_cons.mp (List.pairwise_append.mp h).2.1).2

theorem Timed.above {a b : SearchTree Event} {t : Event} (h : Timed (node a t b)) {time : ℚ}
    (ht : time < t.time) : ∀ x ∈ t :: b.inorder, time < x.time := by
  intro x hx
  rcases List.mem_cons.mp hx with rfl | hx
  · exact ht
  · exact ht.trans_le ((List.pairwise_cons.mp (List.pairwise_append.mp h).2.1).1 x hx)

theorem Timed.below {a b : SearchTree Event} {t : Event} (h : Timed (node a t b)) {time : ℚ}
    (ht : t.time ≤ time) : ∀ x ∈ a.inorder ++ [t], x.time ≤ time := by
  intro x hx
  rcases List.mem_append.mp hx with hx | hx
  · exact ((List.pairwise_append.mp h).2.2 x hx t List.mem_cons_self).trans ht
  · exact List.mem_singleton.mp hx ▸ ht

theorem forall_mem_append {P : Event → Prop} {u v : List Event} (hu : ∀ x ∈ u, P x)
    (hv : ∀ x ∈ v, P x) : ∀ x ∈ u ++ v, P x := fun x hx =>
  (List.mem_append.mp hx).elim (hu x) (hv x)

/-- The loop cuts the traversal at the given time. -/
theorem splayLoop_spec (time : ℚ) (t : SearchTree Event) (L : List (SearchTree Event × Event))
    (R : List (Event × SearchTree Event)) (ht : Timed t)
    (hL : ∀ x ∈ (attachLeft L nil).inorder, x.time ≤ time)
    (hR : ∀ x ∈ (attachRight R nil).inorder, time < x.time) :
    (splayLoop time t L R).1.inorder ++ (splayLoop time t L R).2.inorder
        = (attachLeft L nil).inorder ++ t.inorder ++ (attachRight R nil).inorder ∧
      (∀ x ∈ (splayLoop time t L R).1.inorder, x.time ≤ time) ∧
      ∀ x ∈ (splayLoop time t L R).2.inorder, time < x.time := by
  fun_induction splayLoop time t L R with
  | case1 L R => exact ⟨by simp, hL, hR⟩
  | case2 t b L R h =>
      rw [inorder_attachRight]
      exact ⟨by simp, hL, forall_mem_append (ht.above h) hR⟩
  | case3 t b L R h a₁ x a₂ hx ih =>
      obtain ⟨he, hl, hr⟩ := ih ht.left.left hL (by
        rw [attachRight, inorder_attachRight]
        exact forall_mem_append
          (forall_mem_append (u := x :: a₂.inorder) (ht.left.above hx) (ht.above h)) hR)
      refine ⟨he.trans ?_, hl, hr⟩
      rw [attachRight, inorder_attachRight]
      simp
  | case4 t b L R h a₁ x a₂ hx ih =>
      obtain ⟨he, hl, hr⟩ := ih ht.left hL (by
        rw [attachRight, inorder_attachRight]
        exact forall_mem_append (ht.above h) hR)
      refine ⟨he.trans ?_, hl, hr⟩
      rw [attachRight, inorder_attachRight]
      simp
  | case5 a t L R h =>
      rw [inorder_attachLeft]
      exact ⟨by simp, forall_mem_append hL (ht.below (not_lt.mp h)), hR⟩
  | case6 a t L R h b₁ x b₂ hx ih =>
      obtain ⟨he, hl, hr⟩ := ih ht.right.right (by
        rw [attachLeft, inorder_attachLeft]
        have := forall_mem_append (ht.below (not_lt.mp h)) (ht.right.below hx)
        exact forall_mem_append hL (by simpa using this)) hR
      refine ⟨he.trans ?_, hl, hr⟩
      rw [attachLeft, inorder_attachLeft]
      simp
  | case7 a t L R h b₁ x b₂ hx ih =>
      obtain ⟨he, hl, hr⟩ := ih ht.right (by
        rw [attachLeft, inorder_attachLeft]
        exact forall_mem_append hL (ht.below (not_lt.mp h))) hR
      refine ⟨he.trans ?_, hl, hr⟩
      rw [attachLeft, inorder_attachLeft]
      simp

theorem insert_inorder (s : SplayTree) (n : Event) (hs : Timed s.root) :
    (s.insert n).root.inorder = ListScheduler.insert n s.root.inorder := by
  obtain ⟨root, qsize⟩ := s
  cases root with
  | nil => rfl
  | node a t b =>
      obtain ⟨he, hl, hr⟩ := splayLoop_spec n.time (node a t b) [] [] hs (by simp [attachLeft])
        (by simp [attachRight])
      show _ ++ n :: _ = _
      rw [← ListScheduler.insert_append hl hr, he]
      simp [attachLeft, attachRight]

theorem dequeLoop_spec (ll : SearchTree Event) (l : Event) (r : SearchTree Event) :
    (dequeLoop ll l r).1 :: (dequeLoop ll l r).2.inorder = (node ll l r).inorder := by
  fun_induction dequeLoop ll l r with
  | case1 => rfl
  | case2 => simp
  | case3 l r lll e₃ r₃ e₂ r₂ p ih =>
      rw [inorder, inorder, ← List.cons_append, ih]
      simp

theorem deque_inorder (s : SplayTree) :
    s.deque.1 = s.root.inorder.head? ∧ s.deque.2.root.inorder = s.root.inorder.tail := by
  obtain ⟨root, qsize⟩ := s
  match root with
  | nil => exact ⟨rfl, rfl⟩
  | node nil t r => exact ⟨rfl, rfl⟩
  | node (node ll l r') t r =>
      have h := dequeLoop_spec ll l r'
      rw [inorder, ← h]
      exact ⟨rfl, rfl⟩

theorem unlink_inorder (l r : SearchTree Event) :
    (unlink l r).inorder = l.inorder ++ r.inorder := by
  fun_cases unlink l r with
  | case1 => simp
  | case2 => simp
  | case3 => simp
  | case4 l a q b p r hl m =>
      have hm := inorder_unlinkMin a q b
      calc l.inorder ++ m.1 :: (m.2.inorder ++ p :: r.inorder)
          = l.inorder ++ ((m.1 :: m.2.inorder) ++ p :: r.inorder) := rfl
        _ = l.inorder ++ ((node a q b).inorder ++ p :: r.inorder) := by rw [hm]

/-- The search finds a pending event, and the traversal loses it. -/
theorem cancelIn_spec {e : Event} {t : SearchTree Event} (he : e ∈ t.inorder)
    (hs : t.inorder.Pairwise Event.Before) (ho : t.inorder.Pairwise fun x y => x.obj ≠ y.obj) :
    ∃ t', cancelIn e t = some t' ∧ t'.inorder = t.inorder.erase e := by
  induction t with
  | nil => simp at he
  | node a t b iha ihb =>
      have hs' := List.pairwise_append.mp hs
      have ho' := List.pairwise_append.mp ho
      have hsb := List.pairwise_cons.mp hs'.2.1
      have hob := List.pairwise_cons.mp ho'.2.1
      have hna : e ∈ t :: b.inorder → e ∉ a.inorder := fun hb ha =>
        Event.Before.irrefl e (hs'.2.2 e ha e hb)
      rw [cancelIn]
      rcases List.mem_append.mp he with ha | hb
      · have hbefore : e.Before t := hs'.2.2 e ha t List.mem_cons_self
        have hobj : ¬ t.obj = e.obj := fun h => ho'.2.2 e ha t List.mem_cons_self h.symm
        have hdir : ¬ (t.time < e.time ∨ e.time = t.time ∧ t.uid < e.uid) := fun h =>
          hbefore.asymm (h.imp_right fun h => ⟨h.1.symm, h.2⟩)
        obtain ⟨a', ha', hin⟩ := iha ha hs'.1 ho'.1
        refine ⟨node a' t b, by rw [if_neg hobj, if_neg hdir, ha']; rfl, ?_⟩
        rw [inorder, inorder, hin, List.erase_append_left _ ha]
      · rw [inorder, List.erase_append_right _ (hna hb)]
        rcases List.mem_cons.mp hb with rfl | hb
        · exact ⟨_, if_pos rfl, by rw [unlink_inorder, List.erase_cons_head]⟩
        · have hbefore : t.Before e := hsb.1 e hb
          have hdir : t.time < e.time ∨ e.time = t.time ∧ t.uid < e.uid :=
            hbefore.imp_right fun h => ⟨h.1.symm, h.2⟩
          have hne : t ≠ e := fun h => Event.Before.irrefl e (h ▸ hbefore)
          obtain ⟨b', hb', hin⟩ := ihb hb hsb.2 hob.2
          refine ⟨node a t b', by rw [if_neg (hob.1 e hb), if_pos hdir, hb']; rfl, ?_⟩
          rw [inorder, hin, List.erase_cons_tail (by simpa using hne)]

end SplayTree

/-- The traversal of the tree is the list. -/
structure SplayRep (s : SplayTree) (l : EventList) : Prop where
  inorder : s.root.inorder = l.events
  qsize : s.qsize = l.events.length

namespace SplayRep

variable {s : SplayTree} {l : EventList}

theorem insert (h : SplayRep s l) (hl : l.Ok) (e : Event) :
    SplayRep (s.insert e) (l.after (.insert e)) := by
  have ht : SplayTree.Timed s.root := by
    rw [SplayTree.Timed, h.inorder]
    exact hl.sorted.imp fun hxy => hxy.time_le
  refine ⟨by rw [s.insert_inorder e ht, h.inorder]; rfl, ?_⟩
  have hlen := (ListScheduler.insert_perm e l.events).length_eq
  have hq : (s.insert e).qsize = s.qsize + 1 := by
    rw [SplayTree.insert]
    split <;> rfl
  show (s.insert e).qsize = ((ListScheduler.insert e l.events).length : Int)
  rw [hq, hlen, h.qsize]
  rfl

theorem cancel (h : SplayRep s l) (hl : l.Ok) {e : Event} (he : e ∈ l.events) :
    ∃ s', s.cancel e = some s' ∧ SplayRep s' (l.after (.cancel e)) := by
  have hi := h.inorder
  obtain ⟨t, ht, hin⟩ := SplayTree.cancelIn_spec (hi ▸ he) (hi ▸ hl.sorted) (hi ▸ hl.objs)
  refine ⟨⟨t, s.qsize - 1⟩, by rw [SplayTree.cancel, ht]; rfl, by rw [hin, hi]; rfl, ?_⟩
  show s.qsize - 1 = ((l.events.erase e).length : Int)
  have hpos := List.length_pos_of_mem he
  rw [h.qsize, List.length_erase_of_mem he]
  omega

theorem deque (h : SplayRep s l) :
    s.deque.1 = l.events.head? ∧ SplayRep s.deque.2 (l.after .deque) := by
  obtain ⟨h₁, h₂⟩ := s.deque_inorder
  rw [h.inorder] at h₁ h₂
  refine ⟨h₁, h₂, ?_⟩
  have hq : s.deque.2.qsize = if s.root.inorder = [] then s.qsize else s.qsize - 1 := by
    rw [SplayTree.deque]
    split
    case h_1 hn => rw [hn]; rfl
    case h_2 hn => rw [hn]; rfl
    case h_3 hn => rw [hn]; simp
  show s.deque.2.qsize = (l.events.tail.length : Int)
  rw [hq, h.inorder, h.qsize]
  cases l.events with
  | nil => rfl
  | cons x t => simp

end SplayRep

theorem splayScheduler_refines : Refines splayScheduler (fun _ _ => True) SplayRep where
  init := ⟨rfl, rfl⟩
  insert := fun hr hl _ _ => ⟨_, rfl, hr.insert hl _⟩
  cancel := fun hr hl he => hr.cancel hl he
  deque := fun {s l} hr _ => by
    obtain ⟨h₁, h₂⟩ := hr.deque
    refine ⟨s.deque.2, ?_, h₂⟩
    show some s.deque = _
    rw [← h₁]

/-- **The splay tree returns what the list returns**: over every sequence of calls its traversal is
the list, sorted by time and number, and `head` is the first event of it. -/
theorem splay_dispatch {cs : List Call} (hc : EventList.init.Allows (fun _ _ => True) cs) :
    ∃ outs s, splayScheduler.run .init cs = some (outs, s) ∧
      listScheduler.run [] cs = some (outs, s.root.inorder) ∧
      s.root.inorder = (EventList.init.afterAll cs).events ∧
      s.root.inorder.Pairwise Event.Before ∧ s.head = s.root.inorder.head? := by
  obtain ⟨outs, s, h₁, h₂, hr, hl⟩ :=
    splayScheduler_refines.run splayScheduler_refines.init EventList.init_ok hc
  refine ⟨outs, s, h₁, ?_, hr.inorder, ?_, s.root.leftmost_eq⟩
  · rw [hr.inorder]
    exact h₂
  · rw [hr.inorder]
    exact hl.sorted

/-- Four events, one of them cancelled in the middle of the tree. -/
theorem splay_dispatch_cancel :
    let cs := [.insert ⟨0, 1, 5⟩, .insert ⟨1, 2, 3⟩, .insert ⟨2, 3, 5⟩, .insert ⟨3, 4, 4⟩,
      .cancel ⟨0, 1, 5⟩, .deque, .deque, .deque]
    EventList.init.Allows (fun _ _ => True) cs ∧
      ∃ s, splayScheduler.run .init cs
        = some ([some ⟨1, 2, 3⟩, some ⟨3, 4, 4⟩, some ⟨2, 3, 5⟩], s) := by
  intro cs
  have hc : EventList.init.Allows (fun _ _ => True) cs := by decide +kernel
  obtain ⟨outs, s, h₁, h₂, -⟩ := splay_dispatch hc
  refine ⟨hc, s, h₁.trans ?_⟩
  have hl : (listScheduler.run [] cs).map (·.1)
      = some [some ⟨1, 2, 3⟩, some ⟨3, 4, 4⟩, some ⟨2, 3, 5⟩] := by decide +kernel
  rw [h₂] at hl
  have houts := Option.some.inj hl
  rw [← houts]

end Afabric
