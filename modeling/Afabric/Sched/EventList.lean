import Mathlib.Algebra.Order.Field.Rat
import Mathlib.Data.List.Pairwise

/-!
# Sched — the ordered event list

`ListScheduler` (`common/scheduler.cc`) keeps the pending events in a list in order of time, an
event after those of its own time.  It is the meaning of the other schedulers: `Refines` is a
simulation between the operations of a scheduler and those of the list, and with it a scheduler
returns from `deque` what the list returns, over every sequence of calls (`Refines.run`).

An event is known by its address (`obj`), as in the source.  `uid` is the number that
`Scheduler::schedule` gives it, which counts the insertions; a `double` is a rational.  `none` is a
call that aborts.
-/

namespace Afabric

/-- An `Event` that is pending. -/
structure Event where
  obj : Nat
  uid : Nat
  time : ℚ
deriving DecidableEq, Repr

namespace Event

/-- The order of dispatch: by time, and by number among events of one time. -/
def Before (x y : Event) : Prop := x.time < y.time ∨ x.time = y.time ∧ x.uid < y.uid

instance : DecidableRel Before := fun _ _ => inferInstanceAs (Decidable (_ ∨ _ ∧ _))

theorem Before.trans {x y z : Event} (h₁ : x.Before y) (h₂ : y.Before z) : x.Before z := by
  rcases h₁ with h₁ | ⟨h₁, h₁'⟩ <;> rcases h₂ with h₂ | ⟨h₂, h₂'⟩
  · exact .inl (h₁.trans h₂)
  · exact .inl (h₂ ▸ h₁)
  · exact .inl (h₁ ▸ h₂)
  · exact .inr ⟨h₁.trans h₂, h₁'.trans h₂'⟩

theorem Before.irrefl (x : Event) : ¬ x.Before x := by
  rintro (h | ⟨-, h⟩)
  · exact lt_irrefl _ h
  · exact lt_irrefl _ h

theorem Before.asymm {x y : Event} (h : x.Before y) : ¬ y.Before x := fun h' =>
  Before.irrefl x (h.trans h')

theorem Before.time_le {x y : Event} (h : x.Before y) : x.time ≤ y.time := by
  rcases h with h | ⟨h, -⟩
  · exact h.le
  · exact h.le

end Event

/-! ### `ListScheduler` -/

namespace ListScheduler

/-- `insert`. -/
def insert (e : Event) : List Event → List Event
  | [] => [e]
  | x :: l => if e.time < x.time then e :: x :: l else x :: insert e l

/-- `cancel` of an event with a number, which aborts if the event is not in the queue. -/
def cancel (e : Event) : List Event → Option (List Event)
  | [] => none
  | x :: l => if x.obj = e.obj then some l else (cancel e l).map (x :: ·)

/-- `deque`. -/
def deque : List Event → Option Event × List Event
  | [] => (none, [])
  | e :: l => (some e, l)

theorem insert_eq (e : Event) (l : List Event) :
    ∃ a b, l = a ++ b ∧ insert e l = a ++ e :: b ∧ (∀ x ∈ a, x.time ≤ e.time) ∧
      ∀ x ∈ b.head?, e.time < x.time := by
  induction l with
  | nil => exact ⟨[], [], rfl, rfl, by simp, by simp⟩
  | cons x l ih =>
      rw [insert]
      split
      case isTrue h => exact ⟨[], x :: l, rfl, rfl, by simp, by simpa using h⟩
      case isFalse h =>
        obtain ⟨a, b, hl, hi, ha, hb⟩ := ih
        refine ⟨x :: a, b, by rw [hl]; rfl, by rw [hi]; rfl, fun y hy => ?_, hb⟩
        rcases List.mem_cons.mp hy with rfl | hy
        · exact not_lt.mp h
        · exact ha y hy

theorem insert_append {e : Event} {a b : List Event} (ha : ∀ x ∈ a, x.time ≤ e.time)
    (hb : ∀ x ∈ b, e.time < x.time) : insert e (a ++ b) = a ++ e :: b := by
  induction a with
  | nil =>
      cases b with
      | nil => rfl
      | cons x b => exact if_pos (hb x List.mem_cons_self)
  | cons x a ih =>
      rw [List.forall_mem_cons] at ha
      rw [List.cons_append, insert, if_neg (not_lt.mpr ha.1), ih ha.2]
      rfl

theorem mem_insert {e x : Event} {l : List Event} : x ∈ insert e l ↔ x = e ∨ x ∈ l := by
  obtain ⟨a, b, hl, hi, -, -⟩ := insert_eq e l
  rw [hi, hl]
  simp only [List.mem_append, List.mem_cons]
  tauto

theorem insert_perm (e : Event) (l : List Event) : (insert e l).Perm (e :: l) := by
  obtain ⟨a, b, hl, hi, -, -⟩ := insert_eq e l
  rw [hi, hl]
  exact List.perm_middle

/-- In a list in order of time, an event is inserted after those that are not later. -/
theorem insert_split {e : Event} {l : List Event} (ht : l.Pairwise fun x y => x.time ≤ y.time) :
    ∃ a b, l = a ++ b ∧ insert e l = a ++ e :: b ∧ (∀ x ∈ a, x.time ≤ e.time) ∧
      ∀ x ∈ b, e.time < x.time := by
  obtain ⟨a, b, rfl, hi, ha, hb⟩ := insert_eq e l
  refine ⟨a, b, rfl, hi, ha, fun x hx => ?_⟩
  rw [List.pairwise_append] at ht
  cases b with
  | nil => simp at hx
  | cons y b =>
      have hy : e.time < y.time := hb y rfl
      rcases List.mem_cons.mp hx with rfl | hx
      · exact hy
      · exact hy.trans_le ((List.pairwise_cons.mp ht.2.1).1 x hx)

/-- An order on events by time, with later insertions last, is kept. -/
theorem insert_pairwise {S : Event → Event → Prop} {e : Event} {l : List Event}
    (hs : l.Pairwise S) (ht : l.Pairwise fun x y => x.time ≤ y.time)
    (hle : ∀ x ∈ l, x.time ≤ e.time → S x e) (hlt : ∀ x ∈ l, e.time < x.time → S e x) :
    (insert e l).Pairwise S := by
  obtain ⟨a, b, rfl, hi, ha, hb⟩ := insert_split (e := e) ht
  rw [List.pairwise_append] at hs
  rw [hi, List.pairwise_append, List.pairwise_cons]
  refine ⟨hs.1, ⟨fun x hx => hlt x (List.mem_append_right a hx) (hb x hx), hs.2.1⟩,
    fun x hx y hy => ?_⟩
  rcases List.mem_cons.mp hy with rfl | hy
  · exact hle x (List.mem_append_left b hx) (ha x hx)
  · exact hs.2.2 x hx y hy

theorem deque_eq (l : List Event) : deque l = (l.head?, l.tail) := by
  cases l <;> rfl

theorem cancel_eq {e : Event} {l : List Event} (he : e ∈ l)
    (ho : l.Pairwise fun x y => x.obj ≠ y.obj) : cancel e l = some (l.erase e) := by
  induction l with
  | nil => simp at he
  | cons x l ih =>
      rw [List.pairwise_cons] at ho
      rw [cancel]
      by_cases hx : x = e
      · subst hx
        rw [if_pos rfl, List.erase_cons_head]
      · have hel := (List.mem_cons.mp he).resolve_left (Ne.symm hx)
        rw [if_neg (ho.1 e hel), ih hel ho.2, List.erase_cons_tail (by simpa using hx)]
        rfl

end ListScheduler

/-! ### Sequences of calls -/

/-- A call on a scheduler. -/
inductive Call where
  | insert (e : Event)
  | cancel (e : Event)
  | deque

/-- The operations of a scheduler with the state `σ`. -/
structure EventQueue (σ : Type) where
  init : σ
  insert : σ → Event → Option σ
  cancel : σ → Event → Option σ
  deque : σ → Option (Option Event × σ)

namespace EventQueue

variable {σ : Type}

/-- One call, with what `deque` returns. -/
def step (Q : EventQueue σ) (s : σ) : Call → Option (List (Option Event) × σ)
  | .insert e => (Q.insert s e).map fun s => ([], s)
  | .cancel e => (Q.cancel s e).map fun s => ([], s)
  | .deque => (Q.deque s).map fun r => ([r.1], r.2)

/-- The calls one after the other, with all that `deque` returns. -/
def run (Q : EventQueue σ) (s : σ) : List Call → Option (List (Option Event) × σ)
  | [] => some ([], s)
  | c :: cs => do
      let r ← Q.step s c
      let t ← Q.run r.2 cs
      some (r.1 ++ t.1, t.2)

theorem run_append {Q : EventQueue σ} {s s₁ : σ} {cs ds : List Call} {outs : List (Option Event)}
    (h : Q.run s cs = some (outs, s₁)) :
    Q.run s (cs ++ ds) = (Q.run s₁ ds).map fun r => (outs ++ r.1, r.2) := by
  induction cs generalizing s outs with
  | nil =>
      obtain ⟨rfl, rfl⟩ := Prod.mk.inj (Option.some.inj h)
      simp
  | cons c cs ih =>
      obtain ⟨⟨o, t⟩, ht, h⟩ := Option.bind_eq_some_iff.mp h
      obtain ⟨⟨os, u⟩, hu, h⟩ := Option.bind_eq_some_iff.mp h
      obtain ⟨rfl, rfl⟩ := Prod.mk.inj (Option.some.inj h)
      rw [List.cons_append, run, ht]
      show (Q.run t (cs ++ ds)).bind _ = _
      rw [ih hu]
      cases Q.run u ds with
      | none => rfl
      | some r => simp

end EventQueue

/-- The operations of a `ListScheduler`. -/
def listScheduler : EventQueue (List Event) where
  init := []
  insert := fun l e => some (ListScheduler.insert e l)
  cancel := fun l e => ListScheduler.cancel e l
  deque := fun l => some (ListScheduler.deque l)

/-- The pending events in order, with the time of the last one returned by `deque`, and the number
of insertions so far. -/
structure EventList where
  events : List Event
  now : ℚ
  uids : Nat

namespace EventList

def init : EventList := ⟨[], 0, 0⟩

/-- The event gets the next number, and its object is not pending. -/
def Fresh (l : EventList) (e : Event) : Prop :=
  e.uid = l.uids + 1 ∧ ∀ x ∈ l.events, x.obj ≠ e.obj

instance (l : EventList) (e : Event) : Decidable (l.Fresh e) := inferInstanceAs (Decidable (_ ∧ _))

/-- The list after a call. -/
def after (l : EventList) : Call → EventList
  | .insert e => { l with events := ListScheduler.insert e l.events, uids := e.uid }
  | .cancel e => { l with events := l.events.erase e }
  | .deque => { l with events := l.events.tail, now := (l.events.head?.map (·.time)).getD l.now }

/-- The call may be made: an event is inserted that is not pending and meets `G`, and one is
cancelled that is pending. -/
def Permits (G : EventList → Event → Prop) (l : EventList) : Call → Prop
  | .insert e => l.Fresh e ∧ G l e
  | .cancel e => e ∈ l.events
  | .deque => True

/-- The calls may be made, one after the other. -/
def Allows (G : EventList → Event → Prop) (l : EventList) : List Call → Prop
  | [] => True
  | c :: cs => l.Permits G c ∧ (l.after c).Allows G cs

instance {G : EventList → Event → Prop} [∀ l e, Decidable (G l e)] (l : EventList) :
    ∀ c, Decidable (l.Permits G c)
  | .insert e => inferInstanceAs (Decidable (l.Fresh e ∧ G l e))
  | .cancel e => inferInstanceAs (Decidable (e ∈ l.events))
  | .deque => inferInstanceAs (Decidable True)

instance decidableAllows {G : EventList → Event → Prop} [∀ l e, Decidable (G l e)] :
    ∀ (l : EventList) (cs : List Call), Decidable (l.Allows G cs)
  | _, [] => inferInstanceAs (Decidable True)
  | l, c :: cs =>
      have := decidableAllows (G := G) (l.after c) cs
      inferInstanceAs (Decidable (l.Permits G c ∧ (l.after c).Allows G cs))

/-- The events are in order, numbered, and of different objects. -/
structure Ok (l : EventList) : Prop where
  sorted : l.events.Pairwise Event.Before
  uids : ∀ x ∈ l.events, x.uid ≤ l.uids
  objs : l.events.Pairwise fun x y => x.obj ≠ y.obj

theorem init_ok : init.Ok := ⟨.nil, by simp [init], .nil⟩

/-- An object is pending at most once. -/
theorem Ok.eq_of_obj {l : EventList} (h : l.Ok) {x y : Event} (hx : x ∈ l.events)
    (hy : y ∈ l.events) (ho : x.obj = y.obj) : x = y := by
  have : Std.Symm fun x y : Event => x.obj ≠ y.obj := ⟨fun _ _ hxy => Ne.symm hxy⟩
  by_contra hne
  exact h.objs.forall hx hy hne ho

theorem Ok.nodup {l : EventList} (h : l.Ok) : l.events.Nodup :=
  h.objs.imp fun hxy he => hxy (congrArg Event.obj he)

/-- An object is not pending after its event is taken off the list. -/
theorem Ok.obj_erase {l : EventList} (h : l.Ok) {x y : Event} (hx : x ∈ l.events)
    (hy : y ∈ l.events.erase x) : y.obj ≠ x.obj := by
  intro ho
  have hyx := h.eq_of_obj (List.mem_of_mem_erase hy) hx ho
  rw [h.nodup.mem_erase_iff] at hy
  exact hy.1 hyx

theorem Ok.insert {l : EventList} (h : l.Ok) {e : Event} (he : l.Fresh e) :
    (l.after (.insert e)).Ok := by
  have hu : ∀ x ∈ l.events, x.uid < e.uid := fun x hx => by
    rw [he.1]
    exact Nat.lt_succ_of_le (h.uids x hx)
  refine ⟨?_, ?_, ?_⟩
  · refine ListScheduler.insert_pairwise h.sorted (h.sorted.imp fun hxy => hxy.time_le)
      (fun x hx hle => ?_) fun x _ hlt => .inl hlt
    rcases hle.lt_or_eq with h' | h'
    · exact .inl h'
    · exact .inr ⟨h', hu x hx⟩
  · intro x hx
    rcases ListScheduler.mem_insert.mp hx with rfl | hx
    · exact le_rfl
    · exact (hu x hx).le
  · have hp := (ListScheduler.insert_perm e l.events).symm
    refine (hp.pairwise_iff fun hxy => Ne.symm hxy).mp ?_
    exact List.pairwise_cons.mpr ⟨fun x hx => Ne.symm (he.2 x hx), h.objs⟩

theorem Ok.after {l : EventList} (h : l.Ok) {c : Call} {G : EventList → Event → Prop}
    (hc : l.Permits G c) : (l.after c).Ok := by
  cases c with
  | insert e => exact h.insert hc.1
  | cancel e =>
      have hs : (l.events.erase e).Sublist l.events := List.erase_sublist
      exact ⟨h.sorted.sublist hs, fun x hx => h.uids x (hs.mem hx), h.objs.sublist hs⟩
  | deque =>
      have hs : l.events.tail.Sublist l.events := List.tail_sublist _
      exact ⟨h.sorted.sublist hs, fun x hx => h.uids x (hs.mem hx), h.objs.sublist hs⟩

/-- The list after some calls. -/
def afterAll (l : EventList) (cs : List Call) : EventList := cs.foldl after l

theorem afterAll_append (l : EventList) (cs ds : List Call) :
    l.afterAll (cs ++ ds) = (l.afterAll cs).afterAll ds := List.foldl_append

theorem Allows.imp {G G' : EventList → Event → Prop} (h : ∀ l e, G l e → G' l e) {l : EventList}
    {cs : List Call} (hc : l.Allows G cs) : l.Allows G' cs := by
  induction cs generalizing l with
  | nil => trivial
  | cons c cs ih =>
      refine ⟨?_, ih hc.2⟩
      cases c with
      | insert e => exact ⟨hc.1.1, h l e hc.1.2⟩
      | cancel e => exact hc.1
      | deque => trivial

theorem allows_append {G : EventList → Event → Prop} {l : EventList} {cs ds : List Call} :
    l.Allows G (cs ++ ds) ↔ l.Allows G cs ∧ (l.afterAll cs).Allows G ds := by
  induction cs generalizing l with
  | nil => exact (and_iff_right trivial).symm
  | cons c cs ih =>
      show _ ∧ (l.after c).Allows G (cs ++ ds) ↔ (_ ∧ _) ∧ _
      rw [ih, and_assoc]
      rfl

end EventList

/-! ### Refinement -/

/-- The states of a scheduler stand for event lists, and its operations do to them what those of
the list do, for insertions that meet `G`. -/
structure Refines {σ : Type} (Q : EventQueue σ) (G : EventList → Event → Prop)
    (R : σ → EventList → Prop) : Prop where
  init : R Q.init .init
  insert : ∀ {s l e}, R s l → l.Ok → l.Fresh e → G l e →
    ∃ s', Q.insert s e = some s' ∧ R s' (l.after (.insert e))
  cancel : ∀ {s l e}, R s l → l.Ok → e ∈ l.events →
    ∃ s', Q.cancel s e = some s' ∧ R s' (l.after (.cancel e))
  deque : ∀ {s l}, R s l → l.Ok →
    ∃ s', Q.deque s = some (l.events.head?, s') ∧ R s' (l.after .deque)

namespace Refines

variable {σ : Type} {Q : EventQueue σ} {G : EventList → Event → Prop} {R : σ → EventList → Prop}

theorem step (h : Refines Q G R) {s : σ} {l : EventList} (hr : R s l) (hl : l.Ok) {c : Call}
    (hc : l.Permits G c) : ∃ out s', Q.step s c = some (out, s') ∧
      listScheduler.step l.events c = some (out, (l.after c).events) ∧ R s' (l.after c) := by
  cases c with
  | insert e =>
      obtain ⟨s', he, hr'⟩ := h.insert hr hl hc.1 hc.2
      exact ⟨[], s', by rw [EventQueue.step, he]; rfl, rfl, hr'⟩
  | cancel e =>
      obtain ⟨s', he, hr'⟩ := h.cancel hr hl hc
      refine ⟨[], s', by rw [EventQueue.step, he]; rfl, ?_, hr'⟩
      show (ListScheduler.cancel e l.events).map _ = _
      rw [ListScheduler.cancel_eq hc hl.objs]
      rfl
  | deque =>
      obtain ⟨s', he, hr'⟩ := h.deque hr hl
      refine ⟨[l.events.head?], s', by rw [EventQueue.step, he]; rfl, ?_, hr'⟩
      show some _ = some _
      rw [ListScheduler.deque_eq]
      rfl

/-- **A refinement returns what the list returns**, over every sequence of calls. -/
theorem run (h : Refines Q G R) {s : σ} {l : EventList} (hr : R s l) (hl : l.Ok) {cs : List Call}
    (hc : l.Allows G cs) : ∃ outs s', Q.run s cs = some (outs, s') ∧
      listScheduler.run l.events cs = some (outs, (l.afterAll cs).events) ∧
      R s' (l.afterAll cs) ∧ (l.afterAll cs).Ok := by
  induction cs generalizing s l with
  | nil => exact ⟨[], s, rfl, rfl, hr, hl⟩
  | cons c cs ih =>
      obtain ⟨out, s₁, h₁, h₂, hr₁⟩ := h.step hr hl hc.1
      obtain ⟨outs, s₂, h₃, h₄, hr₂, hl₂⟩ := ih hr₁ (hl.after hc.1) hc.2
      refine ⟨out ++ outs, s₂, ?_, ?_, hr₂, hl₂⟩
      · rw [EventQueue.run, h₁]
        show (Q.run s₁ cs).bind _ = _
        rw [h₃]
        rfl
      · rw [EventQueue.run, h₂]
        show (listScheduler.run (l.after c).events cs).bind _ = _
        rw [h₄]
        rfl

/-- A refinement for fewer insertions. -/
theorem imp {F : EventList → Event → Prop} (h : Refines Q F R) (hG : ∀ l e, G l e → F l e) :
    Refines Q G R where
  init := h.init
  insert := fun hr hl he hg => h.insert hr hl he (hG _ _ hg)
  cancel := h.cancel
  deque := h.deque

end Refines

/-- The list refines itself. -/
theorem listScheduler_refines :
    Refines listScheduler (fun _ _ => True) (fun q l => q = l.events) where
  init := rfl
  insert := fun hr _ _ _ => ⟨_, rfl, by rw [hr]; rfl⟩
  cancel := fun hr hl he => ⟨_, by rw [hr]; exact ListScheduler.cancel_eq he hl.objs, rfl⟩
  deque := fun {q l} hr _ => ⟨l.events.tail, by
    show some (ListScheduler.deque q) = _
    rw [hr, ListScheduler.deque_eq], rfl⟩

end Afabric
