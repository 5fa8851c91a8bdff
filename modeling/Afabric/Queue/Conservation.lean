import Afabric.Queue.Accounting
import Mathlib.Algebra.BigOperators.Group.List.Basic

/-!
# Queue — the conservation of packets

Every packet that is passed to `enque` is in the queue, or has been handed out by `deque`, or has
been dropped: exactly one of the three, and once.  The relation that carries this is `Leaves`: some
packets leave the queue, the rest stays, and `len_` and `bytes_` follow.  Each operation is an
instance of it, on the queue with the packet that arrives.

A run here (`Ledger`) keeps the packets dropped as well, may call `shrink_queue`, and may change
the bound variables from call to call.
-/

namespace Afabric

namespace BadTrackingPacketQueue

/-- The size of some packets. -/
def sizes (l : List Packet) : Int := (l.map (·.size)).sum

@[simp] theorem sizes_nil : sizes [] = 0 := rfl

@[simp] theorem sizes_cons (p : Packet) (l : List Packet) : sizes (p :: l) = p.size + sizes l := by
  simp [sizes]

@[simp] theorem sizes_append (l l' : List Packet) : sizes (l ++ l') = sizes l + sizes l' := by
  simp [sizes]

theorem sizes_perm {l l' : List Packet} (h : l.Perm l') : sizes l = sizes l' :=
  (h.map _).sum_eq

/-- From `q` to `q'` the packets `gone` leave the queue, and the others stay. -/
structure Leaves (q q' : BadTrackingPacketQueue) (gone : List Packet) : Prop where
  valid : q'.Valid
  perm : (q'.pkts ++ gone).Perm q.pkts
  bytes : q'.bytes = q.bytes - sizes gone

namespace Leaves

variable {q q₁ q₂ : BadTrackingPacketQueue} {g g₁ g₂ : List Packet} {t : Packet}

theorem refl (h : q.Valid) : Leaves q q [] := ⟨h, by simp, by simp⟩

theorem trans (h₁ : Leaves q q₁ g₁) (h₂ : Leaves q₁ q₂ g₂) : Leaves q q₂ (g₂ ++ g₁) := by
  refine ⟨h₂.valid, ?_, ?_⟩
  · rw [← List.append_assoc]
    exact (h₂.perm.append_right g₁).trans h₁.perm
  · rw [h₂.bytes, h₁.bytes, sizes_append]
    omega

theorem remove (h : q.Valid) (ht : t ∈ q.pkts) : ∃ q', q.remove t = some q' ∧ Leaves q q' [t] := by
  obtain ⟨A, B, hq⟩ := List.append_of_mem ht
  obtain ⟨q', he, hv, hp, -⟩ := h.remove hq
  refine ⟨q', he, hv, ?_, ?_⟩
  · rw [hp, hq, List.append_assoc]
    exact (List.perm_append_singleton t B).append_left A
  · obtain rfl := Option.some.inj ((remove_eq h hq).symm.trans he)
    simp

theorem deque (h : q.Valid) : Leaves q q.deque.2 q.deque.1.toList := by
  obtain ⟨-, hv, -, -⟩ := h.deque
  refine ⟨hv, ?_, ?_⟩
  · cases hq : q.pkts with
    | nil => simp [BadTrackingPacketQueue.deque, hq]
    | cons p rest =>
        simp only [BadTrackingPacketQueue.deque, hq, noteDeque_pkts, Option.toList_some]
        exact List.perm_append_singleton p rest
  · cases hq : q.pkts with
    | nil => simp [BadTrackingPacketQueue.deque, hq]
    | cons p rest =>
        simp only [BadTrackingPacketQueue.deque, hq, noteDeque]
        split <;> simp

/-- The size of what is in the queue follows `bytes_`. -/
theorem bytes_eq (h : Leaves q q₁ g) (hb : q.bytes = sizes q.pkts) : q₁.bytes = sizes q₁.pkts := by
  have hp := sizes_perm h.perm
  rw [sizes_append] at hp
  rw [h.bytes, hb]
  omega

theorem length (h : Leaves q q₁ g) : q₁.pkts.length + g.length = q.pkts.length := by
  rw [← List.length_append]
  exact h.perm.length_eq

theorem mem (h : Leaves q q₁ g) {x : Packet} (hx : x ∈ q₁.pkts) : x ∈ q.pkts :=
  h.perm.mem_iff.mp (List.mem_append_left g hx)

end Leaves

theorem enque_bytes (q : BadTrackingPacketQueue) (p : Packet) :
    (q.enque p).bytes = q.bytes + p.size := by
  rw [enque, noteEnque]
  split <;> rfl

end BadTrackingPacketQueue

open BadTrackingPacketQueue

namespace DropTail

variable {cfg : DropTailConfig} {d : DropTail} {p : Packet}

/-! ### The operations -/

theorem removeAll_leaves {q : BadTrackingPacketQueue} (h : q.Valid) {D : List Packet}
    (hD : D.Sublist q.pkts) : ∃ q', removeAll q D = some q' ∧ Leaves q q' D.reverse := by
  induction D generalizing q with
  | nil => exact ⟨q, rfl, .refl h⟩
  | cons t D ih =>
      obtain ⟨A, B, hq, htA, hDB⟩ := List.cons_sublist_iff.mp hD
      obtain ⟨A₁, A₂, rfl⟩ := List.append_of_mem htA
      have hq' : q.pkts = A₁ ++ t :: (A₂ ++ B) := by simp [hq]
      obtain ⟨q₁, he₁, hv₁, hp₁, -⟩ := h.remove hq'
      obtain ⟨q₁', he₁', hl₁⟩ := Leaves.remove h (t := t) (by simp [hq'])
      obtain rfl := Option.some.inj (he₁.symm.trans he₁')
      have hsub : D.Sublist q₁.pkts := by
        rw [hp₁]
        exact hDB.trans ((List.sublist_append_right _ _).trans (List.sublist_append_right _ _))
      obtain ⟨q₂, he₂, hl₂⟩ := ih hv₁ hsub
      refine ⟨q₂, by simp [removeAll, he₁, he₂], ?_⟩
      rw [List.reverse_cons]
      exact hl₁.trans hl₂

theorem dropFront_leaves (h : (d.q.enque p).Valid) :
    Leaves (d.q.enque p) (d.dropFront p).state.q (d.dropFront p).dropped ∧
      (d.dropFront p).dropped.length = 1 := by
  refine ⟨Leaves.deque h, ?_⟩
  show (d.q.enque p).deque.1.toList.length = 1
  rw [h.deque.1, enque_pkts]
  cases d.q.pkts <;> rfl

theorem evict_leaves (h : (d.q.enque p).Valid) {t : Packet} (ht : t ∈ d.q.pkts ++ [p])
    {x : Departure}
    (he : ((d.q.enque p).remove t).map (fun q' => (⟨{ d with q := q' }, [t], none⟩ : Departure)) =
      some x) :
    Leaves (d.q.enque p) x.state.q x.dropped ∧ x.dropped = [t] ∧ x.result = none := by
  obtain ⟨q', hr, hl⟩ := Leaves.remove h (t := t) (by rwa [enque_pkts])
  rw [hr, Option.map_some] at he
  obtain rfl := Option.some.inj he
  exact ⟨hl, rfl, rfl⟩

/-- An overflow drops one packet of those in the queue and the new one. -/
theorem handleOverflow_leaves (h : d.q.Valid) (hp : ∀ x ∈ d.q.pkts, x.uid < p.uid) {x : Departure}
    (he : d.handleOverflow cfg p = some x) :
    Leaves (d.q.enque p) x.state.q x.dropped ∧ x.dropped.length = 1 ∧ x.result = none := by
  have hv := h.enque hp
  have hmem := victim_mem cfg d p
  rw [handleOverflow] at he
  split at he
  · obtain rfl := Option.some.inj he
    obtain ⟨hl, hn⟩ := dropFront_leaves hv
    exact ⟨hl, hn, rfl⟩
  split at he
  case isTrue _ hdp =>
    rw [victim, if_pos hdp] at hmem
    rw [dropPrio] at he
    split at he
    · exact absurd he (by simp)
    · obtain ⟨hl, hd, hr⟩ := evict_leaves hv hmem he
      exact ⟨hl, by rw [hd]; rfl, hr⟩
  case isFalse _ hdp =>
    rw [victim, if_neg hdp] at hmem
    split at he
    · obtain ⟨hl, hd, hr⟩ := evict_leaves hv hmem he
      exact ⟨hl, by rw [hd]; rfl, hr⟩
    · obtain rfl := Option.some.inj he
      refine ⟨⟨h, by rw [enque_pkts], ?_⟩, rfl, rfl⟩
      rw [enque_bytes]
      simp

theorem takeIn_leaves (h : d.q.Valid) (hp : ∀ x ∈ d.q.pkts, x.uid < p.uid) {x : Departure}
    (he : d.takeIn cfg p = some x) :
    Leaves (d.q.enque p) x.state.q x.dropped ∧ x.result = none ∧
      x.dropped.length = if d.willOverflow cfg p then 1 else 0 := by
  rw [takeIn] at he
  split at he
  case isTrue hov =>
    obtain ⟨hl, hn, hr⟩ := handleOverflow_leaves h hp he
    exact ⟨hl, hr, by rw [hn, if_pos hov]⟩
  case isFalse hov =>
    obtain rfl := Option.some.inj he
    exact ⟨.refl (h.enque hp), rfl, by rw [if_neg hov]; rfl⟩

/-! ### The mark -/

/-- The packet without its mark. -/
def unmarked (p : Packet) : Packet := { p with ce := false }

/-- The mark is all that differs. -/
structure Marks (q q' : BadTrackingPacketQueue) : Prop where
  pkts : q'.pkts.map unmarked = q.pkts.map unmarked
  len : q'.len = q.len
  bytes : q'.bytes = q.bytes
  bad : q'.numBadPackets = q.numBadPackets

namespace Marks

variable {q q' : BadTrackingPacketQueue}

/-- What does not see the mark is not changed by it. -/
theorem map_eq {β : Type*} (h : Marks q q') {f : Packet → β} (hf : ∀ x, f (unmarked x) = f x) :
    q'.pkts.map f = q.pkts.map f := by
  have hff : f ∘ unmarked = f := funext hf
  rw [← hff, ← List.map_map, ← List.map_map, h.pkts]

theorem uids (h : Marks q q') : q'.pkts.map (·.uid) = q.pkts.map (·.uid) := h.map_eq fun _ => rfl

theorem sizes_eq (h : Marks q q') : sizes q'.pkts = sizes q.pkts :=
  congrArg List.sum (h.map_eq fun _ => rfl)

theorem valid (h : Marks q q') (hv : q.Valid) : q'.Valid := by
  refine ⟨?_, ?_⟩
  · have hs : (q.pkts.map (·.uid)).Pairwise (· < ·) := List.pairwise_map.mpr hv.sorted
    rw [← h.uids] at hs
    exact List.pairwise_map.mp hs
  · have hl := congrArg List.length h.pkts
    rw [List.length_map, List.length_map] at hl
    rw [h.len, hv.len_eq, hl]

end Marks

theorem markEcn_marks (d : DropTail) : Marks d.q d.markEcn.q := by
  rw [markEcn]
  split
  case h_1 m _ =>
    split
    · refine ⟨?_, rfl, rfl, rfl⟩
      simp only [List.map_map]
      refine List.map_congr_left fun x _ => ?_
      simp only [Function.comp, unmarked]
      split <;> rfl
    · exact ⟨rfl, rfl, rfl, rfl⟩
  · exact ⟨rfl, rfl, rfl, rfl⟩

/-- The second half of `enque` sets a mark at most. -/
theorem enque_takeIn {x : Departure} (he : d.enque cfg p = some x) :
    ∃ y, d.takeIn cfg p = some y ∧ Marks y.state.q x.state.q ∧ x.dropped = y.dropped ∧
      x.result = y.result := by
  obtain ⟨y, hy, rfl⟩ := Option.map_eq_some_iff.mp he
  refine ⟨y, hy, ?_⟩
  split
  · exact ⟨markEcn_marks y.state, rfl, rfl⟩
  · exact ⟨⟨rfl, rfl, rfl, rfl⟩, rfl, rfl⟩

/-- **`enque`**: the new packet comes in, some leave, and one may be marked. -/
theorem enque_leaves (h : d.q.Valid) (hp : ∀ x ∈ d.q.pkts, x.uid < p.uid) {x : Departure}
    (he : d.enque cfg p = some x) :
    ∃ q₁, Leaves (d.q.enque p) q₁ x.dropped ∧ Marks q₁ x.state.q ∧ x.result = none ∧
      x.dropped.length = if d.willOverflow cfg p then 1 else 0 := by
  obtain ⟨y, hy, hm, hd, hr⟩ := enque_takeIn he
  rw [hd, hr]
  obtain ⟨hl, hr, hn⟩ := takeIn_leaves h hp hy
  exact ⟨y.state.q, hl, hm, hr, hn⟩

theorem dequePriority_leaves (h : d.q.Valid) {x : Departure} (he : d.dequePriority cfg = some x) :
    Leaves d.q x.state.q (x.result.toList ++ x.dropped.reverse) := by
  by_cases hne : d.q.pkts = []
  · rw [dequePriority, (findBestPacket_spec h).1.mpr hne] at he
    obtain rfl := Option.some.inj he
    exact .refl h
  obtain ⟨q', best, r, D, X, Z, hb, -, he', hs, hh⟩ := dequePriority_spec cfg h hne
  obtain rfl := Option.some.inj (he'.symm.trans he)
  -- the packets dropped are taken out, and then the result
  have hD : D.Sublist d.q.pkts := by
    rw [hh.split]
    exact hh.front.trans (List.sublist_append_left _ _)
  obtain ⟨q₁, he₁, hl₁⟩ := removeAll_leaves h hD
  have hrD : r ∉ D := fun hm =>
    absurd ((h.uid_ne hh.split).1 r (hh.front.mem hm)) (Nat.lt_irrefl _)
  have hr : r ∈ q₁.pkts := by
    have hm : r ∈ q₁.pkts ++ D.reverse := hl₁.perm.mem_iff.mpr (by simp [hh.split])
    refine (List.mem_append.mp hm).resolve_right fun hm => hrD ?_
    simpa using hm
  obtain ⟨q₂, he₂, hl₂⟩ := Leaves.remove hl₁.valid hr
  have hq : q₂ = q' := by
    rw [dequePriority_eq hb] at he'
    simp only [handleSameFlow, hs, he₁, he₂, Option.bind_eq_bind, Option.bind_some,
      Option.some.injEq, Departure.mk.injEq, DropTail.mk.injEq] at he'
    exact he'.1.1
  rw [← hq]
  exact hl₁.trans hl₂

theorem dequeWithDropSmart_eq (cfg : DropTailConfig) (d : DropTail) :
    (d.dequeWithDropSmart cfg).result = d.q.deque.1 ∧ (d.dequeWithDropSmart cfg).dropped = [] := by
  simp only [dequeWithDropSmart]
  split
  case h_1 hr => exact ⟨hr.symm, rfl⟩
  case h_2 hr =>
    split
    · split <;> exact ⟨hr.symm, rfl⟩
    · exact ⟨hr.symm, rfl⟩

/-- **`deque`**: the packet handed out leaves, and those dropped with it. -/
theorem deque_leaves (h : d.q.Valid) {x : Departure} (he : d.deque cfg = some x) :
    Leaves d.q x.state.q (x.result.toList ++ x.dropped.reverse) := by
  rw [DropTail.deque] at he
  split at he
  · exact dequePriority_leaves h he
  split at he
  · obtain rfl := Option.some.inj he
    obtain ⟨hr, hd⟩ := dequeWithDropSmart_eq cfg d
    rw [QueueRun.dequeWithDropSmart_q, hr, hd, List.reverse_nil, List.append_nil]
    exact Leaves.deque h
  · obtain rfl := Option.some.inj he
    simp only [List.reverse_nil, List.append_nil]
    exact Leaves.deque h

/-! ### `shrink_queue` -/

/-- The queue is over its limit. -/
def overLimit (cfg : DropTailConfig) (q : BadTrackingPacketQueue) : Bool :=
  (!cfg.qib ∧ q.len > cfg.qlim) ∨ (cfg.qib ∧ q.bytes > qlimInBytes cfg)

/-- The packet that `shrink_queue` takes: the head with `drop_front_`, else the tail. -/
def shrinkOnce (cfg : DropTailConfig) (q : BadTrackingPacketQueue) :
    Option (Packet × BadTrackingPacketQueue) :=
  if cfg.dropFront then q.deque.1.map fun p => (p, q.deque.2)
  else do
    let p ← q.pkts.getLast?
    let q ← q.remove p
    some (p, q)

/-- The loop of `shrink_queue`, which passes the packets it takes to `drop`; a queue that is empty
and over its limit has none to take. -/
def shrinkLoop (cfg : DropTailConfig) : Nat → BadTrackingPacketQueue →
    Option (BadTrackingPacketQueue × List Packet)
  | 0, q => if overLimit cfg q then none else some (q, [])
  | n + 1, q =>
      if overLimit cfg q then do
        let r ← shrinkOnce cfg q
        let t ← shrinkLoop cfg n r.2
        some (t.1, r.1 :: t.2)
      else some (q, [])

/-- `shrink_queue`.  Every round of the loop takes a packet, so as many rounds as packets do. -/
def shrinkQueue (cfg : DropTailConfig) (d : DropTail) : Option Departure :=
  (shrinkLoop cfg d.q.pkts.length d.q).map fun r => ⟨{ d with q := r.1 }, r.2, none⟩

variable (cfg) in
theorem shrinkOnce_leaves {q : BadTrackingPacketQueue} (h : q.Valid) (hne : q.pkts ≠ []) :
    ∃ t q', shrinkOnce cfg q = some (t, q') ∧ Leaves q q' [t] := by
  rw [shrinkOnce]
  split
  · obtain ⟨t, ht⟩ := Option.ne_none_iff_exists'.mp (mt List.head?_eq_none_iff.mp hne)
    have hd := Leaves.deque h
    rw [h.deque.1, ht] at hd ⊢
    exact ⟨t, q.deque.2, rfl, hd⟩
  · have hlast := List.getLast?_eq_some_getLast hne
    obtain ⟨q', he, hl⟩ := Leaves.remove h (List.getLast_mem hne)
    exact ⟨q.pkts.getLast hne, q', by simp [hlast, he], hl⟩

theorem shrinkLoop_leaves {n : Nat} {q q' : BadTrackingPacketQueue} {D : List Packet}
    (h : q.Valid) (he : shrinkLoop cfg n q = some (q', D)) : Leaves q q' D.reverse := by
  induction n generalizing q D with
  | zero =>
      rw [shrinkLoop] at he
      split at he
      · exact absurd he (by simp)
      · obtain ⟨rfl, rfl⟩ := Prod.mk.inj (Option.some.inj he)
        exact .refl h
  | succ n ih =>
      rw [shrinkLoop] at he
      split at he
      · obtain ⟨r, hr, he⟩ := Option.bind_eq_some_iff.mp he
        obtain ⟨t, ht, he⟩ := Option.bind_eq_some_iff.mp he
        obtain ⟨rfl, rfl⟩ := Prod.mk.inj (Option.some.inj he)
        have hne : q.pkts ≠ [] := fun hq => by
          simp [shrinkOnce, BadTrackingPacketQueue.deque, hq] at hr
        obtain ⟨x, q₁, hx, hl⟩ := shrinkOnce_leaves cfg h hne
        obtain rfl := Option.some.inj (hx.symm.trans hr)
        rw [List.reverse_cons]
        exact hl.trans (ih hl.valid ht)
      · obtain ⟨rfl, rfl⟩ := Prod.mk.inj (Option.some.inj he)
        exact .refl h

/-- The limit `shrink_queue` shrinks to. -/
def shrinkLimit (cfg : DropTailConfig) : Int := if cfg.qib then qlimInBytes cfg else cfg.qlim

theorem shrinkLoop_returns (hlim : 0 ≤ shrinkLimit cfg) {q : BadTrackingPacketQueue} (h : q.Valid)
    (hb : q.bytes = sizes q.pkts) : ∃ r, shrinkLoop cfg q.pkts.length q = some r := by
  have hempty : ∀ q : BadTrackingPacketQueue, q.Valid → q.bytes = sizes q.pkts → q.pkts = [] →
      overLimit cfg q = false := by
    intro q h hb hq
    have hlen := h.len_eq
    rw [hq] at hlen hb
    rw [shrinkLimit] at hlim
    rw [overLimit, hlen, hb, sizes_nil]
    cases hqib : cfg.qib <;> simp [hqib] at hlim ⊢ <;> omega
  generalize hn : q.pkts.length = n
  induction n generalizing q with
  | zero =>
      rw [shrinkLoop, hempty q h hb (List.length_eq_zero_iff.mp hn)]
      exact ⟨_, rfl⟩
  | succ n ih =>
      rw [shrinkLoop]
      split
      · obtain ⟨t, q₁, ht, hl⟩ := shrinkOnce_leaves cfg h (by
          rw [← List.length_pos_iff_ne_nil]
          omega)
        have hlen := hl.length
        obtain ⟨r, hr⟩ := ih hl.valid (hl.bytes_eq hb) (by
          rw [List.length_singleton] at hlen
          omega)
        exact ⟨(r.1, t :: r.2), by simp [ht, hr]⟩
      · exact ⟨_, rfl⟩

end DropTail

/-! ### Runs -/

/-- A call on the queue, `shrink_queue` included. -/
inductive LedgerOp where
  | enque (h : Header)
  | deque
  | shrinkQueue

/-- A queue in use: the number of arrivals, the packets handed out, and those dropped. -/
structure Ledger where
  d : DropTail
  arrivals : Nat
  out : List Packet
  dropped : List Packet

namespace Ledger

open DropTail

def init : Ledger := ⟨.init, 0, [], []⟩

/-- The packet that arrives next. -/
def arriving (l : Ledger) (h : Header) : Packet := { h with uid := l.arrivals }

/-- What a call hands out and drops is entered. -/
def enter (l : Ledger) (x : Departure) : Ledger :=
  { l with d := x.state, out := l.out ++ x.result.toList, dropped := l.dropped ++ x.dropped }

/-- One call, with the bound variables as they are at that time. -/
def step (l : Ledger) (c : DropTailConfig × LedgerOp) : Option Ledger :=
  match c.2 with
  | .enque h => (l.d.enque c.1 (l.arriving h)).map fun x =>
      { l.enter x with arrivals := l.arrivals + 1 }
  | .deque => (l.d.deque c.1).map l.enter
  | .shrinkQueue => (l.d.shrinkQueue c.1).map l.enter

def run (calls : List (DropTailConfig × LedgerOp)) : Option Ledger := calls.foldlM step init

/-- All the packets there are: in the queue, out, and dropped. -/
def all (l : Ledger) : List Packet := l.d.q.pkts ++ (l.out ++ l.dropped)

/-- The ledger balances: the packets there are, by number, are those that arrived. -/
structure Balanced (l : Ledger) : Prop where
  valid : l.d.q.Valid
  bytes : l.d.q.bytes = sizes l.d.q.pkts
  perm : (l.all.map (·.uid)).Perm (List.range l.arrivals)

theorem init_balanced : init.Balanced :=
  ⟨⟨by simp [init, DropTail.init, BadTrackingPacketQueue.init], rfl⟩, rfl, by
    simp [init, all, DropTail.init, BadTrackingPacketQueue.init]⟩

theorem Balanced.arrivals {l : Ledger} (h : l.Balanced) {x : Packet} (hx : x ∈ l.d.q.pkts) :
    x.uid < l.arrivals := by
  rw [← List.mem_range, ← h.perm.mem_iff]
  exact List.mem_map_of_mem (List.mem_append_left _ hx)

/-- Packets leave the queue and are entered. -/
theorem Balanced.enter {l : Ledger} (h : l.Balanced) {x : Departure}
    (hl : Leaves l.d.q x.state.q (x.result.toList ++ x.dropped.reverse)) : (l.enter x).Balanced := by
  refine ⟨hl.valid, hl.bytes_eq h.bytes, List.Perm.trans (List.Perm.map _ ?_) h.perm⟩
  show (x.state.q.pkts ++ ((l.out ++ x.result.toList) ++ (l.dropped ++ x.dropped))).Perm
    (l.d.q.pkts ++ (l.out ++ l.dropped))
  rw [List.perm_iff_count]
  intro a
  have hc := hl.perm.count_eq a
  simp only [List.count_append, List.count_reverse] at hc ⊢
  omega

theorem Balanced.enque {l : Ledger} (h : l.Balanced) {cfg : DropTailConfig} {hd : Header}
    {x : Departure} (he : l.d.enque cfg (l.arriving hd) = some x) :
    Balanced { l.enter x with arrivals := l.arrivals + 1 } := by
  obtain ⟨q₁, hl, hm, hr, -⟩ := enque_leaves h.valid (fun _ hx => h.arrivals hx) he
  have hb : (l.d.q.enque (l.arriving hd)).bytes = sizes (l.d.q.enque (l.arriving hd)).pkts := by
    rw [enque_bytes, enque_pkts, h.bytes]
    simp
  refine ⟨hm.valid hl.valid, ?_, ?_⟩
  · show x.state.q.bytes = sizes x.state.q.pkts
    rw [hm.bytes, hm.sizes_eq, hl.bytes_eq hb]
  · show ((x.state.q.pkts ++ ((l.out ++ x.result.toList) ++ (l.dropped ++ x.dropped))).map
      (·.uid)).Perm (List.range (l.arrivals + 1))
    have hp := hl.perm.map (·.uid)
    have hall := h.perm
    rw [all] at hall
    rw [List.range_succ, hr, List.perm_iff_count]
    intro a
    have h₁ := hp.count_eq a
    have h₂ := hall.count_eq a
    simp only [enque_pkts, List.map_append, List.count_append, hm.uids, Option.toList_none,
      List.map_nil, List.count_nil, List.map_cons] at h₁ h₂ ⊢
    have h₃ : (l.arriving hd).uid = l.arrivals := rfl
    rw [h₃] at h₁
    omega

/-- A call keeps the ledger balanced. -/
theorem Balanced.step {l l' : Ledger} (h : l.Balanced) {c : DropTailConfig × LedgerOp}
    (he : l.step c = some l') : l'.Balanced := by
  obtain ⟨cfg, op⟩ := c
  cases op with
  | enque hd =>
      obtain ⟨x, hx, rfl⟩ := Option.map_eq_some_iff.mp he
      exact h.enque hx
  | deque =>
      obtain ⟨x, hx, rfl⟩ := Option.map_eq_some_iff.mp he
      exact h.enter (deque_leaves h.valid hx)
  | shrinkQueue =>
      obtain ⟨x, hx, rfl⟩ := Option.map_eq_some_iff.mp he
      obtain ⟨r, hr, rfl⟩ := Option.map_eq_some_iff.mp hx
      exact h.enter (shrinkLoop_leaves h.valid hr)

theorem run_balanced {calls : List (DropTailConfig × LedgerOp)} {l : Ledger}
    (he : run calls = some l) : l.Balanced := by
  induction calls using List.reverseRecOn generalizing l with
  | nil =>
      obtain rfl := Option.some.inj he
      exact init_balanced
  | append_singleton calls c ih =>
      rw [run, List.foldlM_append] at he
      obtain ⟨l₀, h₀, h₁⟩ := Option.bind_eq_some_iff.mp he
      exact (ih h₀).step (by simpa using h₁)

/-- The call can return: `drop_prio` does not throw, and `shrink_queue` has a limit it can reach. -/
def Returns (l : Ledger) (c : DropTailConfig × LedgerOp) : Prop :=
  match c.2 with
  | .enque h => ¬ Throws c.1 l.d (l.arriving h)
  | .deque => True
  | .shrinkQueue => 0 ≤ shrinkLimit c.1

theorem Balanced.returns {l : Ledger} (h : l.Balanced) {c : DropTailConfig × LedgerOp}
    (hc : l.Returns c) : ∃ l', l.step c = some l' := by
  obtain ⟨cfg, op⟩ := c
  cases op with
  | enque hd =>
      obtain ⟨x, hx, -⟩ := (enque_spec _ h.valid fun _ hx => h.arrivals hx).2 hc
      exact ⟨_, Option.map_eq_some_iff.mpr ⟨x, hx, rfl⟩⟩
  | deque =>
      obtain ⟨x, hx, -⟩ := QueueRun.deque_spec cfg h.valid
      exact ⟨_, Option.map_eq_some_iff.mpr ⟨x, hx, rfl⟩⟩
  | shrinkQueue =>
      obtain ⟨r, hr⟩ := shrinkLoop_returns hc h.valid h.bytes
      exact ⟨_, Option.map_eq_some_iff.mpr ⟨_, Option.map_eq_some_iff.mpr ⟨r, hr, rfl⟩, rfl⟩⟩

/-- **The conservation of packets.**  At every point of a run, every packet passed to `enque` is
exactly once in one of the three places: the queue, what `deque` has returned, and what has been
dropped.  `length()` and `byteLength()` are those of the packets in the queue, and every call
returns unless `drop_prio` throws or the limit of `shrink_queue` is negative. -/
theorem packets_conserved (calls : List (DropTailConfig × LedgerOp)) (l : Ledger)
    (hr : run calls = some l) :
    (∀ n < l.arrivals, (l.d.q.pkts.map (·.uid)).count n + (l.out.map (·.uid)).count n +
      (l.dropped.map (·.uid)).count n = 1) ∧
    (∀ x ∈ l.d.q.pkts ++ (l.out ++ l.dropped), x.uid < l.arrivals) ∧
    l.d.q.len = l.d.q.pkts.length ∧ l.d.q.bytes = sizes l.d.q.pkts ∧
    ∀ c, l.Returns c → ∃ l', l.step c = some l' := by
  have h := run_balanced hr
  have hall := h.perm
  refine ⟨fun n hn => ?_, fun x hx => ?_, h.valid.len_eq, h.bytes, fun c hc => h.returns hc⟩
  · have hc := hall.count_eq n
    rw [List.nodup_range.count, if_pos (List.mem_range.mpr hn), all] at hc
    simp only [List.map_append, List.count_append] at hc
    omega
  · rw [← List.mem_range, ← hall.mem_iff]
    exact List.mem_map_of_mem hx

/-- An overflow under `drop_prio_`, a departure, and a queue shrunk to nothing. -/
def mixedCalls : List (DropTailConfig × LedgerOp) :=
  let cfg := { QueueRun.pfabric with qlim := 3 }
  [(cfg, .enque ⟨1500, 9, 0, 1, 0, false, false⟩), (cfg, .enque ⟨40, 5, 2, 1, 0, false, false⟩),
    (cfg, .enque ⟨1500, 1, 0, 1, 0, false, false⟩), (cfg, .deque),
    ({ cfg with qlim := 0 }, .shrinkQueue)]

/-- The first packet is evicted by the third, which is handed out, and the second is shrunk away. -/
theorem packets_conserved_mixed :
    ∃ l, run mixedCalls = some l ∧ l.out.map (·.uid) = [2] ∧ l.dropped.map (·.uid) = [0, 1] ∧
      l.d.q.len = l.d.q.pkts.length :=
  ⟨_, rfl, by decide, by decide, (packets_conserved mixedCalls _ rfl).2.2.1⟩

end Ledger

end Afabric
