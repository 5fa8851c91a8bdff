import Afabric.Queue.AckFilter
import Mathlib.Data.List.Count

/-!
# Queue — the counters of the semantic queue

`SemanticPacketQueue` counts its acknowledgements, its other packets, its marked and its unmarked
ones, and `pickPacketToDrop` trusts the counts (`Counts`).  A run of `enque`, `deque` and `remove`
keeps them as long as no step is one of two kinds (`Spared`): `remove` of the first packet, which
`PacketQueue::remove` hands to the `deque` of this class, so that a packet is counted off twice, and
with `acksfirst_` is another one than was asked for; and an acknowledgement that purges others,
which stay counted as marked or unmarked.
-/

namespace Afabric

namespace SemanticPacketQueue

variable (hdr : ℕ → SpqPacket)

/-- `SemanticPacketQueue::remove(pkt)`. -/
def removePacket (fuel pkt : ℕ) (q : SemanticPacketQueue) : Except SpqFault SemanticPacketQueue :=
  (remove hdr fuel pkt q).map (uncount hdr pkt)

/-- `for (p = hd; p; p = p->next_) if (kind(p)) if (--n < 0) return p`; none if it has not ended
within its fuel. -/
def lookupFrom (next : ℕ → Option ℕ) (kind : ℕ → Bool) : ℕ → ℤ → Option ℕ → Option (Option ℕ)
  | 0, _, _ => none
  | _ + 1, _, none => some none
  | fuel + 1, n, some p =>
      if kind p then
        if n - 1 < 0 then some (some p) else lookupFrom next kind fuel (n - 1) (next p)
      else lookupFrom next kind fuel n (next p)

/-- `PacketQueue::lookup(n)`. -/
def lookup (fuel : ℕ) (n : ℤ) (q : SemanticPacketQueue) : Option (Option ℕ) :=
  lookupFrom q.next (fun _ => true) fuel n q.head

/-- `lookup(index, markedFlag)`. -/
def lookupMarked (fuel : ℕ) (index : ℤ) (markedFlag : Bool) (q : SemanticPacketQueue) :
    Option (Option ℕ) :=
  if index < 0 then some none
  else lookupFrom q.next (fun p => (hdr p).marked == markedFlag) fuel index q.head

/-- `Random::integer(k)`, where the generator gives `draw`; none for a division by zero. -/
def randomInteger (draw : ℕ) (k : ℤ) : Option ℤ :=
  if k = 0 then none else some (draw % if k < 0 then k + 2 ^ 32 else k)

/-- `victimIndex`, among `k` packets. -/
def victimIndex (randomDrop : Bool) (draw : ℕ) (k : ℤ) : Option ℤ :=
  if randomDrop then randomInteger draw k else some (k - 1)

def pickPacketToDrop (priorityDrop randomDrop : Bool) (draw fuel : ℕ) (q : SemanticPacketQueue) :
    Option (Option ℕ) :=
  if priorityDrop = false then
    (victimIndex randomDrop draw q.len).bind fun n => lookup fuel n q
  else if q.markedCount ≠ 0 then
    (victimIndex randomDrop draw q.markedCount).bind fun n => lookupMarked hdr fuel n true q
  else (victimIndex randomDrop draw q.unmarkedCount).bind fun n => lookupMarked hdr fuel n false q

/-! ### What the counters count -/

structure Counts (q : SemanticPacketQueue) (l : List ℕ) : Prop where
  ack : q.ackCount = l.countP fun p => (hdr p).isAck
  data : q.dataCount = l.countP fun p => !(hdr p).isAck
  marked : q.markedCount = l.countP fun p => (hdr p).marked
  unmarked : q.unmarkedCount = l.countP fun p => !(hdr p).marked

variable {hdr} {q q' : SemanticPacketQueue} {l l' a b : List ℕ} {x y pkt : ℕ} {fuel : ℕ}

theorem Counts.perm (h : Counts hdr q l) (hp : l.Perm l') : Counts hdr q l' :=
  ⟨hp.countP_eq _ ▸ h.ack, hp.countP_eq _ ▸ h.data, hp.countP_eq _ ▸ h.marked,
    hp.countP_eq _ ▸ h.unmarked⟩

theorem Counts.same (h : Counts hdr q l) (hs : SameBooks q q') : Counts hdr q' l :=
  ⟨hs.ackCount.trans h.ack, hs.dataCount.trans h.data, hs.markedCount.trans h.marked,
    hs.unmarkedCount.trans h.unmarked⟩

theorem Counts.cons (h : Counts hdr q l) (p : ℕ) : Counts hdr (count hdr p q) (p :: l) := by
  obtain ⟨hack, hdata, hmarked, hunmarked⟩ := h
  refine ⟨?_, ?_, ?_, ?_⟩
  · cases hp : (hdr p).isAck <;> simp [count, hp, hack]
  · cases hp : (hdr p).isAck <;> simp [count, hp, hdata]
  · cases hp : (hdr p).marked <;> simp [count, hp, hmarked]
  · cases hp : (hdr p).marked <;> simp [count, hp, hunmarked]

theorem Counts.tail {p : ℕ} (h : Counts hdr q (p :: l)) : Counts hdr (uncount hdr p q) l := by
  obtain ⟨hack, hdata, hmarked, hunmarked⟩ := h
  rw [List.countP_cons] at hack hdata hmarked hunmarked
  refine ⟨?_, ?_, ?_, ?_⟩
  · cases hp : (hdr p).isAck <;> simp_all [uncount]
  · cases hp : (hdr p).isAck <;> simp_all [uncount]
  · cases hp : (hdr p).marked <;> simp_all [uncount]
  · cases hp : (hdr p).marked <;> simp_all [uncount]

/-- Each pair of counters adds up to the length. -/
theorem Counts.sums (h : Counts hdr q l) :
    q.ackCount + q.dataCount = l.length ∧ q.markedCount + q.unmarkedCount = l.length := by
  rw [h.ack, h.data, h.marked, h.unmarked]
  constructor
  · rw [List.length_eq_countP_add_countP fun p => (hdr p).isAck]
    push_cast
    simp
  · rw [List.length_eq_countP_add_countP fun p => (hdr p).marked]
    push_cast
    simp

theorem uncount_sum (p : ℕ) (q : SemanticPacketQueue) :
    (uncount hdr p q).ackCount + (uncount hdr p q).dataCount = q.ackCount + q.dataCount - 1 := by
  cases hp : (hdr p).isAck with
  | false =>
      simp only [uncount, hp, if_neg Bool.false_ne_true]
      ring
  | true =>
      simp only [uncount, hp, if_true]
      ring

/-! ### The packet to drop -/

theorem lookupFrom_found {next : ℕ → Option ℕ} {kind : ℕ → Bool} {hd : Option ℕ} {n : ℤ}
    (h : SLL next hd l) (hn : 0 ≤ n) (hlt : n < l.countP kind) (hf : l.length < fuel) :
    ∃ p ∈ l, lookupFrom next kind fuel n hd = some (some p) := by
  induction l generalizing hd n fuel with
  | nil =>
      rw [List.countP_nil] at hlt
      exact absurd hlt hn.not_gt
  | cons x l ih =>
      obtain ⟨fuel, rfl⟩ := exists_fuel hf
      obtain ⟨rfl, hrest⟩ := h
      have hf' : l.length < fuel := Nat.lt_of_succ_lt_succ hf
      rw [lookupFrom]
      cases hx : kind x with
      | true =>
          rw [List.countP_cons_of_pos hx] at hlt
          rw [if_pos rfl]
          by_cases hlast : n - 1 < 0
          · exact ⟨x, List.mem_cons_self, if_pos hlast⟩
          · obtain ⟨p, hp, hfound⟩ := ih (n := n - 1) hrest (by omega) (by omega) hf'
            exact ⟨p, List.mem_cons_of_mem _ hp, by rw [if_neg hlast, hfound]⟩
      | false =>
          rw [List.countP_cons_of_neg (by rw [hx]; exact Bool.false_ne_true)] at hlt
          obtain ⟨p, hp, hfound⟩ := ih hrest hn hlt hf'
          exact ⟨p, List.mem_cons_of_mem _ hp, by rw [if_neg Bool.false_ne_true, hfound]⟩

theorem lookupMarked_found {n : ℤ} {flag : Bool} (h : Rep hdr q l) (hn : 0 ≤ n)
    (hlt : n < l.countP fun p => (hdr p).marked == flag) (hf : l.length < fuel) :
    ∃ p ∈ l, lookupMarked hdr fuel n flag q = some (some p) := by
  obtain ⟨p, hp, hfound⟩ := lookupFrom_found h.queue.chain hn hlt hf
  exact ⟨p, hp, by rw [lookupMarked, if_neg hn.not_gt, hfound]⟩

/-- The index is one of `k` packets, if there are any. -/
theorem victimIndex_lt (randomDrop : Bool) (draw : ℕ) {k : ℤ} (hk : 0 < k) :
    ∃ n, victimIndex randomDrop draw k = some n ∧ 0 ≤ n ∧ n < k := by
  cases randomDrop with
  | false => exact ⟨k - 1, rfl, by omega, by omega⟩
  | true =>
      refine ⟨draw % k, ?_, Int.emod_nonneg _ hk.ne', Int.emod_lt_of_pos _ hk⟩
      rw [victimIndex, if_pos rfl, randomInteger, if_neg hk.ne', if_neg hk.not_gt]

/-- With the right counters, a packet of the queue is picked. -/
theorem Counts.pick (hc : Counts hdr q l) (h : Rep hdr q l) (hne : l ≠ []) (hf : l.length < fuel)
    (priorityDrop randomDrop : Bool) (draw : ℕ) :
    ∃ p ∈ l, pickPacketToDrop hdr priorityDrop randomDrop draw fuel q = some (some p) := by
  have hpos : 0 < l.length := List.length_pos_iff.mpr hne
  have hsum := hc.sums.2
  have hmarks : q.markedCount = l.countP fun p => (hdr p).marked == true := by simp [hc.marked]
  have hunmarks : q.unmarkedCount = l.countP fun p => (hdr p).marked == false := by
    simp [hc.unmarked]
  rw [pickPacketToDrop]
  split_ifs with hprio hmarked
  · have hlen : q.len = l.length := by rw [h.len, add_zero]
    obtain ⟨n, hn, hnonneg, hlt⟩ := victimIndex_lt randomDrop draw (show 0 < q.len by omega)
    have hall : n < (l.countP fun _ => true : ℕ) := by
      rw [List.countP_true]
      omega
    obtain ⟨p, hp, hfound⟩ := lookupFrom_found h.queue.chain hnonneg hall hf
    exact ⟨p, hp, by rw [hn]; exact hfound⟩
  · obtain ⟨n, hn, hnonneg, hlt⟩ :=
      victimIndex_lt randomDrop draw (show 0 < q.markedCount by omega)
    obtain ⟨p, hp, hfound⟩ := lookupMarked_found h hnonneg (hmarks ▸ hlt) hf
    exact ⟨p, hp, by rw [hn]; exact hfound⟩
  · obtain ⟨n, hn, hnonneg, hlt⟩ :=
      victimIndex_lt randomDrop draw (show 0 < q.unmarkedCount by omega)
    obtain ⟨p, hp, hfound⟩ := lookupMarked_found h hnonneg (hunmarks ▸ hlt) hf
    exact ⟨p, hp, by rw [hn]; exact hfound⟩

/-! ### The operations -/

/-- What `deque` takes. -/
def dequeued (hdr : ℕ → SpqPacket) (acksfirst : Bool) (l : List ℕ) : Option ℕ :=
  (if acksfirst then l.find? fun p => (hdr p).isAck else none).or l.head?

/-- The list, its counters and the settings that no operation changes. -/
structure Counted (hdr : ℕ → SpqPacket) (acksfirst filteracks : Bool) (q : SemanticPacketQueue)
    (l : List ℕ) : Prop where
  rep : Rep hdr q l
  counts : Counts hdr q l
  freed : q.freed = []
  acksfirst : q.acksfirst = acksfirst
  filteracks : q.filteracks = filteracks
  reconsAcks : q.reconsAcks = false
  replaceHead : q.replaceHead = false

variable {acksfirst filteracks : Bool}

/-- A packet taken out of the list, with the counters of the others. -/
theorem Counted.taken (h : Counted hdr acksfirst filteracks q (a ++ x :: b))
    (hrep : Rep hdr q' (a ++ b)) (hfreed : q'.freed = q.freed) (hs : SameBooks q q') :
    Counted hdr acksfirst filteracks (uncount hdr x q') (a ++ b) where
  rep := { hrep with }
  counts := ((h.counts.perm List.perm_middle).same hs).tail
  freed := hfreed.trans h.freed
  acksfirst := hs.acksfirst.trans h.acksfirst
  filteracks := hs.filteracks.trans h.filteracks
  reconsAcks := hs.reconsAcks.trans h.reconsAcks
  replaceHead := hs.replaceHead.trans h.replaceHead

theorem Counted.first (h : Counted hdr acksfirst filteracks q (x :: b)) :
    (pqDeque hdr q).1 = some x ∧
      Counted hdr acksfirst filteracks (uncount hdr x (pqDeque hdr q).2) b := by
  have hhead : q.head = some x := h.rep.queue.head_eq
  refine ⟨?_, ?_⟩
  · rw [SemanticPacketQueue.pqDeque, hhead]
  · exact Counted.taken (a := []) h (Holds.pqDeque h.rep) (pqDeque_freed q) (pqDeque_books q)

theorem Counted.deque_acks (h : Counted hdr true filteracks q (a ++ x :: b))
    (ha : ∀ y ∈ a, (hdr y).isAck = false) (hx : (hdr x).isAck = true) (hf : a.length < fuel) :
    ∃ q', deque hdr fuel q = .ok (some x, q') ∧ Counted hdr true filteracks q' (a ++ b) := by
  have hpos : 0 < q.ackCount := by
    rw [h.counts.ack, Int.natCast_pos, List.countP_pos_iff]
    exact ⟨x, by simp, hx⟩
  obtain ⟨q₁, hq₁, hrep, hfreed, hs⟩ :=
    Holds.removeAfter h.rep fun _ => Option.or_none (o := a.getLast?)
  refine ⟨_, ?_, h.taken hrep hfreed hs⟩
  rw [SemanticPacketQueue.deque, if_pos h.acksfirst, dequeAcksfirst, if_pos hpos,
    walk_found h.rep.queue.chain ha hx hf]
  simp only [hq₁]
  rfl

theorem deque_eq (hno : q.acksfirst = true → ¬ 0 < q.ackCount) :
    deque hdr fuel q = .ok ((pqDeque hdr q).1,
      (pqDeque hdr q).1.elim (pqDeque hdr q).2 fun p => uncount hdr p (pqDeque hdr q).2) := by
  rw [deque]
  by_cases hacks : q.acksfirst = true
  · rw [if_pos hacks, dequeAcksfirst, if_neg (hno hacks)]
    rcases pqDeque hdr q with ⟨_ | p, q'⟩
    · rfl
    · rfl
  · rw [if_neg hacks]
    rcases pqDeque hdr q with ⟨_ | p, q'⟩
    · rfl
    · rfl

/-- Without acknowledgements to put first, the head is taken. -/
theorem Counted.deque_head (h : Counted hdr acksfirst filteracks q l)
    (hnone : acksfirst = true → ∀ y ∈ l, (hdr y).isAck = false) :
    ∃ q', deque hdr fuel q = .ok (l.head?, q') ∧
      Counted hdr acksfirst filteracks q' l.tail := by
  have hno : q.acksfirst = true → ¬ 0 < q.ackCount := by
    intro hacks
    rw [h.counts.ack, Int.natCast_pos, List.countP_pos_iff]
    rintro ⟨y, hy, hack⟩
    rw [hnone (h.acksfirst.symm.trans hacks) y hy] at hack
    exact Bool.noConfusion hack
  rw [deque_eq hno]
  cases l with
  | nil =>
      have hhead : q.head = none := h.rep.queue.head_eq
      exact ⟨q, by rw [pqDeque, hhead]; rfl, h⟩
  | cons x l =>
      obtain ⟨hx, htaken⟩ := h.first
      exact ⟨_, by rw [hx]; rfl, htaken⟩

theorem Counted.deque (h : Counted hdr acksfirst filteracks q l) (hf : l.length < fuel) :
    ∃ q', deque hdr fuel q = .ok (dequeued hdr acksfirst l, q') ∧
      Counted hdr acksfirst filteracks q' ((dequeued hdr acksfirst l).elim l l.erase) := by
  rw [dequeued]
  cases hfind : if acksfirst then l.find? fun p => (hdr p).isAck else none with
  | none =>
      have hnone : acksfirst = true → ∀ y ∈ l, (hdr y).isAck = false := by
        intro hacks y hy
        rw [if_pos hacks, List.find?_eq_none] at hfind
        simpa using hfind y hy
      obtain ⟨q', hq', h'⟩ : ∃ q', SemanticPacketQueue.deque hdr fuel q = .ok (l.head?, q') ∧
          Counted hdr acksfirst filteracks q' l.tail := h.deque_head hnone
      refine ⟨q', hq', ?_⟩
      cases l with
      | nil => exact h'
      | cons x l =>
          rw [Option.none_or, List.head?_cons, Option.elim_some, List.erase_cons_head]
          exact h'
  | some x =>
      obtain ⟨rfl, hfind⟩ : acksfirst = true ∧ (l.find? fun p => (hdr p).isAck) = some x := by
        cases acksfirst with
        | false => cases hfind
        | true => exact ⟨rfl, hfind⟩
      obtain ⟨hx, a, b, rfl, ha⟩ := List.find?_eq_some_iff_append.mp hfind
      have hpass : ∀ y ∈ a, (hdr y).isAck = false := fun y hy => by simpa using ha y hy
      have hlen : a.length < fuel := by
        rw [List.length_append] at hf
        omega
      obtain ⟨q', hq', h'⟩ := h.deque_acks hpass hx hlen
      refine ⟨q', hq', ?_⟩
      rw [Option.some_or, Option.elim_some, LinkedPacketQueue.erase_mid h.rep.queue.not_mem.1]
      exact h'

/-- A packet that is not the first is removed, and counted off once. -/
theorem Counted.remove (h : Counted hdr acksfirst filteracks q l) (hx : x ∈ l)
    (hhead : l.head? ≠ some x) (hf : l.length < fuel) :
    ∃ q', removePacket hdr fuel x q = .ok q' ∧
      Counted hdr acksfirst filteracks q' (l.erase x) := by
  obtain ⟨a, b, rfl⟩ := List.append_of_mem hx
  rw [LinkedPacketQueue.erase_mid h.rep.queue.not_mem.1]
  obtain ⟨a, y, rfl⟩ := (List.eq_nil_or_concat' a).resolve_left fun ha => hhead (by rw [ha]; rfl)
  have hlen : (a ++ [y]).length < fuel := by
    rw [List.length_append] at hf
    omega
  have hrep : Rep hdr q (a ++ y :: x :: b) := by simpa using h.rep
  obtain ⟨q₁, hq₁, hrep₁, hfreed, hs⟩ := Holds.remove hrep hlen
  exact ⟨_, by rw [removePacket, hq₁]; rfl, h.taken (by simpa [Rep] using hrep₁) hfreed hs⟩

theorem filterAcks_none (h : Rep hdr q (l ++ [pkt])) (hfreed : q.freed = [])
    (hnone : ∀ x ∈ l, purges hdr false pkt x = false) (hf : l.length + 1 < fuel) :
    filterAcks hdr fuel pkt false q = .ok q := by
  have hpass : ∀ x ∈ l ++ [pkt], purges hdr false pkt x = false ∧ x ∉ q.freed := by
    intro x hx
    refine ⟨?_, by rw [hfreed]; exact List.not_mem_nil⟩
    rcases List.mem_append.mp hx with hx | hx
    · exact hnone x hx
    · rw [List.mem_singleton.mp hx, purges_self, Bool.and_false]
  have hchain : SLL q.next q.head ((l ++ [pkt]) ++ []) := by
    rw [List.append_nil]
    exact h.queue.chain
  obtain ⟨fuel, rfl⟩ : ∃ f, fuel = (l ++ [pkt]).length + (f + 1) :=
    ⟨fuel - l.length - 2, by rw [List.length_append, List.length_singleton]; omega⟩
  have hpkt : pkt ∉ q.freed := (hpass pkt (by simp)).2
  rw [filterAcks, filterLoop_pass hchain hpass hpkt]
  rfl

/-- An arrival that purges nothing is counted once. -/
theorem Counted.enque (reconsCtrl : ℕ → SemanticPacketQueue → Except SpqFault SemanticPacketQueue)
    (h : Counted hdr acksfirst filteracks q l) (hx : x ∉ l)
    (hnone : filteracks = true → (hdr x).isAck = true → ∀ y ∈ l, purges hdr false x y = false)
    (hf : l.length + 1 < fuel) :
    ∃ q', enque hdr reconsCtrl fuel x q = .ok (q.tail, q') ∧
      Counted hdr acksfirst filteracks q' (l ++ [x]) := by
  have hfree : x ∉ q.freed := by
    rw [h.freed]
    exact List.not_mem_nil
  have hrep := h.rep.pqEnque_count hx hfree
  refine ⟨(pqEnque hdr x (count hdr x q)).2, ?_, ?_⟩
  · rw [enque_eq reconsCtrl fuel h.reconsAcks]
    split_ifs with hacks
    · rw [h.replaceHead, filterAcks_none hrep h.freed (hnone (h.filteracks ▸ hacks.1) hacks.2) hf]
      rfl
    · rfl
  · exact {
      rep := hrep
      counts := ((h.counts.cons x).perm (List.perm_append_singleton x l).symm).same
        ⟨rfl, rfl, rfl, rfl, rfl, rfl, rfl, rfl⟩
      freed := h.freed
      acksfirst := h.acksfirst
      filteracks := h.filteracks
      reconsAcks := h.reconsAcks
      replaceHead := h.replaceHead }

/-! ### What miscounts -/

theorem removeAfter_marks {pp : Option ℕ} (h : removeAfter hdr x pp q = .ok q') :
    q'.markedCount = q.markedCount ∧ q'.unmarkedCount = q.unmarkedCount := by
  rw [removeAfter.eq_def] at h
  by_cases hhead : q.head = some x
  · rw [if_pos hhead] at h
    obtain rfl := Except.ok.inj h
    exact ⟨(pqDeque_books q).markedCount, (pqDeque_books q).unmarkedCount⟩
  · rw [if_neg hhead] at h
    cases pp with
    | none => cases h
    | some y =>
        dsimp only at h
        by_cases hy : y ∈ q.freed
        · rw [if_pos hy] at h
          cases h
        · rw [if_neg hy] at h
          obtain rfl := Except.ok.inj h
          exact ⟨rfl, rfl⟩

/-- The filter does not count the marks of what it frees. -/
theorem filterLoop_marks {p pp : Option ℕ} {done : Bool}
    (h : filterLoop hdr false pkt fuel p pp done q = .ok q') :
    q'.markedCount = q.markedCount ∧ q'.unmarkedCount = q.unmarkedCount := by
  induction fuel generalizing p pp q with
  | zero => cases h
  | succ fuel ih =>
      cases p with
      | none =>
          obtain rfl := Except.ok.inj h
          exact ⟨rfl, rfl⟩
      | some p =>
          rw [filterLoop] at h
          split_ifs at h with h₁ h₂ h₃ h₄
          · exact h₃.1.elim
          · cases hq : removeAfter hdr p pp q with
            | error e =>
                rw [hq] at h
                cases h
            | ok q₁ =>
                rw [hq] at h
                have hrest := ih h
                have hone := removeAfter_marks hq
                exact ⟨hrest.1.trans hone.1, hrest.2.trans hone.2⟩
          · exact ih h
          · exact ih h

/-- An acknowledgement that purges another leaves a wrong number of marked or unmarked packets. -/
theorem Counted.enque_miscounts
    (reconsCtrl : ℕ → SemanticPacketQueue → Except SpqFault SemanticPacketQueue)
    {pt : Option ℕ} (h : Counted hdr acksfirst true q l) (hack : (hdr x).isAck = true)
    (hy : y ∈ l) (hpurge : purges hdr false x y = true)
    (he : SemanticPacketQueue.enque hdr reconsCtrl fuel x q = .ok (pt, q')) :
    ¬ Counts hdr q' (filtered hdr false x l) := by
  intro hcounts
  rw [enque_eq reconsCtrl fuel h.reconsAcks, if_pos ⟨h.filteracks, hack⟩, h.replaceHead] at he
  have hsum := (h.counts.cons x).sums.2
  have hsum' := hcounts.sums.2
  have hshort : (filtered hdr false x l).length < (x :: l).length := by
    rw [filtered, if_neg fun hc => Bool.noConfusion hc.1, List.length_append, List.length_singleton,
      List.length_cons]
    refine Nat.succ_lt_succ (List.length_filter_lt_length_iff_exists.mpr ⟨y, hy, ?_⟩)
    rw [hpurge]
    exact Bool.false_ne_true
  cases hq : filterAcks hdr fuel x false (pqEnque hdr x (count hdr x q)).2 with
  | error e =>
      rw [hq] at he
      cases he
  | ok q₁ =>
      rw [hq] at he
      obtain ⟨-, rfl⟩ := Prod.mk.inj (Except.ok.inj he)
      obtain ⟨hmarked, hunmarked⟩ := filterLoop_marks hq
      have hsame : (count hdr x q).markedCount + (count hdr x q).unmarkedCount =
          q₁.markedCount + q₁.unmarkedCount := by
        rw [hmarked, hunmarked]
        rfl
      omega

theorem exists_dequeued (hdr : ℕ → SpqPacket) (acksfirst : Bool) (x : ℕ) (b : List ℕ) :
    ∃ z, dequeued hdr acksfirst (x :: b) = some z ∧ z ∈ x :: b := by
  rw [dequeued]
  cases hfind : if acksfirst then (x :: b).find? fun p => (hdr p).isAck else none with
  | none => exact ⟨x, rfl, List.mem_cons_self⟩
  | some z =>
      refine ⟨z, rfl, ?_⟩
      split_ifs at hfind
      exact List.mem_of_find?_eq_some hfind

/-- `remove` of the first packet counts two packets off. -/
theorem Counted.remove_miscounts (h : Counted hdr acksfirst filteracks q (x :: b))
    (hf : (x :: b).length < fuel) (hr : removePacket hdr fuel x q = .ok q') :
    ¬ Counts hdr q' ((x :: b).erase x) := by
  intro hcounts
  obtain ⟨q₁, hq₁, h₁⟩ := h.deque hf
  have hfound : walk q.next (· = x) fuel q.head none = some (some x, none) :=
    walk_found (a := []) h.rep.queue.chain (fun _ hm => absurd hm List.not_mem_nil)
      (decide_eq_true rfl) (Nat.zero_lt_of_lt hf)
  rw [removePacket, SemanticPacketQueue.remove, hfound] at hr
  simp only [hq₁] at hr
  have hq' : uncount hdr x q₁ = q' := Except.ok.inj hr
  obtain ⟨z, hz, hmem⟩ := exists_dequeued hdr acksfirst x b
  have hsum := hcounts.sums.1
  have hsum₁ := h₁.counts.sums.1
  rw [← hq', uncount_sum, List.erase_cons_head] at hsum
  rw [hz, Option.elim_some, List.length_erase_of_mem hmem, List.length_cons,
    Nat.add_sub_cancel] at hsum₁
  omega

/-! ### Runs -/

/-- A call on the queue; the `deque` is one of a caller of the queue. -/
inductive SpqCall where
  | enque (p : ℕ)
  | deque
  | remove (p : ℕ)

/-- The queue after a call. -/
def call (hdr : ℕ → SpqPacket)
    (reconsCtrl : ℕ → SemanticPacketQueue → Except SpqFault SemanticPacketQueue) (fuel : ℕ)
    (q : SemanticPacketQueue) : SpqCall → Except SpqFault SemanticPacketQueue
  | .enque p => (enque hdr reconsCtrl fuel p q).map Prod.snd
  | .deque => (SemanticPacketQueue.deque hdr fuel q).map Prod.snd
  | .remove p => removePacket hdr fuel p q

/-- The list after a call. -/
def listCall (hdr : ℕ → SpqPacket) (acksfirst filteracks : Bool) (l : List ℕ) : SpqCall → List ℕ
  | .enque p =>
      if filteracks = true ∧ (hdr p).isAck = true then filtered hdr false p l else l ++ [p]
  | .deque => (dequeued hdr acksfirst l).elim l l.erase
  | .remove p => l.erase p

/-- A packet that enters is not in the queue, one that is removed is. -/
def Legal (l : List ℕ) : SpqCall → Prop
  | .enque p => p ∉ l
  | .deque => True
  | .remove p => p ∈ l

/-- No acknowledgement is purged, and no packet is removed at the head. -/
def Spared (hdr : ℕ → SpqPacket) (filteracks : Bool) (l : List ℕ) : SpqCall → Prop
  | .enque p => filteracks = true → (hdr p).isAck = true → ∀ x ∈ l, purges hdr false p x = false
  | .deque => True
  | .remove p => l.head? ≠ some p

instance (l : List ℕ) : DecidablePred (Legal l)
  | .enque p => inferInstanceAs (Decidable (p ∉ l))
  | .deque => .isTrue trivial
  | .remove p => inferInstanceAs (Decidable (p ∈ l))

instance (hdr : ℕ → SpqPacket) (filteracks : Bool) (l : List ℕ) :
    DecidablePred (Spared hdr filteracks l)
  | .enque p => inferInstanceAs (Decidable (filteracks = true → (hdr p).isAck = true →
      ∀ x ∈ l, purges hdr false p x = false))
  | .deque => .isTrue trivial
  | .remove p => inferInstanceAs (Decidable (l.head? ≠ some p))

/-- A condition on the list before each call of a run. -/
def EachCall (hdr : ℕ → SpqPacket) (acksfirst filteracks : Bool) (C : List ℕ → SpqCall → Prop)
    (l : List ℕ) : List SpqCall → Prop
  | [] => True
  | c :: cs =>
      C l c ∧ EachCall hdr acksfirst filteracks C (listCall hdr acksfirst filteracks l c) cs

instance decidableEachCall (hdr : ℕ → SpqPacket) (acksfirst filteracks : Bool)
    (C : List ℕ → SpqCall → Prop) [∀ l, DecidablePred (C l)] :
    ∀ l cs, Decidable (EachCall hdr acksfirst filteracks C l cs)
  | _, [] => .isTrue trivial
  | l, c :: cs =>
      have := decidableEachCall hdr acksfirst filteracks C
        (listCall hdr acksfirst filteracks l c) cs
      inferInstanceAs (Decidable (C l c ∧ _))

theorem length_listCall (c : SpqCall) :
    (listCall hdr acksfirst filteracks l c).length ≤ l.length + 1 := by
  cases c with
  | enque p =>
      rw [listCall]
      split_ifs
      · rw [filtered, if_neg fun hc => Bool.noConfusion hc.1, List.length_append,
          List.length_singleton]
        exact Nat.succ_le_succ (List.length_filter_le _ l)
      · rw [List.length_append, List.length_singleton]
  | deque =>
      rw [listCall]
      cases dequeued hdr acksfirst l with
      | none => exact Nat.le_succ _
      | some z => exact List.length_erase_le.trans (Nat.le_succ _)
  | remove p => exact List.length_erase_le.trans (Nat.le_succ _)

theorem Counted.call (reconsCtrl : ℕ → SemanticPacketQueue → Except SpqFault SemanticPacketQueue)
    {c : SpqCall} (h : Counted hdr acksfirst filteracks q l) (hl : Legal l c)
    (hs : Spared hdr filteracks l c) (hf : l.length + 1 < fuel) :
    ∃ q', call hdr reconsCtrl fuel q c = .ok q' ∧
      Counted hdr acksfirst filteracks q' (listCall hdr acksfirst filteracks l c) := by
  cases c with
  | enque p =>
      obtain ⟨q', hq', h'⟩ := h.enque reconsCtrl hl hs hf
      refine ⟨q', by rw [SemanticPacketQueue.call, hq']; rfl, ?_⟩
      rw [listCall]
      split_ifs with hacks
      · rw [filtered, if_neg fun hc => Bool.noConfusion hc.1, List.filter_eq_self.mpr]
        · exact h'
        · intro x hx
          rw [hs hacks.1 hacks.2 x hx]
          rfl
      · exact h'
  | deque =>
      obtain ⟨q', hq', h'⟩ := h.deque (show l.length < fuel by omega)
      exact ⟨q', by rw [SemanticPacketQueue.call, hq']; rfl, h'⟩
  | remove p => exact h.remove hl hs (show l.length < fuel by omega)

theorem Counted.call_miscounts
    (reconsCtrl : ℕ → SemanticPacketQueue → Except SpqFault SemanticPacketQueue)
    {c : SpqCall} (h : Counted hdr acksfirst filteracks q l)
    (hs : ¬ Spared hdr filteracks l c) (hf : l.length < fuel)
    (hq' : SemanticPacketQueue.call hdr reconsCtrl fuel q c = .ok q') :
    ¬ Counts hdr q' (listCall hdr acksfirst filteracks l c) := by
  cases c with
  | enque p =>
      simp only [Spared, not_forall, Bool.not_eq_false] at hs
      obtain ⟨rfl, hack, x, hx, hpurge⟩ := hs
      rw [SemanticPacketQueue.call] at hq'
      cases he : SemanticPacketQueue.enque hdr reconsCtrl fuel p q with
      | error e =>
          rw [he] at hq'
          cases hq'
      | ok r =>
          rw [he] at hq'
          obtain rfl := Except.ok.inj hq'
          rw [listCall, if_pos ⟨rfl, hack⟩]
          exact h.enque_miscounts reconsCtrl hack hx hpurge he
  | deque => exact absurd trivial hs
  | remove p =>
      obtain ⟨b, rfl⟩ := List.head?_eq_some_iff.mp (not_not.mp hs)
      exact h.remove_miscounts hf hq'

/-- The queue represents the list, the counters count it, and a packet of it is picked to drop. -/
structure Right (hdr : ℕ → SpqPacket) (fuel : ℕ) (q : SemanticPacketQueue) (l : List ℕ) :
    Prop where
  rep : Rep hdr q l
  counts : Counts hdr q l
  pick : l ≠ [] → ∀ priorityDrop randomDrop draw,
    ∃ p ∈ l, pickPacketToDrop hdr priorityDrop randomDrop draw fuel q = some (some p)

/-- Every call of a run leaves the queue right. -/
def KeepsCounts (hdr : ℕ → SpqPacket)
    (reconsCtrl : ℕ → SemanticPacketQueue → Except SpqFault SemanticPacketQueue) (fuel : ℕ)
    (acksfirst filteracks : Bool) (q : SemanticPacketQueue) (l : List ℕ) : List SpqCall → Prop
  | [] => True
  | c :: cs => ∃ q', call hdr reconsCtrl fuel q c = .ok q' ∧
      Right hdr fuel q' (listCall hdr acksfirst filteracks l c) ∧
      KeepsCounts hdr reconsCtrl fuel acksfirst filteracks q'
        (listCall hdr acksfirst filteracks l c) cs

/-- A queue as it is constructed, with two of its settings. -/
def created (acksfirst filteracks : Bool) (next : ℕ → Option ℕ) : SemanticPacketQueue where
  head := none
  tail := none
  len := 0
  bytes := 0
  next := next
  freed := []
  ackCount := 0
  dataCount := 0
  markedCount := 0
  unmarkedCount := 0
  acksfirst := acksfirst
  filteracks := filteracks
  reconsAcks := false
  replaceHead := false

theorem Counted.created (acksfirst filteracks : Bool) (next : ℕ → Option ℕ) :
    Counted hdr acksfirst filteracks (created acksfirst filteracks next) [] where
  rep := ⟨.nil, rfl, rfl, fun _ hp => absurd hp List.not_mem_nil⟩
  counts := ⟨rfl, rfl, rfl, rfl⟩
  freed := rfl
  acksfirst := rfl
  filteracks := rfl
  reconsAcks := rfl
  replaceHead := rfl

theorem Counted.right (h : Counted hdr acksfirst filteracks q l) (hf : l.length < fuel) :
    Right hdr fuel q l := ⟨h.rep, h.counts, fun hne => h.counts.pick h.rep hne hf⟩

theorem Counted.run (reconsCtrl : ℕ → SemanticPacketQueue → Except SpqFault SemanticPacketQueue)
    {cs : List SpqCall} (h : Counted hdr acksfirst filteracks q l)
    (hl : EachCall hdr acksfirst filteracks Legal l cs) (hf : l.length + cs.length + 1 < fuel) :
    KeepsCounts hdr reconsCtrl fuel acksfirst filteracks q l cs ↔
      EachCall hdr acksfirst filteracks (Spared hdr filteracks) l cs := by
  induction cs generalizing q l with
  | nil => exact Iff.rfl
  | cons c cs ih =>
      rw [List.length_cons] at hf
      have hlen : (listCall hdr acksfirst filteracks l c).length ≤ l.length + 1 :=
        length_listCall c
      by_cases hs : Spared hdr filteracks l c
      · obtain ⟨q₁, hq₁, h₁⟩ := h.call reconsCtrl hl.1 hs (show l.length + 1 < fuel by omega)
        have hrest := ih h₁ hl.2 (by omega)
        constructor
        · rintro ⟨q', hq', -, hkeeps⟩
          obtain rfl := Except.ok.inj (hq₁.symm.trans hq')
          exact ⟨hs, hrest.mp hkeeps⟩
        · rintro ⟨-, hcs⟩
          exact ⟨q₁, hq₁, h₁.right (by omega), hrest.mpr hcs⟩
      · constructor
        · rintro ⟨q', hq', hright, -⟩
          exact absurd hright.counts (h.call_miscounts reconsCtrl hs (by omega) hq')
        · rintro ⟨hs', -⟩
          exact absurd hs' hs

/-- **A run keeps the counters if and only if it purges no acknowledgement and removes no packet at
the head**, whatever the settings are. -/
theorem run_counts_iff
    (reconsCtrl : ℕ → SemanticPacketQueue → Except SpqFault SemanticPacketQueue)
    (next : ℕ → Option ℕ) {cs : List SpqCall}
    (hl : EachCall hdr acksfirst filteracks Legal [] cs) (hf : cs.length + 1 < fuel) :
    KeepsCounts hdr reconsCtrl fuel acksfirst filteracks (created acksfirst filteracks next) [] cs ↔
      EachCall hdr acksfirst filteracks (Spared hdr filteracks) [] cs :=
  (Counted.created acksfirst filteracks next).run reconsCtrl hl
    (by rwa [List.length_nil, Nat.zero_add])

/-- Data and two acknowledgements: the second is removed, and the first goes before the data. -/
theorem run_counts_iff_four :
    KeepsCounts flowHdr (fun _ q => .ok q) 7 true false (created true false fun _ => none) []
      [.enque 1, .enque 2, .enque 3, .remove 3, .deque] :=
  (run_counts_iff _ _ (by decide) (by decide)).mpr (by decide)

/-- The data packet `1` is to be removed; the acknowledgement `2` goes instead, and both are counted
off. -/
theorem run_counts_head :
    EachCall flowHdr true false Legal [] [.enque 1, .enque 2, .remove 1] ∧
      ¬ KeepsCounts flowHdr (fun _ q => .ok q) 5 true false (created true false fun _ => none) []
        [.enque 1, .enque 2, .remove 1] := by
  refine ⟨by decide, ?_⟩
  rintro ⟨q₁, h₁, -, q₂, h₂, -, q₃, h₃, hright, -⟩
  obtain rfl := Except.ok.inj h₁
  obtain rfl := Except.ok.inj h₂
  obtain rfl := Except.ok.inj h₃
  have hhead : some 1 = some 2 := hright.rep.queue.head_eq
  exact absurd hhead (by decide)

end SemanticPacketQueue

end Afabric
