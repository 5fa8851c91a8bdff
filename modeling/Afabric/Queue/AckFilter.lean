import Afabric.Queue.PacketList

/-!
# Queue — the filter of acknowledgements

`SemanticPacketQueue` (`queue/semantic-packetqueue.cc`) over the linked list of `PacketQueue`
(`queue/queue.h`).  A packet is known by its address.

With `filteracks_`, an acknowledgement that enters the queue purges the older ones of its flow
(`filtered`).  With `replace_head_` it should take the place of the first of them.  It is then
unlinked from the tail, and the counters never get it back; at the head, the trailing pointer is the
head itself, and the splice closes a circle of two packets, both of which the loop frees.
-/

namespace Afabric

/-- The fields of a packet's headers that the queue reads. -/
structure SpqPacket where
  saddr : ℤ
  sport : ℤ
  daddr : ℤ
  dport : ℤ
  isAck : Bool
  marked : Bool
  seqno : ℤ
  size : ℤ

/-- `compareFlows`. -/
def SpqPacket.compareFlows (p q : SpqPacket) : Bool :=
  p.saddr = q.saddr ∧ p.sport = q.sport ∧ p.daddr = q.daddr ∧ p.dport = q.dport

/-- Why a call has no result: a freed packet is read or written, a null pointer is followed,
`remove` aborts, or a loop has not ended within its fuel. -/
inductive SpqFault where
  | freed
  | null
  | missing
  | fuel
deriving DecidableEq, Repr

/-- `SemanticPacketQueue`, with the links of the packets and those that it has freed. -/
structure SemanticPacketQueue where
  head : Option ℕ
  tail : Option ℕ
  len : ℤ
  bytes : ℤ
  next : ℕ → Option ℕ
  freed : List ℕ
  ackCount : ℤ
  dataCount : ℤ
  markedCount : ℤ
  unmarkedCount : ℤ
  acksfirst : Bool
  filteracks : Bool
  reconsAcks : Bool
  replaceHead : Bool

namespace SemanticPacketQueue

variable (hdr : ℕ → SpqPacket)

/-! ### `PacketQueue` -/

/-- `PacketQueue::enque`, which returns the tail before. -/
def pqEnque (p : ℕ) (q : SemanticPacketQueue) : Option ℕ × SemanticPacketQueue :=
  (q.tail, { q with
    head := if q.tail = none then some p else q.head
    tail := some p
    next := Function.update (setLink q.next q.tail (some p)) p none
    len := q.len + 1
    bytes := q.bytes + (hdr p).size })

/-- `PacketQueue::deque`. -/
def pqDeque (q : SemanticPacketQueue) : Option ℕ × SemanticPacketQueue :=
  match q.head with
  | none => (none, q)
  | some p =>
      (some p, { q with
        head := if some p = q.tail then none else q.next p
        tail := if some p = q.tail then none else q.tail
        len := q.len - 1
        bytes := q.bytes - (hdr p).size })

/-- `remove(pkt, prev)`: the packet after `prev`, which is not looked at for the head. -/
def removeAfter (p : ℕ) (prev : Option ℕ) (q : SemanticPacketQueue) :
    Except SpqFault SemanticPacketQueue :=
  if q.head = some p then .ok (pqDeque hdr q).2
  else
    match prev with
    | none => .error .null
    | some y =>
        if y ∈ q.freed then .error .freed
        else .ok { q with
          next := Function.update q.next y (q.next p)
          tail := if q.tail = some p then some y else q.tail
          len := q.len - 1
          bytes := q.bytes - (hdr p).size }

/-! ### `SemanticPacketQueue` -/

/-- The counters of a packet that has left by `deque`. -/
def uncount (p : ℕ) (q : SemanticPacketQueue) : SemanticPacketQueue :=
  { q with
    ackCount := if (hdr p).isAck then q.ackCount - 1 else q.ackCount
    dataCount := if (hdr p).isAck then q.dataCount else q.dataCount - 1
    markedCount := if (hdr p).marked then q.markedCount - 1 else q.markedCount
    unmarkedCount := if (hdr p).marked then q.unmarkedCount else q.unmarkedCount - 1 }

/-- `deque_acksfirst`. -/
def dequeAcksfirst (fuel : ℕ) (q : SemanticPacketQueue) :
    Except SpqFault (Option ℕ × SemanticPacketQueue) :=
  if 0 < q.ackCount then
    match walk q.next (fun p => (hdr p).isAck) fuel q.head none with
    | none => .error .fuel
    | some (none, _) => .ok (none, q)
    | some (some p, pp) => (removeAfter hdr p pp q).map fun q => (some p, q)
  else .ok (pqDeque hdr q)

def deque (fuel : ℕ) (q : SemanticPacketQueue) :
    Except SpqFault (Option ℕ × SemanticPacketQueue) := do
  let r ← if q.acksfirst then dequeAcksfirst hdr fuel q else .ok (pqDeque hdr q)
  match r with
  | (none, q) => .ok (none, q)
  | (some p, q) => .ok (some p, uncount hdr p q)

/-- `PacketQueue::remove(target)`, whose `deque` is the one of this class. -/
def remove (fuel target : ℕ) (q : SemanticPacketQueue) : Except SpqFault SemanticPacketQueue :=
  match walk q.next (· = target) fuel q.head none with
  | none => .error .fuel
  | some (none, _) => .error .missing
  | some (some _, none) => (deque hdr fuel q).map Prod.snd
  | some (some p, some pp) =>
      .ok { q with
        tail := if q.tail = some p then some pp else q.tail
        next := Function.update q.next pp (q.next p)
        len := q.len - 1
        bytes := q.bytes - (hdr p).size }

/-- The queued packet `p` is an older acknowledgement of the flow of `pkt`. -/
def purges (replaceHead : Bool) (pkt p : ℕ) : Bool :=
  (hdr p).compareFlows (hdr pkt) ∧ (hdr p).isAck ∧
    ((hdr p).seqno < (hdr pkt).seqno ∨ (replaceHead = true ∧ (hdr p).seqno = (hdr pkt).seqno))

/-- The loop of `filterAcks`, with `p`, `pp` and `done_replacement`. -/
def filterLoop (replaceHead : Bool) (pkt : ℕ) :
    ℕ → Option ℕ → Option ℕ → Bool → SemanticPacketQueue → Except SpqFault SemanticPacketQueue
  | 0, _, _, _, _ => .error .fuel
  | _ + 1, none, _, _, q => .ok q
  | fuel + 1, some p, pp, done, q =>
      if p ∈ q.freed ∨ pkt ∈ q.freed then .error .freed
      else if purges hdr replaceHead pkt p then
        if replaceHead = true ∧ pkt ≠ p ∧ done = false then do
          let q ← remove hdr fuel pkt q
          -- `pp` is set to the head before the loop, so at the head it is `p` itself
          filterLoop replaceHead pkt fuel (some p) (some pkt) true { q with
            ackCount := q.ackCount - 1
            next := setLink (Function.update q.next pkt (some p)) pp (some pkt) }
        else if done = true ∨ pkt ≠ p then do
          let newP := q.next p
          let q ← removeAfter hdr p pp q
          filterLoop replaceHead pkt fuel newP pp done { q with
            freed := p :: q.freed
            ackCount := q.ackCount - 1 }
        else filterLoop replaceHead pkt fuel (q.next p) (some p) done q
      else filterLoop replaceHead pkt fuel (q.next p) (some p) done q

def filterAcks (fuel pkt : ℕ) (replaceHead : Bool) (q : SemanticPacketQueue) :
    Except SpqFault SemanticPacketQueue :=
  filterLoop hdr replaceHead pkt fuel q.head q.head false q

/-- `enque`, with the `recv` of the controller of the reconstruction. -/
def enque (reconsCtrl : ℕ → SemanticPacketQueue → Except SpqFault SemanticPacketQueue)
    (fuel pkt : ℕ) (q : SemanticPacketQueue) : Except SpqFault (Option ℕ × SemanticPacketQueue) :=
  if q.reconsAcks = true ∧ (hdr pkt).isAck = true then
    (reconsCtrl pkt q).map fun q => (none, q)
  else do
    let q := { q with
      ackCount := if (hdr pkt).isAck then q.ackCount + 1 else q.ackCount
      dataCount := if (hdr pkt).isAck then q.dataCount else q.dataCount + 1
      markedCount := if (hdr pkt).marked then q.markedCount + 1 else q.markedCount
      unmarkedCount := if (hdr pkt).marked then q.unmarkedCount else q.unmarkedCount + 1 }
    let (pt, q) := pqEnque hdr pkt q
    let q ← if q.filteracks = true ∧ (hdr pkt).isAck = true then
      filterAcks hdr fuel pkt q.replaceHead q else .ok q
    return (pt, q)

/-! ### What the filter is for -/

/-- The packets without the older acknowledgements, and the new one: at the place of the first of
them if it is to replace it, else at the end. -/
def filtered (replaceHead : Bool) (pkt : ℕ) (l : List ℕ) : List ℕ :=
  if replaceHead = true ∧ l.any (purges hdr replaceHead pkt) = true then
    l.takeWhile (fun p => !purges hdr replaceHead pkt p) ++
      pkt :: (l.dropWhile fun p => !purges hdr replaceHead pkt p).filter
        fun p => !purges hdr replaceHead pkt p
  else l.filter (fun p => !purges hdr replaceHead pkt p) ++ [pkt]

/-- The list of the queue, with the counters `m` packets and `n` bytes off. -/
structure Holds (m n : ℤ) (q : SemanticPacketQueue) (l : List ℕ) : Prop where
  queue : SLQ q.next q.head q.tail l
  len : q.len = l.length + m
  bytes : q.bytes = (l.map fun p => (hdr p).size).sum + n
  alive : ∀ p ∈ l, p ∉ q.freed

/-- The list of the queue, and the counters count it. -/
def Rep (q : SemanticPacketQueue) (l : List ℕ) : Prop := Holds hdr 0 0 q l

variable {hdr : ℕ → SpqPacket} {q : SemanticPacketQueue} {m n : ℤ} {l a b : List ℕ} {x y pkt : ℕ}
  {pp : Option ℕ} {fuel : ℕ} {replaceHead done : Bool}

/-! ### The operations of the list -/

/-- The queue without its counters. -/
def toPacketQueue (q : SemanticPacketQueue) : LinkedPacketQueue where
  head := q.head
  tail := q.tail
  len := q.len
  bytes := q.bytes
  next := q.next

theorem Holds.list (h : Holds hdr m n q l) :
    LinkedPacketQueue.Holds (fun p => (hdr p).size) m n q.toPacketQueue l :=
  ⟨h.queue, h.len, h.bytes⟩

theorem Holds.of_list (h : LinkedPacketQueue.Holds (fun p => (hdr p).size) m n q.toPacketQueue l)
    (halive : ∀ p ∈ l, p ∉ q.freed) : Holds hdr m n q l := ⟨h.queue, h.len, h.bytes, halive⟩

theorem toPacketQueue_pqDeque (q : SemanticPacketQueue) :
    (pqDeque hdr q).2.toPacketQueue =
      (LinkedPacketQueue.deque (fun p => (hdr p).size) q.toPacketQueue).2 := by
  obtain ⟨head⟩ := q
  cases head with
  | none => rfl
  | some p => rfl

@[simp] theorem pqDeque_next (q : SemanticPacketQueue) : (pqDeque hdr q).2.next = q.next := by
  rw [SemanticPacketQueue.pqDeque.eq_def]
  split <;> rfl

@[simp] theorem pqDeque_freed (q : SemanticPacketQueue) : (pqDeque hdr q).2.freed = q.freed := by
  rw [SemanticPacketQueue.pqDeque.eq_def]
  split <;> rfl

/-- The counters and the settings are the same. -/
structure SameBooks (q q' : SemanticPacketQueue) : Prop where
  ackCount : q'.ackCount = q.ackCount
  dataCount : q'.dataCount = q.dataCount
  markedCount : q'.markedCount = q.markedCount
  unmarkedCount : q'.unmarkedCount = q.unmarkedCount
  acksfirst : q'.acksfirst = q.acksfirst
  filteracks : q'.filteracks = q.filteracks
  reconsAcks : q'.reconsAcks = q.reconsAcks
  replaceHead : q'.replaceHead = q.replaceHead

theorem pqDeque_books (q : SemanticPacketQueue) : SameBooks q (pqDeque hdr q).2 := by
  rw [SemanticPacketQueue.pqDeque.eq_def]
  split
  · exact ⟨rfl, rfl, rfl, rfl, rfl, rfl, rfl, rfl⟩
  · exact ⟨rfl, rfl, rfl, rfl, rfl, rfl, rfl, rfl⟩

theorem Holds.pqEnque (h : Holds hdr m n q l) (hpkt : pkt ∉ l) (hfree : pkt ∉ q.freed) :
    Holds hdr m n (pqEnque hdr pkt q).2 (l ++ [pkt]) := by
  refine .of_list (h.list.enque hpkt) fun p hp => ?_
  rcases List.mem_append.mp hp with hp | hp
  · exact h.alive p hp
  · rw [List.mem_singleton.mp hp]
    exact hfree

theorem Holds.pqDeque (h : Holds hdr m n q (x :: b)) : Holds hdr m n (pqDeque hdr q).2 b := by
  refine .of_list ?_ fun p hp => ?_
  · rw [toPacketQueue_pqDeque]
    exact h.list.deque.2
  · rw [pqDeque_freed]
    exact h.alive p (List.mem_cons_of_mem _ hp)

/-- The packet after `y` is taken out. -/
theorem Holds.unlink (h : Holds hdr m n q (a ++ y :: x :: b)) :
    Holds hdr m n { q with
      next := Function.update q.next y (q.next x)
      tail := if q.tail = some x then some y else q.tail
      len := q.len - 1
      bytes := q.bytes - (hdr x).size } (a ++ y :: b) := by
  refine .of_list h.list.unlink fun p hp => h.alive p ?_
  simp only [List.mem_append, List.mem_cons] at hp ⊢
  tauto

/-- `remove(pkt, prev)` takes a packet out if `prev` is the one before it, or there is none. -/
theorem Holds.removeAfter (h : Holds hdr m n q (a ++ x :: b)) (hpp : a ≠ [] → pp = a.getLast?) :
    ∃ q', removeAfter hdr x pp q = .ok q' ∧ Holds hdr m n q' (a ++ b) ∧ q'.freed = q.freed ∧
      SameBooks q q' := by
  have hhead := h.queue.head_eq_some_iff
  rw [SemanticPacketQueue.removeAfter.eq_def]
  rcases List.eq_nil_or_concat' a with rfl | ⟨a, y, rfl⟩
  · rw [if_pos (hhead.mpr rfl)]
    exact ⟨_, rfl, Holds.pqDeque h, pqDeque_freed q, pqDeque_books q⟩
  · have hne : a ++ [y] ≠ [] := by simp
    have hpp' : pp = some y := by rw [hpp hne, List.getLast?_concat]
    rw [if_neg (mt hhead.mp hne), hpp']
    simp only [List.append_assoc, List.singleton_append] at h ⊢
    rw [if_neg (h.alive y (by simp))]
    exact ⟨_, rfl, h.unlink, rfl, rfl, rfl, rfl, rfl, rfl, rfl, rfl, rfl⟩

/-- `remove(target)` takes out a packet that is not the first. -/
theorem Holds.remove (h : Holds hdr m n q (a ++ y :: x :: b)) (hf : (a ++ [y]).length < fuel) :
    ∃ q', remove hdr fuel x q = .ok q' ∧ Holds hdr m n q' (a ++ y :: b) ∧ q'.freed = q.freed ∧
      SameBooks q q' := by
  have h' : Holds hdr m n q ((a ++ [y]) ++ x :: b) := by simpa using h
  have hother : ∀ z ∈ a ++ [y], decide (z = x) = false := by
    intro z hz
    exact decide_eq_false fun e => h'.queue.not_mem.1 (e ▸ hz)
  have hwalk : walk q.next (· = x) fuel q.head none = some (some x, some y) := by
    rw [walk_found h'.queue.chain hother (decide_eq_true rfl) hf, List.getLast?_concat]
    rfl
  rw [SemanticPacketQueue.remove, hwalk]
  exact ⟨_, rfl, h.unlink, rfl, rfl, rfl, rfl, rfl, rfl, rfl, rfl, rfl⟩

/-! ### The loop -/

/-- The loop goes past what it does not purge. -/
theorem filterLoop_pass {hd : Option ℕ} (hq : SLL q.next hd (b ++ l))
    (hb : ∀ z ∈ b, purges hdr replaceHead pkt z = false ∧ z ∉ q.freed) (hpkt : pkt ∉ q.freed) :
    filterLoop hdr replaceHead pkt (b.length + fuel) hd pp done q =
      filterLoop hdr replaceHead pkt fuel l.head? (b.getLast?.or pp) done q := by
  induction b generalizing hd pp with
  | nil => rw [hq.head_eq, List.length_nil, zero_add]; rfl
  | cons z b ih =>
      obtain ⟨rfl, hrest⟩ := hq
      obtain ⟨hz, hfree⟩ := hb z List.mem_cons_self
      rw [List.length_cons, Nat.add_right_comm, filterLoop, if_neg (not_or.mpr ⟨hfree, hpkt⟩), hz,
        if_neg Bool.false_ne_true, ih hrest fun u hu => hb u (List.mem_cons_of_mem _ hu),
        getLast?_cons_or]

/-- The loop purges the rest of the list, once no packet is to be replaced. -/
theorem Holds.filterLoop (pp : Option ℕ) (h : Holds hdr m n q (a ++ b))
    (hpp : a ≠ [] → pp = a.getLast?)
    (hb : ∀ z ∈ b, purges hdr replaceHead pkt z = true →
      pkt ≠ z ∧ (replaceHead = true → done = true))
    (hpkt : pkt ∉ q.freed) (hf : b.length < fuel) :
    ∃ q', filterLoop hdr replaceHead pkt fuel b.head? pp done q = .ok q' ∧
      Holds hdr m n q' (a ++ b.filter fun p => !purges hdr replaceHead pkt p) := by
  induction b generalizing a pp q fuel with
  | nil =>
      obtain ⟨fuel, rfl⟩ := exists_fuel hf
      exact ⟨q, rfl, h⟩
  | cons x b ih =>
      obtain ⟨fuel, rfl⟩ := exists_fuel hf
      have hf' : b.length < fuel := Nat.lt_of_succ_lt_succ hf
      have hb' := fun z hz => hb z (List.mem_cons_of_mem x hz)
      have hfree : ¬ (x ∈ q.freed ∨ pkt ∈ q.freed) := not_or.mpr ⟨h.alive x (by simp), hpkt⟩
      rw [List.head?_cons, SemanticPacketQueue.filterLoop, if_neg hfree, h.queue.chain.next_eq]
      cases hx : purges hdr replaceHead pkt x with
      | false =>
          have h' : Holds hdr m n q ((a ++ [x]) ++ b) := by simpa using h
          obtain ⟨q', hrun, hlist⟩ :=
            ih (some x) h' (fun _ => List.getLast?_concat.symm) hb' hpkt hf'
          refine ⟨q', ?_, ?_⟩
          · rw [if_neg Bool.false_ne_true]
            exact hrun
          · rw [List.filter_cons, hx]
            simpa using hlist
      | true =>
          obtain ⟨hne, hdone⟩ := hb x List.mem_cons_self hx
          have hreplace : ¬ (replaceHead = true ∧ pkt ≠ x ∧ done = false) := by
            rintro ⟨hr, -, hd⟩
            rw [hdone hr] at hd
            exact Bool.noConfusion hd
          obtain ⟨q₁, hq₁, hlist₁, hfreed₁, -⟩ := h.removeAfter hpp
          have halive : ∀ p ∈ a ++ b, p ∉ x :: q₁.freed := by
            intro p hp hm
            rcases List.mem_cons.mp hm with rfl | hm
            · have hnot := h.queue.not_mem
              exact (List.mem_append.mp hp).elim hnot.1 hnot.2
            · exact hlist₁.alive p hp hm
          have hpkt₁ : pkt ∉ x :: q₁.freed := by
            rw [hfreed₁]
            exact fun hm => (List.mem_cons.mp hm).elim hne hpkt
          obtain ⟨q', hrun, hlist⟩ := ih pp
            (q := { q₁ with freed := x :: q₁.freed, ackCount := q₁.ackCount - 1 })
            { hlist₁ with alive := halive } hpp hb' hpkt₁ hf'
          refine ⟨q', ?_, ?_⟩
          · rw [if_pos rfl, if_neg hreplace, if_pos (Or.inr hne), hq₁]
            exact hrun
          · rw [List.filter_cons, hx]
            exact hlist

theorem purges_self : purges hdr replaceHead pkt pkt = ((hdr pkt).isAck && replaceHead) := by
  simp [purges, SpqPacket.compareFlows]

/-- Without a replacement, or with nothing to purge, the filter does what it is for. -/
theorem Holds.filterAcks_keeps (h : Holds hdr m n q (l ++ [pkt])) (hack : (hdr pkt).isAck = true)
    (hkeep : replaceHead = false ∨ ∀ x ∈ l, purges hdr replaceHead pkt x = false)
    (hf : l.length + 2 < fuel) :
    ∃ q', filterAcks hdr fuel pkt replaceHead q = .ok q' ∧
      Holds hdr m n q' (filtered hdr replaceHead pkt l) := by
  have hpkt : pkt ∉ q.freed := h.alive pkt (by simp)
  rw [filterAcks, filtered]
  cases hr : replaceHead with
  | false =>
      have hself : purges hdr false pkt pkt = false := by rw [purges_self, Bool.and_false]
      have hb : ∀ z ∈ l ++ [pkt], purges hdr false pkt z = true →
          pkt ≠ z ∧ (false = true → false = true) := by
        intro z _ hz
        refine ⟨?_, id⟩
        rintro rfl
        rw [hself] at hz
        exact Bool.noConfusion hz
      have hlen : (l ++ [pkt]).length < fuel := by
        rw [List.length_append, List.length_singleton]
        omega
      obtain ⟨q', hrun, hlist⟩ := Holds.filterLoop (a := []) q.head h (fun hne => absurd rfl hne) hb
        hpkt hlen
      refine ⟨q', h.queue.head_eq ▸ hrun, ?_⟩
      rw [if_neg fun hc => Bool.noConfusion hc.1]
      simpa [List.filter_append, hself] using hlist
  | true =>
      subst hr
      have hnone := hkeep.resolve_left (fun hc => Bool.noConfusion hc)
      obtain ⟨fuel, rfl⟩ : ∃ f, fuel = l.length + (f + 2) := ⟨fuel - l.length - 2, by omega⟩
      have hnext : q.next pkt = none := h.queue.chain.next_eq
      have hany : ¬ l.any (purges hdr true pkt) = true := by
        rw [List.any_eq_true]
        rintro ⟨x, hx, hp⟩
        rw [hnone x hx] at hp
        exact Bool.noConfusion hp
      refine ⟨q, ?_, ?_⟩
      · rw [filterLoop_pass h.queue.chain (fun z hz => ⟨hnone z hz, h.alive z (by simp [hz])⟩) hpkt]
        simp [SemanticPacketQueue.filterLoop, hpkt, purges_self, hack, hnext]
      · rw [if_neg fun hc => hany hc.2, List.filter_eq_self.mpr fun x hx => by rw [hnone x hx]; rfl]
        exact h

/-- The last packet of the list is taken out of it. -/
theorem Holds.remove_last (h : Holds hdr m n q (l ++ [pkt])) (hne : l ≠ []) (hf : l.length < fuel) :
    ∃ q', SemanticPacketQueue.remove hdr fuel pkt q = .ok q' ∧ Holds hdr m n q' l ∧
      q'.freed = q.freed := by
  obtain ⟨a, y, rfl⟩ := (List.eq_nil_or_concat' l).resolve_left hne
  rw [List.append_assoc] at h
  obtain ⟨q', hq', hlist, hfreed, -⟩ := Holds.remove (b := []) h hf
  exact ⟨q', hq', hlist, hfreed⟩

/-- The new packet is put after `y`. -/
theorem Holds.insert (h : Holds hdr m n q (a ++ y :: x :: b)) (hpkt : pkt ∉ a ++ y :: x :: b)
    (hfree : pkt ∉ q.freed) :
    Holds hdr (m - 1) (n - (hdr pkt).size) { q with
      ackCount := q.ackCount - 1
      next := setLink (Function.update q.next pkt (some x)) (some y) (some pkt) }
      (a ++ y :: pkt :: x :: b) := by
  have hnext : q.next y = some x := h.queue.chain.next_eq
  have htail : ¬ q.tail = some y := by
    rw [h.queue.tail_eq_some_iff]
    exact List.cons_ne_nil x b
  have hins := h.queue.insertAfter hpkt
  rw [hnext, if_neg htail] at hins
  refine ⟨hins, ?_, ?_, ?_⟩
  · rw [h.len]
    simp only [List.length_append, List.length_cons]
    push_cast
    ring
  · rw [h.bytes]
    simp only [List.map_append, List.sum_append, List.map_cons, List.sum_cons]
    ring
  · intro p hp
    rcases List.mem_append.mp hp with hp | hp
    · exact h.alive p (List.mem_append_left _ hp)
    · rcases List.mem_cons.mp hp with rfl | hp
      · exact h.alive p (by simp)
      · rcases List.mem_cons.mp hp with rfl | hp
        · exact hfree
        · exact h.alive p (by simp [hp])

/-- A replacement past the head: the list is as it should be, and both counters have lost the new
packet. -/
theorem Holds.filterAcks_middle (h : Holds hdr m n q (a ++ y :: x :: b ++ [pkt]))
    (ha : ∀ z ∈ a ++ [y], purges hdr true pkt z = false) (hx : purges hdr true pkt x = true)
    (hf : 2 * (a ++ y :: x :: b).length + 2 < fuel) :
    ∃ q', filterAcks hdr fuel pkt true q = .ok q' ∧ Holds hdr (m - 1) (n - (hdr pkt).size) q'
      (a ++ y :: pkt :: (x :: b).filter fun p => !purges hdr true pkt p) := by
  have hlen : (a ++ y :: x :: b).length = (a ++ [y]).length + (b.length + 1) := by
    simp only [List.length_append, List.length_cons, List.length_nil]
    omega
  obtain ⟨fuel, rfl⟩ : ∃ f, fuel = (a ++ [y]).length + (f + 1) :=
    ⟨fuel - (a ++ [y]).length - 1, by omega⟩
  have hpkt : pkt ∉ q.freed := h.alive pkt (by simp)
  have hnot : pkt ∉ a ++ y :: x :: b := h.queue.not_mem.1
  have hne : pkt ≠ x := fun e => hnot (by simp [e])
  have hxfree : ¬ (x ∈ q.freed ∨ pkt ∈ q.freed) := not_or.mpr ⟨h.alive x (by simp), hpkt⟩
  obtain ⟨q₁, hq₁, hlist₁, hfreed₁⟩ := h.remove_last (by simp) (show _ < fuel by omega)
  have hins := hlist₁.insert hnot (hfreed₁ ▸ hpkt)
  rw [show a ++ y :: pkt :: x :: b = (a ++ [y, pkt]) ++ x :: b by simp] at hins
  have hb : ∀ z ∈ x :: b, purges hdr true pkt z = true → pkt ≠ z ∧ (true = true → true = true) :=
    fun z hz _ => ⟨fun e => hnot (by simp only [e, List.mem_append, List.mem_cons] at hz ⊢; tauto),
      id⟩
  have hrest : (x :: b).length < fuel := by
    rw [List.length_cons]
    omega
  obtain ⟨q', hrun, hlist⟩ := Holds.filterLoop (some pkt) hins (fun _ => by simp) hb
    (show pkt ∉ q₁.freed from hfreed₁ ▸ hpkt) hrest
  refine ⟨q', ?_, by simpa using hlist⟩
  have hchain : SLL q.next q.head ((a ++ [y]) ++ (x :: b ++ [pkt])) := by
    simpa using h.queue.chain
  have hpass : ∀ z ∈ a ++ [y], purges hdr true pkt z = false ∧ z ∉ q.freed := fun z hz =>
    ⟨ha z hz, h.alive z (by simp only [List.mem_append, List.mem_cons] at hz ⊢; tauto)⟩
  rw [filterAcks, filterLoop_pass hchain hpass hpkt, List.getLast?_concat, List.cons_append,
    List.head?_cons, SemanticPacketQueue.filterLoop, if_neg hxfree, if_pos hx,
    if_pos ⟨rfl, hne, rfl⟩, hq₁]
  exact hrun

/-- A packet that follows itself is taken out, whatever that leaves. -/
theorem removeAfter_self (hdr : ℕ → SpqPacket) (hpkt : pkt ∉ q.freed) :
    ∃ q', removeAfter hdr pkt (some pkt) q = .ok q' ∧ q'.freed = q.freed := by
  rw [SemanticPacketQueue.removeAfter.eq_def]
  by_cases hh : q.head = some pkt
  · rw [if_pos hh]
    exact ⟨_, rfl, pqDeque_freed q⟩
  · simp only [if_neg hh, if_neg hpkt]
    exact ⟨_, rfl, rfl⟩

/-- On a circle of `x` and the new packet, both are freed, and then `x` is read. -/
theorem filterLoop_circle (hhead : q.head = some x) (hx : q.next x = some pkt)
    (hpkt : q.next pkt = some x) (hne : pkt ≠ x) (hfree : x ∉ q.freed ∧ pkt ∉ q.freed)
    (hpurge : purges hdr true pkt x = true ∧ purges hdr true pkt pkt = true) :
    filterLoop hdr true pkt (fuel + 3) (some x) (some pkt) true q = .error .freed := by
  have hdone : ∀ z, ¬ (true = true ∧ pkt ≠ z ∧ true = false) := fun z hc => Bool.noConfusion hc.2.2
  have hfirst : removeAfter hdr x (some pkt) q = .ok (pqDeque hdr q).2 := by
    rw [SemanticPacketQueue.removeAfter.eq_def, if_pos hhead]
  rw [filterLoop, if_neg (not_or.mpr hfree), if_pos hpurge.1, if_neg (hdone x), if_pos (Or.inl rfl),
    hfirst, hx]
  have hpkt₁ : pkt ∉ x :: (pqDeque hdr q).2.freed := by
    rw [pqDeque_freed]
    exact fun hm => (List.mem_cons.mp hm).elim hne hfree.2
  change filterLoop hdr true pkt (fuel + 2) (some pkt) (some pkt) true { (pqDeque hdr q).2 with
    freed := x :: (pqDeque hdr q).2.freed, ackCount := (pqDeque hdr q).2.ackCount - 1 } = _
  obtain ⟨q₂, hq₂, hfreed₂⟩ := removeAfter_self hdr
    (q := { (pqDeque hdr q).2 with
      freed := x :: (pqDeque hdr q).2.freed, ackCount := (pqDeque hdr q).2.ackCount - 1 }) hpkt₁
  rw [filterLoop, if_neg (not_or.mpr ⟨hpkt₁, hpkt₁⟩), if_pos hpurge.2, if_neg (hdone pkt),
    if_pos (Or.inl rfl), hq₂]
  simp only [pqDeque_next, hpkt]
  change filterLoop hdr true pkt (fuel + 1) (some x) (some pkt) true { q₂ with
    freed := pkt :: q₂.freed, ackCount := q₂.ackCount - 1 } = _
  rw [filterLoop, if_pos (Or.inl (by simp [hfreed₂]))]

/-- A replacement at the head: the loop comes back to a packet that it has freed. -/
theorem Holds.filterAcks_head (h : Holds hdr m n q (x :: b ++ [pkt]))
    (hack : (hdr pkt).isAck = true) (hx : purges hdr true pkt x = true)
    (hf : 2 * (x :: b).length + 2 < fuel) :
    filterAcks hdr fuel pkt true q = .error .freed := by
  have hnot : pkt ∉ x :: b := h.queue.not_mem.1
  have hne : pkt ≠ x := fun e => hnot (by simp [e])
  have hpkt : pkt ∉ q.freed := h.alive pkt (by simp)
  have hxfree : x ∉ q.freed := h.alive x (by simp)
  have hself : purges hdr true pkt pkt = true := by rw [purges_self, hack]; rfl
  have hhead : q.head = some x := h.queue.head_eq
  rw [List.length_cons] at hf
  obtain ⟨fuel, rfl⟩ : ∃ f, fuel = f + 4 := ⟨fuel - 4, by omega⟩
  obtain ⟨q₁, hq₁, hlist₁, hfreed₁⟩ := h.remove_last (List.cons_ne_nil x b)
    (show _ < fuel + 3 by rw [List.length_cons]; omega)
  rw [filterAcks, hhead, SemanticPacketQueue.filterLoop, if_neg (not_or.mpr ⟨hxfree, hpkt⟩),
    if_pos hx, if_pos ⟨rfl, hne, rfl⟩, hq₁]
  exact filterLoop_circle hlist₁.queue.head_eq (Function.update_self _ _ _)
    ((Function.update_of_ne hne _ _).trans (Function.update_self _ _ _)) hne
    ⟨hfreed₁ ▸ hxfree, hfreed₁ ▸ hpkt⟩ ⟨hx, hself⟩

/-! ### Arrivals -/

/-- The counters of a packet that has come by `enque`. -/
def count (hdr : ℕ → SpqPacket) (p : ℕ) (q : SemanticPacketQueue) : SemanticPacketQueue :=
  { q with
    ackCount := if (hdr p).isAck then q.ackCount + 1 else q.ackCount
    dataCount := if (hdr p).isAck then q.dataCount else q.dataCount + 1
    markedCount := if (hdr p).marked then q.markedCount + 1 else q.markedCount
    unmarkedCount := if (hdr p).marked then q.unmarkedCount else q.unmarkedCount + 1 }

theorem enque_eq (reconsCtrl : ℕ → SemanticPacketQueue → Except SpqFault SemanticPacketQueue)
    (fuel : ℕ) (hrecons : q.reconsAcks = false) :
    enque hdr reconsCtrl fuel pkt q =
      (if q.filteracks = true ∧ (hdr pkt).isAck = true then
        filterAcks hdr fuel pkt q.replaceHead (pqEnque hdr pkt (count hdr pkt q)).2
      else .ok (pqEnque hdr pkt (count hdr pkt q)).2).map fun q' => (q.tail, q') := by
  rw [enque, if_neg fun hc => Bool.noConfusion (hrecons.symm.trans hc.1)]
  by_cases hf : q.filteracks = true ∧ (hdr pkt).isAck = true
  · simp only [SemanticPacketQueue.pqEnque, if_pos hf]
    exact bind_pure_comp (m := Except SpqFault) _ _
  · simp only [SemanticPacketQueue.pqEnque, if_neg hf]
    rfl

theorem Rep.pqEnque_count (h : Rep hdr q l) (hpkt : pkt ∉ l) (hfree : pkt ∉ q.freed) :
    Rep hdr (pqEnque hdr pkt (count hdr pkt q)).2 (l ++ [pkt]) :=
  have hcount : Rep hdr (count hdr pkt q) l := { h with }
  hcount.pqEnque hpkt hfree

theorem enque_ack (reconsCtrl : ℕ → SemanticPacketQueue → Except SpqFault SemanticPacketQueue)
    (fuel : ℕ) (hack : (hdr pkt).isAck = true) (hfilter : q.filteracks = true)
    (hrecons : q.reconsAcks = false) (h : Rep hdr q l) (hpkt : pkt ∉ l) (hfree : pkt ∉ q.freed) :
    ∃ q₁, Rep hdr q₁ (l ++ [pkt]) ∧ enque hdr reconsCtrl fuel pkt q =
      (filterAcks hdr fuel pkt q.replaceHead q₁).map fun q' => (q.tail, q') :=
  ⟨_, h.pqEnque_count hpkt hfree, by
    rw [enque_eq reconsCtrl fuel hrecons, if_pos ⟨hfilter, hack⟩]⟩

/-- The new packet among the others, where the first that it purges is known. -/
theorem filtered_split (ha : ∀ z ∈ a, purges hdr true pkt z = false)
    (hx : purges hdr true pkt x = true) : filtered hdr true pkt (a ++ x :: b) =
      a ++ pkt :: (x :: b).filter fun p => !purges hdr true pkt p := by
  have hany : (a ++ x :: b).any (purges hdr true pkt) = true :=
    List.any_eq_true.mpr ⟨x, by simp, hx⟩
  have hpass : ∀ z ∈ a, (!purges hdr true pkt z) = true := fun z hz => by rw [ha z hz]; rfl
  rw [filtered, if_pos ⟨rfl, hany⟩, List.takeWhile_append_of_pos hpass,
    List.dropWhile_append_of_pos hpass, List.takeWhile_cons_of_neg (by simp [hx]), List.append_nil,
    List.dropWhile_cons_of_neg (by simp [hx])]

/-- With `filteracks_`, an arrival leaves the queue it should, with the counters of that queue, if
and only if it replaces nothing. -/
theorem enque_filters_iff
    (reconsCtrl : ℕ → SemanticPacketQueue → Except SpqFault SemanticPacketQueue)
    (hack : (hdr pkt).isAck = true) (hfilter : q.filteracks = true) (hrecons : q.reconsAcks = false)
    (h : Rep hdr q l) (hpkt : pkt ∉ l) (hfree : pkt ∉ q.freed) (hf : 2 * l.length + 2 < fuel) :
    (∃ pt q', enque hdr reconsCtrl fuel pkt q = .ok (pt, q') ∧
        Rep hdr q' (filtered hdr q.replaceHead pkt l)) ↔
      q.replaceHead = false ∨ ∀ x ∈ l, purges hdr q.replaceHead pkt x = false := by
  obtain ⟨q₁, hrep, henque⟩ := enque_ack reconsCtrl fuel hack hfilter hrecons h hpkt hfree
  rw [henque]
  constructor
  · rintro ⟨pt, q', hok, hlist⟩
    by_contra hc
    obtain ⟨hr, hany⟩ := not_or.mp hc
    rw [Bool.not_eq_false] at hr
    simp only [hr] at hok hlist hany
    obtain ⟨x, hfind⟩ : ∃ x, l.find? (purges hdr true pkt) = some x := by
      rw [← Option.isSome_iff_exists, List.find?_isSome]
      simpa using hany
    obtain ⟨hx, a, b, rfl, ha⟩ := List.find?_eq_some_iff_append.mp hfind
    have hpass : ∀ z ∈ a, purges hdr true pkt z = false := fun z hz => by simpa using ha z hz
    rcases List.eq_nil_or_concat' a with rfl | ⟨a, y, rfl⟩
    · have herr := Holds.filterAcks_head hrep hack hx hf
      rw [herr] at hok
      cases hok
    · rw [filtered_split hpass hx] at hlist
      have hmiddle : Holds hdr 0 0 q₁ (a ++ y :: x :: b ++ [pkt]) := by simpa [Rep] using hrep
      obtain ⟨q₂, hrun, hlist₂⟩ := hmiddle.filterAcks_middle hpass hx (by simpa using hf)
      rw [hrun] at hok
      obtain ⟨-, rfl⟩ := Prod.mk.inj (Except.ok.inj hok)
      have hlen := hlist.len
      rw [hlist₂.len] at hlen
      simp only [List.append_assoc, List.singleton_append] at hlen
      omega
  · intro hkeep
    have hlen : l.length + 2 < fuel := by omega
    obtain ⟨q', hrun, hlist⟩ := hrep.filterAcks_keeps hack hkeep hlen
    exact ⟨q.tail, q', by rw [hrun]; rfl, hlist⟩

/-- A flow whose packet `1` is data and whose other packets acknowledge their own number. -/
def flowHdr (p : ℕ) : SpqPacket := ⟨0, 0, 0, 0, p ≠ 1, false, p, 40⟩

/-- The data packet `1`, and the acknowledgement `2` behind it. -/
def twoQueued (replaceHead : Bool) : SemanticPacketQueue where
  head := some 1
  tail := some 2
  len := 2
  bytes := 80
  next := fun p => if p = 1 then some 2 else none
  freed := []
  ackCount := 1
  dataCount := 1
  markedCount := 0
  unmarkedCount := 2
  acksfirst := false
  filteracks := true
  reconsAcks := false
  replaceHead := replaceHead

theorem twoQueued_rep (replaceHead : Bool) : Rep flowHdr (twoQueued replaceHead) [1, 2] where
  queue := ⟨⟨rfl, rfl, rfl⟩, rfl, by decide⟩
  len := rfl
  bytes := rfl
  alive := by simp [twoQueued]

theorem enque_filters_iff_two :
    ∃ pt q', enque flowHdr (fun _ q => .ok q) 7 3 (twoQueued false) = .ok (pt, q') ∧
      Rep flowHdr q' [1, 3] :=
  (enque_filters_iff (fun _ q => .ok q) rfl rfl rfl (twoQueued_rep false) (by decide)
    List.not_mem_nil (by decide)).mpr (Or.inl rfl)

/-- The acknowledgement `3` takes the place of `2`, and the queue of two packets has length `1`. -/
theorem replaced_uncounted :
    Rep flowHdr (twoQueued true) [1, 2] ∧ filtered flowHdr true 3 [1, 2] = [1, 3] ∧
      ¬ ∃ pt q', enque flowHdr (fun _ q => .ok q) 7 3 (twoQueued true) = .ok (pt, q') ∧
        Rep flowHdr q' [1, 3] := by
  refine ⟨twoQueued_rep true, rfl, ?_⟩
  rintro ⟨pt, q', hok, hrep⟩
  have hlen : (enque flowHdr (fun _ q => .ok q) 7 3 (twoQueued true)).map (·.2.len) = .ok 1 := rfl
  rw [hok] at hlen
  have hone : q'.len = 1 := Except.ok.inj hlen
  rw [hrep.len] at hone
  exact absurd hone (by decide)

end SemanticPacketQueue

end Afabric
