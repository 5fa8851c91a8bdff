import Afabric.Support.SinglyLinked
import Mathlib.Algebra.BigOperators.Group.List.Basic
import Mathlib.Tactic.Ring

/-!
# Queue — the list of a packet queue

`PacketQueue` (`queue/queue.h`, `queue/queue.cc`): packets linked by their `next_`, with a head, a
tail, a length and a number of bytes.  A packet is known by its address.  `Holds` says which list
the pointers represent; each operation is a lemma about it, and a run is the run of the list
(`run_represents`).
-/

namespace Afabric

/-- `PacketQueue`, with the links of all packets. -/
structure LinkedPacketQueue where
  head : Option ℕ
  tail : Option ℕ
  len : ℤ
  bytes : ℤ
  next : ℕ → Option ℕ

namespace LinkedPacketQueue

/-- A queue as it is constructed; the packets are linked in any way. -/
def init (next : ℕ → Option ℕ) : LinkedPacketQueue := ⟨none, none, 0, 0, next⟩

variable (size : ℕ → ℤ)

/-- `enque`, which returns the tail before. -/
def enque (p : ℕ) (q : LinkedPacketQueue) : Option ℕ × LinkedPacketQueue :=
  (q.tail,
    { head := if q.tail = none then some p else q.head
      tail := some p
      next := Function.update (setLink q.next q.tail (some p)) p none
      len := q.len + 1
      bytes := q.bytes + size p })

def deque (q : LinkedPacketQueue) : Option ℕ × LinkedPacketQueue :=
  match q.head with
  | none => (none, q)
  | some p =>
      (some p,
        { q with
          head := if some p = q.tail then none else q.next p
          tail := if some p = q.tail then none else q.tail
          len := q.len - 1
          bytes := q.bytes - size p })

/-- The packet `p` is taken out after `pp`. -/
def unlink (p pp : ℕ) (q : LinkedPacketQueue) : LinkedPacketQueue :=
  { q with
    tail := if q.tail = some p then some pp else q.tail
    next := Function.update q.next pp (q.next p)
    len := q.len - 1
    bytes := q.bytes - size p }

/-- `remove(target)`; none if it aborts, or if the loop has not ended within its fuel. -/
def remove (fuel target : ℕ) (q : LinkedPacketQueue) : Option LinkedPacketQueue :=
  match walk q.next (· = target) fuel q.head none with
  | some (some _, none) => some (deque size q).2
  | some (some p, some pp) => some (unlink size p pp q)
  | _ => none

/-- `remove(pkt, prev)`; none if a null `prev` is followed. -/
def removeAfter (pkt prev : Option ℕ) (q : LinkedPacketQueue) : Option LinkedPacketQueue :=
  match pkt with
  | none => some q
  | some p =>
      if q.head = some p then some (deque size q).2
      else prev.map fun pp => unlink size p pp q

def enqueHead (p : ℕ) (q : LinkedPacketQueue) : LinkedPacketQueue :=
  { tail := if q.head = none then some p else q.tail
    next := Function.update q.next p q.head
    head := some p
    len := q.len + 1
    bytes := q.bytes + size p }

/-! ### The list -/

/-- The list of the queue, with the counters `m` packets and `n` bytes off. -/
structure Holds (m n : ℤ) (q : LinkedPacketQueue) (l : List ℕ) : Prop where
  queue : SLQ q.next q.head q.tail l
  len : q.len = l.length + m
  bytes : q.bytes = (l.map size).sum + n

variable {size} {m n : ℤ} {q : LinkedPacketQueue} {l a b : List ℕ} {x y : ℕ} {fuel : ℕ}
  {prev : Option ℕ}

theorem Holds.init (next : ℕ → Option ℕ) : Holds size 0 0 (init next) [] := ⟨.nil, rfl, rfl⟩

theorem Holds.enque (h : Holds size m n q l) (hx : x ∉ l) :
    Holds size m n (enque size x q).2 (l ++ [x]) := by
  have hclear : SLQ (Function.update q.next x none) q.head q.tail l :=
    h.queue.congr fun z hz => Function.update_of_ne (fun e : z = x => hx (e ▸ hz)) _ _
  have htail : q.tail ≠ some x := by
    rw [h.queue.tail_eq]
    exact fun e => hx (List.mem_of_mem_getLast? e)
  have hhead : (q.tail = none) = (q.head = none) := by
    rw [h.queue.tail_eq, h.queue.head_eq, List.getLast?_eq_none_iff, List.head?_eq_none_iff]
  have hnext : Function.update (setLink q.next q.tail (some x)) x none =
      setLink (Function.update q.next x none) q.tail (some x) := by
    cases ht : q.tail with
    | none => rfl
    | some t =>
        rw [ht] at htail
        exact Function.update_comm (fun e => htail (congrArg some e)) _ _ _
  refine ⟨?_, ?_, ?_⟩
  · simp only [LinkedPacketQueue.enque, hnext, hhead]
    exact hclear.append hx (Function.update_self _ _ _)
  · simp only [LinkedPacketQueue.enque, h.len, List.length_append, List.length_singleton]
    push_cast
    ring
  · simp only [LinkedPacketQueue.enque, h.bytes, List.map_append, List.sum_append,
      List.map_singleton, List.sum_singleton]
    ring

/-- A packet of the list, counted. -/
theorem Holds.counts (h : Holds size m n q (a ++ x :: b)) :
    q.len - 1 = (a ++ b).length + m ∧ q.bytes - size x = ((a ++ b).map size).sum + n := by
  rw [h.len, h.bytes]
  simp only [List.length_append, List.length_cons, List.map_append, List.sum_append, List.map_cons,
    List.sum_cons]
  constructor
  · push_cast
    ring
  · ring

theorem Holds.deque (h : Holds size m n q (x :: b)) :
    (deque size q).1 = some x ∧ Holds size m n (deque size q).2 b := by
  have hhead : q.head = some x := h.queue.head_eq
  have hcounts := Holds.counts (a := []) h
  have htail : some x = q.tail ↔ b = [] := by
    rw [eq_comm]
    exact SLQ.tail_eq_some_iff (a := []) h.queue
  simp only [LinkedPacketQueue.deque, hhead]
  refine ⟨trivial, ?_, hcounts.1, hcounts.2⟩
  by_cases hb : b = []
  · rw [if_pos (htail.mpr hb), if_pos (htail.mpr hb), hb]
    exact .nil
  · rw [if_neg (mt htail.mp hb), if_neg (mt htail.mp hb)]
    exact h.queue.removeHead hb

theorem Holds.deque_nil (h : Holds size m n q []) : LinkedPacketQueue.deque size q = (none, q) := by
  have hhead : q.head = none := h.queue.head_eq
  simp only [LinkedPacketQueue.deque, hhead]

theorem Holds.unlink (h : Holds size m n q (a ++ y :: x :: b)) :
    Holds size m n (unlink size x y q) (a ++ y :: b) := by
  have h' : Holds size m n q ((a ++ [y]) ++ x :: b) := by simpa using h
  have hcounts := h'.counts
  have htail := h'.queue.tail_eq_some_iff
  simp only [List.append_assoc, List.singleton_append] at hcounts
  refine ⟨?_, hcounts.1, hcounts.2⟩
  simp only [LinkedPacketQueue.unlink, htail]
  exact h.queue.removeAfter

/-- `remove(pkt, prev)` takes a packet out if `prev` is the one before it, or there is none. -/
theorem Holds.removeAfter (h : Holds size m n q (a ++ x :: b))
    (hprev : a ≠ [] → prev = a.getLast?) :
    ∃ q', removeAfter size (some x) prev q = some q' ∧ Holds size m n q' (a ++ b) := by
  have hhead := h.queue.head_eq_some_iff
  rw [LinkedPacketQueue.removeAfter]
  rcases List.eq_nil_or_concat' a with rfl | ⟨a, y, rfl⟩
  · rw [if_pos (hhead.mpr rfl)]
    exact ⟨_, rfl, (Holds.deque h).2⟩
  · have hne : a ++ [y] ≠ [] := by simp
    have hprev' : prev = some y := by rw [hprev hne, List.getLast?_concat]
    rw [if_neg (mt hhead.mp hne), hprev']
    simp only [List.append_assoc, List.singleton_append] at h ⊢
    exact ⟨_, rfl, h.unlink⟩

theorem Holds.remove (h : Holds size m n q (a ++ x :: b)) (hf : a.length < fuel) :
    ∃ q', remove size fuel x q = some q' ∧ Holds size m n q' (a ++ b) := by
  have hother : ∀ z ∈ a, decide (z = x) = false := fun z hz =>
    decide_eq_false fun e => h.queue.not_mem.1 (e ▸ hz)
  rw [LinkedPacketQueue.remove, walk_found h.queue.chain hother (decide_eq_true rfl) hf,
    Option.or_none]
  rcases List.eq_nil_or_concat' a with rfl | ⟨a, y, rfl⟩
  · exact ⟨_, rfl, (Holds.deque h).2⟩
  · rw [List.getLast?_concat]
    simp only [List.append_assoc, List.singleton_append] at h ⊢
    exact ⟨_, rfl, h.unlink⟩

theorem Holds.enqueHead (h : Holds size m n q l) (hx : x ∉ l) :
    Holds size m n (enqueHead size x q) (x :: l) := by
  have hchain : SLL (Function.update q.next x q.head) q.head l :=
    h.queue.chain.congr fun z hz => Function.update_of_ne (fun e : z = x => hx (e ▸ hz)) _ _
  refine ⟨⟨⟨rfl, ?_⟩, ?_, List.nodup_cons.mpr ⟨hx, h.queue.nodup⟩⟩, ?_, ?_⟩
  · simp only [LinkedPacketQueue.enqueHead, Function.update_self]
    exact hchain
  · simp only [LinkedPacketQueue.enqueHead]
    rw [h.queue.head_eq, h.queue.tail_eq]
    cases l with
    | nil => rfl
    | cons y l => rw [if_neg (by simp), List.getLast?_cons_cons]
  · simp only [LinkedPacketQueue.enqueHead, h.len, List.length_cons]
    push_cast
    ring
  · simp only [LinkedPacketQueue.enqueHead, h.bytes, List.map_cons, List.sum_cons]
    ring

/-! ### Runs -/

/-- A call on the queue. -/
inductive Op where
  | enque (p : ℕ)
  | enqueHead (p : ℕ)
  | deque
  | remove (p : ℕ)
  | removeAfter (p : ℕ) (prev : Option ℕ)

/-- A call, with what it returns; `remove` returns nothing. -/
def step (size : ℕ → ℤ) (fuel : ℕ) (q : LinkedPacketQueue) :
    Op → Option (Option ℕ × LinkedPacketQueue)
  | .enque p => some (enque size p q)
  | .enqueHead p => some (none, enqueHead size p q)
  | .deque => some (deque size q)
  | .remove p => (remove size fuel p q).map fun q => (none, q)
  | .removeAfter p prev => (removeAfter size (some p) prev q).map fun q => (none, q)

/-- The calls one after the other, with what they return. -/
def run (size : ℕ → ℤ) (fuel : ℕ) (q : LinkedPacketQueue) :
    List Op → Option (List (Option ℕ) × LinkedPacketQueue)
  | [] => some ([], q)
  | op :: ops => do
      let (out, q) ← step size fuel q op
      let (outs, q) ← run size fuel q ops
      return (out :: outs, q)

/-- A call on a list, with what it returns. -/
def listStep (l : List ℕ) : Op → Option ℕ × List ℕ
  | .enque p => (l.getLast?, l ++ [p])
  | .enqueHead p => (none, p :: l)
  | .deque => (l.head?, l.tail)
  | .remove p => (none, l.erase p)
  | .removeAfter p _ => (none, l.erase p)

def listRun (l : List ℕ) : List Op → List (Option ℕ) × List ℕ
  | [] => ([], l)
  | op :: ops => ((listStep l op).1 :: (listRun (listStep l op).2 ops).1,
      (listRun (listStep l op).2 ops).2)

/-- A packet that enters is in no queue yet, one that is removed is in the queue, and `prev` is the
one before it. -/
def Legal (l : List ℕ) : Op → Prop
  | .enque p => p ∉ l
  | .enqueHead p => p ∉ l
  | .deque => True
  | .remove p => p ∈ l
  | .removeAfter p prev => ∃ a b, l = a ++ p :: b ∧ (a ≠ [] → prev = a.getLast?)

def LegalRun (l : List ℕ) : List Op → Prop
  | [] => True
  | op :: ops => Legal l op ∧ LegalRun (listStep l op).2 ops

theorem erase_mid (h : x ∉ a) : (a ++ x :: b).erase x = a ++ b := by
  rw [List.erase_append_right _ h, List.erase_cons_head]

theorem step_holds {op : Op} (h : Holds size m n q l) (hl : Legal l op) (hf : l.length < fuel) :
    ∃ q', step size fuel q op = some ((listStep l op).1, q') ∧
      Holds size m n q' (listStep l op).2 := by
  cases op with
  | enque p => exact ⟨_, by rw [step, listStep, ← h.queue.tail_eq]; rfl, h.enque hl⟩
  | enqueHead p => exact ⟨_, rfl, h.enqueHead hl⟩
  | deque =>
      cases l with
      | nil => exact ⟨q, congrArg some h.deque_nil, h⟩
      | cons x l =>
          obtain ⟨hx, hrest⟩ := h.deque
          exact ⟨_, congrArg some (Prod.ext hx rfl), hrest⟩
  | remove p =>
      obtain ⟨a, b, rfl⟩ := List.append_of_mem hl
      have hlen : a.length < fuel := by
        rw [List.length_append] at hf
        omega
      obtain ⟨q', hq', hrest⟩ := h.remove hlen
      refine ⟨q', by rw [step, hq']; rfl, ?_⟩
      rwa [listStep, erase_mid h.queue.not_mem.1]
  | removeAfter p prev =>
      obtain ⟨a, b, rfl, hprev⟩ := hl
      obtain ⟨q', hq', hrest⟩ := h.removeAfter hprev
      refine ⟨q', by rw [step, hq']; rfl, ?_⟩
      rwa [listStep, erase_mid h.queue.not_mem.1]

theorem length_listStep (l : List ℕ) (op : Op) : (listStep l op).2.length ≤ l.length + 1 := by
  cases op with
  | enque p => simp [listStep]
  | enqueHead p => simp [listStep]
  | deque =>
      rw [listStep, List.length_tail]
      omega
  | remove p => exact List.length_erase_le.trans (Nat.le_succ _)
  | removeAfter p prev => exact List.length_erase_le.trans (Nat.le_succ _)

theorem run_holds {ops : List Op} (h : Holds size m n q l) (hl : LegalRun l ops)
    (hf : l.length + ops.length < fuel) :
    ∃ q', run size fuel q ops = some ((listRun l ops).1, q') ∧
      Holds size m n q' (listRun l ops).2 := by
  induction ops generalizing q l with
  | nil => exact ⟨q, rfl, h⟩
  | cons op ops ih =>
      rw [List.length_cons] at hf
      obtain ⟨q₁, hq₁, h₁⟩ := step_holds h hl.1 (show l.length < fuel by omega)
      have hlen := length_listStep l op
      obtain ⟨q', hq', h'⟩ := ih h₁ hl.2 (by omega)
      refine ⟨q', ?_, h'⟩
      simp only [run, hq₁, hq', Option.bind_eq_bind, Option.bind_some, Option.pure_def]
      rfl

/-- **A packet queue is a list**: in every run each call returns what it returns of the list, and
the pointers represent the list after it, with its length and size, the tail at its last packet,
and no link from there. -/
theorem run_represents (next : ℕ → Option ℕ) {ops : List Op} (hl : LegalRun [] ops)
    (hf : ops.length < fuel) :
    ∃ q, run size fuel (LinkedPacketQueue.init next) ops = some ((listRun [] ops).1, q) ∧
      SLL q.next q.head (listRun [] ops).2 ∧
      q.len = (listRun [] ops).2.length ∧ q.bytes = ((listRun [] ops).2.map size).sum ∧
      q.tail = (listRun [] ops).2.getLast? ∧
      ∀ x, (listRun [] ops).2.getLast? = some x → q.next x = none := by
  have hinit : Holds size 0 0 (LinkedPacketQueue.init next) [] := Holds.init next
  have hlen : ([] : List ℕ).length + ops.length < fuel := by rwa [List.length_nil, Nat.zero_add]
  obtain ⟨q, hq, h⟩ := run_holds hinit hl hlen
  refine ⟨q, hq, h.queue.chain, ?_, ?_, h.queue.tail_eq, fun x hx => ?_⟩
  · rw [h.len, add_zero]
  · rw [h.bytes, add_zero]
  · obtain ⟨a, hlast⟩ := List.getLast?_eq_some_iff.mp hx
    have hchain := h.queue.chain
    rw [hlast] at hchain
    exact hchain.next_eq

/-- Three packets come, one of them to the front; the one in the middle and the last leave. -/
theorem run_represents_three : ∃ q,
    run (fun _ => 40) 6 (LinkedPacketQueue.init fun _ => none)
        [.enque 1, .enque 2, .enqueHead 3, .remove 1, .removeAfter 2 (some 3)] =
      some ([none, some 1, none, none, none], q) ∧ q.len = 1 ∧ q.tail = some 3 := by
  obtain ⟨q, hq, -, hlen, -, htail, -⟩ := @run_represents (fun _ => 40) 6 (fun _ => none)
    [.enque 1, .enque 2, .enqueHead 3, .remove 1, .removeAfter 2 (some 3)]
    ⟨List.not_mem_nil, show 2 ∉ [1] by decide, show 3 ∉ [1, 2] by decide,
      show 1 ∈ [3, 1, 2] by decide, ⟨[3], [], rfl, fun _ => rfl⟩, trivial⟩ (by decide)
  exact ⟨q, hq, hlen, htail⟩

end LinkedPacketQueue

end Afabric
