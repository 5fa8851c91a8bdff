import Afabric.Queue.Limits
import Mathlib.Data.List.FinRange

/-!
# Queue — strict priority

`Priority` (`queue/priority.cc`): a FIFO for each class of service.  The class of a packet is its
priority clamped to the classes in use, admission is by the bytes of all classes together, and
`deque` serves the first class that holds a packet.

`none` is the exception of `ensure_queue_bound`.
-/

namespace Afabric

open BadTrackingPacketQueue

/-! ### `PacketQueue` -/

/-- The FIFO of `queue/queue.h`, its head first. -/
structure PacketQueue where
  pkts : List Packet
  len : Int
  bytes : Int
deriving DecidableEq, Repr

namespace PacketQueue

variable (q : PacketQueue)

def init : PacketQueue := ⟨[], 0, 0⟩

def enque (p : Packet) : PacketQueue := ⟨q.pkts ++ [p], q.len + 1, q.bytes + p.size⟩

def deque : Option Packet × PacketQueue :=
  match q.pkts with
  | [] => (none, q)
  | p :: rest => (some p, ⟨rest, q.len - 1, q.bytes - p.size⟩)

/-- `len_` and `bytes_` count the packets, and every packet has a size. -/
structure Valid : Prop where
  len_eq : q.len = q.pkts.length
  bytes_eq : q.bytes = sizes q.pkts
  pos : ∀ x ∈ q.pkts, 0 < x.size

variable {q}

theorem init_valid : init.Valid := ⟨rfl, rfl, by simp [init]⟩

theorem Valid.enque (h : q.Valid) {p : Packet} (hp : 0 < p.size) : (q.enque p).Valid := by
  refine ⟨?_, ?_, fun x hx => ?_⟩
  · simp [PacketQueue.enque, h.len_eq]
  · simp [PacketQueue.enque, h.bytes_eq]
  · rcases List.mem_append.mp hx with hx | hx
    · exact h.pos x hx
    · obtain rfl := List.mem_singleton.mp hx
      exact hp

theorem Valid.len_pos (h : q.Valid) : 0 < q.len ↔ q.pkts ≠ [] := by
  rw [h.len_eq, Int.natCast_pos, List.length_pos_iff]

theorem Valid.bytes_nonneg (h : q.Valid) : 0 ≤ q.bytes := by
  rw [h.bytes_eq]
  exact QueueRun.sizes_nonneg h.pos

theorem Valid.bytes_pos (h : q.Valid) : 0 < q.bytes ↔ q.pkts ≠ [] := by
  refine ⟨fun hb e => ?_, fun hne => ?_⟩
  · rw [h.bytes_eq, e] at hb
    exact absurd hb (lt_irrefl _)
  · obtain ⟨p, rest, hp⟩ := List.exists_cons_of_ne_nil hne
    have hrest : 0 ≤ sizes rest := QueueRun.sizes_nonneg fun x hx => h.pos x (by simp [hp, hx])
    have hsize := h.pos p (by simp [hp])
    rw [h.bytes_eq, hp, sizes_cons]
    omega

/-- `deque` on a queue whose head is `p`. -/
theorem Valid.deque (h : q.Valid) {p : Packet} {rest : List Packet} (hp : q.pkts = p :: rest) :
    q.deque.1 = some p ∧ q.deque.2.pkts = rest ∧ q.deque.2.Valid ∧
      q.deque.2.bytes = q.bytes - p.size := by
  rw [PacketQueue.deque, hp]
  refine ⟨rfl, rfl, ⟨?_, ?_, fun x hx => h.pos x (by simp [hp, hx])⟩, rfl⟩
  · have hl := h.len_eq
    simp only [hp, List.length_cons] at hl ⊢
    omega
  · have hb := h.bytes_eq
    rw [hp, sizes_cons] at hb
    show q.bytes - p.size = sizes rest
    omega

end PacketQueue

/-! ### `Priority` -/

/-- `ECNMode`. -/
inductive EcnMode where
  | disable
  | perQueue
  | perPort
deriving DecidableEq, Repr

/-- The bound variables of a `Priority` queue. -/
structure PriorityConfig where
  qlim : Int
  meanPktsize : Int
  thresh : Int
  queueNum : Int
  markingScheme : EcnMode

/-- `MAX_QUEUE_NUM`. -/
def maxQueueNum : ℕ := 8

/-- The queues `q_`, of which the first `maxQueueNum` exist. -/
structure Priority where
  q : ℕ → PacketQueue

namespace Priority

variable (cfg : PriorityConfig) (s : Priority)

def init : Priority := ⟨fun _ => .init⟩

def totalByteLength : Int := ((List.range maxQueueNum).map fun i => (s.q i).bytes).sum

/-- `clamp_priority`. -/
def clampPriority (priority : Int) : Int := max 0 (min priority (cfg.queueNum - 1))

/-- The index of the queue of a packet: `get_priority`. -/
def cls (p : Packet) : ℕ := (clampPriority cfg p.prio).toNat

def put (i : ℕ) (p : Packet) : Priority := ⟨Function.update s.q i ((s.q i).enque p)⟩

/-- Whether an ECN mark is due after a packet has entered the queue `i`. -/
def marks (i : ℕ) : Bool :=
  (cfg.markingScheme = .perQueue ∧ (s.q i).bytes > cfg.thresh * cfg.meanPktsize) ∨
    (cfg.markingScheme = .perPort ∧ s.totalByteLength > cfg.thresh * cfg.meanPktsize)

/-- `enque`, and the packet it drops. -/
def enque (p : Packet) : Option (Option Packet × Priority) :=
  if cfg.queueNum < 1 ∨ cfg.queueNum > maxQueueNum then none
  else if s.totalByteLength + p.size > cfg.qlim * cfg.meanPktsize then some (some p, s)
  else
    let s' := s.put (cls cfg p) p
    -- the packet is marked where it stands
    if s'.marks cfg (cls cfg p) ∧ p.ect then some (none, s.put (cls cfg p) { p with ce := true })
    else some (none, s')

def deque : Option Packet × Priority :=
  if s.totalByteLength > 0 then
    match (List.range cfg.queueNum.toNat).find? fun i => (s.q i).len > 0 with
    | some i => ((s.q i).deque.1, ⟨Function.update s.q i (s.q i).deque.2⟩)
    | none => (none, s)
  else (none, s)

end Priority

/-! ### The total -/

theorem sum_range_update (f : ℕ → Int) (i n : ℕ) (v : Int) :
    ((List.range n).map (Function.update f i v)).sum =
      ((List.range n).map f).sum + if i < n then v - f i else 0 := by
  induction n with
  | zero => simp
  | succ n ih =>
      simp only [List.range_succ, List.map_append, List.sum_append, List.map_singleton,
        List.sum_singleton, ih]
      by_cases hi : n = i
      · subst hi
        simp
      · rw [Function.update_of_ne hi]
        split_ifs <;> omega

namespace Priority

variable {cfg : PriorityConfig} {s : Priority}

theorem total_update {i : ℕ} (hi : i < maxQueueNum) (q : PacketQueue) :
    totalByteLength ⟨Function.update s.q i q⟩ = s.totalByteLength + (q.bytes - (s.q i).bytes) := by
  have hf : (fun j => (Function.update s.q i q j).bytes) =
      Function.update (fun j => (s.q j).bytes) i q.bytes := by
    funext j
    by_cases hj : j = i
    · subst hj
      simp
    · simp [hj]
  simp only [totalByteLength, hf, sum_range_update, if_pos hi]

theorem total_put {i : ℕ} (hi : i < maxQueueNum) (p : Packet) :
    (s.put i p).totalByteLength = s.totalByteLength + p.size := by
  rw [put, total_update hi]
  show _ + ((s.q i).bytes + p.size - (s.q i).bytes) = _
  omega

/-- There are bytes if and only if there are packets. -/
theorem total_pos (h : ∀ i, (s.q i).Valid) (hout : ∀ i, maxQueueNum ≤ i → (s.q i).pkts = []) :
    0 < s.totalByteLength ↔ ∃ i, (s.q i).pkts ≠ [] := by
  have hsum : ∀ l : List ℕ, 0 ≤ (l.map fun i => (s.q i).bytes).sum ∧
      (0 < (l.map fun i => (s.q i).bytes).sum ↔ ∃ i ∈ l, (s.q i).pkts ≠ []) := by
    intro l
    induction l with
    | nil => simp
    | cons i l ih =>
        obtain ⟨hnn, hiff⟩ := ih
        have hi := (h i).bytes_nonneg
        rw [List.map_cons, List.sum_cons]
        refine ⟨by omega, ?_⟩
        rw [List.exists_mem_cons_iff, ← (h i).bytes_pos, ← hiff]
        omega
  rw [totalByteLength, (hsum _).2]
  constructor
  · rintro ⟨i, -, hi⟩
    exact ⟨i, hi⟩
  · rintro ⟨i, hi⟩
    refine ⟨i, List.mem_range.mpr ?_, hi⟩
    by_contra hlt
    exact hi (hout i (Nat.not_lt.mp hlt))

theorem cls_lt (h : ¬ (cfg.queueNum < 1 ∨ cfg.queueNum > maxQueueNum)) (p : Packet) :
    (cls cfg p : Int) < cfg.queueNum ∧ cls cfg p < maxQueueNum := by
  have hle : clampPriority cfg p.prio ≤ cfg.queueNum - 1 :=
    max_le (by omega) (min_le_right _ _)
  have hnn : 0 ≤ clampPriority cfg p.prio := le_max_left _ _
  rw [cls]
  omega

/-- What `enque` does: it throws, drops the packet, or puts it, possibly marked, into the queue of
its class. -/
theorem enque_spec {p : Packet} {x : Option Packet × Priority} (he : s.enque cfg p = some x) :
    ¬ (cfg.queueNum < 1 ∨ cfg.queueNum > maxQueueNum) ∧
      (x = (some p, s) ∨
        s.totalByteLength + p.size ≤ cfg.qlim * cfg.meanPktsize ∧
          ∃ ce, x = (none, s.put (cls cfg p) { p with ce := ce })) := by
  rw [enque] at he
  split at he
  · exact absurd he (by simp)
  case isFalse hnum =>
    refine ⟨hnum, ?_⟩
    split at he
    · exact .inl (Option.some.inj he).symm
    case isFalse hlim =>
      refine .inr ⟨not_lt.mp hlim, ?_⟩
      dsimp only at he
      split at he
      · exact ⟨true, (Option.some.inj he).symm⟩
      · exact ⟨p.ce, (Option.some.inj he).symm⟩

/-- What `deque` does: there is no packet, or it serves the first class that has one. -/
theorem deque_spec (h : ∀ i, (s.q i).Valid)
    (hout : ∀ i : ℕ, cfg.queueNum ≤ i ∨ maxQueueNum ≤ i → (s.q i).pkts = []) :
    (s.deque cfg = (none, s) ∧ ∀ i, (s.q i).pkts = []) ∨
      ∃ i p rest, (s.q i).pkts = p :: rest ∧ (∀ j < i, (s.q j).pkts = []) ∧
        s.deque cfg = (some p, ⟨Function.update s.q i (s.q i).deque.2⟩) := by
  have htotal := total_pos h fun i hi => hout i (.inr hi)
  rw [deque]
  by_cases hb : s.totalByteLength > 0
  · rw [if_pos hb]
    obtain ⟨k, hk⟩ := htotal.mp hb
    cases hf : (List.range cfg.queueNum.toNat).find? fun i => decide ((s.q i).len > 0) with
    | none =>
        have hlt : k < cfg.queueNum.toNat := by
          by_contra hlt
          exact hk (hout k (.inl (by omega)))
        have hlen := List.find?_eq_none.mp hf k (List.mem_range.mpr hlt)
        exact absurd ((h k).len_pos.mpr hk) (by simpa using hlen)
    | some i =>
        rw [List.find?_range_eq_some] at hf
        obtain ⟨hi, -, hbelow⟩ := hf
        obtain ⟨p, rest, hp⟩ := List.exists_cons_of_ne_nil ((h i).len_pos.mp (by simpa using hi))
        refine .inr ⟨i, p, rest, hp, fun j hj => ?_, ?_⟩
        · by_contra hne
          have hlen := hbelow j hj
          exact absurd ((h j).len_pos.mpr hne) (by simpa using hlen)
        · rw [← ((h i).deque hp).1]
  · rw [if_neg hb]
    refine .inl ⟨rfl, fun i => ?_⟩
    by_contra hne
    exact hb (htotal.mpr ⟨i, hne⟩)

end Priority

/-! ### Runs -/

/-- A queue in use: the number of arrivals so far, the packets that were not dropped on arrival, and
the packets handed out, both in order. -/
structure PriorityRun where
  s : Priority
  arrivals : ℕ
  admitted : List Packet
  out : List Packet

namespace PriorityRun

def init : PriorityRun := ⟨.init, 0, [], []⟩

/-- The packet that arrives next. -/
def arriving (r : PriorityRun) (h : Header) : Packet := { h with uid := r.arrivals }

def step (cfg : PriorityConfig) (r : PriorityRun) : QueueOp → Option PriorityRun
  | .enque h => (r.s.enque cfg (r.arriving h)).map fun x =>
      { r with
        s := x.2
        arrivals := r.arrivals + 1
        admitted := if x.1.isSome then r.admitted else r.admitted ++ [r.arriving h] }
  | .deque =>
      let x := r.s.deque cfg
      some { r with s := x.2, out := r.out ++ x.1.toList }

/-- The calls one after the other, on a queue as it is constructed. -/
def run (cfg : PriorityConfig) (ops : List QueueOp) : Option PriorityRun := ops.foldlM (step cfg) init

/-- The packets of a class, by their numbers. -/
def ofClass (cfg : PriorityConfig) (c : ℕ) (l : List Packet) : List ℕ :=
  (l.filter fun p => Priority.cls cfg p = c).map (·.uid)

variable {cfg : PriorityConfig}

@[simp] theorem ofClass_nil (c : ℕ) : ofClass cfg c [] = [] := rfl

@[simp] theorem ofClass_append (c : ℕ) (l l' : List Packet) :
    ofClass cfg c (l ++ l') = ofClass cfg c l ++ ofClass cfg c l' := by
  rw [ofClass, List.filter_append, List.map_append]; rfl

theorem ofClass_singleton (c : ℕ) (p : Packet) :
    ofClass cfg c [p] = if Priority.cls cfg p = c then [p.uid] else [] := by
  rw [ofClass, List.filter_singleton]
  by_cases h : Priority.cls cfg p = c <;> simp [h]

/-- What a run keeps: each queue is that of its class and in order, and what has left a class and
what is in its queue are together what was admitted to it. -/
structure Inv (cfg : PriorityConfig) (r : PriorityRun) : Prop where
  valid : ∀ i, (r.s.q i).Valid
  cls : ∀ i, ∀ x ∈ (r.s.q i).pkts, Priority.cls cfg x = i
  unused : ∀ i : ℕ, cfg.queueNum ≤ i ∨ maxQueueNum ≤ i → (r.s.q i).pkts = []
  fifo : ∀ c, ofClass cfg c r.out ++ (r.s.q c).pkts.map (·.uid) = ofClass cfg c r.admitted
  admitted : (r.admitted.map (·.uid)).Pairwise (· < ·)
  arrivals : ∀ x ∈ r.admitted, x.uid < r.arrivals
  limit : r.s.totalByteLength ≤ max 0 (cfg.qlim * cfg.meanPktsize)

theorem init_inv (cfg : PriorityConfig) : init.Inv cfg := by
  refine ⟨fun i => PacketQueue.init_valid, ?_, fun i _ => rfl, fun c => rfl, ?_, ?_, ?_⟩
  · intro i x hx
    exact absurd hx (by simp [init, Priority.init, PacketQueue.init])
  · simp [init]
  · simp [init]
  · exact le_max_left _ _

variable {r r' : PriorityRun}

/-- A packet that is admitted. -/
theorem Inv.accept (h : r.Inv cfg) {p p' : Packet} (hsize : 0 < p.size)
    (huid : p.uid = r.arrivals) (hnum : ¬ (cfg.queueNum < 1 ∨ cfg.queueNum > maxQueueNum))
    (hlim : r.s.totalByteLength + p.size ≤ cfg.qlim * cfg.meanPktsize)
    (hp' : ∃ ce, p' = { p with ce := ce }) :
    Inv cfg { r with
      s := r.s.put (Priority.cls cfg p) p'
      arrivals := r.arrivals + 1
      admitted := r.admitted ++ [p] } := by
  obtain ⟨ce, rfl⟩ := hp'
  obtain ⟨hcn, hcm⟩ := Priority.cls_lt hnum p
  -- only the queue of the class has changed
  have hother : ∀ i, i ≠ Priority.cls cfg p →
      (r.s.put (Priority.cls cfg p) { p with ce := ce }).q i = r.s.q i := fun i hi =>
    Function.update_of_ne hi _ _
  have hsame : ((r.s.put (Priority.cls cfg p) { p with ce := ce }).q (Priority.cls cfg p)) =
      (r.s.q (Priority.cls cfg p)).enque { p with ce := ce } := Function.update_self _ _ _
  refine ⟨fun i => ?_, fun i x hx => ?_, fun i hi => ?_, fun c => ?_, ?_, fun x hx => ?_, ?_⟩
  · by_cases hi : i = Priority.cls cfg p
    · subst hi
      rw [hsame]
      exact (h.valid _).enque hsize
    · rw [hother i hi]
      exact h.valid i
  · by_cases hi : i = Priority.cls cfg p
    · subst hi
      rw [hsame] at hx
      rcases List.mem_append.mp hx with hx | hx
      · exact h.cls _ x hx
      · obtain rfl := List.mem_singleton.mp hx
        rfl
    · rw [hother i hi] at hx
      exact h.cls i x hx
  · have hne : i ≠ Priority.cls cfg p := by omega
    rw [hother i hne]
    exact h.unused i hi
  · show ofClass cfg c r.out ++ _ = ofClass cfg c (r.admitted ++ [p])
    rw [ofClass_append, ofClass_singleton, ← h.fifo c, List.append_assoc]
    by_cases hc : Priority.cls cfg p = c
    · subst hc
      rw [if_pos rfl, hsame, PacketQueue.enque, List.map_append]
      rfl
    · rw [if_neg hc, hother c fun e => hc e.symm, List.append_nil]
  · show ((r.admitted ++ [p]).map (·.uid)).Pairwise (· < ·)
    rw [List.map_append, List.pairwise_append]
    refine ⟨h.admitted, by simp, fun u hu v hv => ?_⟩
    obtain ⟨x, hx, rfl⟩ := List.mem_map.mp hu
    obtain rfl := List.mem_singleton.mp hv
    show x.uid < p.uid
    rw [huid]
    exact h.arrivals x hx
  · show x.uid < r.arrivals + 1
    rcases List.mem_append.mp hx with hx | hx
    · exact Nat.lt_succ_of_lt (h.arrivals x hx)
    · obtain rfl := List.mem_singleton.mp hx
      omega
  · show (r.s.put _ _).totalByteLength ≤ _
    rw [Priority.total_put hcm]
    exact hlim.trans (le_max_right _ _)

theorem Inv.enque (h : r.Inv cfg) {hd : Header} (hsize : 0 < hd.size)
    (he : step cfg r (.enque hd) = some r') : r'.Inv cfg := by
  obtain ⟨x, hx, rfl⟩ := Option.map_eq_some_iff.mp he
  obtain ⟨hnum, rfl | ⟨hlim, ce, rfl⟩⟩ := Priority.enque_spec hx
  · exact { h with arrivals := fun y hy => Nat.lt_succ_of_lt (h.arrivals y hy) }
  · exact h.accept hsize rfl hnum hlim ⟨ce, rfl⟩

theorem Inv.deque (h : r.Inv cfg) (he : step cfg r .deque = some r') : r'.Inv cfg := by
  obtain rfl := Option.some.inj he
  rcases Priority.deque_spec h.valid h.unused with ⟨hd, -⟩ | ⟨i, p, rest, hp, -, hd⟩
  · rw [hd, Option.toList_none, List.append_nil]
    exact h
  obtain ⟨-, hrest, hv, hbytes⟩ := (h.valid i).deque hp
  have hpi : Priority.cls cfg p = i := h.cls i p (by simp [hp])
  have hother : ∀ j, j ≠ i → Function.update r.s.q i (r.s.q i).deque.2 j = r.s.q j := fun j hj =>
    Function.update_of_ne hj _ _
  have hsame : Function.update r.s.q i (r.s.q i).deque.2 i = (r.s.q i).deque.2 :=
    Function.update_self _ _ _
  rw [hd, Option.toList_some]
  refine ⟨fun j => ?_, fun j x hx => ?_, fun j hj => ?_, fun c => ?_, h.admitted, h.arrivals, ?_⟩
  · show (Function.update r.s.q i _ j).Valid
    by_cases hj : j = i
    · subst hj
      rwa [hsame]
    · rw [hother j hj]
      exact h.valid j
  · have hx : x ∈ (Function.update r.s.q i (r.s.q i).deque.2 j).pkts := hx
    by_cases hj : j = i
    · subst hj
      rw [hsame, hrest] at hx
      exact h.cls j x (by simp [hp, hx])
    · rw [hother j hj] at hx
      exact h.cls j x hx
  · show (Function.update r.s.q i _ j).pkts = []
    have hne : j ≠ i := fun e => by
      have hu := h.unused j hj
      rw [e, hp] at hu
      exact absurd hu (by simp)
    rw [hother j hne]
    exact h.unused j hj
  · show ofClass cfg c (r.out ++ [p]) ++ (Function.update r.s.q i _ c).pkts.map (·.uid) = _
    rw [ofClass_append, ofClass_singleton, ← h.fifo c]
    by_cases hc : c = i
    · subst hc
      rw [if_pos hpi, hsame, hrest, hp, List.map_cons, List.append_assoc]
      rfl
    · rw [if_neg fun e => hc (e.symm.trans hpi), hother c hc, List.append_nil]
  · show Priority.totalByteLength ⟨Function.update r.s.q i _⟩ ≤ _
    have him : i < maxQueueNum := by
      by_contra hle
      have hu := h.unused i (.inr (Nat.not_lt.mp hle))
      rw [hp] at hu
      exact absurd hu (by simp)
    have hpos := (h.valid i).pos p (by simp [hp])
    have hlim := h.limit
    rw [Priority.total_update him, hbytes]
    omega

theorem run_concat (cfg : PriorityConfig) (ops : List QueueOp) (op : QueueOp) :
    run cfg (ops ++ [op]) = (run cfg ops).bind fun r => step cfg r op := by
  simp [run, List.foldlM_append]

theorem run_inv {ops : List QueueOp} (hpos : ∀ op ∈ ops, QueueRun.Positive op)
    (he : run cfg ops = some r) : r.Inv cfg := by
  induction ops using List.reverseRecOn generalizing r with
  | nil =>
      obtain rfl := Option.some.inj he
      exact init_inv cfg
  | append_singleton ops op ih =>
      rw [run_concat] at he
      obtain ⟨r₀, h₀, h₁⟩ := Option.bind_eq_some_iff.mp he
      have h := ih (fun op hop => hpos op (by simp [hop])) h₀
      cases op with
      | enque hd => exact h.enque (hpos (.enque hd) (by simp)) h₁
      | deque => exact h.deque h₁

/-- The packet is in a queue. -/
def Queued (r : PriorityRun) (p : Packet) : Prop := ∃ i, p ∈ (r.s.q i).pkts

/-- No packet in a queue is of a lower class, or of the same class and earlier. -/
def Next (cfg : PriorityConfig) (r : PriorityRun) (p : Packet) : Prop :=
  r.Queued p ∧ ∀ y, r.Queued y → Priority.cls cfg p < Priority.cls cfg y ∨
    Priority.cls cfg p = Priority.cls cfg y ∧ p.uid ≤ y.uid

/-- A queue stands in order of arrival. -/
theorem Inv.sorted (h : r.Inv cfg) (i : ℕ) :
    ((r.s.q i).pkts.map (·.uid)).Pairwise (· < ·) := by
  have hs : ((r.admitted.filter fun p => Priority.cls cfg p = i).map (·.uid)).Pairwise (· < ·) :=
    h.admitted.sublist (List.filter_sublist.map _)
  have hf := h.fifo i
  rw [ofClass.eq_1 cfg i r.admitted] at hf
  rw [← hf] at hs
  exact (List.pairwise_append.mp hs).2.1

theorem Inv.next (h : r.Inv cfg) :
    ((r.s.deque cfg).1 = none ↔ ∀ p, ¬ r.Queued p) ∧ ∀ p ∈ (r.s.deque cfg).1, r.Next cfg p := by
  rcases Priority.deque_spec h.valid h.unused with ⟨hd, hall⟩ | ⟨i, p, rest, hp, hbelow, hd⟩
  · rw [hd]
    refine ⟨iff_of_true rfl ?_, by simp⟩
    rintro p ⟨i, hi⟩
    exact absurd hi (by simp [hall i])
  · rw [hd]
    have hmem : r.Queued p := ⟨i, by simp [hp]⟩
    refine ⟨iff_of_false (by simp) fun hno => hno p hmem, fun p' hp' => ?_⟩
    obtain rfl := Option.some.inj hp'
    refine ⟨hmem, ?_⟩
    rintro y ⟨j, hj⟩
    rw [h.cls i p (by simp [hp]), h.cls j y hj]
    rcases lt_trichotomy i j with hij | rfl | hij
    · exact .inl hij
    · refine .inr ⟨rfl, ?_⟩
      have hs := h.sorted i
      rw [hp, List.map_cons, List.pairwise_cons] at hs
      rw [hp] at hj
      rcases List.mem_cons.mp hj with rfl | hj
      · exact Nat.le_refl _
      · exact (hs.1 y.uid (List.mem_map_of_mem hj)).le
    · exact absurd hj (by simp [hbelow j hij])

/-- The bytes in the queues. -/
def queuedBytes (r : PriorityRun) : Int :=
  ((List.range maxQueueNum).map fun i => sizes (r.s.q i).pkts).sum

/-- **The discipline.**  In every run with packets that have a size, `deque` returns null if and
only if no packet is queued, and otherwise the earliest packet of the lowest class that has one;
what leaves a class and what is in its queue are, in this order, what was admitted to it; and the
bytes in the queues stay within the limit. -/
theorem strict_priority (cfg : PriorityConfig) (ops : List QueueOp)
    (hpos : ∀ op ∈ ops, QueueRun.Positive op) (r : PriorityRun) (hr : run cfg ops = some r) :
    ((r.s.deque cfg).1 = none ↔ ∀ p, ¬ r.Queued p) ∧ (∀ p ∈ (r.s.deque cfg).1, r.Next cfg p) ∧
      (∀ c, ofClass cfg c r.out ++ (r.s.q c).pkts.map (·.uid) = ofClass cfg c r.admitted) ∧
      (r.admitted.map (·.uid)).Pairwise (· < ·) ∧
      r.queuedBytes ≤ max 0 (cfg.qlim * cfg.meanPktsize) := by
  have h := run_inv hpos hr
  refine ⟨h.next.1, h.next.2, h.fifo, h.admitted, ?_⟩
  have hbytes : r.queuedBytes = r.s.totalByteLength :=
    congrArg List.sum (List.map_congr_left fun i _ => ((h.valid i).bytes_eq).symm)
  rw [hbytes]
  exact h.limit

/-- Two classes, and room for three packets. -/
def twoClasses : PriorityConfig := ⟨3, 1500, 65, 2, .perPort⟩

/-- Packets of priorities 5, 0 and 1, of which the first and the last are of one class, and one
that finds no room. -/
def threePackets : List QueueOp :=
  [.enque ⟨1500, 5, 0, 1, 0, false, false⟩, .enque ⟨1500, 0, 2, 1, 0, false, false⟩,
    .enque ⟨1500, 1, 0, 1, 0, false, false⟩, .enque ⟨1500, 0, 0, 1, 0, false, false⟩, .deque]

theorem strict_priority_two :
    ∃ r, run twoClasses threePackets = some r ∧ r.out.map (·.uid) = [1] ∧
      ∀ p ∈ (r.s.deque twoClasses).1, r.Next twoClasses p :=
  ⟨_, rfl, by decide, (strict_priority twoClasses threePackets (by
    simp [threePackets, QueueRun.Positive]) _ rfl).2.1⟩

end PriorityRun

end Afabric
