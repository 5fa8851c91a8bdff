import Afabric.Queue.Conservation

/-!
# Queue — the limits of the queue

`enque` is meant to keep the queue below its limit, and an overflow evicts one packet for the new
one.  Counting packets that is enough.  Counting bytes it is not: `drop_prio` looks for a packet
that is large enough, but `drop_front` takes the head and `drop_smart` the most counted packet,
whatever their sizes (`occupancy_iff`).

The limit on good packets is to be kept by `drop_prio`, which throws in just the mode that has it
(`good_limit_iff`).
-/

namespace Afabric

open BadTrackingPacketQueue DropTail

namespace DropTail

variable {cfg : DropTailConfig} {d : DropTail} {p : Packet}

/-! ### What an overflow drops -/

theorem foldl_select_cases (c : Packet → Int → Bool) (key : Packet → Int) (l : List Packet)
    (m : Packet × Int) :
    (l.foldl (select c key) m).1 = m.1 ∨
      ∃ k, c (l.foldl (select c key) m).1 k = true := by
  induction l generalizing m with
  | nil => exact .inl rfl
  | cons x l ih =>
      rw [List.foldl_cons]
      by_cases hx : c x m.2 = true
      · have hsel : select c key m x = (x, key x) := by rw [select, if_pos hx]
        rw [hsel]
        rcases ih (x, key x) with h | h
        · exact .inr ⟨m.2, by rw [h]; exact hx⟩
        · exact .inr h
      · have hsel : select c key m x = m := by rw [select, if_neg hx]
        rw [hsel]
        exact ih m

/-- `drop_prio` drops a packet that makes room, or the new one. -/
theorem maxPrio_cases (hqib : cfg.qib = true) (q : BadTrackingPacketQueue) (p : Packet) :
    maxPrio cfg q p = p ∨ q.bytes - (maxPrio cfg q p).size < qlimInBytes cfg := by
  rw [maxPrio_eq]
  rcases foldl_select_cases (fun pp k => eligible cfg q pp && decide (k ≤ pp.prio)) (·.prio)
    q.pkts (p, 0) with h | ⟨k, h⟩
  · exact .inl h
  · rw [Bool.and_eq_true] at h
    have he := h.1
    rw [eligible, hqib] at he
    exact .inr (by simpa using he)

/-- The packet `drop_smart` drops: the first one of the greatest count, or the new one if there is
no count. -/
def SmartVictim (cfg : DropTailConfig) (d : DropTail) (p v : Packet) : Prop :=
  (0 < count cfg d v ∧ IsFirstMax (count cfg d) (d.q.pkts ++ [p]) v) ∨
    (v = p ∧ ∀ x ∈ d.q.pkts ++ [p], count cfg d x ≤ 0)

theorem smartVictim_unique {x y : Packet} (hx : SmartVictim cfg d p x)
    (hy : SmartVictim cfg d p y) : x = y := by
  have hmem : ∀ v, IsFirstMax (count cfg d) (d.q.pkts ++ [p]) v → v ∈ d.q.pkts ++ [p] := by
    rintro v ⟨A, B, he, -⟩
    rw [he]
    simp
  rcases hx with ⟨hx, hx'⟩ | ⟨rfl, hx⟩
  · rcases hy with ⟨-, hy'⟩ | ⟨-, hy⟩
    · exact isFirstMax_unique hx' hy'
    · exact absurd (hy x (hmem x hx')) (not_le.mpr hx)
  · rcases hy with ⟨hy, hy'⟩ | ⟨rfl, -⟩
    · exact absurd (hx y (hmem y hy')) (not_le.mpr hy)
    · rfl

/-- The selection loop of `drop_smart` over `rest`, after `l`. -/
theorem foldl_select_firstMax {c : Packet → Int → Bool} {key : Packet → Int} {p : Packet}
    (hc : ∀ x k, 0 ≤ k → (c x k = true ↔ k < key x)) {l : List Packet} (rest : List Packet)
    {m : Packet × Int}
    (hm : (m = (p, 0) ∧ ∀ x ∈ l, key x ≤ 0) ∨ m.2 = key m.1 ∧ 0 < m.2 ∧ IsFirstMax key l m.1) :
    ((rest.foldl (select c key) m).1 = p ∧ ∀ x ∈ l ++ rest, key x ≤ 0) ∨
      0 < key (rest.foldl (select c key) m).1 ∧
        IsFirstMax key (l ++ rest) (rest.foldl (select c key) m).1 := by
  induction rest generalizing l m with
  | nil =>
      rw [List.append_nil]
      rcases hm with ⟨rfl, hm⟩ | ⟨h₁, h₂, h₃⟩
      · exact .inl ⟨rfl, hm⟩
      · exact .inr ⟨h₁ ▸ h₂, h₃⟩
  | cons x rest ih =>
      have hl : l ++ x :: rest = l ++ [x] ++ rest := by simp
      rw [hl, List.foldl_cons]
      refine ih ?_
      have hm0 : 0 ≤ m.2 := by
        rcases hm with ⟨rfl, -⟩ | ⟨-, h, -⟩
        · exact le_rfl
        · exact h.le
      -- a packet with a greater key becomes the victim, one with an equal key does not
      by_cases hx : c x m.2 = true
      · have hkx := (hc x m.2 hm0).mp hx
        rw [select, if_pos hx]
        refine .inr ⟨rfl, lt_of_le_of_lt hm0 hkx, l, [], rfl, fun y hy => ?_, by simp⟩
        rcases hm with ⟨rfl, hm⟩ | ⟨h₁, -, A, B, rfl, hA, hB⟩
        · exact lt_of_le_of_lt (hm y hy) hkx
        · rw [h₁] at hkx
          rcases List.mem_append.mp hy with hy | hy
          · exact lt_trans (hA y hy) hkx
          · rcases List.mem_cons.mp hy with rfl | hy
            · exact hkx
            · exact lt_of_le_of_lt (hB y hy) hkx
      · have hkx : key x ≤ m.2 := not_lt.mp fun h => hx ((hc x m.2 hm0).mpr h)
        rw [select, if_neg hx]
        rcases hm with ⟨rfl, hm⟩ | ⟨h₁, h₂, A, B, rfl, hA, hB⟩
        · refine .inl ⟨rfl, fun y hy => ?_⟩
          rcases List.mem_append.mp hy with hy | hy
          · exact hm y hy
          · obtain rfl := List.mem_singleton.mp hy
            exact hkx
        · refine .inr ⟨h₁, h₂, A, B ++ [x], by simp, hA, fun y hy => ?_⟩
          rcases List.mem_append.mp hy with hy | hy
          · exact hB y hy
          · obtain rfl := List.mem_singleton.mp hy
            exact h₁ ▸ hkx

theorem maxCount_smartVictim : SmartVictim cfg d p (maxCount cfg d (d.q.enque p) p) := by
  rw [maxCount_eq, enque_pkts]
  have hc : ∀ (x : Packet) (k : Int), 0 ≤ k → (((d.sqCounts (cfg.hash x.flow)).isSome &&
      decide (k < count cfg d x)) = true ↔ k < count cfg d x) := by
    intro x k hk
    cases hs : d.sqCounts (cfg.hash x.flow) with
    | none => simp [count, hs, hk]
    | some n => simp [count, hs]
  rcases foldl_select_firstMax hc (l := []) (d.q.pkts ++ [p]) (m := (p, 0))
    (.inl ⟨rfl, by simp⟩) with h | h
  · exact .inr h
  · exact .inl h

/-- The packet that is dropped when the queue is over its limit. -/
def evicted (cfg : DropTailConfig) (d : DropTail) (p : Packet) : Packet :=
  if cfg.dropFront then (d.q.pkts ++ [p]).head (by simp)
  else if cfg.dropPrio then maxPrio cfg (d.q.enque p) p
  else if cfg.dropSmart then maxCount cfg d (d.q.enque p) p
  else p

theorem enque_dropped (h : d.q.Valid) (hp : ∀ x ∈ d.q.pkts, x.uid < p.uid) {x : Departure}
    (he : d.enque cfg p = some x) :
    x.dropped = if d.willOverflow cfg p then [evicted cfg d p] else [] := by
  have hv := h.enque hp
  have hmem := victim_mem cfg d p
  obtain ⟨y, hy, -, hd, -⟩ := enque_takeIn he
  rw [hd]
  rw [takeIn] at hy
  split at hy
  case isTrue hov =>
    rw [if_pos hov, evicted]
    rw [handleOverflow] at hy
    split at hy
    case isTrue hf =>
      obtain rfl := Option.some.inj hy
      rw [if_pos hf]
      show (d.q.enque p).deque.1.toList = _
      rw [hv.deque.1, enque_pkts, List.head?_eq_some_head (by simp)]
      rfl
    case isFalse hf =>
      rw [if_neg hf]
      split at hy
      case isTrue hdp =>
        rw [victim, if_pos hdp] at hmem
        rw [if_pos hdp]
        rw [dropPrio] at hy
        split at hy
        · exact absurd hy (by simp)
        · exact (evict_leaves hv hmem hy).2.1
      case isFalse hdp =>
        rw [victim, if_neg hdp] at hmem
        rw [if_neg hdp]
        split at hy
        case isTrue hds =>
          rw [if_pos hds]
          exact (evict_leaves hv hmem hy).2.1
        case isFalse hds =>
          obtain rfl := Option.some.inj hy
          rw [if_neg hds]
  case isFalse hov =>
    obtain rfl := Option.some.inj hy
    rw [if_neg hov]

/-- One eviction makes room for the new packet.  Counting bytes, `drop_front` and `drop_smart` make
room only if the packet they take is large enough. -/
def Fits (cfg : DropTailConfig) (d : DropTail) (p : Packet) : Prop :=
  cfg.qib = true → d.willOverflow cfg p = true →
    (cfg.dropFront = true → ∀ x ∈ (d.q.pkts ++ [p]).head?,
      d.q.bytes + p.size - x.size < qlimInBytes cfg) ∧
    (cfg.dropFront = false → cfg.dropPrio = false → cfg.dropSmart = true →
      ∀ v, SmartVictim cfg d p v → d.q.bytes + p.size - v.size < qlimInBytes cfg)

/-- Whether the packet that is evicted makes room. -/
theorem fits_iff (hqib : cfg.qib = true) (hov : d.willOverflow cfg p = true)
    (hb : d.q.bytes < qlimInBytes cfg) :
    Fits cfg d p ↔ d.q.bytes + p.size - (evicted cfg d p).size < qlimInBytes cfg := by
  have hhead : (d.q.pkts ++ [p]).head? = some ((d.q.pkts ++ [p]).head (by simp)) :=
    List.head?_eq_some_head (by simp)
  rw [evicted]
  by_cases hf : cfg.dropFront = true
  · rw [if_pos hf]
    constructor
    · intro h
      exact (h hqib hov).1 hf _ (by rw [hhead]; rfl)
    · intro h _ _
      refine ⟨fun _ x hx => ?_, fun hf' => absurd hf (by simp [hf'])⟩
      rw [hhead] at hx
      obtain rfl := Option.some.inj hx
      exact h
  rw [if_neg hf]
  have hf' : cfg.dropFront = false := by simpa using hf
  -- `drop_prio` takes a packet that makes room, or the arrival, without which the queue is as before
  by_cases hdp : cfg.dropPrio = true
  · rw [if_pos hdp]
    refine iff_of_true (fun _ _ => ⟨fun h => absurd h hf, fun _ h => absurd hdp (by simp [h])⟩) ?_
    have hc := maxPrio_cases hqib (d.q.enque p) p
    rw [enque_bytes] at hc
    rcases hc with h | h
    · rw [h]
      omega
    · exact h
  rw [if_neg hdp]
  have hdp' : cfg.dropPrio = false := by simpa using hdp
  by_cases hds : cfg.dropSmart = true
  · rw [if_pos hds]
    constructor
    · intro h
      exact (h hqib hov).2 hf' hdp' hds _ maxCount_smartVictim
    · intro h _ _
      refine ⟨fun h => absurd h hf, fun _ _ _ v hv => ?_⟩
      rw [smartVictim_unique hv maxCount_smartVictim]
      exact h
  · rw [if_neg hds]
    refine iff_of_true (fun _ _ => ⟨fun h => absurd h hf, fun _ _ h => absurd h hds⟩) ?_
    omega

end DropTail

/-! ### The occupancy over runs -/

namespace QueueRun

/-- The queue is below its limit. -/
def Below (cfg : DropTailConfig) (r : QueueRun) : Prop :=
  if cfg.qib then r.d.q.bytes < qlimInBytes cfg else r.d.q.len < cfg.qlim

/-- The packets have a size, and `bytes_` is their sum. -/
structure Sized (r : QueueRun) : Prop where
  valid : r.Valid
  bytes : r.d.q.bytes = sizes r.d.q.pkts
  pos : ∀ x ∈ r.d.q.pkts, 0 < x.size

/-- The packet of the call has a size. -/
def Positive : QueueOp → Prop
  | .enque h => 0 < h.size
  | .deque => True

variable {cfg : DropTailConfig} {r r' : QueueRun}

/-- What `enque` does to the two lengths. -/
theorem enque_lengths (h : r.Valid) {hd : Header} (he : step cfg r (.enque hd) = some r') :
    r'.d.q.bytes = r.d.q.bytes + hd.size -
      (if r.d.willOverflow cfg (r.arriving hd) then (evicted cfg r.d (r.arriving hd)).size else 0) ∧
    r'.d.q.len = r.d.q.len + 1 - (if r.d.willOverflow cfg (r.arriving hd) then 1 else 0) := by
  obtain ⟨x, hx, rfl⟩ := Option.map_eq_some_iff.mp he
  obtain ⟨q₁, hl, hm, -, -⟩ := enque_leaves h.queue h.arrivals hx
  have hdr := enque_dropped h.queue h.arrivals hx
  have hlen := hl.length
  have h₁ := hl.valid.len_eq
  have h₂ := h.queue.len_eq
  rw [enque_pkts] at hlen
  refine ⟨?_, ?_⟩
  · show x.state.q.bytes = _
    rw [hm.bytes, hl.bytes, enque_bytes, hdr]
    split <;> simp [arriving]
  · show x.state.q.len = _
    rw [hm.len, h₁, h₂]
    rw [hdr] at hlen
    by_cases hov : r.d.willOverflow cfg (r.arriving hd) = true
    · rw [if_pos hov] at hlen ⊢
      simp only [List.length_append, List.length_singleton] at hlen
      omega
    · rw [if_neg hov] at hlen ⊢
      simp only [List.length_append, List.length_singleton, List.length_nil] at hlen
      omega

theorem Sized.step (h : r.Sized) {op : QueueOp} (hop : Positive op)
    (he : step cfg r op = some r') : r'.Sized := by
  have hv := (step_spec h.valid he).1
  cases op with
  | enque hd =>
      obtain ⟨x, hx, rfl⟩ := Option.map_eq_some_iff.mp he
      obtain ⟨q₁, hl, hm, -, -⟩ := enque_leaves h.valid.queue h.valid.arrivals hx
      have hb : (r.d.q.enque (r.arriving hd)).bytes = sizes (r.d.q.enque (r.arriving hd)).pkts := by
        rw [enque_bytes, enque_pkts, h.bytes]
        simp
      have hpos : ∀ y ∈ q₁.pkts, 0 < y.size := fun y hy => by
        have hy' := hl.mem hy
        rw [enque_pkts, List.mem_append, List.mem_singleton] at hy'
        rcases hy' with hy' | rfl
        · exact h.pos y hy'
        · exact hop
      refine ⟨hv, ?_, fun y hy => ?_⟩
      · show x.state.q.bytes = sizes x.state.q.pkts
        rw [hm.bytes, hm.sizes_eq, hl.bytes_eq hb]
      · have hy' : y.size ∈ x.state.q.pkts.map (·.size) := List.mem_map_of_mem hy
        rw [hm.map_eq fun _ => rfl] at hy'
        obtain ⟨z, hz, hzy⟩ := List.mem_map.mp hy'
        rw [← hzy]
        exact hpos z hz
  | deque =>
      obtain ⟨x, hx, rfl⟩ := Option.map_eq_some_iff.mp he
      have hl := deque_leaves h.valid.queue hx
      exact ⟨hv, hl.bytes_eq h.bytes, fun y hy => h.pos y (hl.mem hy)⟩

theorem init_sized : init.Sized :=
  ⟨init_valid, rfl, by simp [init, DropTail.init, BadTrackingPacketQueue.init]⟩

theorem sizes_nonneg {l : List Packet} (h : ∀ x ∈ l, 0 < x.size) : 0 ≤ sizes l := by
  induction l with
  | nil => exact le_rfl
  | cons x l ih =>
      have h₁ := h x (by simp)
      have h₂ := ih fun y hy => h y (by simp [hy])
      rw [sizes_cons]
      omega

/-- `deque` takes nothing into the queue. -/
theorem Below.deque (h : r.Sized) (hb : r.Below cfg) (he : step cfg r .deque = some r') :
    r'.Below cfg := by
  obtain ⟨x, hx, rfl⟩ := Option.map_eq_some_iff.mp he
  have hl := deque_leaves h.valid.queue hx
  have hpos : 0 ≤ sizes (x.result.toList ++ x.dropped.reverse) := sizes_nonneg fun y hy =>
    h.pos y (hl.perm.mem_iff.mp (List.mem_append_right _ hy))
  have hlen := hl.length
  have h₁ := hl.valid.len_eq
  have h₂ := h.valid.queue.len_eq
  rw [Below] at hb ⊢
  split
  case isTrue hq =>
    rw [if_pos hq] at hb
    show x.state.q.bytes < _
    rw [hl.bytes]
    omega
  case isFalse hq =>
    rw [if_neg hq] at hb
    show x.state.q.len < _
    rw [h₁]
    omega

/-- Whether `enque` leaves the queue below its limit. -/
theorem below_enque_iff (hlim : cfg.goodPrioQlim < 0) (h : r.Sized) (hb : r.Below cfg)
    {hd : Header} (he : step cfg r (.enque hd) = some r') :
    r'.Below cfg ↔ Fits cfg r.d (r.arriving hd) := by
  obtain ⟨hbytes, hlen⟩ := enque_lengths h.valid he
  rw [Below] at hb ⊢
  by_cases hq : cfg.qib = true
  · rw [if_pos hq] at hb ⊢
    by_cases hov : r.d.willOverflow cfg (r.arriving hd) = true
    · rw [if_pos hov] at hbytes
      rw [fits_iff hq hov hb, hbytes]
      rfl
    · rw [if_neg hov] at hbytes
      refine iff_of_true ?_ fun _ h => absurd h hov
      rw [willOverflow, if_pos hq] at hov
      have hov' : r.d.q.bytes + hd.size < qlimInBytes cfg := by simpa [arriving] using hov
      omega
  · rw [if_neg hq] at hb ⊢
    refine iff_of_true ?_ fun h => absurd h hq
    by_cases hov : r.d.willOverflow cfg (r.arriving hd) = true
    · rw [if_pos hov] at hlen
      omega
    · rw [if_neg hov] at hlen
      rw [willOverflow, if_neg hq, if_neg (by omega)] at hov
      have hov' : r.d.q.len + 1 < cfg.qlim := by simpa using hov
      omega

theorem init_below (hq : 1 ≤ cfg.qlim) (hm : cfg.qib = true → 0 < cfg.meanPktsize) :
    init.Below cfg := by
  rw [Below]
  split
  · next hqib => exact Int.mul_pos (by omega) (hm hqib)
  · show (0 : Int) < _
    omega

theorem run_sized {ops : List QueueOp} (hpos : ∀ op ∈ ops, Positive op)
    (he : run cfg ops = some r) : r.Sized := by
  induction ops using List.reverseRecOn generalizing r with
  | nil =>
      obtain rfl := Option.some.inj he
      exact init_sized
  | append_singleton ops op ih =>
      rw [run_concat] at he
      obtain ⟨r₀, h₀, h₁⟩ := Option.bind_eq_some_iff.mp he
      exact (ih (fun o ho => hpos o (by simp [ho])) h₀).step (hpos op (by simp)) h₁

/-- A run is below its limit after every call when every `enque` keeps it there. -/
theorem below_of_step (hq : 1 ≤ cfg.qlim) (hm : cfg.qib = true → 0 < cfg.meanPktsize)
    {ops pre : List QueueOp} (hpos : ∀ op ∈ ops, Positive op)
    (hstep : ∀ pre hd r₀ r, pre ++ [.enque hd] <+: ops → run cfg pre = some r₀ → r₀.Sized →
      r₀.Below cfg → step cfg r₀ (.enque hd) = some r → r.Below cfg)
    (hpre : pre <+: ops) (hr : run cfg pre = some r) : r.Below cfg := by
  induction pre using List.reverseRecOn generalizing r with
  | nil =>
      obtain rfl := Option.some.inj hr
      exact init_below hq hm
  | append_singleton pre op ih =>
      have hpre' := (List.prefix_append pre [op]).trans hpre
      rw [run_concat] at hr
      obtain ⟨r₀, h₀, h₁⟩ := Option.bind_eq_some_iff.mp hr
      have hs := run_sized (fun op hop => hpos op (hpre'.subset hop)) h₀
      cases op with
      | enque hd => exact hstep pre hd r₀ r hpre h₀ hs (ih hpre' h₀) h₁
      | deque => exact (ih hpre' h₀).deque hs h₁

/-- A run that is below its limit after every `enque` is so after every call. -/
theorem below_of_enque (hq : 1 ≤ cfg.qlim) (hm : cfg.qib = true → 0 < cfg.meanPktsize)
    {ops pre : List QueueOp} (hpos : ∀ op ∈ ops, Positive op)
    (hall : ∀ pre hd r, pre ++ [.enque hd] <+: ops → run cfg (pre ++ [.enque hd]) = some r →
      r.Below cfg)
    (hpre : pre <+: ops) (hr : run cfg pre = some r) : r.Below cfg := by
  refine below_of_step hq hm hpos (fun pre hd r₀ r hp h₀ _ _ h₁ => hall pre hd r hp ?_) hpre hr
  rw [run_concat, h₀]
  exact h₁

theorem below_of_fits (hq : 1 ≤ cfg.qlim) (hm : cfg.qib = true → 0 < cfg.meanPktsize)
    (hlim : cfg.goodPrioQlim < 0) {ops pre : List QueueOp} (hpos : ∀ op ∈ ops, Positive op)
    (hall : ∀ pre hd r, pre ++ [.enque hd] <+: ops → run cfg pre = some r →
      Fits cfg r.d (r.arriving hd))
    (hpre : pre <+: ops) (hr : run cfg pre = some r) : r.Below cfg :=
  below_of_step hq hm hpos (fun pre hd r₀ _ hp h₀ hs hb h₁ =>
    (below_enque_iff hlim hs hb h₁).mpr (hall pre hd r₀ hp h₀)) hpre hr

theorem enque_returns (hlim : cfg.goodPrioQlim < 0) (h : r.Valid) (hd : Header) :
    ∃ r', step cfg r (.enque hd) = some r' := by
  obtain ⟨x, hx, -⟩ := (enque_spec cfg (p := r.arriving hd) h.queue h.arrivals).2
    fun ht => absurd ht.2.2.2.2 (not_le.mpr hlim)
  exact ⟨_, by rw [step, hx]; rfl⟩

/-- A queue below a limit in bytes has a positive limit. -/
theorem Sized.meanPktsize_pos (h : r.Sized) (hq : 1 ≤ cfg.qlim) (hb : r.Below cfg)
    (hqib : cfg.qib = true) : 0 < cfg.meanPktsize := by
  rw [Below, if_pos hqib] at hb
  have h₀ : 0 ≤ r.d.q.bytes := h.bytes ▸ sizes_nonneg h.pos
  exact pos_of_mul_pos_right (h₀.trans_lt hb) (by omega)

/-- **The occupancy of the queue.**  With packets of positive sizes, the queue is below its limit
after every `enque` of a run if and only if every eviction of the run makes room, and a limit in
bytes is positive. -/
theorem occupancy_iff (cfg : DropTailConfig) (hq : 1 ≤ cfg.qlim) (hlim : cfg.goodPrioQlim < 0)
    (ops : List QueueOp) (hpos : ∀ op ∈ ops, Positive op) :
    (∀ pre hd r, pre ++ [.enque hd] <+: ops → run cfg (pre ++ [.enque hd]) = some r →
      r.Below cfg) ↔
    ∀ pre hd r, pre ++ [.enque hd] <+: ops → run cfg pre = some r →
      (cfg.qib = true → 0 < cfg.meanPktsize) ∧ Fits cfg r.d (r.arriving hd) := by
  constructor
  · intro hall pre hd r hpre hr
    have hpre' := (List.prefix_append pre [QueueOp.enque hd]).trans hpre
    have hs := run_sized (fun op hop => hpos op (hpre'.subset hop)) hr
    obtain ⟨r', hr'⟩ := enque_returns hlim hs.valid hd
    have hb' := hall pre hd r' hpre (by rw [run_concat, hr]; exact hr')
    have hm := (hs.step (hpos _ (hpre.subset (by simp))) hr').meanPktsize_pos hq hb'
    exact ⟨hm, (below_enque_iff hlim hs (below_of_enque hq hm hpos hall hpre' hr) hr').mp hb'⟩
  · intro hall pre hd r hpre he
    have hpre' := (List.prefix_append pre [QueueOp.enque hd]).trans hpre
    rw [run_concat] at he
    obtain ⟨r₀, h₀, h₁⟩ := Option.bind_eq_some_iff.mp he
    have hs := run_sized (fun op hop => hpos op (hpre'.subset hop)) h₀
    have hfits : ∀ pre hd r, pre ++ [.enque hd] <+: ops → run cfg pre = some r →
        Fits cfg r.d (r.arriving hd) := fun pre hd r hp hr => (hall pre hd r hp hr).2
    exact (below_enque_iff hlim hs
      (below_of_fits hq (hall pre hd r₀ hpre h₀).1 hlim hpos hfits hpre' h₀) h₁).mpr
      (hfits pre hd r₀ hpre h₀)

/-- A queue that counts bytes, with a limit of 1000, and drops from the front. -/
def byteFront : DropTailConfig :=
  { pfabric with qib := true, qlim := 2, dropFront := true }

/-- A small packet at the head is dropped for a large one. -/
theorem occupancy_small_head :
    ∃ r, run byteFront [.enque ⟨40, 0, 0, 1, 0, false, false⟩,
        .enque ⟨900, 0, 0, 1, 0, false, false⟩, .enque ⟨900, 0, 0, 1, 0, false, false⟩] = some r ∧
      r.d.q.bytes = 1800 ∧ qlimInBytes byteFront = 1000 ∧ ¬ r.Below byteFront := by
  refine ⟨_, rfl, rfl, rfl, ?_⟩
  rw [Below]
  decide

/-- A start of a list that ends in `o`: it is the first element, or goes on after it. -/
theorem concat_prefix_cons {α : Type} {pre l : List α} {o a : α} (h : pre ++ [o] <+: a :: l) :
    pre = [] ∧ o = a ∨ ∃ pre', pre = a :: pre' ∧ pre' ++ [o] <+: l := by
  cases pre with
  | nil => exact .inl ⟨rfl, (List.cons_prefix_cons.mp h).1⟩
  | cons x pre' =>
      obtain ⟨rfl, h'⟩ := List.cons_prefix_cons.mp h
      exact .inr ⟨pre', rfl, h'⟩

/-- The second of two packets of one size takes the place of the first. -/
theorem occupancy_equal_sizes :
    ∃ r, run byteFront [.enque ⟨900, 0, 0, 1, 0, false, false⟩,
        .enque ⟨900, 0, 0, 1, 0, false, false⟩] = some r ∧ r.Below byteFront := by
  have hfits := (occupancy_iff byteFront (by decide) (by decide)
    [.enque ⟨900, 0, 0, 1, 0, false, false⟩, .enque ⟨900, 0, 0, 1, 0, false, false⟩]
    (by simp [Positive])).mpr ?_
  · exact ⟨_, rfl, hfits [_] _ _ (List.prefix_refl _) rfl⟩
  · intro pre hd r hpre hr
    rcases concat_prefix_cons hpre with ⟨rfl, he⟩ | ⟨pre, rfl, hpre'⟩
    · obtain rfl := QueueOp.enque.inj he
      obtain rfl := Option.some.inj hr
      exact ⟨by decide, fun _ hov => absurd hov (by decide)⟩
    · rcases concat_prefix_cons hpre' with ⟨rfl, he⟩ | ⟨_, -, hpre'⟩
      · obtain rfl := QueueOp.enque.inj he
        obtain rfl := Option.some.inj hr
        refine ⟨by decide, fun _ _ => ⟨fun _ => by decide, fun hf => ?_⟩⟩
        exact absurd hf (by decide)
      · simp at hpre'

end QueueRun

/-! ### The limit on good packets -/

namespace DropTail

/-- How a call of `enque` ends: it returns, or the exception of `drop_prio` leaves the queue as it
then is. -/
inductive Outcome where
  | returned (x : Departure)
  | threw (d : DropTail)

/-- `enque`, with the queue an exception leaves: the new packet is linked and counted before the
scan of `drop_prio` throws. -/
def enqueOutcome (cfg : DropTailConfig) (d : DropTail) (p : Packet) : Option Outcome :=
  if d.willOverflow cfg p ∧ !cfg.dropFront ∧ cfg.dropPrio ∧ !cfg.qib ∧ cfg.goodPrioQlim ≥ 0 then
    some (.threw { d with q := d.q.enque p })
  else (d.enque cfg p).map .returned

/-- The number of packets of good priority. -/
def numGood (l : List Packet) : Int := l.countP fun x => !x.isBadPrio

/-- What `enque` is to do at the limits: an overflow is resolved by dropping one packet, a good
packet leaves the good ones below their limit, and an exception leaves the packets as they were. -/
structure Resolves (cfg : DropTailConfig) (d : DropTail) (p : Packet) : Prop where
  overflow : d.willOverflow cfg p = true →
    ∃ x, d.enqueOutcome cfg p = some (.returned x) ∧ x.dropped.length = 1
  good : ∀ x, d.enqueOutcome cfg p = some (.returned x) → p.isBadPrio = false →
    numGood x.state.q.pkts < cfg.goodPrioQlim
  threw : ∀ d', d.enqueOutcome cfg p = some (.threw d') → d'.q.pkts = d.q.pkts

/-- The call does not get to `drop_prio`: there is no overflow, or `drop_front_` is set too and a
good packet has room without the head. -/
def Avoids (cfg : DropTailConfig) (d : DropTail) (p : Packet) : Prop :=
  d.willOverflow cfg p = true → cfg.dropFront = true ∧
    (p.isBadPrio = false → numGood (d.q.pkts ++ [p]).tail < cfg.goodPrioQlim)

variable {cfg : DropTailConfig} {d : DropTail} {p : Packet}

theorem enqueOutcome_throws (hqib : cfg.qib = false) (hlim : 0 ≤ cfg.goodPrioQlim)
    (hdp : cfg.dropPrio = true) (hov : d.willOverflow cfg p = true) (hf : cfg.dropFront = false) :
    d.enqueOutcome cfg p = some (.threw { d with q := d.q.enque p }) := by
  rw [enqueOutcome, if_pos]
  simp [hov, hf, hdp, hqib, hlim]

variable (cfg d p) in
theorem enqueOutcome_returns (h : ¬ (d.willOverflow cfg p = true ∧ cfg.dropFront = false)) :
    d.enqueOutcome cfg p = (d.enque cfg p).map .returned := by
  rw [enqueOutcome, if_neg]
  rintro ⟨h₁, h₂, -⟩
  exact h ⟨h₁, by simpa using h₂⟩

theorem Marks.numGood_eq {q q' : BadTrackingPacketQueue} (h : Marks q q') :
    numGood q'.pkts = numGood q.pkts := by
  have he := h.map_eq (f := fun x => !x.isBadPrio) fun _ => rfl
  have hc := congrArg (List.countP fun b => b) he
  rw [List.countP_map, List.countP_map] at hc
  exact congrArg (fun n : Nat => (n : Int)) hc

theorem numGood_concat (l : List Packet) (p : Packet) :
    numGood (l ++ [p]) = numGood l + if p.isBadPrio then 0 else 1 := by
  rw [numGood, numGood, List.countP_append]
  cases hb : p.isBadPrio <;> simp [hb]

/-- The good packets are at most what `get_num_good_packets` says. -/
theorem numGood_le (h : d.q.Valid) (hx : 0 ≤ d.q.excess) :
    numGood d.q.pkts ≤ d.q.getNumGoodPackets := by
  have hlen := h.len_eq
  have hc := List.length_eq_countP_add_countP (·.isBadPrio) (l := d.q.pkts)
  rw [excess] at hx
  rw [numGood, getNumGoodPackets, hlen]
  simp only [Bool.not_eq_true] at hc
  have he : (fun x : Packet => !x.isBadPrio) = fun x => decide (x.isBadPrio = false) := by
    funext x
    cases x.isBadPrio <;> rfl
  rw [he]
  omega

/-- Whether `enque` does what it is to do. -/
theorem resolves_iff (hqib : cfg.qib = false) (hlim : 0 ≤ cfg.goodPrioQlim)
    (hdp : cfg.dropPrio = true) (h : d.q.Valid) (hp : ∀ x ∈ d.q.pkts, x.uid < p.uid)
    (hex : 0 ≤ d.q.excess) : Resolves cfg d p ↔ Avoids cfg d p := by
  by_cases hov : d.willOverflow cfg p = true
  · by_cases hf : cfg.dropFront = true
    · -- `drop_front` goes first
      have hout := enqueOutcome_returns cfg d p fun e => by
        rw [hf] at e
        exact absurd e.2 (by simp)
      obtain ⟨x, he, -⟩ := (enque_spec cfg h hp).2 fun e => by
        rw [Throws, hf] at e
        exact absurd e.2.1 (by simp)
      obtain ⟨y, hy, hm, -, -⟩ := enque_takeIn he
      obtain ⟨-, -, -, -, hn⟩ := enque_leaves h hp he
      have hq₁ : numGood x.state.q.pkts = numGood (d.q.pkts ++ [p]).tail := by
        rw [takeIn, if_pos hov, handleOverflow, if_pos hf] at hy
        obtain rfl := Option.some.inj hy
        rw [hm.numGood_eq, ← enque_pkts, ← (h.enque hp).deque.2.2.1]
        rfl
      rw [he, Option.map_some] at hout
      constructor
      · intro hr _
        refine ⟨hf, fun hg => ?_⟩
        rw [← hq₁]
        exact hr.good x hout hg
      · intro ha
        refine ⟨fun _ => ⟨x, hout, by rw [hn, if_pos hov]⟩, fun y hy hg => ?_, fun d' hd' => ?_⟩
        · obtain rfl : x = y := by simpa using hout.symm.trans hy
          rw [hq₁]
          exact (ha hov).2 hg
        · exact absurd (hout.symm.trans hd') (by simp)
    · -- without it `drop_prio` is called, and throws
      have hthrow := enqueOutcome_throws hqib hlim hdp hov (by simpa using hf)
      refine iff_of_false (fun hr => ?_) fun ha => hf (ha hov).1
      obtain ⟨x, hx, -⟩ := hr.overflow hov
      exact absurd (hthrow.symm.trans hx) (by simp)
  · have hout := enqueOutcome_returns cfg d p fun e => hov e.1
    refine iff_of_true ⟨fun h => absurd h hov, fun x hx hg => ?_, fun d' hd' => ?_⟩
      fun h => absurd h hov
    · rw [hout] at hx
      obtain ⟨x', he, hx'⟩ := Option.map_eq_some_iff.mp hx
      obtain rfl : x' = x := by simpa using hx'
      obtain ⟨y, hy, hm, -, -⟩ := enque_takeIn he
      rw [takeIn, if_neg hov] at hy
      obtain rfl := Option.some.inj hy
      have hle := numGood_le h hex
      rw [hm.numGood_eq]
      show numGood (d.q.enque p).pkts < _
      rw [enque_pkts, numGood_concat, if_neg (by simp [hg])]
      rw [willOverflow, if_neg (by simp [hqib]), if_pos hlim, if_neg (by simp [hg])] at hov
      have hov' : d.q.getNumGoodPackets + 1 < cfg.goodPrioQlim := by simpa using hov
      omega
    · rw [hout] at hd'
      obtain ⟨x, -, hx⟩ := Option.map_eq_some_iff.mp hd'
      exact absurd hx (by simp)

end DropTail

namespace QueueRun

theorem run_excess {cfg : DropTailConfig} {ops : List QueueOp} {r : QueueRun}
    (he : run cfg ops = some r) : 0 ≤ r.d.q.excess := by
  induction ops using List.reverseRecOn generalizing r with
  | nil =>
      obtain rfl := Option.some.inj he
      exact le_rfl
  | append_singleton ops op ih =>
      rw [run_concat] at he
      obtain ⟨r₀, h₀, h₁⟩ := Option.bind_eq_some_iff.mp he
      exact (ih h₀).trans (step_spec (run_valid h₀) h₁).2.1

/-- **The limit on good packets.**  Counting packets, with a limit on the good ones and `drop_prio_`
set, every `enque` of a run does what it is to do at the limits if and only if none gets to
`drop_prio`. -/
theorem good_limit_iff (cfg : DropTailConfig) (hqib : cfg.qib = false)
    (hlim : 0 ≤ cfg.goodPrioQlim) (hdp : cfg.dropPrio = true) (ops : List QueueOp) :
    (∀ pre hd r, pre ++ [.enque hd] <+: ops → run cfg pre = some r →
      Resolves cfg r.d (r.arriving hd)) ↔
    ∀ pre hd r, pre ++ [.enque hd] <+: ops → run cfg pre = some r →
      Avoids cfg r.d (r.arriving hd) := by
  have hstep : ∀ pre hd r, run cfg pre = some r →
      (Resolves cfg r.d (r.arriving hd) ↔ Avoids cfg r.d (r.arriving hd)) := fun pre hd r hr =>
    resolves_iff hqib hlim hdp (run_valid hr).queue (run_valid hr).arrivals (run_excess hr)
  constructor
  · intro h pre hd r hpre hr
    exact (hstep pre hd r hr).mp (h pre hd r hpre hr)
  · intro h pre hd r hpre hr
    exact (hstep pre hd r hr).mpr (h pre hd r hpre hr)

/-- A limit of one good packet, under `drop_prio_`. -/
def goodLimit : DropTailConfig := { pfabric with goodPrioQlim := 1 }

/-- The first good packet overflows: `enque` throws, and the packet is in the queue. -/
theorem good_limit_throws :
    ∃ d, DropTail.init.enqueOutcome goodLimit (init.arriving ⟨1500, 0, 0, 1, 0, false, false⟩) =
        some (.threw d) ∧
      d.q.pkts.length = 1 ∧ DropTail.init.q.pkts = [] ∧
      ¬ Resolves goodLimit DropTail.init (init.arriving ⟨1500, 0, 0, 1, 0, false, false⟩) := by
  refine ⟨_, rfl, rfl, rfl, fun h => ?_⟩
  have := h.threw _ rfl
  exact absurd this (by decide)

/-- A bad packet does not count against the limit. -/
theorem good_limit_bad_packet :
    Resolves goodLimit DropTail.init (init.arriving ⟨1500, 2 ^ 30, 0, 1, 0, false, false⟩) := by
  have havoids := (good_limit_iff goodLimit rfl (by decide) rfl
    [.enque ⟨1500, 2 ^ 30, 0, 1, 0, false, false⟩]).mpr ?_
  · exact havoids [] _ init (List.prefix_refl _) rfl
  · intro pre hd r hpre hr
    rcases concat_prefix_cons hpre with ⟨rfl, he⟩ | ⟨_, -, hpre'⟩
    · obtain rfl := QueueOp.enque.inj he
      obtain rfl := Option.some.inj hr
      intro hov
      exact absurd hov (by decide)
    · simp at hpre'

end QueueRun

end Afabric
