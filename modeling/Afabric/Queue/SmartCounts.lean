import Afabric.Queue.DropTail
import Afabric.Support.Histogram

/-!
# Queue — the flows that `drop_smart` counts

With `drop_smart_`, `deque` keeps the signatures of the last packets it has handed out in
`sq_queue_`, and in `sq_counts_` how often each occurs there; `drop_smart` reads the counts to
choose a packet to drop.  `sq_queue_` is pushed to and popped from, the counts go up and down with
it, and the invariant over runs is that they are its histogram (`Smart`).
-/

namespace Afabric

namespace DropTail

variable {cfg : DropTailConfig} {d : DropTail} {p : Packet} {x : Departure}

/-- The signature of the flow of a packet. -/
def signature (cfg : DropTailConfig) (p : Packet) : ℕ := cfg.hash p.flow

/-- `sq_queue_` and `sq_counts_` are the same. -/
structure SameCounts (d d' : DropTail) : Prop where
  queue : d'.sqQueue = d.sqQueue
  counts : d'.sqCounts = d.sqCounts

theorem SameCounts.refl (d : DropTail) : SameCounts d d := ⟨rfl, rfl⟩

theorem handleOverflow_same (h : d.handleOverflow cfg p = some x) : SameCounts d x.state := by
  rw [handleOverflow] at h
  split_ifs at h
  · obtain rfl := Option.some.inj h
    exact ⟨rfl, rfl⟩
  · rw [dropPrio] at h
    split_ifs at h
    obtain ⟨q, -, rfl⟩ := Option.map_eq_some_iff.mp h
    exact ⟨rfl, rfl⟩
  · obtain ⟨q, -, rfl⟩ := Option.map_eq_some_iff.mp h
    exact ⟨rfl, rfl⟩
  · obtain rfl := Option.some.inj h
    exact ⟨rfl, rfl⟩

theorem takeIn_same (h : d.takeIn cfg p = some x) : SameCounts d x.state := by
  rw [takeIn] at h
  split_ifs at h
  · exact handleOverflow_same h
  · obtain rfl := Option.some.inj h
    exact ⟨rfl, rfl⟩

theorem markEcn_same (d : DropTail) : SameCounts d d.markEcn := by
  rw [markEcn]
  split
  · split_ifs
    · exact ⟨rfl, rfl⟩
    · exact .refl d
  · exact .refl d

/-- A packet that arrives leaves the counts alone, whatever is dropped for it. -/
theorem enque_same (h : d.enque cfg p = some x) : SameCounts d x.state := by
  obtain ⟨y, hy, rfl⟩ := Option.map_eq_some_iff.mp h
  have hsame := takeIn_same hy
  split_ifs
  · have hmark := markEcn_same y.state
    exact ⟨hmark.queue.trans hsame.queue, hmark.counts.trans hsame.counts⟩
  · exact hsame

/-- `sq_queue_` holds the signatures of the last packets handed out, and `sq_counts_` counts
them. -/
structure Smart (cfg : DropTailConfig) (out : List Packet) (d : DropTail) : Prop where
  queue : d.sqQueue = (out.map (signature cfg)).rtake cfg.sqLimit
  counts : Histogram d.sqCounts d.sqQueue

theorem Smart.same {out : List Packet} {d' : DropTail} (h : Smart cfg out d)
    (hs : SameCounts d d') : Smart cfg out d' where
  queue := hs.queue.trans h.queue
  counts := by
    rw [hs.queue, hs.counts]
    exact h.counts

/-- What `deque_with_drop_smart` does to the counts for a packet it hands out. -/
theorem dequeWithDropSmart_counts (cfg : DropTailConfig) (d : DropTail) :
    ((d.dequeWithDropSmart cfg).result = none ∧ SameCounts d (d.dequeWithDropSmart cfg).state) ∨
    ∃ p temp rest, (d.dequeWithDropSmart cfg).result = some p ∧
      d.sqQueue ++ [signature cfg p] = temp :: rest ∧
      (d.dequeWithDropSmart cfg).state.sqQueue =
        (if cfg.sqLimit < (temp :: rest).length then rest else temp :: rest) ∧
      (d.dequeWithDropSmart cfg).state.sqCounts =
        (if cfg.sqLimit < (temp :: rest).length then
          countDown (countUp d.sqCounts (signature cfg p)) temp
        else countUp d.sqCounts (signature cfg p)) := by
  rw [dequeWithDropSmart]
  dsimp only
  cases hp : d.q.deque.1 with
  | none => exact .inl ⟨rfl, rfl, rfl⟩
  | some p =>
      obtain ⟨temp, rest, ht⟩ := List.exists_cons_of_ne_nil
        (List.append_ne_nil_of_right_ne_nil d.sqQueue (List.cons_ne_nil (signature cfg p) []))
      refine .inr ⟨p, temp, rest, ?_⟩
      have ht' : d.sqQueue ++ [cfg.hash p.flow] = temp :: rest := ht
      simp only [ht']
      by_cases hlim : cfg.sqLimit < (temp :: rest).length
      · simp only [gt_iff_lt, if_pos hlim]
        exact ⟨trivial, ht, trivial, rfl⟩
      · simp only [gt_iff_lt, if_neg hlim]
        exact ⟨trivial, ht, trivial, rfl⟩

theorem Smart.deque {out : List Packet} (h : Smart cfg out d) :
    Smart cfg (out ++ (d.dequeWithDropSmart cfg).result.toList)
      (d.dequeWithDropSmart cfg).state := by
  rcases dequeWithDropSmart_counts cfg d with
    ⟨hr, hs⟩ | ⟨p, temp, rest, hr, ht, hq, hc⟩
  · rw [hr, Option.toList_none, List.append_nil]
    exact h.same hs
  · have hpush := h.counts.push (signature cfg p)
    have hlast := rtake_push cfg.sqLimit (out.map (signature cfg)) (signature cfg p)
    rw [← h.queue] at hlast
    rw [ht] at hpush hlast
    refine ⟨?_, ?_⟩
    · rw [hr, hq, Option.toList_some, List.map_append, List.map_singleton, hlast, List.tail_cons]
    · rw [hq, hc]
      split_ifs
      · exact hpush.pop
      · exact hpush

end DropTail

namespace QueueRun

open DropTail

variable {cfg : DropTailConfig} {r r' : QueueRun}

theorem step_smart (hsmart : cfg.dropSmart = true) (hprio : cfg.dequePrio = false) {op : QueueOp}
    (h : Smart cfg r.out r.d) (hs : step cfg r op = some r') : Smart cfg r'.out r'.d := by
  cases op with
  | enque hd =>
      obtain ⟨x, hx, rfl⟩ := Option.map_eq_some_iff.mp hs
      exact h.same (enque_same hx)
  | deque =>
      obtain ⟨x, hx, rfl⟩ := Option.map_eq_some_iff.mp hs
      rw [DropTail.deque, if_neg (by simp [hprio]), if_pos hsmart, Option.some.injEq] at hx
      rw [← hx]
      exact h.deque

/-- **The counts of `drop_smart`**, where `deque` does not go by priority: after any run `sq_queue_`
holds the signatures of the last `sq_limit_` packets handed out, in order, and `sq_counts_` has for
each signature in it the number of its occurrences, and no other entry. -/
theorem run_smart (hsmart : cfg.dropSmart = true) (hprio : cfg.dequePrio = false)
    {ops : List QueueOp} (hr : run cfg ops = some r) :
    r.d.sqQueue = (r.out.map fun p => cfg.hash p.flow).rtake cfg.sqLimit ∧
      ∀ s, r.d.sqCounts s =
        if s ∈ r.d.sqQueue then some (r.d.sqQueue.count s : ℤ) else none := by
  have hinv : Smart cfg r.out r.d := by
    induction ops using List.reverseRecOn generalizing r with
    | nil =>
        obtain rfl := Option.some.inj hr
        exact ⟨(List.rtake_nil _).symm, .nil⟩
    | append_singleton pre op ih =>
        rw [run, List.foldlM_append] at hr
        obtain ⟨r₀, h₀, h₁⟩ := Option.bind_eq_some_iff.mp hr
        rw [List.foldlM_cons] at h₁
        obtain ⟨r₁, hs, he⟩ := Option.bind_eq_some_iff.mp h₁
        obtain rfl := Option.some.inj he
        exact step_smart hsmart hprio (ih h₀) hs
  exact ⟨hinv.queue, hinv.counts⟩

/-- A queue that remembers two packets. -/
def smart : DropTailConfig where
  dropFront := false
  dropSmart := true
  dropPrio := false
  dequePrio := false
  keepOrder := false
  qib := false
  ecnEnable := false
  dropLowPrio := false
  goodPrioQlim := -1
  meanPktsize := 500
  sqLimit := 2
  thresh := 0
  qlim := 50
  hash := fun f => f.fid.toNat

/-- Packets of the flows `1`, `2`, `1` and `1`: the last two are of flow `1`, and flow `2` has no
entry any more. -/
theorem run_smart_two : ∃ r : QueueRun, r.d.sqQueue = [1, 1] ∧ r.d.sqCounts 1 = some 2 ∧
    r.d.sqCounts 2 = none := by
  have hrun : ∃ r, run smart [.enque ⟨40, 0, 0, 1, 1, false, false⟩,
      .enque ⟨40, 0, 0, 1, 2, false, false⟩, .enque ⟨40, 0, 0, 1, 1, false, false⟩,
      .enque ⟨40, 0, 0, 1, 1, false, false⟩, .deque, .deque, .deque, .deque] = some r ∧
      r.d.sqQueue = [1, 1] := ⟨_, rfl, rfl⟩
  obtain ⟨r, hr, hq⟩ := hrun
  obtain ⟨-, hc⟩ := run_smart rfl rfl hr
  refine ⟨r, hq, ?_, ?_⟩
  · rw [hc, hq]
    decide
  · rw [hc, hq]
    decide

/-- With `deque_prio_` too, `deque` takes its packet by priority, and remembers none. -/
theorem run_smart_prio : ∃ r : QueueRun,
    run { smart with dequePrio := true } [.enque ⟨40, 0, 0, 1, 1, false, false⟩, .deque] = some r ∧
      r.d.sqQueue ≠ (r.out.map fun p => smart.hash p.flow).rtake smart.sqLimit :=
  ⟨_, rfl, by decide⟩

end QueueRun

end Afabric
