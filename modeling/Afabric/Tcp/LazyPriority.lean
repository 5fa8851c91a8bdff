import Afabric.Queue.DropTail
import Afabric.Support.MachineInt
import Afabric.Tcp.Output

/-!
# Tcp — the lazy priorities in 32 bits

The priority that `sendpacket` writes, with the `int`s of the source, and what the switch reads of
it with `is_bad_prio` (`queue/drop-tail.cc`).  The lazy schemes send a flow whose end is not known
at `2 ^ 30` and above, and one whose end is known at its remaining size.

Nothing keeps the two ranges apart: a remaining size can reach `2 ^ 30`, and `2 ^ 30` and the bytes
sent can leave the `int`; and with PIAS or a few bounded priorities there is no bad one.
`lazy_priority_iff` is the exact condition.  `calcUnbounded_exact` relates
the computation to the unbounded one of `Output.lean`.
-/

namespace Afabric

/-- What `calc_unbounded_no_deadline_priority` reads of the sender; `sqTotal` is `sq_.total()`. -/
structure PrioVars where
  signalOnEmpty : Bool
  startseq : Int32
  highestAck : Int32
  sqTotal : Int32
  maxseq : Int32
  seqBound : Int32
  lastPrio : Int32
deriving DecidableEq

namespace PrioVars

/-- `get_lowest_priority`. -/
def lowestPriority : Int32 := (1 : Int32) <<< 30

/-- The result of `calc_unbounded_no_deadline_priority`, with `seq_bound_` and `last_prio_`. -/
structure Result where
  prio : Int32
  seqBound : Int32
  lastPrio : Int32
deriving DecidableEq

variable (v : PrioVars)

/-- A number, and 0 for a negative one. -/
def clamp (r : Int32) : Int32 := if r < 0 then 0 else r

/-- `maxseq - int(highest_ack_) - sq_.total() + 10`. -/
def sackRemaining (maxseq : Int32) : Int32 := maxseq - v.highestAck - v.sqTotal + 10

/-- The schemes, as `FullTcpAgent.schemePriority` has them. -/
def schemePriority (scheme : PrioScheme) (remaining front batch seq maxseq : Int32) :
    Option Result :=
  let same (p : Int32) : Result := ⟨p, v.seqBound, v.lastPrio⟩
  let max : Int32 := 100 * 1460
  match scheme with
  | .cappedBytesSent => some (same (if seq - v.startseq > max then max else seq - v.startseq))
  | .remainingSize => some (same remaining)
  | .lazyRemainingSize => some (same (if v.signalOnEmpty then remaining else lowestPriority))
  | .lazyRemainingSizeBytesSent =>
      some (same (if v.signalOnEmpty then remaining else lowestPriority + seq - v.startseq))
  | .flowSize => some (same (maxseq - v.startseq))
  | .bytesSent => some (same (seq - v.startseq))
  | .batchedRemainingSize =>
      if front ≥ v.seqBound then some ⟨batch, v.maxseq, batch⟩ else some (same v.lastPrio)
  | .unknown => none

/-- `calc_unbounded_no_deadline_priority` of each class. -/
def calcUnbounded (kind : AgentKind) (scheme : PrioScheme) (seq maxseq : Int32) : Option Result :=
  let r := clamp (v.sackRemaining maxseq)
  match kind with
  | .reno | .tahoe | .newreno =>
      v.schemePriority scheme (maxseq - seq) seq (clamp (maxseq - seq + 10)) seq maxseq
  | .sack | .min => v.schemePriority scheme r v.highestAck r seq maxseq
  | .dd =>
      if scheme ≠ .unknown then some ⟨lowestPriority, v.seqBound, v.lastPrio⟩
      else v.schemePriority scheme r v.highestAck r seq maxseq

/-- The end of the flow as `sendpacket` takes it. -/
def maxSeq (cfg : FullTcpConfig) (curseq : Int32) : Int32 :=
  if cfg.useTrueRemainingSize ∧ cfg.trueFlowSize ≥ 0 then v.startseq + .ofInt cfg.trueFlowSize
  else curseq

/-- The priority that `sendpacket` gives to a data packet; `deadlinePrio` is what
`calc_deadline_priority` returns. -/
def packetPriority (cfg : FullTcpConfig) (deadline : Int32) (deadlinePrio : ℤ)
    (curseq seq : Int32) : Option ℤ :=
  if cfg.enablePias then some (FullTcpAgent.piasPrio cfg (seq - v.startseq).toInt)
  else if deadline ≠ 0 ∧ cfg.useDeadline then some deadlinePrio
  else
    (v.calcUnbounded cfg.kind cfg.prioScheme seq (v.maxSeq cfg curseq)).map fun r =>
      if cfg.prioNum = 0 then r.prio.toInt else FullTcpAgent.intoBoundedPriority cfg r.prio.toInt

end PrioVars

/-- A packet with the priority that `sendpacket` writes. -/
def Packet.stamp (p : Packet) (prio : ℤ) : Packet := { p with prio := prio }

namespace PrioVars

variable {v : PrioVars}

/-! ### The two ranges -/

theorem isBadPrio_stamp (p : Packet) (prio : ℤ) :
    (p.stamp prio).isBadPrio = true ↔ 2 ^ 30 ≤ prio := by
  simp [Packet.stamp, Packet.isBadPrio]

theorem lowestPriority_toInt : lowestPriority.toInt = 2 ^ 30 := by decide

theorem clamp_lt_iff (r : Int32) : (clamp r).toInt < 2 ^ 30 ↔ r.toInt < 2 ^ 30 := by
  rw [clamp, ite_neg_toInt]
  omega

theorem sackRemaining_toInt (v : PrioVars) (maxseq : Int32) : (v.sackRemaining maxseq).toInt =
    (maxseq.toInt - v.highestAck.toInt - v.sqTotal.toInt + 10).bmod (2 ^ 32) := by
  have h10 : (10 : Int32).toInt = 10 := rfl
  rw [sackRemaining, Int32.toInt_add, Int32.toInt_sub, Int32.toInt_sub, h10, Int.bmod_sub_bmod,
    Int.bmod_add_bmod]

/-- The remaining size of a flow as the class has it, without a bound. -/
def remaining (v : PrioVars) (kind : AgentKind) (seq maxseq : Int32) : ℤ :=
  match kind with
  | .reno | .tahoe | .newreno => maxseq.toInt - seq.toInt
  | .sack | .min | .dd => maxseq.toInt - v.highestAck.toInt - v.sqTotal.toInt + 10

/-- The remaining size is in none of the intervals that 32 bits take to `2 ^ 30` and above. -/
def SizeFits (n : ℤ) : Prop :=
  ¬ (2 ^ 30 ≤ n ∧ n < 2 * 2 ^ 30) ∧ ¬ (-3 * 2 ^ 30 ≤ n ∧ n < -2 * 2 ^ 30) ∧
    ¬ (5 * 2 ^ 30 ≤ n ∧ n < 6 * 2 ^ 30)

/-- The bytes sent are in one of the intervals that `2 ^ 30` added to stays at or above it. -/
def SentFits (n : ℤ) : Prop := 0 ≤ n ∧ n < 2 ^ 30 ∨ n < -3 * 2 ^ 30

theorem remaining_lt_iff (seq maxseq : Int32) :
    (maxseq - seq).toInt < 2 ^ 30 ↔ SizeFits (maxseq.toInt - seq.toInt) := by
  have h₁ := maxseq.le_toInt
  have h₂ := maxseq.toInt_lt
  have h₃ := seq.le_toInt
  have h₄ := seq.toInt_lt
  rw [Int32.toInt_sub, SizeFits, Int.bmod_def]
  omega

theorem sackRemaining_lt_iff (v : PrioVars) (maxseq : Int32) :
    (clamp (v.sackRemaining maxseq)).toInt < 2 ^ 30 ↔
      SizeFits (maxseq.toInt - v.highestAck.toInt - v.sqTotal.toInt + 10) := by
  have h₁ := maxseq.le_toInt
  have h₂ := maxseq.toInt_lt
  have h₃ := v.highestAck.le_toInt
  have h₄ := v.highestAck.toInt_lt
  have h₅ := v.sqTotal.le_toInt
  have h₆ := v.sqTotal.toInt_lt
  rw [clamp_lt_iff, sackRemaining_toInt, SizeFits, Int.bmod_def]
  omega

/-- Lazy: the bytes sent are added to `2 ^ 30`. -/
theorem lowest_add_le_iff (seq startseq : Int32) :
    2 ^ 30 ≤ (lowestPriority + seq - startseq).toInt ↔ SentFits (seq.toInt - startseq.toInt) := by
  have h₁ := seq.le_toInt
  have h₂ := seq.toInt_lt
  have h₃ := startseq.le_toInt
  have h₄ := startseq.toInt_lt
  rw [Int32.toInt_sub, Int32.toInt_add, lowestPriority_toInt, Int.bmod_sub_bmod, SentFits,
    Int.bmod_def]
  omega

/-- What keeps a lazy scheme right: the size of a flow whose end is known, the bytes sent of one
whose end is not.  A `DDTcpAgent` has one priority. -/
def Separated (v : PrioVars) (kind : AgentKind) (scheme : PrioScheme) (seq maxseq : Int32) : Prop :=
  if kind = .dd then v.signalOnEmpty = false
  else if v.signalOnEmpty then SizeFits (v.remaining kind seq maxseq)
  else scheme = .lazyRemainingSizeBytesSent → SentFits (seq.toInt - v.startseq.toInt)

/-- A lazy scheme over the remaining size of either class. -/
theorem schemePriority_lazy {scheme : PrioScheme}
    (hs : scheme = .lazyRemainingSize ∨ scheme = .lazyRemainingSizeBytesSent)
    (remaining front batch seq maxseq : Int32) :
    ∃ r, v.schemePriority scheme remaining front batch seq maxseq = some r ∧
      ((2 ^ 30 ≤ r.prio.toInt ↔ v.signalOnEmpty = false) ↔
        if v.signalOnEmpty then remaining.toInt < 2 ^ 30
        else scheme = .lazyRemainingSizeBytesSent →
          SentFits (seq.toInt - v.startseq.toInt)) := by
  rcases hs with rfl | rfl <;> refine ⟨_, rfl, ?_⟩ <;> cases hk : v.signalOnEmpty <;>
    simp only [if_true, Bool.false_eq_true, if_false, iff_true, reduceCtorEq, iff_false,
      forall_const, false_implies, not_le]
  · exact lowestPriority_toInt.ge
  · exact lowest_add_le_iff seq v.startseq

theorem calcUnbounded_lazy (v : PrioVars) (kind : AgentKind) {scheme : PrioScheme}
    (hs : scheme = .lazyRemainingSize ∨ scheme = .lazyRemainingSizeBytesSent)
    (seq maxseq : Int32) :
    ∃ r, v.calcUnbounded kind scheme seq maxseq = some r ∧
      ((2 ^ 30 ≤ r.prio.toInt ↔ v.signalOnEmpty = false) ↔
        v.Separated kind scheme seq maxseq) := by
  cases kind with
  | dd =>
    have hne : scheme ≠ .unknown := by rcases hs with rfl | rfl <;> decide
    refine ⟨⟨lowestPriority, v.seqBound, v.lastPrio⟩, if_pos hne, ?_⟩
    exact iff_of_eq (by simp [Separated, lowestPriority_toInt])
  | reno | tahoe | newreno =>
    obtain ⟨r, he, hr⟩ := schemePriority_lazy (v := v) hs (maxseq - seq) seq
      (clamp (maxseq - seq + 10)) seq maxseq
    exact ⟨r, he, by rw [hr, remaining_lt_iff]; rfl⟩
  | sack | min =>
    obtain ⟨r, he, hr⟩ := schemePriority_lazy (v := v) hs (clamp (v.sackRemaining maxseq))
      v.highestAck (clamp (v.sackRemaining maxseq)) seq maxseq
    exact ⟨r, he, by rw [hr, sackRemaining_lt_iff]; rfl⟩

/-- A priority of PIAS is below 8. -/
theorem piasPrio_lt (cfg : FullTcpConfig) (n : ℤ) : FullTcpAgent.piasPrio cfg n < 2 ^ 30 := by
  simp only [FullTcpAgent.piasPrio]
  split_ifs
  · split
    · next i hi =>
      have hmem := List.mem_range.mp (List.mem_of_find?_eq_some hi)
      omega
    · omega
  · omega

/-- A bounded priority is below `prio_num_`, which is at most 8. -/
theorem intoBoundedPriority_lt (cfg : FullTcpConfig) (prio : ℤ) :
    FullTcpAgent.intoBoundedPriority cfg prio < 2 ^ 30 := by
  simp only [FullTcpAgent.intoBoundedPriority]
  split_ifs
  · omega
  · split
    · next i hi =>
      have hmem := List.mem_range'_1.mp (List.mem_of_find?_eq_some hi)
      omega
    · omega

/-- **The lazy classification.**  Where no deadline is in force, the switch takes a packet of a lazy
scheme to be bad exactly when the sender does not know the end of the flow, if and only if the
numbers are `Separated`, or, with PIAS or bounded priorities, the end is known. -/
theorem lazy_priority_iff (v : PrioVars) (cfg : FullTcpConfig)
    (hs : cfg.prioScheme = .lazyRemainingSize ∨ cfg.prioScheme = .lazyRemainingSizeBytesSent)
    {deadline : Int32} (hdeadline : ¬ (deadline ≠ 0 ∧ cfg.useDeadline)) (deadlinePrio : ℤ)
    (curseq seq : Int32) (p : Packet) :
    ∃ prio, v.packetPriority cfg deadline deadlinePrio curseq seq = some prio ∧
      (((p.stamp prio).isBadPrio = true ↔ v.signalOnEmpty = false) ↔
        if cfg.enablePias ∨ cfg.prioNum ≠ 0 then v.signalOnEmpty = true
        else v.Separated cfg.kind cfg.prioScheme seq (v.maxSeq cfg curseq)) := by
  simp only [isBadPrio_stamp]
  have hnever : ∀ n : ℤ, n < 2 ^ 30 →
      ((2 ^ 30 ≤ n ↔ v.signalOnEmpty = false) ↔ v.signalOnEmpty = true) := by
    intro n hn
    rw [iff_false_left (not_le.mpr hn), Bool.not_eq_false]
  rw [packetPriority]
  by_cases hpias : cfg.enablePias = true
  · rw [if_pos hpias, if_pos (.inl hpias)]
    exact ⟨_, rfl, hnever _ (piasPrio_lt cfg _)⟩
  · obtain ⟨r, he, hr⟩ := v.calcUnbounded_lazy cfg.kind hs seq (v.maxSeq cfg curseq)
    rw [if_neg hpias, if_neg hdeadline, he]
    refine ⟨_, rfl, ?_⟩
    by_cases hnum : cfg.prioNum = 0
    · have hplain : ¬ (cfg.enablePias = true ∨ cfg.prioNum ≠ 0) := by simp [hpias, hnum]
      simp only [if_pos hnum, if_neg hplain]
      exact hr
    · simp only [if_neg hnum, if_pos (show cfg.enablePias ∨ cfg.prioNum ≠ 0 from .inr hnum)]
      exact hnever _ (intoBoundedPriority_lt cfg _)

end PrioVars

/-- A `MinTcpAgent` with a lazy scheme. -/
def lazyConfig (scheme : PrioScheme) : FullTcpConfig :=
  { NsDefault.config .min with prioScheme := scheme, enablePias := false, prioNum := 0 }

/-- A flow of 15 kilobytes whose end is not known, in its second packet. -/
theorem lazy_priority_small : ∃ prio,
    (⟨false, 1, 1, 0, 1461, 0, 0⟩ : PrioVars).packetPriority
      (lazyConfig .lazyRemainingSizeBytesSent) 0 0 15001 1461 = some prio ∧
      ((Packet.stamp ⟨⟨1500, 0, 0, 1, 0, true, false⟩, 0⟩ prio).isBadPrio = true ↔
        (⟨false, 1, 1, 0, 1461, 0, 0⟩ : PrioVars).signalOnEmpty = false) := by
  obtain ⟨r, he, hr⟩ := PrioVars.lazy_priority_iff ⟨false, 1, 1, 0, 1461, 0, 0⟩
    (lazyConfig .lazyRemainingSizeBytesSent) (.inr rfl) (fun h => h.1 rfl) 0 15001 1461
    ⟨⟨1500, 0, 0, 1, 0, true, false⟩, 0⟩
  refine ⟨r, he, hr.mpr ?_⟩
  rw [if_neg (by decide), PrioVars.Separated, if_neg (by decide), if_neg (by decide)]
  exact fun _ => .inl (by decide)

/-- A gigabyte in, a flow of unknown end gets the best priority there is; and a flow known to have
as much left is in the bad class. -/
theorem lazy_priority_wraps :
    (∃ prio, (⟨false, 0, 0, 0, 0, 0, 0⟩ : PrioVars).packetPriority
        (lazyConfig .lazyRemainingSizeBytesSent) 0 0 1073741824 1073741824 = some prio ∧
      ¬ ((Packet.stamp ⟨⟨1500, 0, 0, 1, 0, true, false⟩, 0⟩ prio).isBadPrio = true ↔
        (⟨false, 0, 0, 0, 0, 0, 0⟩ : PrioVars).signalOnEmpty = false)) ∧
    ∃ prio, (⟨true, 0, 0, 0, 0, 0, 0⟩ : PrioVars).packetPriority (lazyConfig .lazyRemainingSize)
        0 0 1073741824 0 = some prio ∧
      ¬ ((Packet.stamp ⟨⟨1500, 0, 0, 1, 0, true, false⟩, 0⟩ prio).isBadPrio = true ↔
        (⟨true, 0, 0, 0, 0, 0, 0⟩ : PrioVars).signalOnEmpty = false) :=
  ⟨⟨_, rfl, by decide⟩, ⟨_, rfl, by decide⟩⟩

/-! ### The unbounded computation -/

namespace PrioVars

variable {v : PrioVars}

/-- The priority without its bounds. -/
def Result.widen (r : Result) : FullTcpAgent.Priority :=
  ⟨r.prio.toInt, r.seqBound.toInt, r.lastPrio.toInt⟩

/-- The numbers of an agent, and that none is beyond `2 ^ 28` from zero. -/
structure Represents {κ : Type} (v : PrioVars) (s : FullTcpAgent κ) : Prop where
  signal : v.signalOnEmpty = s.app.signalOnEmpty
  startseq : v.startseq.toInt = s.ctl.startseq
  highestAck : v.highestAck.toInt = s.snd.highestAck
  sqTotal : v.sqTotal.toInt = SegList.total s.sack.sq
  maxseq : v.maxseq.toInt = s.snd.maxseq
  seqBound : v.seqBound.toInt = s.ctl.seqBound
  lastPrio : v.lastPrio.toInt = s.ctl.lastPrio
  startBound : |s.ctl.startseq| ≤ 2 ^ 28
  ackBound : |s.snd.highestAck| ≤ 2 ^ 28
  totalBound : |SegList.total s.sack.sq| ≤ 2 ^ 28

theorem toInt_sub_exact {a b : Int32} (ha : |a.toInt| ≤ 2 ^ 28) (hb : |b.toInt| ≤ 2 ^ 28) :
    (a - b).toInt = a.toInt - b.toInt := by
  have ha' := abs_le.mp ha
  have hb' := abs_le.mp hb
  rw [Int32.toInt_sub, Int.bmod_eq_of_le (by omega) (by omega)]

theorem clamp_toInt (r : Int32) : (clamp r).toInt = if r.toInt < 0 then 0 else r.toInt := by
  rw [clamp, ite_neg_toInt]
  split <;> omega

variable {κ : Type} {s : FullTcpAgent κ} {cfg : FullTcpConfig}

theorem sackRemaining_exact (hv : v.Represents s) {maxseq : Int32} (hm : |maxseq.toInt| ≤ 2 ^ 28) :
    (clamp (v.sackRemaining maxseq)).toInt = s.sackRemaining maxseq.toInt := by
  have hm' := abs_le.mp hm
  have ha := abs_le.mp hv.ackBound
  have ht := abs_le.mp hv.totalBound
  rw [clamp_toInt, sackRemaining_toInt, hv.highestAck, hv.sqTotal,
    Int.bmod_eq_of_le (by omega) (by omega)]
  rfl

/-- The schemes agree on sizes and sequence numbers that agree. -/
theorem schemePriority_exact (hv : v.Represents s) {seq maxseq remaining front batch : Int32}
    {remaining' front' batch' : Int} (hseq : |seq.toInt| ≤ 2 ^ 28) (hmax : |maxseq.toInt| ≤ 2 ^ 28)
    (hr : remaining.toInt = remaining') (hf : front.toInt = front') (hb : batch.toInt = batch') :
    (v.schemePriority cfg.prioScheme remaining front batch seq maxseq).map Result.widen =
      s.schemePriority cfg remaining' front' batch' seq.toInt maxseq.toInt := by
  have hstart : |v.startseq.toInt| ≤ 2 ^ 28 := hv.startseq ▸ hv.startBound
  have hss : (seq - v.startseq).toInt = seq.toInt - s.ctl.startseq := by
    rw [toInt_sub_exact hseq hstart, hv.startseq]
  have hms : (maxseq - v.startseq).toInt = maxseq.toInt - s.ctl.startseq := by
    rw [toInt_sub_exact hmax hstart, hv.startseq]
  have hlow : (lowestPriority + seq - v.startseq).toInt =
      FullTcpAgent.lowestPriority + seq.toInt - s.ctl.startseq := by
    have h₁ := abs_le.mp hseq
    have h₂ := abs_le.mp hstart
    rw [Int32.toInt_sub, Int32.toInt_add, lowestPriority_toInt, Int.bmod_sub_bmod,
      Int.bmod_eq_of_le (by omega) (by omega), hv.startseq]
    rfl
  have hcap : (100 * 1460 : Int32).toInt = 100 * 1460 := by decide
  subst hr hf hb
  unfold schemePriority FullTcpAgent.schemePriority
  -- scheme by scheme: the sums stay within the 32 bits
  cases cfg.prioScheme with
  | cappedBytesSent =>
    simp only [Option.map_some, Result.widen, gt_iff_lt, Int32.lt_iff_toInt_lt, hss, hcap,
      hv.seqBound, hv.lastPrio]
    split
    · rw [hcap]
    · rw [hss]
  | remainingSize => simp [Result.widen, hv.seqBound, hv.lastPrio]
  | lazyRemainingSize =>
    simp only [Option.map_some, Result.widen, hv.signal, hv.seqBound, hv.lastPrio]
    cases s.app.signalOnEmpty
    · rfl
    · rfl
  | lazyRemainingSizeBytesSent =>
    simp only [Option.map_some, Result.widen, hv.signal, hv.seqBound, hv.lastPrio]
    cases s.app.signalOnEmpty
    · simp [hlow]
    · rfl
  | flowSize => simp [Result.widen, hms, hv.seqBound, hv.lastPrio]
  | bytesSent => simp [Result.widen, hss, hv.seqBound, hv.lastPrio]
  | batchedRemainingSize =>
    simp only [ge_iff_le, Int32.le_iff_toInt_le, hv.seqBound]
    split <;> simp [Result.widen, hv.maxseq, hv.seqBound, hv.lastPrio]
  | unknown => rfl

/-- **Refinement.**  While no number is beyond `2 ^ 28` from zero, the computation in 32 bits is the
unbounded one. -/
theorem calcUnbounded_exact (hv : v.Represents s) {seq maxseq : Int32}
    (hseq : |seq.toInt| ≤ 2 ^ 28) (hmax : |maxseq.toInt| ≤ 2 ^ 28) :
    (v.calcUnbounded cfg.kind cfg.prioScheme seq maxseq).map Result.widen =
      s.unboundedPriority cfg seq.toInt maxseq.toInt := by
  have hr := sackRemaining_exact hv hmax
  have hsub := toInt_sub_exact hmax hseq
  have hbatch : (clamp (maxseq - seq + 10)).toInt =
      if maxseq.toInt - seq.toInt + 10 < 0 then 0 else maxseq.toInt - seq.toInt + 10 := by
    have h₁ := abs_le.mp hseq
    have h₂ := abs_le.mp hmax
    have h10 : (10 : Int32).toInt = 10 := rfl
    rw [clamp_toInt, Int32.toInt_add, hsub, h10, Int.bmod_eq_of_le (by omega) (by omega)]
  unfold calcUnbounded FullTcpAgent.unboundedPriority
  cases cfg.kind with
  | reno | tahoe | newreno => exact schemePriority_exact hv hseq hmax hsub rfl hbatch
  | sack | min => exact schemePriority_exact hv hseq hmax hr hv.highestAck hr
  | dd =>
    by_cases hs : cfg.prioScheme = .unknown
    · simp only [if_neg (not_not.mpr hs)]
      exact schemePriority_exact hv hseq hmax hr hv.highestAck hr
    · simp only [hs, ne_eq, not_false_eq_true, if_true, Option.map_some, Result.widen,
        hv.seqBound, hv.lastPrio, lowestPriority_toInt]
      rfl

/-- A `MinTcpAgent` as it is constructed. -/
theorem calcUnbounded_exact_agent : let cfg := NsDefault.config .min
    ((⟨false, 0, -1, 0, -1, 0, 0⟩ : PrioVars).calcUnbounded cfg.kind cfg.prioScheme 0 10000).map
        Result.widen =
      NsDefault.agent.unboundedPriority cfg (Int32.toInt 0) (Int32.toInt 10000) := by
  have hv : Represents ⟨false, 0, -1, 0, -1, 0, 0⟩ NsDefault.agent :=
    ⟨rfl, rfl, rfl, rfl, rfl, rfl, rfl, by decide, by decide, by decide⟩
  have hseq : |(0 : Int32).toInt| ≤ 2 ^ 28 := by decide
  exact calcUnbounded_exact hv hseq (by decide : |(10000 : Int32).toInt| ≤ 2 ^ 28)

end PrioVars

end Afabric
