import Afabric.Support.Outcome
import Mathlib.Tactic.Linarith
import Mathlib.Tactic.Positivity
import Mathlib.Tactic.Ring

/-!
# Tcp — the congestion estimate of a sender

`EcnhatSenderCETracker` (`tcp/ecn/senders.cc`) estimates the fraction of the bytes that are acked
with an echo of congestion, over windows of about a round trip, and `TcpAgent::slowdown` reduces the
window by half of it.  Arithmetic is exact, over any ordered field.

The two counters of a window and the estimate keep to their ranges whatever the ACKs say
(`ecnhat_run_bounds`): what counts as acked is positive or the size of a packet, and what is marked
is also counted.
-/

namespace Afabric

variable {K : Type*} [Field K] [LinearOrder K] [IsStrictOrderedRing K]

/-- What goes wrong in a tracker. -/
inductive EcnFault where
  | divisionByZero
deriving DecidableEq, Repr

/-- A division, at fault for a divisor of zero. -/
def divide (a b : K) : Except EcnFault K := if b = 0 then .error .divisionByZero else .ok (a / b)

/-- `EcnhatSenderCETracker`, with `ecnhat_beta_` of its processor. -/
structure EcnhatSenderCETracker (K : Type*) where
  recalcSeq : ℤ
  maxseq : ℤ
  numMarked : ℤ
  total : ℤ
  smoothAlpha : Bool
  g : K
  alpha : K
  beta : K
deriving DecidableEq

/-- What `update_ecnhat_alpha` reads of an ACK and of the agent that receives it; `size` is the
agent's packet size. -/
structure EcnAck where
  ackno : ℤ
  highestAck : ℤ
  size : ℕ
  ecnecho : Bool
deriving DecidableEq, Repr

namespace EcnhatSenderCETracker

/-- The constructor, with the values that are bound. -/
def init (smoothAlpha : Bool) (g alpha beta : K) : EcnhatSenderCETracker K :=
  ⟨0, 0, 0, 0, smoothAlpha, g, alpha, beta⟩

variable (t : EcnhatSenderCETracker K)

/-- The next `ecnhat_alpha_` for a sample. -/
def smooth (sample : K) : K := (1 - t.g) * t.alpha + t.g * sample

/-- The bytes an ACK stands for. -/
def ackedBytes (a : EcnAck) : ℤ :=
  if a.ackno - a.highestAck ≤ 0 then a.size else a.ackno - a.highestAck

/-- The counters of the window after an ACK. -/
def note (a : EcnAck) : EcnhatSenderCETracker K :=
  let t := { t with total := t.total + ackedBytes a }
  if a.ecnecho then { t with numMarked := t.numMarked + ackedBytes a, beta := 1 } else t

/-- The fraction of the window that is marked. -/
def tempAlpha : Except EcnFault K :=
  if t.total > 0 then divide (t.numMarked : K) t.total else .ok 0

/-- The end of a window. -/
def endWindow : Except EcnFault (EcnhatSenderCETracker K) := do
  let sample ← t.tempAlpha
  return { t with recalcSeq := t.maxseq, alpha := t.smooth sample, numMarked := 0, total := 0 }

/-- `update_ecnhat_alpha`, which `on_receive` calls. -/
def updateEcnhatAlpha (a : EcnAck) : Except EcnFault (EcnhatSenderCETracker K) :=
  if t.smoothAlpha then
    if a.ackno > t.recalcSeq then (t.note a).endWindow else .ok (t.note a)
  else .ok { t with alpha := t.smooth (if a.ecnecho then 1 else 0) }

def onFoutput (highest : ℤ) : EcnhatSenderCETracker K :=
  if highest > t.maxseq then { t with maxseq := highest } else t

def onTimeout (tSeqno : ℤ) : EcnhatSenderCETracker K :=
  { t with recalcSeq := tSeqno, maxseq := tSeqno }

/-- `get_dctcp_alpha`. -/
def getDctcpAlpha : K := t.alpha

/-- What `slowdown` multiplies the window by, without `lldct_`. -/
def reduction : K := 1 - t.getDctcpAlpha / 2

/-- `cwnd_` after `ecn_slowdown`: the branch `CWND_ECNHAT` of `slowdown`. -/
def cwndEcnhat (windowd : K) : K := if t.reduction * windowd < 1 then 1 else t.reduction * windowd

end EcnhatSenderCETracker

/-- What a tracker is told. -/
inductive EcnEvent where
  | receive (a : EcnAck)
  | foutput (highest : ℤ)
  | timeout (tSeqno : ℤ)
deriving DecidableEq, Repr

namespace EcnhatSenderCETracker

def step (t : EcnhatSenderCETracker K) : EcnEvent → Except EcnFault (EcnhatSenderCETracker K)
  | .receive a => t.updateEcnhatAlpha a
  | .foutput highest => .ok (t.onFoutput highest)
  | .timeout tSeqno => .ok (t.onTimeout tSeqno)

/-- A run from the constructor. -/
def run (smoothAlpha : Bool) (g alpha beta : K) (evs : List EcnEvent) :
    Except EcnFault (EcnhatSenderCETracker K) :=
  evs.foldlM step (init smoothAlpha g alpha beta)

/-! ### The invariant -/

structure Bounded (t : EcnhatSenderCETracker K) : Prop where
  marked : 0 ≤ t.numMarked
  marked_le : t.numMarked ≤ t.total
  g_nonneg : 0 ≤ t.g
  g_le : t.g ≤ 1
  alpha_nonneg : 0 ≤ t.alpha
  alpha_le : t.alpha ≤ 1

variable {t : EcnhatSenderCETracker K}

theorem ackedBytes_nonneg (a : EcnAck) : 0 ≤ ackedBytes a := by
  unfold ackedBytes
  split <;> omega

/-- A weighted mean of two numbers between 0 and 1. -/
theorem Bounded.smooth (ht : Bounded t) {x : K} (h₀ : 0 ≤ x) (h₁ : x ≤ 1) :
    0 ≤ t.smooth x ∧ t.smooth x ≤ 1 := by
  have hg := ht.g_nonneg
  have hg' : 0 ≤ 1 - t.g := sub_nonneg.mpr ht.g_le
  have ha := ht.alpha_nonneg
  constructor
  · unfold EcnhatSenderCETracker.smooth
    positivity
  · calc (1 - t.g) * t.alpha + t.g * x
        ≤ (1 - t.g) * 1 + t.g * 1 := add_le_add (mul_le_mul_of_nonneg_left ht.alpha_le hg')
          (mul_le_mul_of_nonneg_left h₁ hg)
      _ = 1 := by ring

omit [IsStrictOrderedRing K] in
theorem Bounded.note (ht : Bounded t) (a : EcnAck) : Bounded (t.note a) := by
  have hb := ackedBytes_nonneg a
  have h₀ := ht.marked
  have h₁ := ht.marked_le
  unfold EcnhatSenderCETracker.note
  cases a.ecnecho with
  | false => exact { ht with marked_le := by show t.numMarked ≤ t.total + ackedBytes a; omega }
  | true =>
    exact { ht with
      marked := by show 0 ≤ t.numMarked + ackedBytes a; omega
      marked_le := by show t.numMarked + ackedBytes a ≤ t.total + ackedBytes a; omega }

theorem Bounded.tempAlpha (ht : Bounded t) :
    Outcome (fun _ => False) (fun x : K => 0 ≤ x ∧ x ≤ 1) t.tempAlpha := by
  unfold EcnhatSenderCETracker.tempAlpha
  split
  next hpos =>
    have hpos' : (0 : K) < t.total := by exact_mod_cast hpos
    rw [divide, if_neg hpos'.ne']
    have h₀ : (0 : K) ≤ t.numMarked := by exact_mod_cast ht.marked
    have h₁ : (t.numMarked : K) ≤ t.total := by exact_mod_cast ht.marked_le
    exact ⟨div_nonneg h₀ hpos'.le, (div_le_one hpos').mpr h₁⟩
  next => exact ⟨le_rfl, zero_le_one⟩

theorem Bounded.endWindow (ht : Bounded t) : Outcome (fun _ => False) Bounded t.endWindow := by
  refine ht.tempAlpha.bind fun x hx => ?_
  obtain ⟨h₀, h₁⟩ := ht.smooth hx.1 hx.2
  exact { ht with marked := le_rfl, marked_le := le_rfl, alpha_nonneg := h₀, alpha_le := h₁ }

/-- What one event keeps. -/
theorem Bounded.step (ht : Bounded t) (e : EcnEvent) :
    Outcome (fun _ => False) Bounded (t.step e) := by
  cases e with
  | receive a =>
    show Outcome _ _ (t.updateEcnhatAlpha a)
    unfold updateEcnhatAlpha
    split
    · split
      · exact (ht.note a).endWindow
      · exact ht.note a
    · have hx : (0 : K) ≤ (if a.ecnecho then 1 else 0) ∧ (if a.ecnecho then (1 : K) else 0) ≤ 1 := by
        split <;> exact ⟨by norm_num, by norm_num⟩
      obtain ⟨h₀, h₁⟩ := ht.smooth hx.1 hx.2
      exact { ht with alpha_nonneg := h₀, alpha_le := h₁ }
  | foutput highest =>
    show Bounded (t.onFoutput highest)
    unfold onFoutput
    split
    · exact { ht with }
    · exact ht
  | timeout tSeqno => exact { ht with }

theorem Bounded.reduction (ht : Bounded t) : 1 / 2 ≤ t.reduction ∧ t.reduction ≤ 1 := by
  have h₀ := ht.alpha_nonneg
  have h₁ := ht.alpha_le
  unfold EcnhatSenderCETracker.reduction getDctcpAlpha
  constructor <;> linarith

/-- A window of at least one packet is at most halved, and it does not grow. -/
theorem Bounded.cwndEcnhat (ht : Bounded t) {windowd : K} (hw : 1 ≤ windowd) :
    windowd / 2 ≤ t.cwndEcnhat windowd ∧ 1 ≤ t.cwndEcnhat windowd ∧
      t.cwndEcnhat windowd ≤ windowd := by
  obtain ⟨h₀, h₁⟩ := ht.reduction
  have hlo : 1 / 2 * windowd ≤ t.reduction * windowd :=
    mul_le_mul_of_nonneg_right h₀ (by linarith)
  have hhi : t.reduction * windowd ≤ 1 * windowd := mul_le_mul_of_nonneg_right h₁ (by linarith)
  unfold EcnhatSenderCETracker.cwndEcnhat
  split
  next h => exact ⟨by linarith, le_rfl, hw⟩
  next h => exact ⟨by linarith, not_lt.mp h, by linarith⟩

/-- **The bounds of a run.**  From an estimate and a gain between 0 and 1, whatever ACKs, sends and
timeouts come, the tracker is never at fault, it has marked no more than it has counted, and the
estimate stays between 0 and 1. -/
theorem ecnhat_run_bounds (smoothAlpha : Bool) {g alpha : K} (beta : K) (hg : 0 ≤ g) (hg' : g ≤ 1)
    (ha : 0 ≤ alpha) (ha' : alpha ≤ 1) (evs : List EcnEvent) :
    ∃ t, run smoothAlpha g alpha beta evs = .ok t ∧ 0 ≤ t.numMarked ∧ t.numMarked ≤ t.total ∧
      0 ≤ t.getDctcpAlpha ∧ t.getDctcpAlpha ≤ 1 ∧
      1 / 2 ≤ 1 - t.getDctcpAlpha / 2 ∧ 1 - t.getDctcpAlpha / 2 ≤ 1 := by
  have h₀ : Bounded (init smoothAlpha g alpha beta) := ⟨le_rfl, le_rfl, hg, hg', ha, ha'⟩
  have hrun : Outcome (fun _ => False) Bounded (run smoothAlpha g alpha beta evs) :=
    Outcome.foldlM h₀ fun e _ _ h => h.step e
  cases he : run smoothAlpha g alpha beta evs with
  | error e =>
    rw [he] at hrun
    exact hrun.elim
  | ok t =>
    rw [he] at hrun
    have ht : Bounded t := hrun
    exact ⟨t, rfl, ht.marked, ht.marked_le, ht.alpha_nonneg, ht.alpha_le, ht.reduction⟩

/-- Three ACKs with the gain of the experiments, one of them marked and one a duplicate. -/
theorem ecnhat_three_acks : ∃ t, run true (1 / 16 : ℚ) 0 0
    [.foutput 1, .receive ⟨1461, 1, 1460, false⟩, .foutput 4381, .receive ⟨1461, 1461, 1460, true⟩,
      .receive ⟨4381, 1461, 1460, true⟩] = .ok t ∧ 0 ≤ t.numMarked ∧ t.numMarked ≤ t.total ∧
      0 ≤ t.getDctcpAlpha ∧ t.getDctcpAlpha ≤ 1 ∧
      1 / 2 ≤ 1 - t.getDctcpAlpha / 2 ∧ 1 - t.getDctcpAlpha / 2 ≤ 1 :=
  ecnhat_run_bounds true 0 (by norm_num) (by norm_num) (by norm_num) (by norm_num) _

end EcnhatSenderCETracker

end Afabric
