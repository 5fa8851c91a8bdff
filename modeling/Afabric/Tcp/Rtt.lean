import Afabric.Support.MachineInt
import Mathlib.Tactic.Positivity

/-!
# Tcp — the retransmission timer

`rtt_update`, `rtt_backoff` and `rtt_timeout` (`tcp/tcp.cc`), with `MinTcpAgent::rtt_timeout`
(`tcp/tcp-full.cc`).  The estimator is kept in `int`s scaled by 8 and by 4, and the difference of a
sample from it passes through a `short`.  At the tick of the experiments, a microsecond, a sample of
33 milliseconds does not fit (`rttUpdate_exact_iff`).

`rtt_backoff` stops the doubling of `t_backoff_` when `rtt_timeout()` has reached `maxrto_`.  A
`MinTcpAgent` returns a constant there, and its multiplier is shifted out of the `int`
(`rtt_run_sane_iff`).
-/

namespace Afabric

/-! ### The estimator -/

/-- `int(x)`.  Out of range, where the conversion is undefined, it wraps. -/
def toInt32 (x : ℚ) : Int32 := Int32.ofInt (truncate x)

/-- What an agent is configured with. -/
structure RttConfig where
  tcpTick : ℚ
  minrto : ℚ
  maxrto : ℚ
  rfc2988 : Bool
  tsOption : Bool
  srttInit : Int32
  rttvarInit : Int32
  rtxcurInit : ℚ
  bootTime : ℚ
  /-- The agent is a `MinTcpAgent`, which overrides `rtt_timeout`. -/
  minTcp : Bool
deriving DecidableEq, Repr

/-- The variables of the retransmission timer, with `use_rtt_` of the ECN processor. -/
structure RttVars where
  tRtt : Int32
  tSrtt : Int32
  tRttvar : Int32
  tRtxcur : ℚ
  tBackoff : Int32
  useRtt : Bool
deriving DecidableEq, Repr

namespace RttConfig

variable (cfg : RttConfig)

/-- `rtt_init`, before any packet has asked for `use_rtt_`. -/
def rttInit : RttVars where
  tRtt := 0
  tSrtt := toInt32 (cfg.srttInit.toInt / cfg.tcpTick) <<< 3
  tRttvar := toInt32 (cfg.rttvarInit.toInt / cfg.tcpTick) <<< 2
  tRtxcur := cfg.rtxcurInit
  tBackoff := 1
  useRtt := false

/-- The sample `tao` in ticks, as `rtt_update` counts them at the time `now`. -/
def ticks (now tao : ℚ) : ℤ :=
  if cfg.tsOption then truncate (tao / cfg.tcpTick + 1 / 2)
  else truncate ((tao + fmod (now - tao + cfg.bootTime) cfg.tcpTick) / cfg.tcpTick)

end RttConfig

namespace RttVars

/-- `t_rtxcur_` from the estimates; `rttvar_exp_` is 2. -/
def setRtxcur (cfg : RttConfig) (s : RttVars) : RttVars :=
  { s with tRtxcur := (((s.tRttvar <<< 3) + s.tSrtt) >>> 3).toInt * cfg.tcpTick }

@[simp] theorem setRtxcur_tSrtt (cfg : RttConfig) (s : RttVars) :
    (s.setRtxcur cfg).tSrtt = s.tSrtt := rfl

@[simp] theorem setRtxcur_tRttvar (cfg : RttConfig) (s : RttVars) :
    (s.setRtxcur cfg).tRttvar = s.tRttvar := rfl

@[simp] theorem setRtxcur_tBackoff (cfg : RttConfig) (s : RttVars) :
    (s.setRtxcur cfg).tBackoff = s.tBackoff := rfl

@[simp] theorem setRtxcur_useRtt (cfg : RttConfig) (s : RttVars) :
    (s.setRtxcur cfg).useRtt = s.useRtt := rfl

/-- What `rtt_update` does with a sample once there is an estimate. -/
def smooth (s : RttVars) : RttVars :=
  let delta : Int16 := (s.tRtt - s.tSrtt >>> 3).toInt16
  let srtt := s.tSrtt + delta.toInt32
  let absDelta := if delta < 0 then -delta else delta
  let dev : Int16 := (absDelta.toInt32 - s.tRttvar >>> 2).toInt16
  let rttvar := s.tRttvar + dev.toInt32
  { s with
    tSrtt := if srtt ≤ 0 then 1 else srtt
    tRttvar := if rttvar ≤ 0 then 1 else rttvar }

/-- `rtt_update`. -/
def rttUpdate (cfg : RttConfig) (now tao : ℚ) (s : RttVars) : RttVars :=
  let rtt := Int32.ofInt (cfg.ticks now tao)
  let s := { s with tRtt := if rtt < 1 then 1 else rtt }
  if s.tSrtt ≠ 0 then s.smooth.setRtxcur cfg
  else { s with tSrtt := s.tRtt <<< 3, tRttvar := s.tRtt <<< 1 }.setRtxcur cfg

variable {cfg : RttConfig} {s : RttVars}

/-- An estimate that is raised by a `short` and kept at least 1 is exact when the difference fits
the `short` and the sum the `int`.  A sum of 1 is one that the clamp cannot be told from. -/
theorem narrowed_iff {a d : ℤ} (ha : 0 < a) (ha' : a < 2 ^ 31) (hd : d ≠ 0 → 1 < a + d)
    (hlo : -2 ^ 31 ≤ d) (hhi : d < 2 ^ 31) :
    (max 1 ((a + d.bmod (2 ^ 16)).bmod (2 ^ 32)) = max 1 (a + d)) ↔
      -2 ^ 15 ≤ d ∧ d < 2 ^ 15 ∧ a + d < 2 ^ 31 := by
  rw [Int.bmod_def, Int.bmod_def]
  constructor
  · intro h
    omega
  · rintro ⟨h₁, h₂, h₃⟩
    omega

/-- The difference of the sample from the estimate, before it is narrowed. -/
theorem delta_toInt (s : RttVars) : (s.tRtt - s.tSrtt >>> 3).toInt16.toInt =
    (s.tRtt.toInt - s.tSrtt.toInt / 8).bmod (2 ^ 16) := by
  rw [Int32.toInt_toInt16, Int32.toInt_sub, int32_shiftRight _ 3 (show _ = 3 from rfl)]
  exact Int.bmod_bmod_of_dvd (by decide)

theorem smooth_tSrtt (s : RttVars) : s.smooth.tSrtt.toInt = max 1
    ((s.tSrtt.toInt + (s.tRtt.toInt - s.tSrtt.toInt / 8).bmod (2 ^ 16)).bmod (2 ^ 32)) := by
  simp only [smooth]
  rw [ite_le_zero_toInt, Int32.toInt_add, Int16.toInt_toInt32, delta_toInt]

theorem smooth_tRttvar (h₀ : -2 ^ 15 ≤ s.tRtt.toInt - s.tSrtt.toInt / 8)
    (h₁ : s.tRtt.toInt - s.tSrtt.toInt / 8 < 2 ^ 15) : s.smooth.tRttvar.toInt = max 1
      ((s.tRttvar.toInt + (|s.tRtt.toInt - s.tSrtt.toInt / 8| - s.tRttvar.toInt / 4).bmod
        (2 ^ 16)).bmod (2 ^ 32)) := by
  have hd : (s.tRtt - s.tSrtt >>> 3).toInt16.toInt = s.tRtt.toInt - s.tSrtt.toInt / 8 :=
    (delta_toInt s).trans (Int.bmod_eq_of_le h₀ h₁)
  simp only [smooth]
  rw [ite_le_zero_toInt, Int32.toInt_add, Int16.toInt_toInt32, Int32.toInt_toInt16,
    Int32.toInt_sub, Int16.toInt_toInt32, int32_shiftRight _ 2 (show _ = 2 from rfl),
    ite_neg_toInt16, hd, Int.bmod_bmod_of_dvd (by decide), Int.bmod_sub_bmod]
  rfl

/-- The sample and the estimates that `rtt_update` leaves, for a sample that fits the `int`. -/
theorem rttUpdate_eq {now tao : ℚ} (hs : 0 < s.tSrtt.toInt) (h₀ : -2 ^ 31 ≤ cfg.ticks now tao)
    (h₁ : cfg.ticks now tao < 2 ^ 31) : ∃ r : RttVars, r.tRtt.toInt = max 1 (cfg.ticks now tao) ∧
      r.tSrtt = s.tSrtt ∧ r.tRttvar = s.tRttvar ∧
      (s.rttUpdate cfg now tao).tSrtt = r.smooth.tSrtt ∧
      (s.rttUpdate cfg now tao).tRttvar = r.smooth.tRttvar := by
  have h0 : s.tSrtt ≠ 0 := fun h => by simp [h] at hs
  let rtt := Int32.ofInt (cfg.ticks now tao)
  refine ⟨{ s with tRtt := if rtt < 1 then 1 else rtt }, ?_, rfl, rfl, ?_⟩
  · rw [ite_lt_one_toInt, Int32.toInt_ofInt_of_le h₀ h₁]
  · simp only [rttUpdate, ne_eq, h0, not_false_eq_true, if_true, setRtxcur_tSrtt,
      setRtxcur_tRttvar, rtt, and_self]

/-- **The estimator is exact where nothing is narrowed.**  `rtt_update` computes Jacobson's update
with both estimates kept at least 1, if and only if both differences fit the `short` and both sums
the `int`. -/
theorem rttUpdate_exact_iff (cfg : RttConfig) (s : RttVars) (now tao : ℚ) (hs : 0 < s.tSrtt.toInt)
    (hv : 0 < s.tRttvar.toInt) (h₀ : -2 ^ 31 ≤ cfg.ticks now tao)
    (h₁ : cfg.ticks now tao < 2 ^ 31) :
    let delta := max 1 (cfg.ticks now tao) - s.tSrtt.toInt / 2 ^ 3
    let dev := |delta| - s.tRttvar.toInt / 2 ^ 2
    ((s.rttUpdate cfg now tao).tSrtt.toInt = max 1 (s.tSrtt.toInt + delta) ∧
      (s.rttUpdate cfg now tao).tRttvar.toInt = max 1 (s.tRttvar.toInt + dev)) ↔
    (-2 ^ 15 ≤ delta ∧ delta < 2 ^ 15 ∧ s.tSrtt.toInt + delta < 2 ^ 31) ∧
      -2 ^ 15 ≤ dev ∧ dev < 2 ^ 15 ∧ s.tRttvar.toInt + dev < 2 ^ 31 := by
  obtain ⟨r, hr, hrs, hrv, es, ev⟩ := rttUpdate_eq hs h₀ h₁
  intro delta dev
  have hdelta : r.tRtt.toInt - r.tSrtt.toInt / 8 = delta := by rw [hr, hrs]; rfl
  have bs := s.tSrtt.toInt_lt
  have bv := s.tRttvar.toInt_lt
  have hsrtt : (s.rttUpdate cfg now tao).tSrtt.toInt = max 1 (s.tSrtt.toInt + delta) ↔
      -2 ^ 15 ≤ delta ∧ delta < 2 ^ 15 ∧ s.tSrtt.toInt + delta < 2 ^ 31 := by
    rw [es, smooth_tSrtt, hdelta, hrs]
    exact narrowed_iff hs bs (fun _ => by omega) (by omega) (by omega)
  rw [hsrtt]
  refine and_congr_right fun hfit => ?_
  have habs := abs_nonneg delta
  have hcases := abs_choice delta
  rw [ev, smooth_tRttvar (by omega) (by omega), hdelta, hrv]
  exact narrowed_iff hv bv (fun _ => by omega) (by omega) (by omega)

end RttVars

/-- The timer settings of the experiments: a tick of a microsecond, timestamps. -/
def spineRtt (minrto : ℚ) (minTcp : Bool) : RttConfig :=
  ⟨1 / 1000000, minrto, 64, true, true, 0, 12, minrto, 0, minTcp⟩

/-- A sample of 20 microseconds, on an estimate of 10. -/
theorem rttUpdate_exact_sample :
    let s : RttVars := ⟨10, 80, 20, 0, 1, false⟩
    (s.rttUpdate (spineRtt (1 / 1000) false) 1 (1 / 50000)).tSrtt.toInt = 90 ∧
      (s.rttUpdate (spineRtt (1 / 1000) false) 1 (1 / 50000)).tRttvar.toInt = 25 := by
  have h := (RttVars.rttUpdate_exact_iff (spineRtt (1 / 1000) false) ⟨10, 80, 20, 0, 1, false⟩ 1
    (1 / 50000) (by decide) (by decide) (by decide +kernel) (by decide +kernel)).mpr
    (by decide +kernel)
  exact ⟨h.1.trans (by decide +kernel), h.2.trans (by decide +kernel)⟩

/-- A sample of 40 milliseconds on the same estimate: the `short` turns the difference of 39990
ticks negative. -/
theorem rttUpdate_narrowed : ∃ (cfg : RttConfig) (s : RttVars) (now tao : ℚ),
    0 < s.tSrtt.toInt ∧ 0 < s.tRttvar.toInt ∧ cfg.ticks now tao = 40000 ∧
      (s.rttUpdate cfg now tao).tSrtt.toInt = 1 ∧
      (s.rttUpdate cfg now tao).tSrtt.toInt ≠
        max 1 (s.tSrtt.toInt + (cfg.ticks now tao - s.tSrtt.toInt / 2 ^ 3)) :=
  ⟨spineRtt (1 / 1000) false, ⟨10, 80, 20, 0, 1, false⟩, 1, 1 / 25, by decide, by decide,
    by decide +kernel, by decide +kernel, by decide +kernel⟩

/-! ### The multiplier -/

/-- A configuration with times that are times. -/
structure RttConfig.WellTimed (cfg : RttConfig) : Prop where
  tick : 0 < cfg.tcpTick
  minrto : 0 ≤ cfg.minrto
  maxrto : 0 ≤ cfg.maxrto
  minTcp : cfg.minTcp = true → 0 < cfg.minrto

namespace RttVars

/-- The timeout of `rtt_timeout` up to its cap, before the granularity of the clock. -/
def cappedTimeout (cfg : RttConfig) (s : RttVars) : ℚ :=
  let timeout :=
    if cfg.rfc2988 then
      if s.tRtxcur < cfg.minrto ∧ s.useRtt = false then cfg.minrto * s.tBackoff.toInt
      else s.tRtxcur * s.tBackoff.toInt
    else if s.tRtxcur * s.tBackoff.toInt < cfg.minrto then cfg.minrto
    else s.tRtxcur * s.tBackoff.toInt
  if timeout > cfg.maxrto then cfg.maxrto else timeout

/-- `rtt_timeout`, with the state it leaves.  On a negative timeout the simulation exits. -/
def rttTimeout (cfg : RttConfig) (s : RttVars) : Option (ℚ × RttVars) :=
  if cfg.minTcp then some (cfg.minrto, s)
  else if s.cappedTimeout cfg < 2 * cfg.tcpTick then
    if s.cappedTimeout cfg < 0 then none
    else if s.useRtt ∧ s.cappedTimeout cfg < cfg.tcpTick then
      some (cfg.tcpTick, { s with useRtt := false })
    else some (2 * cfg.tcpTick, { s with useRtt := false })
  else some (s.cappedTimeout cfg, { s with useRtt := false })

/-- The condition of `rtt_backoff`, which may call `rtt_timeout`. -/
def mayDouble (cfg : RttConfig) (s : RttVars) : Option (Bool × RttVars) :=
  if s.tBackoff < 64 then some (true, s)
  else if cfg.rfc2988 then
    (s.rttTimeout cfg).map fun r => (decide (r.1 < cfg.maxrto), r.2)
  else some (false, s)

/-- `rtt_backoff`. -/
def rttBackoff (cfg : RttConfig) (s : RttVars) : Option RttVars := do
  let (doubles, s) ← s.mayDouble cfg
  let s := if doubles then { s with tBackoff := s.tBackoff <<< 1 } else s
  -- backed off this far, `srtt` is clobbered and kept in the deviation
  if s.tBackoff > 8 then return { s with tRttvar := s.tRttvar + s.tSrtt >>> 3, tSrtt := 0 }
  return s

end RttVars

/-- What happens to the timer: it goes off, with a back-off unless nothing is outstanding, or an ACK
for new data comes, with a sample (the time and the age of the segment) if it has one, and resets
the multiplier unless it echoes congestion. -/
inductive RttEvent where
  | timeout (backoff : Bool)
  | newAck (sample : Option (ℚ × ℚ)) (reset : Bool)

namespace RttVars

/-- One event, with the timeout the timer is then set to. -/
def rttStep (cfg : RttConfig) (s : RttVars) : RttEvent → Option (ℚ × RttVars)
  | .timeout backoff => do
      let s ← if backoff then s.rttBackoff cfg else some s
      s.rttTimeout cfg
  | .newAck sample reset =>
      let s := match sample with
        | some (now, tao) => s.rttUpdate cfg now tao
        | none => s
      let s := if reset then { s with tBackoff := 1 } else s
      s.rttTimeout cfg

/-- `t_backoff_` is a positive power of two. -/
def BackoffSane (s : RttVars) : Prop := ∃ k : ℕ, s.tBackoff.toInt = 2 ^ k

/-- `t_backoff_` is a positive power of two in every state of a run, and every timeout it sets is
positive. -/
def RunSane (cfg : RttConfig) : RttVars → List RttEvent → Prop
  | s, [] => s.BackoffSane
  | s, e :: es => s.BackoffSane ∧
      ∃ rto s', s.rttStep cfg e = some (rto, s') ∧ 0 < rto ∧ RunSane cfg s' es

/-- The state after a run, unless the simulation exits. -/
def rttRun (cfg : RttConfig) : RttVars → List RttEvent → Option RttVars
  | s, [] => some s
  | s, e :: es => (s.rttStep cfg e).bind fun r => rttRun cfg r.2 es

/-- The timeout has reached `maxrto_` at the multiplier `2 ^ 30`. -/
def AtCap (cfg : RttConfig) (s : RttVars) : Prop :=
  if cfg.minTcp then cfg.maxrto ≤ cfg.minrto
  else cfg.maxrto ≤ 2 * cfg.tcpTick ∨ cfg.maxrto ≤ max cfg.minrto s.tRtxcur * 2 ^ 30

/-- A back-off at the multiplier `2 ^ 30` finds the timeout at its cap. -/
def Capped (cfg : RttConfig) (s : RttVars) : RttEvent → Prop
  | .timeout true => s.tBackoff.toInt = 2 ^ 30 → cfg.rfc2988 = true → s.AtCap cfg
  | _ => True

/-- Every step of a run is `Capped`. -/
def RunCapped (cfg : RttConfig) : RttVars → List RttEvent → Prop
  | _, [] => True
  | s, e :: es => s.Capped cfg e ∧ ∀ rto s', s.rttStep cfg e = some (rto, s') → RunCapped cfg s' es

variable {cfg : RttConfig} {s : RttVars}

/-- The invariant of the runs that stay sane. -/
structure TimerInv (s : RttVars) : Prop where
  pow : ∃ k ≤ 30, s.tBackoff.toInt = 2 ^ k
  noRtt : s.useRtt = false

theorem TimerInv.nonneg (hi : TimerInv s) : 0 ≤ s.tBackoff.toInt := by
  obtain ⟨k, -, hk⟩ := hi.pow
  rw [hk]
  positivity

theorem TimerInv.sane (hi : TimerInv s) : s.BackoffSane :=
  let ⟨k, _, hk⟩ := hi.pow
  ⟨k, hk⟩

theorem keep_useRtt (hu : s.useRtt = false) : { s with useRtt := false } = s := by
  cases s
  simp_all

theorem cappedTimeout_nonneg (hc : cfg.WellTimed) (hb : 0 ≤ s.tBackoff.toInt)
    (hu : s.useRtt = false) : 0 ≤ s.cappedTimeout cfg := by
  have hb' : (0 : ℚ) ≤ s.tBackoff.toInt := by exact_mod_cast hb
  simp only [cappedTimeout, hu, and_true]
  split_ifs with h₁ h₂ h₃ h₄ h₅
  · exact hc.maxrto
  · exact mul_nonneg hc.minrto hb'
  · exact hc.maxrto
  · exact mul_nonneg (hc.minrto.trans (not_lt.mp h₂)) hb'
  · exact hc.maxrto
  · exact hc.minrto
  · exact hc.maxrto
  · exact hc.minrto.trans (not_lt.mp ‹_›)

/-- With the correction of the RFC. -/
theorem cappedTimeout_rfc2988 (hf : cfg.rfc2988 = true) (hu : s.useRtt = false) :
    s.cappedTimeout cfg = min cfg.maxrto (max cfg.minrto s.tRtxcur * s.tBackoff.toInt) := by
  have hmax : (if s.tRtxcur < cfg.minrto then cfg.minrto * (s.tBackoff.toInt : ℚ)
      else s.tRtxcur * s.tBackoff.toInt) = max cfg.minrto s.tRtxcur * s.tBackoff.toInt := by
    split
    next h => rw [max_eq_left h.le]
    next h => rw [max_eq_right (not_lt.mp h)]
  simp only [cappedTimeout, hf, hu, and_true, if_true, hmax]
  split
  next h => rw [min_eq_left h.le]
  next h => rw [min_eq_right (not_lt.mp h)]

/-- Under a multiplier that is not negative the timeout is positive, and asking for it changes
nothing. -/
theorem rttTimeout_pos (hc : cfg.WellTimed) (hb : 0 ≤ s.tBackoff.toInt) (hu : s.useRtt = false) :
    ∃ rto, s.rttTimeout cfg = some (rto, s) ∧ 0 < rto := by
  have htick := hc.tick
  have hnn := cappedTimeout_nonneg hc hb hu
  cases hm : cfg.minTcp with
  | true => exact ⟨cfg.minrto, by rw [rttTimeout, if_pos hm], hc.minTcp hm⟩
  | false =>
    simp only [rttTimeout, hm, hu, keep_useRtt hu, Bool.false_eq_true, if_false, false_and]
    split_ifs with h₁ h₂
    · exact absurd hnn (not_le.mpr h₂)
    · exact ⟨_, rfl, by linarith⟩
    · exact ⟨_, rfl, by linarith⟩

theorem rttTimeout_tBackoff {rto : ℚ} {s' : RttVars} (h : s.rttTimeout cfg = some (rto, s')) :
    s'.tBackoff = s.tBackoff := by
  unfold rttTimeout at h
  split_ifs at h <;> cases h <;> rfl

/-- With the correction of the RFC the timeout is below its cap unless the cap is within two ticks
or within reach of the multiplier. -/
theorem rttTimeout_lt_maxrto (hm : cfg.minTcp = false) (hf : cfg.rfc2988 = true)
    (hu : s.useRtt = false) {rto : ℚ} {s' : RttVars} (h : s.rttTimeout cfg = some (rto, s')) :
    rto < cfg.maxrto ↔ ¬ (cfg.maxrto ≤ 2 * cfg.tcpTick ∨
      cfg.maxrto ≤ max cfg.minrto s.tRtxcur * s.tBackoff.toInt) := by
  have hle : s.cappedTimeout cfg ≤ cfg.maxrto := by
    rw [cappedTimeout_rfc2988 hf hu]
    exact min_le_left _ _
  have hlt : s.cappedTimeout cfg < cfg.maxrto ↔
      ¬ cfg.maxrto ≤ max cfg.minrto s.tRtxcur * s.tBackoff.toInt := by
    rw [cappedTimeout_rfc2988 hf hu, min_lt_iff, not_le]
    exact or_iff_right (lt_irrefl _)
  rw [not_or, ← hlt, not_le]
  simp only [rttTimeout, hm, hu, Bool.false_eq_true, if_false, false_and] at h
  split_ifs at h with h₁ h₂ <;> cases h
  · exact ⟨fun h' => ⟨h', h₁.trans h'⟩, fun h' => h'.1⟩
  · exact ⟨fun h' => ⟨(not_lt.mp h₁).trans_lt h', h'⟩, fun h' => h'.2⟩

/-- `AtCap` is what keeps `rtt_backoff` from doubling. -/
theorem atCap_iff (hi : TimerInv s) (hb : s.tBackoff.toInt = 2 ^ 30) (hf : cfg.rfc2988 = true)
    {rto : ℚ} {s' : RttVars} (h : s.rttTimeout cfg = some (rto, s')) :
    s.AtCap cfg ↔ ¬ rto < cfg.maxrto := by
  cases hm : cfg.minTcp with
  | true =>
    rw [rttTimeout, if_pos hm, Option.some.injEq, Prod.mk.injEq] at h
    rw [AtCap, if_pos hm, ← h.1, not_lt]
  | false =>
    rw [rttTimeout_lt_maxrto hm hf hi.noRtt h, not_not, AtCap, if_neg (by simp [hm]), hb]
    norm_num

/-- `rtt_backoff` under the invariant: it doubles the multiplier, or leaves it when it is at least
64 and the timeout is not below its cap. -/
theorem rttBackoff_spec (hi : TimerInv s) {rto : ℚ} (ht : s.rttTimeout cfg = some (rto, s)) :
    ∃ s', s.rttBackoff cfg = some s' ∧ s'.useRtt = false ∧ s'.tBackoff =
      if s.tBackoff < 64 ∨ cfg.rfc2988 = true ∧ rto < cfg.maxrto then s.tBackoff <<< 1
      else s.tBackoff := by
  have hd : s.mayDouble cfg = some (decide (s.tBackoff < 64 ∨ cfg.rfc2988 = true ∧
      rto < cfg.maxrto), s) := by
    unfold mayDouble
    split_ifs with h₁ h₂
    · simp [h₁]
    · simp [h₁, h₂, ht]
    · simp [h₁, h₂]
  simp only [rttBackoff, hd, Option.bind_eq_bind, Option.bind_some, decide_eq_true_eq,
    Option.pure_def]
  split_ifs <;> exact ⟨_, rfl, hi.noRtt, rfl⟩

/-- Doubling a multiplier below `2 ^ 30`. -/
theorem shift_pow {b : Int32} {k : ℕ} (hb : b.toInt = 2 ^ k) (hk : k < 30) :
    (b <<< 1).toInt = 2 ^ (k + 1) := by
  have hle : (2 : ℤ) ^ k ≤ 2 ^ 29 := pow_le_pow_right₀ (by norm_num) (by omega)
  have hpos : (0 : ℤ) < 2 ^ k := by positivity
  rw [int32_shiftLeft _ 1 (show _ = 1 from rfl), hb, pow_one, Int.bmod_eq_of_le (by omega) (by omega), pow_succ]

/-- The next doubling makes the multiplier negative. -/
theorem shift_top {b : Int32} (hb : b.toInt = 2 ^ 30) : (b <<< 1).toInt = -2 ^ 31 := by
  rw [int32_shiftLeft _ 1 (show _ = 1 from rfl), hb]
  decide

theorem lt_sixtyFour {b : Int32} (hb : b.toInt = 2 ^ 30) : ¬ b < 64 := by
  rw [Int32.lt_iff_toInt_lt, hb]
  decide

/-- A back-off keeps the invariant if and only if it is capped; otherwise the multiplier becomes
negative. -/
theorem rttBackoff_cases (hc : cfg.WellTimed) (hi : TimerInv s) :
    ∃ s', s.rttBackoff cfg = some s' ∧ s'.useRtt = false ∧
      (s.Capped cfg (.timeout true) ∧ TimerInv s' ∨
        ¬ s.Capped cfg (.timeout true) ∧ s'.tBackoff.toInt = -2 ^ 31) := by
  obtain ⟨rto, ht, -⟩ := rttTimeout_pos hc hi.nonneg hi.noRtt
  obtain ⟨s', he, hu, hb⟩ := rttBackoff_spec hi ht
  obtain ⟨k, hk, hpow⟩ := hi.pow
  refine ⟨s', he, hu, ?_⟩
  -- below 2 ^ 30 the multiplier can double; there it can only if the timeout is not at its cap
  rcases Nat.lt_or_ge k 30 with hlt | hge
  · have hne : s.tBackoff.toInt ≠ 2 ^ 30 := by
      rw [hpow]
      exact (pow_lt_pow_right₀ (by norm_num) hlt).ne
    refine .inl ⟨fun h => absurd h hne, ⟨?_, hu⟩⟩
    rw [hb]
    split
    · exact ⟨k + 1, by omega, shift_pow hpow hlt⟩
    · exact ⟨k, hk, hpow⟩
  · obtain rfl : k = 30 := by omega
    rw [if_congr (or_iff_right (lt_sixtyFour hpow)) rfl rfl] at hb
    by_cases hd : cfg.rfc2988 = true ∧ rto < cfg.maxrto
    · refine .inr ⟨fun h => (atCap_iff hi hpow hd.1 ht).mp (h hpow hd.1) hd.2, ?_⟩
      rw [hb, if_pos hd, shift_top hpow]
    · refine .inl ⟨fun _ hf => (atCap_iff hi hpow hf ht).mpr fun h => hd ⟨hf, h⟩, ⟨?_, hu⟩⟩
      exact ⟨30, hk, by rw [hb, if_neg hd, hpow]⟩

theorem rttUpdate_tBackoff (cfg : RttConfig) (s : RttVars) (now tao : ℚ) :
    (s.rttUpdate cfg now tao).tBackoff = s.tBackoff ∧ (s.rttUpdate cfg now tao).useRtt = s.useRtt := by
  simp only [rttUpdate]
  split <;> exact ⟨rfl, rfl⟩

/-- An ACK keeps the invariant up to the timeout it sets. -/
theorem newAck_inv (cfg : RttConfig) (hi : TimerInv s) (sample : Option (ℚ × ℚ)) (reset : Bool) :
    ∃ s', TimerInv s' ∧ s.rttStep cfg (.newAck sample reset) = s'.rttTimeout cfg := by
  have hs : TimerInv (match sample with
      | some (now, tao) => s.rttUpdate cfg now tao
      | none => s) := by
    cases sample with
    | none => exact hi
    | some p =>
      obtain ⟨hb, hu⟩ := rttUpdate_tBackoff cfg s p.1 p.2
      exact ⟨by rw [hb]; exact hi.pow, hu.trans hi.noRtt⟩
  refine ⟨_, ?_, rfl⟩
  cases reset with
  | false => exact hs
  | true => exact ⟨⟨0, by omega, rfl⟩, hs.noRtt⟩

/-- One event under the invariant. -/
theorem rttStep_cases (hc : cfg.WellTimed) (hi : TimerInv s) (e : RttEvent) :
    (s.Capped cfg e ∧ ∃ rto s', s.rttStep cfg e = some (rto, s') ∧ 0 < rto ∧ TimerInv s') ∨
      (¬ s.Capped cfg e ∧ ∀ rto s', s.rttStep cfg e = some (rto, s') → ¬ s'.BackoffSane) := by
  have settle : ∀ {s₁ : RttVars}, TimerInv s₁ →
      ∃ rto s', s₁.rttTimeout cfg = some (rto, s') ∧ 0 < rto ∧ TimerInv s' := fun h => by
    obtain ⟨rto, ht, hpos⟩ := rttTimeout_pos hc h.nonneg h.noRtt
    exact ⟨rto, _, ht, hpos, h⟩
  cases e with
  | newAck sample reset =>
    obtain ⟨s', hi', he⟩ := newAck_inv cfg hi sample reset
    exact .inl ⟨trivial, he ▸ settle hi'⟩
  | timeout backoff =>
    cases backoff with
    | false => exact .inl ⟨trivial, settle hi⟩
    | true =>
      obtain ⟨s', he, hu, hcase⟩ := rttBackoff_cases hc hi
      have hstep : s.rttStep cfg (.timeout true) = s'.rttTimeout cfg := by
        simp [rttStep, he]
      rw [hstep]
      rcases hcase with ⟨hcap, hi'⟩ | ⟨hcap, hneg⟩
      · exact .inl ⟨hcap, settle hi'⟩
      · refine .inr ⟨hcap, fun rto s₁ h => ?_⟩
        have hb : s₁.tBackoff = s'.tBackoff := rttTimeout_tBackoff h
        rintro ⟨k, hk⟩
        have hpos : (0 : ℤ) < 2 ^ k := by positivity
        rw [hb, hneg] at hk
        omega

theorem RunSane.head {es : List RttEvent} (h : RunSane cfg s es) : s.BackoffSane := by
  cases es with
  | nil => exact h
  | cons e es => exact h.1

theorem runSane_iff (hc : cfg.WellTimed) (hi : TimerInv s) (es : List RttEvent) :
    RunSane cfg s es ↔ RunCapped cfg s es := by
  induction es generalizing s with
  | nil => exact iff_of_true hi.sane trivial
  | cons e es ih =>
    rcases rttStep_cases hc hi e with ⟨hcap, rto, s', he, hpos, hi'⟩ | ⟨hcap, hno⟩
    · constructor
      · rintro ⟨-, rto₁, s₁, he₁, -, hrun⟩
        rw [he] at he₁
        cases he₁
        refine ⟨hcap, fun rto₂ s₂ he₂ => ?_⟩
        rw [he] at he₂
        cases he₂
        exact (ih hi').mp hrun
      · rintro ⟨-, hrun⟩
        exact ⟨hi.sane, rto, s', he, hpos, (ih hi').mpr (hrun rto s' he)⟩
    · refine iff_of_false ?_ fun h => hcap h.1
      rintro ⟨-, rto, s', he, -, hrun⟩
      exact hno rto s' he hrun.head

/-- **The back-off of a run.**  From `rtt_init`, through timeouts and new ACKs in any order, the
multiplier stays a positive power of two and every timeout is positive, if and only if each back-off
at the multiplier `2 ^ 30` finds the timeout at its cap. -/
theorem rtt_run_sane_iff (cfg : RttConfig) (hc : cfg.WellTimed) (es : List RttEvent) :
    RunSane cfg cfg.rttInit es ↔ RunCapped cfg cfg.rttInit es :=
  runSane_iff hc ⟨⟨0, by omega, rfl⟩, rfl⟩ es

/-- A `TcpAgent` whose cap is within `2 ^ 30` times its `minrto_` meets the condition in every run. -/
theorem tcpAgent_run_sane (hc : cfg.WellTimed) (hm : cfg.minTcp = false)
    (hmax : cfg.maxrto ≤ cfg.minrto * 2 ^ 30) (es : List RttEvent) :
    RunSane cfg cfg.rttInit es := by
  refine (runSane_iff hc ⟨⟨0, by omega, rfl⟩, rfl⟩ es).mpr ?_
  generalize cfg.rttInit = s
  induction es generalizing s with
  | nil => trivial
  | cons e es ih =>
    refine ⟨?_, fun _ s' _ => ih s'⟩
    cases e with
    | newAck => trivial
    | timeout backoff =>
      cases backoff with
      | false => trivial
      | true =>
        intro _ _
        rw [AtCap, if_neg (by simp [hm])]
        exact .inr (hmax.trans (mul_le_mul_of_nonneg_right (le_max_left _ _) (by norm_num)))

theorem RunSane.final {es : List RttEvent} (h : RunSane cfg s es) :
    ∃ s', rttRun cfg s es = some s' ∧ s'.BackoffSane := by
  induction es generalizing s with
  | nil => exact ⟨s, rfl, h⟩
  | cons e es ih =>
    obtain ⟨-, rto, s', he, -, hrun⟩ := h
    obtain ⟨s'', hs, hb⟩ := ih hrun
    exact ⟨s'', by rw [rttRun, he]; exact hs, hb⟩

end RttVars

/-- Two events of a `MinTcpAgent`. -/
theorem rtt_run_sane_minTcp : RttVars.RunSane (spineRtt (1 / 1000) true)
    (spineRtt (1 / 1000) true).rttInit [.timeout true, .newAck none true] :=
  (RttVars.rtt_run_sane_iff (spineRtt (1 / 1000) true)
    ⟨by decide +kernel, by decide +kernel, by decide +kernel, fun _ => by decide +kernel⟩
    [.timeout true, .newAck none true]).mpr
    ⟨fun h => absurd h (by decide), fun _ _ _ => ⟨trivial, fun _ _ _ => trivial⟩⟩

/-- A `TcpAgent` outlasts the 31 timeouts in which a `MinTcpAgent` loses its multiplier. -/
theorem tcpAgent_run_sane_long : RttVars.RunSane (spineRtt (1 / 1000) false)
    (spineRtt (1 / 1000) false).rttInit (List.replicate 31 (.timeout true)) :=
  RttVars.tcpAgent_run_sane
    ⟨by decide +kernel, by decide +kernel, by decide +kernel, fun h => absurd h (by decide)⟩ rfl
    (by decide +kernel) _

/-- A `MinTcpAgent` with the timer settings of the experiments and a `minrto_` of a millisecond
loses its multiplier in 31 timeouts in a row: it is negative, and zero after one more. -/
theorem minTcp_backoff_lost :
    ¬ RttVars.RunSane (spineRtt (1 / 1000) true) (spineRtt (1 / 1000) true).rttInit
        (List.replicate 31 (.timeout true)) ∧
      (RttVars.rttRun (spineRtt (1 / 1000) true) (spineRtt (1 / 1000) true).rttInit
        (List.replicate 31 (.timeout true))).map (·.tBackoff.toInt) = some (-2 ^ 31) ∧
      (RttVars.rttRun (spineRtt (1 / 1000) true) (spineRtt (1 / 1000) true).rttInit
        (List.replicate 32 (.timeout true))).map (·.tBackoff.toInt) = some 0 := by
  have hrun : (RttVars.rttRun (spineRtt (1 / 1000) true) (spineRtt (1 / 1000) true).rttInit
      (List.replicate 31 (.timeout true))).map (·.tBackoff.toInt) = some (-2 ^ 31) := by
    decide +kernel
  refine ⟨fun h => ?_, hrun, by decide +kernel⟩
  obtain ⟨s, hs, k, hk⟩ := h.final
  rw [hs, Option.map_some, hk] at hrun
  have hpos : (0 : ℤ) < 2 ^ k := by positivity
  have := Option.some.inj hrun
  omega

end Afabric
