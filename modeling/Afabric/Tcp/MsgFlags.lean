import Mathlib.Tactic.Positivity
import Afabric.Tcp.SendMuch

/-!
# Tcp — the requests of an application

`sendmsg` (`tcp/tcp-full.cc`) takes a request with the bytes: `MSG_EOF` to close when the buffer is
empty, `DAT_EOF` to signal it, `DAT_NEW` to begin a flow.  Each is noted before `advance_bytes`, which
in CLOSED and LISTEN calls `reset`: that clears `close_on_empty_` and the deadline that `soft_reset`
has just set, while with a connection that is open `soft_reset` does not set the deadline at all.

`sendmsg_takes_iff` says when a request is in force after the call.  No routine of the sender writes
the start of the flow or its deadline, but for a `DDTcpAgent` that gives up a deadline.
-/

namespace Afabric

namespace FullTcpAgent

variable {κ : Type}

/-! ### The start and the deadline of the flow -/

/-- What is known of the flow, and the clock. -/
structure FlowVars where
  now : ℚ
  startTime : ℚ
  startseq : Int
  deadline : Int

def flow (s : FullTcpAgent κ) : FlowVars :=
  ⟨s.ctl.now, s.ctl.startTime, s.ctl.startseq, s.ctl.deadline⟩

variable {cfg : FullTcpConfig} {h : Hooks κ} {s s' : FullTcpAgent κ}

@[simp] theorem setCong_flow (s : FullTcpAgent κ) (c : Cong κ) : (s.setCong c).flow = s.flow := rfl

@[simp] theorem bufferempty_flow (s : FullTcpAgent κ) : s.bufferempty.flow = s.flow := rfl

@[simp] theorem setNeedClose_flow (s : FullTcpAgent κ) (b : Bool) :
    (s.setCtl fun t => { t with needClose := b }).flow = s.flow := rfl

@[simp] theorem setMaxseg_flow (s : FullTcpAgent κ) : (s.setMaxseg cfg).flow = s.flow := by
  rw [setMaxseg]
  split_ifs <;> rfl

theorem packetPriority_flow {seq d : Int} {r : Option Int × FullTcpAgent κ}
    (he : s.packetPriority cfg seq d = some r) : r.2.flow = s.flow := by
  rw [packetPriority] at he
  by_cases hp : cfg.enablePias = true
  · rw [if_pos hp] at he
    obtain rfl := Option.some.inj he
    rfl
  rw [if_neg hp] at he
  by_cases hd : d > 0
  swap
  · rw [if_neg hd] at he
    obtain rfl := Option.some.inj he
    rfl
  rw [if_pos hd] at he
  by_cases hl : s.ctl.deadline ≠ 0 ∧ cfg.useDeadline = true
  · rw [if_pos hl] at he
    obtain rfl := Option.some.inj he
    rfl
  · rw [if_neg hl] at he
    obtain ⟨p, -, rfl⟩ := Option.map_eq_some_iff.mp he
    rfl

theorem sendpacket_flow {seq ack d : Int} {pf : TcpFlag} {reason : XmissionReason}
    (he : s.sendpacket cfg h seq ack pf d reason = some s') : s'.flow = s.flow := by
  obtain ⟨r, hr, rfl⟩ := Option.map_eq_some_iff.mp he
  show r.2.flow = s.flow
  rw [packetPriority_flow hr]
  split_ifs <;> rfl

theorem noteSent_flow (s : FullTcpAgent κ) (seq n : Int) (rt : Bool) :
    (s.noteSent cfg h seq n rt).flow = s.flow := by
  simp only [noteSent]
  split_ifs <;> rfl

theorem takeClose_flow (s : FullTcpAgent κ) (pf : TcpFlag) (fin : Bool) :
    (s.takeClose pf fin).2.2.flow = s.flow := by
  rw [takeClose]
  split_ifs <;> rfl

theorem transmit_flow {seq d : Int} {pf : TcpFlag} {reason : XmissionReason}
    {r : Int × FullTcpAgent κ} (he : s.transmit cfg h seq d pf reason = some r) :
    r.2.flow = s.flow := by
  obtain ⟨s₁, hs, rfl⟩ := Option.map_eq_some_iff.mp he
  rw [noteSent_flow, sendpacket_flow hs, takeClose_flow]
  rfl

/-- `foutput` gives up a deadline before all else, and leaves the rest. -/
theorem foutput_flow {seq : Int} {reason : XmissionReason} {r : Int × FullTcpAgent κ}
    (he : s.foutput cfg h seq reason = some r) : r.2.flow = (s.dropDeadline cfg).flow := by
  obtain ⟨s₁, d, pf, em, hs, hf⟩ : ∃ s₁ d pf em, s₁.flow = ((s.dropDeadline cfg).setMaxseg cfg).flow ∧
      s.foutput cfg h seq reason =
        if wantsSend cfg s₁ seq d pf em then s₁.transmit cfg h seq d pf reason else some (0, s₁) := by
    refine ⟨_, _, _, _, ?_, rfl⟩
    simp only [apply_ite flow, setNeedClose_flow, setCong_flow, bufferempty_flow, ite_self]
  rw [hf] at he
  rw [← setMaxseg_flow (s.dropDeadline cfg), ← hs]
  by_cases hw : wantsSend cfg s₁ seq d pf em = true
  · rw [if_pos hw] at he
    exact transmit_flow he
  · rw [if_neg hw] at he
    obtain rfl := Option.some.inj he
    rfl

theorem sent_flow (cfg : FullTcpConfig) (s : FullTcpAgent κ) (seq amt : Int) :
    (s.sent cfg seq amt).flow = s.flow := by
  simp only [FullTcpAgent.sent]
  split_ifs <;> rfl

/-! ### A deadline that is given up -/

/-- A `DDTcpAgent` that cannot send what is left before its deadline. -/
def GivesUp (cfg : FullTcpConfig) (s : FullTcpAgent κ) : Prop :=
  cfg.kind = .dd ∧ s.ctl.deadline ≠ 0 ∧
    (s.ctl.deadline : ℚ) / 1000000 - (s.ctl.now - s.ctl.startTime) -
      ((s.snd.curseq - s.snd.maxseq : Int) : ℚ) * 8 / (cfg.linkRate * 1000000000) < 0

instance (cfg : FullTcpConfig) (s : FullTcpAgent κ) : Decidable (GivesUp cfg s) :=
  inferInstanceAs (Decidable (_ ∧ _))

theorem dropDeadline_flow (s : FullTcpAgent κ) : (s.dropDeadline cfg).flow =
    if GivesUp cfg s then { s.flow with deadline := 0 } else s.flow := by
  by_cases hg : GivesUp cfg s
  · rw [if_pos hg, dropDeadline]
    exact congrArg flow (if_pos hg)
  · rw [if_neg hg, dropDeadline]
    exact congrArg flow (if_neg hg)

/-- What output leaves to the application: the bytes handed over and a pending close stay, and the
request of a signal stays until the signal. -/
structure Leaves (s s' : FullTcpAgent κ) : Prop where
  curseq : s'.snd.curseq = s.snd.curseq
  maxseq : s.snd.maxseq ≤ s'.snd.maxseq
  close : s'.app.closeOnEmpty = s.app.closeOnEmpty
  emptied : s.trace.emptied.length ≤ s'.trace.emptied.length
  signal : s.app.signalOnEmpty = true →
    s'.app.signalOnEmpty = true ∨ s.trace.emptied.length < s'.trace.emptied.length

namespace Leaves

theorem refl (s : FullTcpAgent κ) : Leaves s s := ⟨rfl, le_rfl, rfl, le_rfl, .inl⟩

theorem trans {s₁ : FullTcpAgent κ} (h₁ : Leaves s s₁) (h₂ : Leaves s₁ s') : Leaves s s' := by
  refine ⟨h₂.curseq.trans h₁.curseq, h₁.maxseq.trans h₂.maxseq, h₂.close.trans h₁.close,
    h₁.emptied.trans h₂.emptied, fun hs => ?_⟩
  rcases h₁.signal hs with hs₁ | hlt
  · rcases h₂.signal hs₁ with hs₂ | hlt
    · exact .inl hs₂
    · exact .inr (h₁.emptied.trans_lt hlt)
  · exact .inr (hlt.trans_le h₂.emptied)

theorem of_out {seq n : Int} {o : Option Emission} (ho : Out cfg s seq n o s') : Leaves s s' := by
  have hsnd := ho.snd
  refine ⟨by rw [hsnd]; rfl, ?_, by rw [ho.app], ?_, fun hs => ?_⟩
  · rw [hsnd]
    show s.snd.maxseq ≤ if o.isSome then max s.snd.maxseq (seq + n) else s.snd.maxseq
    split_ifs
    · exact le_max_left _ _
    · exact le_rfl
  · rcases ho.signal with ⟨-, -, -, -, he⟩ | ⟨-, -, he⟩
    · rw [he]
      exact Nat.le_succ _
    · rw [he]
  · rcases ho.signal with ⟨-, -, -, -, he⟩ | ⟨-, hsig, -⟩
    · rw [he]
      exact .inr (Nat.lt_succ_self _)
    · exact .inl (hsig.trans hs)

theorem of_sent (cfg : FullTcpConfig) (s : FullTcpAgent κ) (seq amt : Int) :
    Leaves s (s.sent cfg seq amt) := by
  have hsnd := (sent_seq cfg s seq amt).1
  refine ⟨by rw [hsnd], by rw [hsnd], by rw [sent_app], by rw [sent_trace], fun hs => .inl ?_⟩
  rwa [sent_app]

/-- A deadline that was not given up is not given up later: there is less to send. -/
theorem not_givesUp (hl : cfg.kind = .dd → 0 < cfg.linkRate) (hs : Leaves s s')
    (hf : s'.flow = (s.dropDeadline cfg).flow) : ¬ GivesUp cfg s' := by
  rintro ⟨hk, hd, ht⟩
  rw [dropDeadline_flow] at hf
  by_cases hg : GivesUp cfg s
  · rw [if_pos hg] at hf
    exact hd (congrArg FlowVars.deadline hf)
  · rw [if_neg hg] at hf
    have hnow : s'.ctl.now = s.ctl.now := congrArg FlowVars.now hf
    have hstart : s'.ctl.startTime = s.ctl.startTime := congrArg FlowVars.startTime hf
    have hdead : s'.ctl.deadline = s.ctl.deadline := congrArg FlowVars.deadline hf
    refine hg ⟨hk, hdead ▸ hd, ?_⟩
    -- at the same time and deadline, fewer bytes need less time
    have hrate : (0 : ℚ) < cfg.linkRate := Int.cast_pos.mpr (hl hk)
    have hmax : ((s'.snd.curseq - s'.snd.maxseq : Int) : ℚ) ≤
        ((s.snd.curseq - s.snd.maxseq : Int) : ℚ) := by
      rw [hs.curseq]
      exact Int.cast_le.mpr (Int.sub_le_sub_left hs.maxseq _)
    have hleft := div_le_div_of_nonneg_right (mul_le_mul_of_nonneg_right hmax (by norm_num : (0 : ℚ) ≤ 8))
      (by positivity : (0 : ℚ) ≤ cfg.linkRate * 1000000000)
    rw [hnow, hstart, hdead] at ht
    linarith

end Leaves

/-! ### The loop -/

/-- An iteration of the loop of `send_much` gets to `foutput`. -/
def outputs (cfg : FullTcpConfig) (fuel : Nat) (s : FullTcpAgent κ) (force : Bool) : Bool :=
  match s.nxtTseq cfg fuel with
  | some r => force || (r.2.sendAllowed cfg r.1 && (cfg.overhead = 0 || r.2.ctl.delsndPending))
  | none => false

def Turn.agent : Turn κ → FullTcpAgent κ
  | .stops s => s
  | .goesOn s => s

theorem nxtTseq_leaves {fuel : Nat} {r : Int × FullTcpAgent κ} (he : s.nxtTseq cfg fuel = some r) :
    Leaves s r.2 ∧ r.2.flow = s.flow ∧ (GivesUp cfg r.2 ↔ GivesUp cfg s) := by
  rw [nxtTseq] at he
  split_ifs at he with hc
  · obtain ⟨o, -, rfl⟩ := Option.map_eq_some_iff.mp he
    cases o with
    | none => exact ⟨.refl s, rfl, Iff.rfl⟩
    | some seq =>
        dsimp only
        split_ifs
        · exact ⟨⟨rfl, le_rfl, rfl, le_rfl, .inl⟩, rfl, Iff.rfl⟩
        · exact ⟨.refl s, rfl, Iff.rfl⟩
  · obtain rfl := Option.some.inj he
    exact ⟨.refl s, rfl, Iff.rfl⟩

/-- One iteration. -/
theorem turn_leaves {fuel : Nat} {force : Bool} {reason : XmissionReason} {maxburst npackets : Int}
    {tr : Turn κ} (he : turn cfg h fuel s force reason maxburst npackets = some tr) :
    Leaves s tr.agent ∧
      tr.agent.flow = (if outputs cfg fuel s force = true then (s.dropDeadline cfg).flow
        else s.flow) ∧
      (tr = .stops tr.agent ∨ outputs cfg fuel s force = true) := by
  obtain ⟨⟨seq, s₁⟩, hr, he⟩ := Option.bind_eq_some_iff.mp he
  obtain ⟨hl, hf, hg⟩ := nxtTseq_leaves hr
  have hdrop : (s₁.dropDeadline cfg).flow = (s.dropDeadline cfg).flow := by
    rw [dropDeadline_flow, dropDeadline_flow]
    simp only [hg, hf]
  rw [outputs, hr]
  dsimp only at he hl hf ⊢
  -- the loop stops before `foutput` if the window is closed or the overhead delays the packet
  by_cases h₁ : (!force && !s₁.sendAllowed cfg seq) = true
  · rw [if_pos h₁] at he
    obtain rfl := Option.some.inj he
    rw [if_neg (by revert h₁; cases force <;> simp +contextual)]
    exact ⟨hl, hf, .inl rfl⟩
  rw [if_neg h₁] at he
  by_cases h₂ : (!force && cfg.overhead ≠ 0 && !s₁.ctl.delsndPending) = true
  · rw [if_pos h₂] at he
    obtain rfl := Option.some.inj he
    rw [if_neg (by revert h₂; cases force <;> simp +contextual)]
    exact ⟨⟨hl.curseq, hl.maxseq, hl.close, hl.emptied, hl.signal⟩, hf, .inl rfl⟩
  rw [if_neg h₂] at he
  have hout : (force || (s₁.sendAllowed cfg seq && (cfg.overhead = 0 || s₁.ctl.delsndPending))) =
      true := by
    revert h₁ h₂
    cases force <;> cases s₁.ctl.delsndPending <;> simp +contextual
  rw [if_pos hout, ← hdrop]
  obtain ⟨⟨n, s₂⟩, ho, he⟩ := Option.bind_eq_some_iff.mp he
  obtain ⟨o, ho'⟩ := foutput_out h ho
  have hl₂ : Leaves s s₂ := hl.trans (.of_out ho')
  have hf₂ : s₂.flow = (s₁.dropDeadline cfg).flow := foutput_flow ho
  dsimp only at he
  by_cases hn : n ≤ 0
  · rw [if_pos hn] at he
    obtain rfl := Option.some.inj he
    exact ⟨hl₂, hf₂, .inr hout⟩
  rw [if_neg hn] at he
  split_ifs at he <;> obtain rfl := Option.some.inj he <;>
    exact ⟨hl₂.trans (.of_sent _ _ _ _), (sent_flow _ _ _ _).trans hf₂, .inr hout⟩

/-- The loop gives up a deadline in its first iteration or not at all. -/
theorem sendLoop_leaves (hl : cfg.kind = .dd → 0 < cfg.linkRate) {fuel : Nat} {force : Bool}
    {reason : XmissionReason} {maxburst npackets : Int}
    (he : sendLoop cfg h fuel s force reason maxburst npackets = some s') :
    Leaves s s' ∧ s'.flow =
      if outputs cfg fuel s force = true then (s.dropDeadline cfg).flow else s.flow := by
  induction fuel generalizing s force npackets with
  | zero => exact absurd he (by simp [sendLoop])
  | succ fuel ih =>
      rw [sendLoop_succ] at he
      obtain ⟨tr, ht, he⟩ := Option.bind_eq_some_iff.mp he
      have hturn := turn_leaves ht
      cases tr with
      | stops s₁ =>
          obtain rfl := Option.some.inj he
          exact ⟨hturn.1, hturn.2.1⟩
      | goesOn s₁ =>
          obtain ⟨hl₁, hf₁, hout⟩ := hturn
          obtain ⟨hl₂, hf₂⟩ := ih he
          have hout : outputs cfg (fuel + 1) s force = true := hout.resolve_left fun e => by cases e
          rw [if_pos hout] at hf₁ ⊢
          refine ⟨hl₁.trans hl₂, hf₂.trans ?_⟩
          -- the iterations after one that sent find the deadline given up already, or kept for good
          have hg : ¬ GivesUp cfg s₁ := hl₁.not_givesUp hl hf₁
          rw [dropDeadline_flow, if_neg hg, ite_self]
          exact hf₁

/-- `send_much` gets to `foutput`. -/
def sendMuchOutputs (cfg : FullTcpConfig) (fuel : Nat) (s : FullTcpAgent κ) (force : Bool) : Bool :=
  (force || !s.ctl.delsndPending) && outputs cfg fuel s force

theorem sendMuch_leaves (hl : cfg.kind = .dd → 0 < cfg.linkRate) {fuel : Nat} {force : Bool}
    {reason : XmissionReason} {maxburst : Int}
    (he : s.sendMuch cfg h fuel force reason maxburst = some s') :
    Leaves s s' ∧ s'.flow =
      if sendMuchOutputs cfg fuel s force = true then (s.dropDeadline cfg).flow else s.flow := by
  rw [sendMuch] at he
  rw [sendMuchOutputs]
  by_cases hd : (!force && s.ctl.delsndPending) = true
  · rw [if_pos hd] at he
    obtain rfl := Option.some.inj he
    have hd' : (force || !s.ctl.delsndPending) = false := by
      revert hd
      cases force <;> simp
    rw [hd', Bool.false_and, if_neg Bool.false_ne_true]
    exact ⟨.refl s, rfl⟩
  · rw [if_neg hd] at he
    have hd' : (force || !s.ctl.delsndPending) = true := by
      revert hd
      cases force <;> simp
    rw [hd', Bool.true_and]
    exact sendLoop_leaves hl he

/-! ### The calls -/

/-- `advance_bytes` with a connection that is open or being opened, before it sends. -/
def queued (cfg : FullTcpConfig) (s : FullTcpAgent κ) (nb : Int) : FullTcpAgent κ :=
  s.setSnd fun t => { t with curseq := (if t.curseq < cfg.iss then cfg.iss else t.curseq) + nb }

/-- `advance_bytes` opens a connection: what `reset` leaves. -/
theorem advanceBytes_opens (hst : s.state = .closed ∨ s.state = .listen) {fuel : Nat} {nb : Int}
    (he : s.advanceBytes cfg h fuel nb = some s') :
    s'.snd.curseq = cfg.iss + nb ∧ s'.app.closeOnEmpty = false ∧
      s'.app.signalOnEmpty = s.app.signalOnEmpty ∧ s'.ctl.startseq = s.ctl.startseq ∧
      s'.ctl.deadline = 0 := by
  rw [advanceBytes_eq] at he
  obtain ⟨t, ht, he⟩ := Option.bind_eq_some_iff.mp he
  obtain ⟨o, ho, rfl⟩ : ∃ o, foutput cfg h (((s.reset cfg h).setSnd fun t =>
      { t with curseq := cfg.iss + nb }).newstate .synSent) cfg.iss .normal = some o ∧
      o.2.sent cfg cfg.iss o.1 = t := by
    refine Option.map_eq_some_iff.mp ?_
    rw [← ht, advanced]
    rcases hst with hst | hst <;> rw [hst] <;> rfl
  obtain ⟨e, hout⟩ := foutput_out h ho
  -- in SYN_SENT there is no call of `send_much`
  have hopen : (o.2.sent cfg cfg.iss o.1).state ≠ .established := by
    rw [sent_state]
    rcases hout.state with hs | ⟨hs, -⟩
    · rw [hs]
      exact fun hc => by cases hc
    · rw [hs]
      exact fun hc => by cases hc
  rw [if_neg hopen] at he
  obtain rfl := Option.some.inj he
  have hleaves := (Leaves.of_out hout).trans (.of_sent cfg o.2 cfg.iss o.1)
  have hflow := (sent_flow cfg o.2 cfg.iss o.1).trans (foutput_flow ho)
  -- there is no deadline to give up after `reset`
  rw [dropDeadline_flow, if_neg fun hg => hg.2.1 rfl] at hflow
  refine ⟨hleaves.curseq, hleaves.close, ?_, congrArg FlowVars.startseq hflow,
    congrArg FlowVars.deadline hflow⟩
  rw [sent_app]
  rcases hout.signal with ⟨-, -, hne, -⟩ | ⟨-, hsig, -⟩
  · exact absurd rfl hne
  · exact hsig

/-- `advance_bytes` with a connection that is open or being opened. -/
theorem advanceBytes_queues (hl : cfg.kind = .dd → 0 < cfg.linkRate)
    (hst : s.state = .synSent ∨ s.state = .established) {fuel : Nat} {nb : Int}
    (he : s.advanceBytes cfg h fuel nb = some s') :
    Leaves (queued cfg s nb) s' ∧ s'.flow =
      if s.state = .established ∧ sendMuchOutputs cfg fuel (queued cfg s nb)
          (cfg.rtxOnEof && s.app.signalOnEmpty) = true then
        ((queued cfg s nb).dropDeadline cfg).flow
      else s.flow := by
  have hadv : s.advanced cfg h nb = some (queued cfg s nb) := by
    rw [advanced]
    rcases hst with hst | hst <;> rw [hst] <;> rfl
  rw [advanceBytes_eq, hadv, Option.bind_some] at he
  by_cases hest : s.state = .established
  · rw [if_pos (show (queued cfg s nb).state = .established from hest)] at he
    simp only [hest, true_and]
    exact sendMuch_leaves hl he
  · rw [if_neg (show (queued cfg s nb).state ≠ .established from hest)] at he
    obtain rfl := Option.some.inj he
    rw [if_neg fun hc => hest hc.1]
    exact ⟨.refl _, rfl⟩

/-! ### The requests -/

/-- The number of the first byte that a call with `n` bytes hands over, or of the next byte after it
if there are none. -/
def firstByte (s' : FullTcpAgent κ) (n : Int) : Int := s'.snd.curseq - n + 1

/-- The request of a call with `n` bytes is in force after it. -/
def InForce (cfg : FullTcpConfig) (s s' : FullTcpAgent κ) (n : Int) : MsgFlag → Prop
  | .plain => True
  | .msgEof => s'.app.closeOnEmpty = true
  | .datEof => s'.app.signalOnEmpty = true ∨ s.trace.emptied.length < s'.trace.emptied.length
  | .datNew => s'.ctl.startseq + 1 = firstByte s' n ∧ s'.ctl.deadline = cfg.nominalDeadline

/-- A flow that begins on an open connection gives up its deadline at once. -/
def LosesDeadline (cfg : FullTcpConfig) (h : Hooks κ) (s : FullTcpAgent κ) (fuel : Nat) (n : Int) :
    Prop :=
  s.state = .established ∧
    sendMuchOutputs cfg fuel (queued cfg (s.onDatNew cfg h) n)
      (cfg.rtxOnEof && (s.onDatNew cfg h).app.signalOnEmpty) = true ∧
    GivesUp cfg (queued cfg (s.onDatNew cfg h) n)

instance (cfg : FullTcpConfig) (h : Hooks κ) (s : FullTcpAgent κ) (fuel : Nat) (n : Int) :
    Decidable (LosesDeadline cfg h s fuel n) := inferInstanceAs (Decidable (_ ∧ _ ∧ _))

/-- When a request comes into force, by the state before the call. -/
def Takes (cfg : FullTcpConfig) (h : Hooks κ) (s : FullTcpAgent κ) (fuel : Nat) (n : Int) :
    MsgFlag → Prop
  | .plain | .datEof => True
  | .msgEof => s.state = .synSent ∨ s.state = .established
  | .datNew =>
      (s.state = .closed ∨ s.state = .listen → cfg.nominalDeadline = 0) ∧
      (s.state = .synSent ∨ s.state = .established →
        LosesDeadline cfg h s fuel n ∧ cfg.nominalDeadline = 0 ∨
        ¬ LosesDeadline cfg h s fuel n ∧ s.ctl.deadline = cfg.nominalDeadline)

/-- What `sendmsg` does before it advances. -/
def requested (cfg : FullTcpConfig) (h : Hooks κ) (s : FullTcpAgent κ) : MsgFlag → FullTcpAgent κ
  | .plain => s
  | .msgEof => s.setApp fun t => { t with closeOnEmpty := true }
  | .datEof => s.onDatEof cfg h
  | .datNew => s.onDatNew cfg h

theorem sendmsg_eq {n : Int} (hn : n ≠ -1) (s : FullTcpAgent κ) (fuel : Nat) (flag : MsgFlag) :
    s.sendmsg cfg h fuel n flag = (requested cfg h s flag).advanceBytes cfg h fuel n := by
  cases flag <;> exact if_neg hn

theorem onDatEof_kept (cfg : FullTcpConfig) (h : Hooks κ) (s : FullTcpAgent κ) :
    (s.onDatEof cfg h).state = s.state ∧
    (s.onDatEof cfg h).app.signalOnEmpty = true ∧ (s.onDatEof cfg h).trace = s.trace := by
  simp only [onDatEof, rewind]
  split_ifs <;> exact ⟨rfl, rfl, rfl⟩

/-- `soft_reset` sets the deadline in CLOSED and LISTEN only. -/
theorem onDatNew_kept (cfg : FullTcpConfig) (h : Hooks κ) (s : FullTcpAgent κ) :
    (s.onDatNew cfg h).state = s.state ∧
    (s.onDatNew cfg h).snd = s.snd ∧
    (s.state = .closed ∨ s.state = .listen → (s.onDatNew cfg h).ctl.startseq = cfg.iss) ∧
    (s.state = .synSent ∨ s.state = .established →
      (s.onDatNew cfg h).ctl.startseq = (if s.snd.curseq < cfg.iss then cfg.iss else s.snd.curseq) ∧
      (s.onDatNew cfg h).ctl.deadline = s.ctl.deadline) := by
  obtain ⟨t, ht, hst, hsnd, hd⟩ : ∃ t : FullTcpAgent κ, s.onDatNew cfg h = t.softReset cfg h ∧
      t.state = s.state ∧ t.snd = s.snd ∧ t.ctl.deadline = s.ctl.deadline :=
    ⟨_, rfl, by split_ifs <;> rfl, by split_ifs <;> rfl, by split_ifs <;> rfl⟩
  rw [ht, ← hst, ← hsnd, ← hd]
  refine ⟨rfl, rfl, ?_, ?_⟩
  · rintro (hc | hc) <;> simp only [softReset, setCtl, setCwnd, hc]
  · rintro (hc | hc) <;> simp only [softReset, setCtl, setCwnd, hc, and_self]

theorem requested_state (s : FullTcpAgent κ) (flag : MsgFlag) :
    (requested cfg h s flag).state = s.state := by
  cases flag with
  | plain | msgEof => rfl
  | datEof => exact (onDatEof_kept cfg h s).1
  | datNew => exact (onDatNew_kept cfg h s).1

/-- A flow begins where the bytes before it end. -/
theorem datNew_begins (hl : cfg.kind = .dd → 0 < cfg.linkRate)
    (hst : s.state = .synSent ∨ s.state = .established) {n : Int} {fuel : Nat}
    (he : (s.onDatNew cfg h).advanceBytes cfg h fuel n = some s') :
    s'.ctl.startseq + 1 = firstByte s' n ∧ s'.ctl.deadline =
      if LosesDeadline cfg h s fuel n then 0 else s.ctl.deadline := by
  obtain ⟨hstate, hsnd, -, hopen⟩ := onDatNew_kept cfg h s
  obtain ⟨hstart, hdead⟩ := hopen hst
  obtain ⟨hleaves, hflow⟩ := advanceBytes_queues hl (hstate.symm ▸ hst) he
  have hcur : s'.snd.curseq = (if s.snd.curseq < cfg.iss then cfg.iss else s.snd.curseq) + n := by
    rw [hleaves.curseq, ← hsnd]
    rfl
  rw [hstate] at hflow
  by_cases hlose : LosesDeadline cfg h s fuel n
  · rw [if_pos ⟨hlose.1, hlose.2.1⟩, dropDeadline_flow, if_pos hlose.2.2] at hflow
    have hs : s'.ctl.startseq = (s.onDatNew cfg h).ctl.startseq := congrArg FlowVars.startseq hflow
    rw [if_pos hlose, firstByte, hs, hstart, hcur]
    exact ⟨by omega, congrArg FlowVars.deadline hflow⟩
  · have hkept : s'.flow = (s.onDatNew cfg h).flow := by
      rw [hflow]
      split_ifs with hout
      · rw [dropDeadline_flow, if_neg fun hg => hlose ⟨hout.1, hout.2, hg⟩]
        rfl
      · rfl
    have hs : s'.ctl.startseq = (s.onDatNew cfg h).ctl.startseq := congrArg FlowVars.startseq hkept
    rw [if_neg hlose, firstByte, hs, hstart, hcur, ← hdead]
    exact ⟨by omega, congrArg FlowVars.deadline hkept⟩

/-- **Requests.**  In CLOSED, LISTEN, SYN_SENT or ESTABLISHED a request of the application is in
force after the call if and only if: `MSG_EOF`, with a connection that is open or being opened;
`DAT_EOF`, always; `DAT_NEW`, if the nominal deadline is 0 where a connection has to be opened, and
with an open connection if it is the deadline that was in force already, or it is 0 and that one is
given up. -/
theorem sendmsg_takes_iff (hl : cfg.kind = .dd → 0 < cfg.linkRate)
    (hst : s.state = .closed ∨ s.state = .listen ∨ s.state = .synSent ∨ s.state = .established)
    {n : Int} (hn : 0 ≤ n) {fuel : Nat} {flag : MsgFlag}
    (he : s.sendmsg cfg h fuel n flag = some s') :
    InForce cfg s s' n flag ↔ Takes cfg h s fuel n flag := by
  rw [sendmsg_eq (by omega)] at he
  have hstate : (requested cfg h s flag).state = s.state := requested_state s flag
  have hexcl : s.state = .closed ∨ s.state = .listen →
      ¬ (s.state = .synSent ∨ s.state = .established) := by
    rintro (hc | hc) <;> rw [hc] <;> simp
  rcases or_assoc.mpr hst with hc | ho
  · -- the connection is opened, after a reset
    have hopens := advanceBytes_opens (hstate ▸ hc) he
    cases flag with
    | plain => exact Iff.rfl
    | msgEof =>
        refine iff_of_false ?_ (hexcl hc)
        rw [InForce, hopens.2.1]
        exact Bool.false_ne_true
    | datEof => exact iff_of_true (.inl (hopens.2.2.1.trans (onDatEof_kept cfg h s).2.1)) trivial
    | datNew =>
        -- `reset` clears the deadline that `soft_reset` has set, and keeps the start
        have hstart : s'.ctl.startseq = cfg.iss :=
          hopens.2.2.2.1.trans ((onDatNew_kept cfg h s).2.2.1 hc)
        rw [InForce, Takes, hstart, firstByte, hopens.1, hopens.2.2.2.2]
        constructor
        · rintro ⟨-, hd⟩
          exact ⟨fun _ => hd.symm, fun ho => absurd ho (hexcl hc)⟩
        · rintro ⟨hd, -⟩
          exact ⟨by omega, (hd hc).symm⟩
  · -- the connection is open or being opened: nothing is reset
    have hleaves := (advanceBytes_queues hl (hstate ▸ ho) he).1
    cases flag with
    | plain => exact Iff.rfl
    | msgEof => exact iff_of_true hleaves.close ho
    | datEof =>
        refine iff_of_true ?_ trivial
        rw [InForce, ← (onDatEof_kept cfg h s).2.2]
        exact hleaves.signal (onDatEof_kept cfg h s).2.1
    | datNew =>
        obtain ⟨hstart, hd⟩ := datNew_begins hl ho he
        rw [InForce, Takes, hd]
        constructor
        · rintro ⟨-, hd⟩
          refine ⟨fun hc => absurd ho (hexcl hc), fun _ => ?_⟩
          by_cases hlose : LosesDeadline cfg h s fuel n
          · rw [if_pos hlose] at hd
            exact .inl ⟨hlose, hd.symm⟩
          · rw [if_neg hlose] at hd
            exact .inr ⟨hlose, hd⟩
        · rintro ⟨-, hd⟩
          refine ⟨hstart, ?_⟩
          rcases hd ho with ⟨hlose, hd⟩ | ⟨hlose, hd⟩
          · rw [if_pos hlose, hd]
          · rw [if_neg hlose, hd]

end FullTcpAgent

namespace NsDefault

open FullTcpAgent

/-- A sender with deadlines of 500 microseconds. -/
def due : FullTcpConfig := { config .dd with nominalDeadline := 500 }

/-- All of a first flow of 1000 bytes has been sent and acknowledged, within its deadline. -/
def reused : FullTcpAgent Bool :=
  { agent with
    state := .established
    snd := ⟨1000, 1001, 1001, 1001, 0, 10⟩
    rcv := ⟨1, 0, [], -1, []⟩
    ctl := { agent.ctl with lastAckSent := 1, cong := ⟨2, 20, true⟩, deadline := 500 } }

/-- The second flow of the sender. -/
theorem sendmsg_takes_reused : ∃ s,
    reused.sendmsg due (hooks due) 5 100 .datNew = some s ∧
    (InForce due reused s 100 .datNew ↔ Takes due (hooks due) reused 5 100 .datNew) := by
  have hrun : (reused.sendmsg due (hooks due) 5 100 .datNew).isSome = true := by
    decide +kernel
  obtain ⟨s, hs⟩ := Option.isSome_iff_exists.mp hrun
  exact ⟨s, hs, sendmsg_takes_iff (by decide) (by decide) (by decide) hs⟩

/-- A call that opens the connection is no request to close it, and its flow has no deadline. -/
theorem requests_lost :
    (∃ s, agent.sendmsg due (hooks due) 1 100 .msgEof = some s ∧
      ¬ InForce due agent s 100 .msgEof) ∧
    ∃ s, agent.sendmsg due (hooks due) 1 0 .datNew = some s ∧ ¬ InForce due agent s 0 .datNew := by
  have hclose : (agent.sendmsg due (hooks due) 1 100 .msgEof).map (·.app.closeOnEmpty) =
      some false := by
    decide +kernel
  have hdead : (agent.sendmsg due (hooks due) 1 0 .datNew).map (·.ctl.deadline) = some 0 := by
    decide +kernel
  obtain ⟨s, hs, hno⟩ := Option.map_eq_some_iff.mp hclose
  obtain ⟨t, ht, hzero⟩ := Option.map_eq_some_iff.mp hdead
  refine ⟨⟨s, hs, ?_⟩, t, ht, ?_⟩
  · rw [InForce, hno]
    exact Bool.false_ne_true
  · rintro ⟨-, hd⟩
    rw [hzero] at hd
    exact absurd hd (by decide)

end NsDefault

end Afabric
