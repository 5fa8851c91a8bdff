import Afabric.Tcp.Output

/-!
# Tcp — what output does

`Out` says all that `foutput` can do to an agent: it sends at most one segment, moves `maxseq_` up
to its end, sets a `maxseg_` that is not set, may take the signal of the application, and may enter
FIN_WAIT_1 for a close that is pending.  `foutput_out` is its proof; the proofs about `foutput`
after it use `Out` only.

What is left of the control is not followed, but for the two flags of a pending close (`CtlOnly`).
-/

namespace Afabric

namespace FullTcpAgent

variable {κ : Type}

/-! ### The control -/

/-- The control alone differs, and no close is newly pending. -/
structure CtlOnly (s s' : FullTcpAgent κ) : Prop where
  eq : s' = { s with ctl := s'.ctl }
  close : s'.ctl.needClose = true → s.ctl.needClose = true
  fin : s'.ctl.needFin = true → s.ctl.needFin = true

namespace CtlOnly

variable {s s₁ s₂ : FullTcpAgent κ}

theorem refl (s : FullTcpAgent κ) : CtlOnly s s := ⟨rfl, id, id⟩

theorem trans (h₁ : CtlOnly s s₁) (h₂ : CtlOnly s₁ s₂) : CtlOnly s s₂ := by
  refine ⟨?_, h₁.close ∘ h₂.close, h₁.fin ∘ h₂.fin⟩
  rw [h₂.eq, h₁.eq]

theorem ite {c : Prop} [Decidable c] (h₁ : CtlOnly s s₁) (h₂ : CtlOnly s s₂) :
    CtlOnly s (if c then s₁ else s₂) := by
  by_cases hc : c
  · rwa [if_pos hc]
  · rwa [if_neg hc]

theorem state (h : CtlOnly s s₁) : s₁.state = s.state := by rw [h.eq]

theorem snd (h : CtlOnly s s₁) : s₁.snd = s.snd := by rw [h.eq]

theorem sack (h : CtlOnly s s₁) : s₁.sack = s.sack := by rw [h.eq]

theorem rcv (h : CtlOnly s s₁) : s₁.rcv = s.rcv := by rw [h.eq]

theorem app (h : CtlOnly s s₁) : s₁.app = s.app := by rw [h.eq]

theorem trace (h : CtlOnly s s₁) : s₁.trace = s.trace := by rw [h.eq]

end CtlOnly

variable (cfg : FullTcpConfig) (h : Hooks κ) (s : FullTcpAgent κ)

variable {s} in
theorem setCtl_ctlOnly {f : Ctl κ → Ctl κ}
    (hc : (f s.ctl).needClose = true → s.ctl.needClose = true)
    (hf : (f s.ctl).needFin = true → s.ctl.needFin = true) : CtlOnly s (s.setCtl f) := ⟨rfl, hc, hf⟩

theorem setCong_ctlOnly (c : Cong κ) : CtlOnly s (s.setCong c) := ⟨rfl, id, id⟩

theorem setOther_ctlOnly (k : κ) : CtlOnly s (s.setOther k) := ⟨rfl, id, id⟩

theorem setCwnd_ctlOnly (w : ℚ) : CtlOnly s (s.setCwnd w) := ⟨rfl, id, id⟩

theorem setRtxTimer_ctlOnly : CtlOnly s (s.setRtxTimer h) := ⟨rfl, id, id⟩

theorem cancelRtxTimer_ctlOnly : CtlOnly s s.cancelRtxTimer := ⟨rfl, id, id⟩

theorem cancelTimers_ctlOnly : CtlOnly s s.cancelTimers := ⟨rfl, id, id⟩

/-! ### The segment -/

/-- `maxseg_` as `foutput` uses it. -/
def segsize : Int := if s.snd.maxseg = 0 then cfg.size else s.snd.maxseg

/-- The sequence numbers with that `maxseg_`. -/
def sized : SndSeq := { s.snd with maxseg := s.segsize cfg }

/-- The data `foutput` sends at `seq`, if it sends. -/
def dataLen (seq : Int) : Int :=
  let s := (s.dropDeadline cfg).setMaxseg cfg
  s.segmentLen (s.bytesToSend cfg seq)

theorem setMaxseg_eq : s.setMaxseg cfg = { s with snd := s.sized cfg } := by
  rw [setMaxseg, sized, segsize]
  by_cases hm : s.snd.maxseg = 0
  · rw [if_pos hm, if_pos hm]; rfl
  · rw [if_neg hm, if_neg hm]

/-- The agent as `foutput` starts. -/
theorem prepared_eq : ∃ c : Ctl κ, (s.dropDeadline cfg).setMaxseg cfg =
    { s with snd := s.sized cfg, ctl := c } ∧ c.needClose = s.ctl.needClose ∧
      c.needFin = s.ctl.needFin ∧ c.ackNow = s.ctl.ackNow := by
  rw [setMaxseg_eq, dropDeadline]
  split_ifs
  · exact ⟨_, rfl, rfl, rfl, rfl⟩
  · exact ⟨s.ctl, rfl, rfl, rfl, rfl⟩

variable {cfg s}

theorem segsize_nonneg (hm : 0 ≤ s.snd.maxseg) (hs : 0 ≤ cfg.size) : 0 ≤ s.segsize cfg := by
  rw [segsize]
  split_ifs <;> assumption

theorem bytesToSend_le (hi : s.app.infiniteSend = false) {seq : Int}
    (hseq : ¬ (seq = cfg.iss ∧ cfg.dataOnSyn = false)) :
    seq + s.bytesToSend cfg seq ≤ if s.snd.highestAck < 0 then s.snd.curseq else s.snd.curseq + 1 := by
  simp only [bytesToSend, bufferedBytes, hi]
  rw [if_neg (by simpa using hseq)]
  simp only [Bool.false_eq_true, if_false]
  split_ifs <;> omega

/-- No byte that the application has not handed over. -/
theorem dataLen_le (hi : s.app.infiniteSend = false) {seq : Int} :
    s.dataLen cfg seq ≤ 0 ∨ seq + s.dataLen cfg seq ≤
      if s.snd.highestAck < 0 then s.snd.curseq else s.snd.curseq + 1 := by
  obtain ⟨c, he, -⟩ := prepared_eq cfg s
  rw [dataLen, he]
  by_cases hseq : seq = cfg.iss ∧ cfg.dataOnSyn = false
  · left
    have hb : bytesToSend cfg { s with snd := s.sized cfg, ctl := c } seq = 0 := by
      rw [bytesToSend, if_pos (by simpa using hseq)]
    rw [hb, segmentLen]
    split_ifs <;> omega
  · have hb := bytesToSend_le (s := { s with snd := s.sized cfg, ctl := c }) hi hseq
    simp only [sized] at hb ⊢
    rw [segmentLen]
    split_ifs at hb ⊢ <;> omega

theorem dataLen_nonneg (hm : 0 ≤ s.snd.maxseg) (hs : 0 ≤ cfg.size) (seq : Int) :
    0 ≤ s.dataLen cfg seq := by
  obtain ⟨c, he, -⟩ := prepared_eq cfg s
  rw [dataLen, he, segmentLen]
  have hz : 0 ≤ s.segsize cfg := segsize_nonneg hm hs
  split_ifs
  · exact Int.le_refl 0
  · exact hz
  · omega

/-! ### What `foutput` does -/

/-- The SYN takes a sequence number. -/
def synLen : TcpState → Int
  | .synSent | .synReceived => 1
  | .closed | .listen | .established | .closeWait | .finWait1 | .closing | .lastAck | .finWait2 => 0

/-- A close that is pending can be entered. -/
def CanClose (st : TcpState) : Prop := st.toNat ≤ TcpState.established.toNat ∧ st ≠ .closed

/-- The states in which `outflags` has FIN. -/
def Closes (st : TcpState) : Prop := st = .finWait1 ∨ st = .closing ∨ st = .lastAck

/-- What `foutput` at `seq` can do: `n` is its result, and `o` the segment it sends. -/
structure Out (cfg : FullTcpConfig) (s : FullTcpAgent κ) (seq n : Int) (o : Option Emission)
    (s' : FullTcpAgent κ) : Prop where
  sack : s'.sack = s.sack
  rcv : s'.rcv = s.rcv
  resets : s'.trace.resets = s.trace.resets
  close : s'.ctl.needClose = true → s.ctl.needClose = true ∨ s.app.closeOnEmpty = true
  fin : s'.ctl.needFin = true → s.ctl.needFin = true
  state : s'.state = s.state ∨ s'.state = .finWait1 ∧ CanClose s.state ∧
    (s.ctl.needClose = true ∨ s.app.closeOnEmpty = true)
  snd : s'.snd = { s.sized cfg with
    maxseq := if o.isSome then max s.snd.maxseq (seq + n) else s.snd.maxseq }
  sent : s'.trace.sent = o.toList ++ s.trace.sent
  unsent : o = none → n = 0
  seqno : ∀ e ∈ o, e.seqno = seq
  datalen : ∀ e ∈ o, e.datalen = s.dataLen cfg seq
  emitted : ∀ e ∈ o, e.snd = s.sized cfg ∧ e.infiniteSend = s.app.infiniteSend
  length : ∀ e ∈ o, ∃ f, n = e.datalen + synLen s.state + f ∧
    (f = 0 ∨ f = 1 ∧ (Closes s.state ∨ s'.state ≠ s.state))
  app : s'.app = { s.app with signalOnEmpty := s'.app.signalOnEmpty }
  signal : (s.app.signalOnEmpty = true ∧ s.bufferedBytes cfg = 0 ∧ seq ≠ cfg.iss ∧
      s'.app.signalOnEmpty = false ∧ s'.trace.emptied = s.sized cfg :: s.trace.emptied) ∨
    (¬ (s.app.signalOnEmpty = true ∧ s.bufferedBytes cfg = 0 ∧ seq ≠ cfg.iss) ∧
      s'.app.signalOnEmpty = s.app.signalOnEmpty ∧ s'.trace.emptied = s.trace.emptied)

theorem packetPriority_ctl {seq d : Int} {r : Option Int × FullTcpAgent κ}
    (he : s.packetPriority cfg seq d = some r) : CtlOnly s r.2 := by
  rw [packetPriority] at he
  split at he
  · obtain rfl := Option.some.inj he
    exact .refl s
  split at he
  · split at he
    · obtain rfl := Option.some.inj he
      exact .refl s
    · obtain ⟨p, -, rfl⟩ := Option.map_eq_some_iff.mp he
      exact ⟨rfl, id, id⟩
  · obtain rfl := Option.some.inj he
    exact .refl s

/-- `sendpacket` logs the segment. -/
theorem sendpacket_spec {seq ack d : Int} {pf : TcpFlag} {reason : XmissionReason}
    {s' : FullTcpAgent κ} (he : s.sendpacket cfg h seq ack pf d reason = some s') :
    ∃ prio s₁, CtlOnly s s₁ ∧ s' = { s₁ with trace := { s.trace with
      sent := ⟨seq, ack, pf, d, reason, prio, s.snd, s.app.infiniteSend⟩ :: s.trace.sent } } := by
  obtain ⟨r, hr, rfl⟩ := Option.map_eq_some_iff.mp he
  have hc := packetPriority_ctl hr
  have hp : CtlOnly s (setCtl (if d > 0 then
      (s.setOther (h.onSendpacket s pf (d > 0))).setCtl fun t => { t with lastSendTime := t.now }
      else s.setOther (h.onSendpacket s pf (d > 0))) fun t => { t with lastAckSent := ack }) := by
    split_ifs <;> exact ⟨rfl, id, id⟩
  have hr := hp.trans hc
  refine ⟨r.1, r.2, hr, ?_⟩
  simp only [hr.snd, hr.app, hr.trace]

/-- `maxseq_` is moved up to the end of what is sent. -/
theorem noteSent_spec (cfg : FullTcpConfig) (s : FullTcpAgent κ) (seq n : Int) (rt : Bool) :
    ∃ c, s.noteSent cfg h seq n rt =
      { s with snd := { s.snd with maxseq := max s.snd.maxseq (seq + n) }, ctl := c } ∧
      c.needClose = s.ctl.needClose ∧ c.needFin = s.ctl.needFin := by
  have hmax : seq + n > s.snd.maxseq → max s.snd.maxseq (seq + n) = seq + n := fun hm => by omega
  have hmax' : ¬ seq + n > s.snd.maxseq → max s.snd.maxseq (seq + n) = s.snd.maxseq :=
    fun hm => by omega
  simp only [noteSent]
  split_ifs with h₁ h₂ h₃ h₄ <;>
    first
      | (rw [hmax h₁]; exact ⟨_, rfl, rfl, rfl⟩)
      | (rw [hmax' h₁]; exact ⟨_, rfl, rfl, rfl⟩)

/-- A close that is pending is taken. -/
theorem takeClose_spec (s : FullTcpAgent κ) (pf : TcpFlag) (fin : Bool) :
    ∃ s₁, CtlOnly s s₁ ∧
      ((s.takeClose pf fin).2 = (fin, s₁) ∨
        CanClose s.state ∧ s.ctl.needClose = true ∧
          (s.takeClose pf fin).2 = (true, s₁.newstate .finWait1)) := by
  simp only [takeClose]
  split_ifs with hc hs
  · exact ⟨s.setCtl fun t => { t with needClose := false }, ⟨rfl, by simp [setCtl], id⟩,
      .inr ⟨hs, hc, rfl⟩⟩
  · exact ⟨s.setCtl fun t => { t with needClose := false }, ⟨rfl, by simp [setCtl], id⟩, .inl rfl⟩
  · exact ⟨s, .refl s, .inl rfl⟩

/-- The segment `e` has been sent, and `maxseq_` is at least `top`. -/
structure Sends (s : FullTcpAgent κ) (e : Emission) (top : Int) (s' : FullTcpAgent κ) : Prop where
  eq : s' = { s with
    snd := { s.snd with maxseq := max s.snd.maxseq top }
    ctl := s'.ctl
    trace := { s.trace with sent := e :: s.trace.sent } }
  close : s'.ctl.needClose = true → s.ctl.needClose = true
  fin : s'.ctl.needFin = true → s.ctl.needFin = true
  snd : e.snd = s.snd
  infiniteSend : e.infiniteSend = s.app.infiniteSend

theorem Sends.of_ctlOnly {s₁ s' : FullTcpAgent κ} {e : Emission} {top : Int} (hc : CtlOnly s s₁)
    (hs : s₁.Sends e top s') : s.Sends e top s' := by
  refine ⟨?_, hc.close ∘ hs.close, hc.fin ∘ hs.fin, ?_, ?_⟩
  · rw [hs.eq, hc.eq]
  · rw [hs.snd, hc.snd]
  · rw [hs.infiniteSend, hc.app]

theorem sendpacket_sends {seq ack d : Int} {pf : TcpFlag} {reason : XmissionReason}
    {s₁ : FullTcpAgent κ} (he : s.sendpacket cfg h seq ack pf d reason = some s₁) (n : Int)
    (rt : Bool) :
    ∃ e, s.Sends e (seq + n) (s₁.noteSent cfg h seq n rt) ∧ e.seqno = seq ∧ e.datalen = d := by
  obtain ⟨prio, s₂, hc, rfl⟩ := sendpacket_spec h he
  obtain ⟨c, hns, hcl, hfin⟩ := noteSent_spec h cfg { s₂ with trace := { s.trace with
    sent := ⟨seq, ack, pf, d, reason, prio, s.snd, s.app.infiniteSend⟩ :: s.trace.sent } } seq n rt
  refine ⟨⟨seq, ack, pf, d, reason, prio, s.snd, s.app.infiniteSend⟩, ⟨?_, ?_, ?_, rfl, rfl⟩, rfl,
    rfl⟩
  · rw [hns, hc.eq]
  · rw [hns]
    exact fun hx => hc.close (hcl ▸ hx)
  · rw [hns]
    exact fun hx => hc.fin (hfin ▸ hx)

/-- `foutput` from `send:` on. -/
theorem transmit_spec {seq d n : Int} {pf : TcpFlag} {reason : XmissionReason}
    {s' : FullTcpAgent κ} (he : s.transmit cfg h seq d pf reason = some (n, s')) :
    ∃ e f, e.seqno = seq ∧ e.datalen = d ∧
      n = d + (if containsAll pf TcpFlag.syn then 1 else 0) + f ∧
      (s.Sends e (seq + n) s' ∧ f = (if containsAll pf TcpFlag.fin then 1 else 0) ∨
        (s.newstate .finWait1).Sends e (seq + n) s' ∧ CanClose s.state ∧
          s.ctl.needClose = true ∧ f = 1) := by
  obtain ⟨s₃, hsp, heq⟩ := Option.map_eq_some_iff.mp he
  obtain ⟨hn, hs'⟩ := Prod.mk.inj heq
  obtain ⟨e, hs, hseq, hd⟩ := sendpacket_sends h hsp n (decide (seq < s.snd.maxseq))
  rw [hn] at hs'
  rw [hs'] at hs
  obtain ⟨s₂, hc₂, ht⟩ := takeClose_spec (s.setOther _) _ (containsAll pf TcpFlag.fin)
  have hc := (setOther_ctlOnly s _).trans hc₂
  rcases ht with ht | ⟨hcan, hcl, ht⟩
  · rw [ht] at hn hs
    exact ⟨e, _, hseq, hd, hn.symm, .inl ⟨hs.of_ctlOnly hc, rfl⟩⟩
  · rw [ht] at hn hs
    refine ⟨e, _, hseq, hd, hn.symm, .inr ⟨?_, hcan, hcl, rfl⟩⟩
    have hc' : CtlOnly (s.newstate .finWait1) (s₂.newstate .finWait1) := by
      refine ⟨?_, hc.close, hc.fin⟩
      rw [hc.eq]
      rfl
    exact hs.of_ctlOnly hc'

/-- A change of the control that makes a close pending only for `close_on_empty_`. -/
theorem Out.setCtl {seq : Int} {s₁ s₂ : FullTcpAgent κ} (ho : Out cfg s seq 0 none s₁)
    (he : s₂ = { s₁ with ctl := s₂.ctl })
    (hc : s₂.ctl.needClose = true → s₁.ctl.needClose = true ∨ s₁.app.closeOnEmpty = true)
    (hf : s₂.ctl.needFin = true → s₁.ctl.needFin = true) : Out cfg s seq 0 none s₂ := by
  obtain ⟨st, snd, sack, rcv, app, ctl, trace⟩ := s₂
  obtain ⟨rfl, rfl, rfl, rfl, rfl, -, rfl⟩ := FullTcpAgent.mk.injEq .. ▸ he
  refine { ho with close := fun hx => ?_, fin := ho.fin ∘ hf }
  rcases hc hx with hx | hx
  · exact ho.close hx
  · rw [ho.app] at hx
    exact .inr hx

/-- The signal to the application. -/
theorem out_signal {seq : Int} {c : Ctl κ} (hcl : c.needClose = s.ctl.needClose)
    (hfin : c.needFin = s.ctl.needFin) :
    Out cfg s seq 0 none
      (if s.app.signalOnEmpty = true ∧ s.bufferedBytes cfg = 0 ∧ seq ≠ cfg.iss then
        bufferempty { s with snd := s.sized cfg, ctl := c }
      else { s with snd := s.sized cfg, ctl := c }) := by
  by_cases hsig : s.app.signalOnEmpty = true ∧ s.bufferedBytes cfg = 0 ∧ seq ≠ cfg.iss
  · rw [if_pos hsig]
    exact ⟨rfl, rfl, rfl, fun hx => .inl (hcl ▸ hx), fun hx => hfin ▸ hx, .inl rfl, rfl, rfl,
      fun _ => rfl, by simp, by simp, by simp, by simp, rfl,
      .inl ⟨hsig.1, hsig.2.1, hsig.2.2, rfl, rfl⟩⟩
  · rw [if_neg hsig]
    exact ⟨rfl, rfl, rfl, fun hx => .inl (hcl ▸ hx), fun hx => hfin ▸ hx, .inl rfl, rfl, rfl,
      fun _ => rfl, by simp, by simp, by simp, by simp, rfl, .inr ⟨hsig, rfl, rfl⟩⟩

/-- The flags of a segment, before a close is taken. -/
theorem pflags_spec (s : FullTcpAgent κ) (em : Bool) (c : Prop) [Decidable c] :
    containsAll (if c then
        (if em = true then s.outflags ||| TcpFlag.push else s.outflags &&& ~~~TcpFlag.fin) |||
          TcpFlag.push
      else if em = true then s.outflags ||| TcpFlag.push else s.outflags &&& ~~~TcpFlag.fin)
      TcpFlag.syn = decide (synLen s.state = 1) ∧
    (containsAll (if c then
        (if em = true then s.outflags ||| TcpFlag.push else s.outflags &&& ~~~TcpFlag.fin) |||
          TcpFlag.push
      else if em = true then s.outflags ||| TcpFlag.push else s.outflags &&& ~~~TcpFlag.fin)
      TcpFlag.fin = true → Closes s.state) := by
  rw [outflags]
  by_cases hc : c <;> cases em <;> cases s.state <;> simp only [hc] <;> simp [Closes] <;> decide

/-- `foutput` up to `send:`, and what it does then. -/
theorem foutput_eq (cfg : FullTcpConfig) (h : Hooks κ) (s : FullTcpAgent κ) (seq : Int)
    (reason : XmissionReason) :
    ∃ s₃ pf, Out cfg s seq 0 none s₃ ∧ s₃.state = s.state ∧
      containsAll pf TcpFlag.syn = decide (synLen s.state = 1) ∧
      (containsAll pf TcpFlag.fin = true → Closes s.state) ∧
      (s.foutput cfg h seq reason = s₃.transmit cfg h seq (s.dataLen cfg seq) pf reason ∨
        s.ctl.ackNow = false ∧ s.foutput cfg h seq reason = some (0, s₃)) := by
  obtain ⟨c, he, hcl, hfin, hack⟩ := prepared_eq cfg s
  -- `s₁`: the buffer may have been empty, and the application told so
  obtain ⟨s₁, hs₁, ho₁, hst₁⟩ : ∃ s₁, s₁ = (if s.app.signalOnEmpty = true ∧
      s.bufferedBytes cfg = 0 ∧ seq ≠ cfg.iss then
        bufferempty { s with snd := s.sized cfg, ctl := c }
      else { s with snd := s.sized cfg, ctl := c }) ∧ Out cfg s seq 0 none s₁ ∧
        s₁.state = s.state :=
    ⟨_, rfl, out_signal hcl hfin, by split_ifs <;> rfl⟩
  have hack₁ : s₁.ctl.ackNow = s.ctl.ackNow := by
    rw [hs₁, ← hack]
    split_ifs <;> rfl
  have hlen : s₁.segmentLen
      (bytesToSend cfg { s with snd := s.sized cfg, ctl := c } seq) = s.dataLen cfg seq := by
    rw [dataLen, he, hs₁]
    split_ifs <;> rfl
  have hs₁' : (if s.app.signalOnEmpty = true ∧
      bufferedBytes cfg { s with snd := s.sized cfg, ctl := c } = 0 ∧
        (!decide (seq = cfg.iss)) = true then
        bufferempty { s with snd := s.sized cfg, ctl := c }
      else { s with snd := s.sized cfg, ctl := c }) = s₁ := by
    rw [hs₁]
    simp only [Bool.not_eq_true', decide_eq_false_iff_not]
    rfl
  simp only [foutput, he, hs₁', hlen]
  -- `s₂`: the window may have been shut after an idle time
  obtain ⟨s₂, hs₂⟩ : ∃ s₂, (if cfg.slowStartRestart = true ∧
      decide ((s.sized cfg).highestAck = (s.sized cfg).maxseq) = true ∧ s.dataLen cfg seq > 0 ∧
        h.idleRestart s₁ = true then s₁.setCong (h.slowdown [.cwndInit] s₁) else s₁) = s₂ :=
    ⟨_, rfl⟩
  have hc₂ : CtlOnly s₁ s₂ := by
    rw [← hs₂]
    exact .ite (setCong_ctlOnly s₁ _) (.refl s₁)
  have hack₂ : s₂.ctl.ackNow = s.ctl.ackNow := by
    rw [← hs₂, ← hack₁]
    split_ifs <;> rfl
  have ho₂ := ho₁.setCtl hc₂.eq (fun hx => .inl (hc₂.close hx)) hc₂.fin
  simp only [hs₂]
  generalize decide ((!s₂.app.infiniteSend) = true ∧ (seq + s.dataLen cfg seq > s₂.snd.curseq ∨
    decide (seq = cfg.iss) = true ∧ s.dataLen cfg seq = 0)) = em
  -- `s₃`: a close may be pending once the segment empties the buffer
  obtain ⟨s₃, hs₃⟩ : ∃ s₃, (if em = true ∧ (!decide (seq = cfg.iss)) = true ∧
      s₂.app.closeOnEmpty = true ∧ decide ((s.sized cfg).highestAck = (s.sized cfg).maxseq) = true
      then s₂.setCtl fun t => { t with needClose := true } else s₂) = s₃ := ⟨_, rfl⟩
  have ho₃ : Out cfg s seq 0 none s₃ ∧ s₃.state = s₂.state := by
    rw [← hs₃]
    split_ifs with hem
    · exact ⟨ho₂.setCtl rfl (fun _ => .inr hem.2.2.1) id, rfl⟩
    · exact ⟨ho₂, rfl⟩
  have hack₃ : s₃.ctl.ackNow = s.ctl.ackNow := by
    rw [← hs₃, ← hack₂]
    split_ifs <;> rfl
  have hst : s₃.state = s.state := by rw [ho₃.2, hc₂.state, hst₁]
  obtain ⟨hsyn, hfin⟩ := pflags_spec s₃ em
    (s₃.app.infiniteSend = true ∧ decide (seq = cfg.iss) = true ∧ s.dataLen cfg seq = 0)
  rw [hst] at hsyn hfin
  simp only [hs₃]
  refine ⟨s₃, _, ho₃.1, hst, hsyn, hfin, ?_⟩
  cases ha : s.ctl.ackNow with
  | false => exact (ite_eq_or_eq _ _ _).imp_right fun e => ⟨rfl, e⟩
  | true =>
      refine .inl (if_pos ?_)
      rw [wantsSend, decide_eq_true_eq, hack₃, ha]
      exact .inr (.inr (.inl rfl))

/-- The segment is sent, from the state `st`. -/
theorem Out.sends {seq n f : Int} {s₃ s' : FullTcpAgent κ} {e : Emission} {st : TcpState}
    (ho : Out cfg s seq 0 none s₃) (hs : (s₃.newstate st).Sends e (seq + n) s')
    (hst : st = s.state ∨ st = .finWait1 ∧ CanClose s.state ∧
      (s.ctl.needClose = true ∨ s.app.closeOnEmpty = true))
    (hseq : e.seqno = seq) (hd : e.datalen = s.dataLen cfg seq)
    (hn : n = e.datalen + synLen s.state + f)
    (hf : f = 0 ∨ f = 1 ∧ (Closes s.state ∨ st ≠ s.state)) : Out cfg s seq n (some e) s' := by
  have hsnd := ho.snd
  have hsent := ho.sent
  have heq := hs.eq
  have happ : s'.app = s₃.app := by rw [heq]; rfl
  refine ⟨?_, ?_, ?_, ho.close ∘ hs.close, ho.fin ∘ hs.fin, ?_, ?_, ?_, by simp, ?_, ?_, ?_, ?_, ?_,
    ?_⟩
  · rw [heq]
    exact ho.sack
  · rw [heq]
    exact ho.rcv
  · rw [heq]
    exact ho.resets
  · rw [heq]
    exact hst
  · rw [heq]
    show { s₃.snd with maxseq := max s₃.snd.maxseq (seq + n) } = _
    rw [hsnd]
    rfl
  · rw [heq]
    show e :: s₃.trace.sent = _
    rw [hsent]
    rfl
  · simpa using hseq
  · simpa using hd
  · have h₁ := hs.snd
    have h₂ := hs.infiniteSend
    have h₃ : s₃.snd = s.sized cfg := hsnd
    have h₄ : s₃.app.infiniteSend = s.app.infiniteSend := by rw [ho.app]
    simp only [newstate] at h₁ h₂
    simp [h₁, h₂, h₃, h₄]
  · intro e' he'
    obtain rfl := Option.some.inj he'
    have hst' : s'.state = st := by rw [heq]; rfl
    exact ⟨f, hn, by rwa [hst']⟩
  · rw [happ]
    exact ho.app
  · rw [happ]
    have htr : s'.trace.emptied = s₃.trace.emptied := by rw [heq]; rfl
    rw [htr]
    exact ho.signal

/-- **What `foutput` does.** -/
theorem foutput_out {seq n : Int} {reason : XmissionReason} {s' : FullTcpAgent κ}
    (he : s.foutput cfg h seq reason = some (n, s')) : ∃ o, Out cfg s seq n o s' := by
  obtain ⟨s₃, pf, ho, hst, hsyn, hfin, heq⟩ := foutput_eq cfg h s seq reason
  rcases heq with heq | ⟨-, heq⟩
  · rw [he] at heq
    obtain ⟨e, f, hseq, hd, hn, hs⟩ := transmit_spec h heq.symm
    have hlen : (if containsAll pf TcpFlag.syn = true then 1 else 0) = synLen s.state := by
      rw [hsyn]
      cases s.state <;> rfl
    rw [hlen, ← hd] at hn
    rcases hs with ⟨hs, hf⟩ | ⟨hs, hcan, hcl, hf⟩
    · refine ⟨some e, ho.sends hs (.inl hst) hseq hd hn ?_⟩
      by_cases hc : containsAll pf TcpFlag.fin = true
      · rw [if_pos hc] at hf
        exact .inr ⟨hf, .inl (hfin hc)⟩
      · rw [if_neg hc] at hf
        exact .inl hf
    · rw [hst] at hcan
      refine ⟨some e, ho.sends hs (.inr ⟨rfl, hcan, ho.close hcl⟩) hseq hd hn ?_⟩
      refine .inr ⟨hf, .inr fun hx => ?_⟩
      rw [← hx] at hcan
      exact absurd hcan.1 (by decide)
  · rw [he] at heq
    obtain ⟨rfl, rfl⟩ := Prod.mk.inj (Option.some.inj heq)
    exact ⟨none, ho⟩

end FullTcpAgent

end Afabric
