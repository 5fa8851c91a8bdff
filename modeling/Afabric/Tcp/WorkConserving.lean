import Afabric.Tcp.SendMuch

/-!
# Tcp — where `send_much` stops

In a connection that is established, outside recovery and without probing, the loop of `send_much`
stops in one of three places: at the last byte of the application, at the edge of the window, or
short of the edge by less than a segment, where `foutput` avoids a silly window
(`send_much_conserves`).

`foutput` is taken apart into its stages (`foutput_stages`).  What they leave alone of the agent is
`Steady`; the window changes at a restart after idle time only, and then a full segment is sent.
-/

namespace Afabric

namespace FullTcpAgent

variable {κ : Type}

/-! ### The stages of `foutput` -/

section Stages

variable (cfg : FullTcpConfig) (h : Hooks κ) (s : FullTcpAgent κ)

/-- The signal to the application. -/
def signalled (seq : Int) : FullTcpAgent κ :=
  if s.app.signalOnEmpty ∧ s.bufferedBytes cfg = 0 ∧ !decide (seq = cfg.iss) then s.bufferempty
  else s

/-- The restart after idle time. -/
def restarted (quiet : Bool) (datalen : Int) : FullTcpAgent κ :=
  if cfg.slowStartRestart ∧ quiet ∧ datalen > 0 ∧ h.idleRestart s then
    s.setCong (h.slowdown [.cwndInit] s) else s

/-- Whether the segment empties the send buffer. -/
def emptying (seq datalen : Int) : Bool :=
  !s.app.infiniteSend ∧ (seq + datalen > s.snd.curseq ∨ (decide (seq = cfg.iss) ∧ datalen = 0))

/-- The close that an empty send buffer asks for. -/
def closeEmptied (seq : Int) (quiet emptying : Bool) : FullTcpAgent κ :=
  if emptying ∧ !decide (seq = cfg.iss) ∧ s.app.closeOnEmpty ∧ quiet then
    s.setCtl fun t => { t with needClose := true } else s

/-- The flags of the segment. -/
def pflags (seq datalen : Int) (emptying : Bool) : TcpFlag :=
  let pflags := if emptying then s.outflags ||| TcpFlag.push else s.outflags &&& ~~~TcpFlag.fin
  if s.app.infiniteSend ∧ decide (seq = cfg.iss) ∧ datalen = 0 then pflags ||| TcpFlag.push
  else pflags

/-- **`foutput` in stages.** -/
theorem foutput_stages (seq : Int) (reason : XmissionReason) :
    s.foutput cfg h seq reason =
      let s₀ := (s.dropDeadline cfg).setMaxseg cfg
      let quiet := decide (s₀.snd.highestAck = s₀.snd.maxseq)
      let s₁ := s₀.signalled cfg seq
      let datalen := s₁.segmentLen (s₀.bytesToSend cfg seq)
      let s₂ := s₁.restarted cfg h quiet datalen
      let em := s₂.emptying cfg seq datalen
      let s₃ := s₂.closeEmptied cfg seq quiet em
      let pf := s₃.pflags cfg seq datalen em
      if s₃.wantsSend cfg seq datalen pf em then s₃.transmit cfg h seq datalen pf reason
      else some (0, s₃) := rfl

end Stages

/-- What the stages leave as it is. -/
structure Steady (s s' : FullTcpAgent κ) : Prop where
  state : s'.state = s.state
  snd : s'.snd = s.snd
  infinite : s'.app.infiniteSend = s.app.infiniteSend
  pipectrl : s'.ctl.pipectrl = s.ctl.pipectrl
  probe : s'.ctl.probMode = s.ctl.probMode

theorem Steady.refl (s : FullTcpAgent κ) : Steady s s := ⟨rfl, rfl, rfl, rfl, rfl⟩

theorem Steady.trans {s₁ s₂ s₃ : FullTcpAgent κ} (h₁ : Steady s₁ s₂) (h₂ : Steady s₂ s₃) :
    Steady s₁ s₃ :=
  ⟨h₂.state.trans h₁.state, h₂.snd.trans h₁.snd, h₂.infinite.trans h₁.infinite,
    h₂.pipectrl.trans h₁.pipectrl, h₂.probe.trans h₁.probe⟩

variable {cfg : FullTcpConfig} {h : Hooks κ} {s s' : FullTcpAgent κ}

theorem prepared_steady (cfg : FullTcpConfig) (hm : s.snd.maxseg ≠ 0) :
    Steady s ((s.dropDeadline cfg).setMaxseg cfg) ∧
      ((s.dropDeadline cfg).setMaxseg cfg).ctl.cong = s.ctl.cong ∧
      ((s.dropDeadline cfg).setMaxseg cfg).ctl.needClose = s.ctl.needClose := by
  have hdrop : Steady s (s.dropDeadline cfg) ∧ (s.dropDeadline cfg).ctl.cong = s.ctl.cong ∧
      (s.dropDeadline cfg).ctl.needClose = s.ctl.needClose := by
    simp only [dropDeadline]
    split_ifs <;> exact ⟨⟨rfl, rfl, rfl, rfl, rfl⟩, rfl, rfl⟩
  have hset : (s.dropDeadline cfg).setMaxseg cfg = s.dropDeadline cfg := by
    rw [setMaxseg, hdrop.1.snd, if_neg hm]
  rwa [hset]

theorem signalled_steady (cfg : FullTcpConfig) (s : FullTcpAgent κ) (seq : Int) :
    Steady s (s.signalled cfg seq) ∧
      (s.signalled cfg seq).ctl = s.ctl := by
  rw [signalled]
  split_ifs <;> exact ⟨⟨rfl, rfl, rfl, rfl, rfl⟩, rfl⟩

theorem restarted_steady (cfg : FullTcpConfig) (h : Hooks κ) (s : FullTcpAgent κ) (quiet : Bool)
    (datalen : Int) :
    Steady s (s.restarted cfg h quiet datalen) ∧
      (s.restarted cfg h quiet datalen).ctl.needClose = s.ctl.needClose ∧
      (¬ (quiet = true ∧ datalen > 0) →
        (s.restarted cfg h quiet datalen).ctl.cong = s.ctl.cong) := by
  rw [restarted]
  split_ifs with hc
  · exact ⟨⟨rfl, rfl, rfl, rfl, rfl⟩, rfl, fun hn => absurd ⟨hc.2.1, hc.2.2.1⟩ hn⟩
  · exact ⟨.refl s, rfl, fun _ => rfl⟩

theorem closeEmptied_steady (cfg : FullTcpConfig) (s : FullTcpAgent κ) (seq : Int)
    (quiet em : Bool) :
    Steady s (s.closeEmptied cfg seq quiet em) ∧
      (s.closeEmptied cfg seq quiet em).ctl.cong = s.ctl.cong ∧
      ((s.closeEmptied cfg seq quiet em).ctl.needClose = true →
        s.ctl.needClose = true ∨ em = true) := by
  rw [closeEmptied]
  split_ifs with hc
  · exact ⟨⟨rfl, rfl, rfl, rfl, rfl⟩, rfl, fun _ => .inr hc.1⟩
  · exact ⟨.refl s, rfl, .inl⟩

/-- What a change of the control leaves of the window and the modes. -/
structure SameGate (s s' : FullTcpAgent κ) : Prop where
  cwnd : s'.ctl.cong.cwnd = s.ctl.cong.cwnd
  pipectrl : s'.ctl.pipectrl = s.ctl.pipectrl
  probe : s'.ctl.probMode = s.ctl.probMode
  close : s'.ctl.needClose = s.ctl.needClose

theorem SameGate.trans {s₁ s₂ s₃ : FullTcpAgent κ} (h₁ : SameGate s₁ s₂) (h₂ : SameGate s₂ s₃) :
    SameGate s₁ s₃ :=
  ⟨h₂.cwnd.trans h₁.cwnd, h₂.pipectrl.trans h₁.pipectrl, h₂.probe.trans h₁.probe,
    h₂.close.trans h₁.close⟩

theorem sendpacket_gate {seq ack d : Int} {pf : TcpFlag} {reason : XmissionReason}
    (he : s.sendpacket cfg h seq ack pf d reason = some s') : SameGate s s' := by
  obtain ⟨r, hr, rfl⟩ := Option.map_eq_some_iff.mp he
  have hprio : ∀ {t : FullTcpAgent κ} {r : Option Int × FullTcpAgent κ},
      t.packetPriority cfg seq d = some r → SameGate t r.2 := by
    intro t r hr
    rw [packetPriority] at hr
    split at hr
    · obtain rfl := Option.some.inj hr
      exact ⟨rfl, rfl, rfl, rfl⟩
    split at hr
    · split at hr
      · obtain rfl := Option.some.inj hr
        exact ⟨rfl, rfl, rfl, rfl⟩
      · obtain ⟨p, -, rfl⟩ := Option.map_eq_some_iff.mp hr
        exact ⟨rfl, rfl, rfl, rfl⟩
    · obtain rfl := Option.some.inj hr
      exact ⟨rfl, rfl, rfl, rfl⟩
  have hsend : SameGate s (setCtl (if d > 0 then
      (s.setOther (h.onSendpacket s pf (d > 0))).setCtl fun t => { t with lastSendTime := t.now }
      else s.setOther (h.onSendpacket s pf (d > 0))) fun t => { t with lastAckSent := ack }) := by
    split_ifs <;> exact ⟨rfl, rfl, rfl, rfl⟩
  have hg := hsend.trans (hprio hr)
  exact ⟨hg.cwnd, hg.pipectrl, hg.probe, hg.close⟩

theorem noteSent_gate (s : FullTcpAgent κ) (seq n : Int) (rt : Bool) :
    SameGate s (s.noteSent cfg h seq n rt) := by
  simp only [noteSent]
  split_ifs <;> exact ⟨rfl, rfl, rfl, rfl⟩

/-- What `send:` leaves of the window and the modes; a close that was pending has been taken. -/
theorem transmit_gate {seq d n : Int} {pf : TcpFlag} {reason : XmissionReason}
    (he : s.transmit cfg h seq d pf reason = some (n, s')) :
    s'.ctl.cong.cwnd = s.ctl.cong.cwnd ∧ s'.ctl.pipectrl = s.ctl.pipectrl ∧
      s'.ctl.probMode = s.ctl.probMode ∧ s'.ctl.needClose = false := by
  obtain ⟨s₁, hsp, heq⟩ := Option.map_eq_some_iff.mp he
  obtain ⟨-, rfl⟩ := Prod.mk.inj heq
  have hclose : ∀ (t : FullTcpAgent κ) (pf : TcpFlag) (fin : Bool),
      (t.takeClose pf fin).2.2.ctl.cong.cwnd = t.ctl.cong.cwnd ∧
        (t.takeClose pf fin).2.2.ctl.pipectrl = t.ctl.pipectrl ∧
        (t.takeClose pf fin).2.2.ctl.probMode = t.ctl.probMode ∧
        (t.takeClose pf fin).2.2.ctl.needClose = false := by
    intro t pf fin
    simp only [takeClose]
    split_ifs with hc
    · exact ⟨rfl, rfl, rfl, rfl⟩
    · exact ⟨rfl, rfl, rfl, rfl⟩
    · exact ⟨rfl, rfl, rfl, Bool.not_eq_true _ ▸ hc⟩
  have hg : ∀ n rt, SameGate _ (s₁.noteSent cfg h seq n rt) :=
    fun n rt => (sendpacket_gate hsp).trans (noteSent_gate s₁ seq n rt)
  exact ⟨(hg _ _).cwnd.trans (hclose _ _ _).1, (hg _ _).pipectrl.trans (hclose _ _ _).2.1,
    (hg _ _).probe.trans (hclose _ _ _).2.2.1, (hg _ _).close.trans (hclose _ _ _).2.2.2⟩

theorem bytesToSend_congr {t : FullTcpAgent κ} (hs : Steady s t) (hc : t.ctl.cong = s.ctl.cong)
    (seq : Int) : t.bytesToSend cfg seq = s.bytesToSend cfg seq := by
  have hbuf : t.bufferedBytes cfg = s.bufferedBytes cfg := by
    rw [bufferedBytes, bufferedBytes, hs.infinite, hs.snd]
  have hwin : t.winBytes cfg = s.winBytes cfg := by
    rw [winBytes, winBytes, window, window, hc, hs.snd, hs.probe]
  rw [bytesToSend, bytesToSend, hbuf, hwin, hs.snd, hs.pipectrl]

theorem segmentLen_congr {t : FullTcpAgent κ} (hs : t.snd = s.snd) (d : Int) :
    t.segmentLen d = s.segmentLen d := by rw [segmentLen, segmentLen, hs]

/-- **What `foutput` decides on.**  `t` is the agent as it is when `foutput` decides. -/
structure Decides (cfg : FullTcpConfig) (s : FullTcpAgent κ) (seq d : Int) (em : Bool)
    (t : FullTcpAgent κ) : Prop where
  steady : Steady s t
  datalen : d = s.segmentLen (s.bytesToSend cfg seq)
  empties : em = s.emptying cfg seq d
  cong : ¬ (s.snd.highestAck = s.snd.maxseq ∧ 0 < d) → t.ctl.cong = s.ctl.cong
  close : t.ctl.needClose = true → s.ctl.needClose = true ∨ em = true

theorem foutput_decides (hm : s.snd.maxseg ≠ 0) {seq n : Int} {reason : XmissionReason}
    (he : s.foutput cfg h seq reason = some (n, s')) :
    ∃ d em t, Decides cfg s seq d em t ∧
      (t.transmit cfg h seq d (t.pflags cfg seq d em) reason = some (n, s') ∨
        t.wantsSend cfg seq d (t.pflags cfg seq d em) em = false ∧ n = 0 ∧ s' = t) := by
  rw [foutput_stages] at he
  obtain ⟨s₀, hs₀⟩ : ∃ s₀, (s.dropDeadline cfg).setMaxseg cfg = s₀ := ⟨_, rfl⟩
  have h₀ := prepared_steady cfg hm
  rw [hs₀] at h₀ he
  obtain ⟨hst₀, hc₀, hn₀⟩ := h₀
  obtain ⟨hst₁, hc₁⟩ := signalled_steady cfg s₀ seq
  have hd : (s₀.signalled cfg seq).segmentLen (s₀.bytesToSend cfg seq) =
      s.segmentLen (s.bytesToSend cfg seq) := by
    rw [segmentLen_congr (hst₁.snd.trans hst₀.snd), bytesToSend_congr hst₀ hc₀]
  dsimp only at he
  rw [hd] at he
  obtain ⟨d, hdd⟩ : ∃ d, s.segmentLen (s.bytesToSend cfg seq) = d := ⟨_, rfl⟩
  obtain ⟨quiet, hq⟩ : ∃ q, decide (s₀.snd.highestAck = s₀.snd.maxseq) = q := ⟨_, rfl⟩
  rw [hdd, hq] at he
  obtain ⟨hst₂, hn₂, hc₂⟩ := restarted_steady cfg h (s₀.signalled cfg seq) quiet d
  obtain ⟨s₂, hs₂⟩ : ∃ t, (s₀.signalled cfg seq).restarted cfg h quiet d = t := ⟨_, rfl⟩
  rw [hs₂] at he hst₂ hn₂ hc₂
  have hst := (hst₀.trans hst₁).trans hst₂
  have hem : s₂.emptying cfg seq d = s.emptying cfg seq d := by
    rw [emptying, emptying, hst.infinite, hst.snd]
  rw [hem] at he
  obtain ⟨hst₃, hc₃, hn₃⟩ := closeEmptied_steady cfg s₂ seq quiet (s.emptying cfg seq d)
  refine ⟨d, s.emptying cfg seq d, s₂.closeEmptied cfg seq quiet (s.emptying cfg seq d),
    ⟨hst.trans hst₃, hdd.symm, rfl, fun hnq => ?_, fun hx => ?_⟩, ?_⟩
  · -- the restart is for a quiet connection
    have hno : ¬ (quiet = true ∧ d > 0) := by
      intro hx
      rw [← hq, decide_eq_true_eq, hst₀.snd] at hx
      exact hnq hx
    rw [hc₃, hc₂ hno, hc₁, hc₀]
  · refine (hn₃ hx).imp (fun hx => ?_) id
    rw [hn₂, hc₁, hn₀] at hx
    exact hx
  · split_ifs at he with hw
    · exact .inl he
    · obtain ⟨rfl, rfl⟩ := Prod.mk.inj (Option.some.inj he)
      exact .inr ⟨Bool.not_eq_true _ ▸ hw, rfl, rfl⟩

/-! ### Where the loop stops -/

/-- An established sender outside recovery and without probing, with its sequence numbers in
order: the SYN is acknowledged. -/
structure Ready (cfg : FullTcpConfig) (s : FullTcpAgent κ) : Prop where
  state : s.state = .established
  floor : 0 ≤ s.snd.highestAck
  syn : cfg.iss < s.snd.highestAck
  next : s.snd.highestAck ≤ s.snd.tSeqno
  sent : s.snd.tSeqno ≤ s.snd.maxseq
  maxseg : 0 < s.snd.maxseg
  segment : s.app.infiniteSend = true → s.snd.maxseg ≤ 1073741824
  recovered : s.snd.recover ≤ s.snd.highestAck
  pipectrl : s.ctl.pipectrl = false
  probe : s.ctl.probMode = false
  close : s.ctl.needClose = false

/-- The edge of the window; an infinite sender has `TCP_MAXSEQ` bytes at most. -/
def edge (cfg : FullTcpConfig) (s : FullTcpAgent κ) : Int :=
  s.snd.highestAck + if s.app.infiniteSend then min (s.window cfg * s.snd.maxseg) 1073741824
    else s.window cfg * s.snd.maxseg

/-- Less than a segment is left of the window, and less than half of the largest window: the sender
avoids a silly window. -/
structure SillyWindow (cfg : FullTcpConfig) (s : FullTcpAgent κ) : Prop where
  fresh : s.snd.maxseq ≤ s.snd.tSeqno
  segment : s.edge cfg - s.snd.tSeqno < s.snd.maxseg
  half : ((s.edge cfg - s.snd.tSeqno : Int) : ℚ) < cfg.wnd * s.snd.maxseg / 2

/-- All bytes before the last have been sent, or the window is used up, or what is left of it is
silly. -/
def Conserved (cfg : FullTcpConfig) (s : FullTcpAgent κ) : Prop :=
  s.snd.curseq ≤ s.snd.maxseq ∨ s.edge cfg ≤ s.snd.tSeqno ∨ SillyWindow cfg s

/-- What `foutput` may send at `t_seqno_`. -/
theorem Ready.bytesToSend (hr : Ready cfg s) :
    s.bytesToSend cfg s.snd.tSeqno =
      if s.app.infiniteSend then s.edge cfg - s.snd.tSeqno
      else min (s.snd.curseq + 1) (s.edge cfg) - s.snd.tSeqno := by
  have hne : ¬ (s.snd.tSeqno = cfg.iss ∧ (!cfg.dataOnSyn) = true) := by
    have h₁ := hr.syn
    have h₂ := hr.next
    omega
  have hfl : ¬ s.snd.highestAck < 0 := not_lt.mpr hr.floor
  simp only [FullTcpAgent.bytesToSend, bufferedBytes, winBytes, edge, hr.pipectrl, hr.probe]
  rw [if_neg hne, if_neg hfl]
  simp only [Bool.false_eq_true, false_and, if_false, if_neg hfl]
  split_ifs <;> omega

theorem Ready.inWindow (hr : Ready cfg s) (seq : Int) :
    s.inWindow cfg seq = true ↔ seq < s.snd.highestAck + s.window cfg * s.snd.maxseg ∧
      (s.app.infiniteSend = false → seq < s.snd.curseq) := by
  simp only [FullTcpAgent.inWindow, winBytes, hr.probe, decide_eq_true_eq, Bool.false_eq_true,
    false_and, if_false]
  cases s.app.infiniteSend with
  | true => simp
  | false =>
      simp only [Bool.false_eq_true, or_false, forall_const]
      split_ifs <;> omega

theorem edge_congr {t : FullTcpAgent κ} (hack : t.snd.highestAck = s.snd.highestAck)
    (hm : t.snd.maxseg = s.snd.maxseg) (hi : t.app.infiniteSend = s.app.infiniteSend)
    (hc : t.ctl.cong.cwnd = s.ctl.cong.cwnd) : t.edge cfg = s.edge cfg := by
  rw [edge, edge, window, window, hc, hack, hm, hi]

theorem Steady.edge {t : FullTcpAgent κ} (hs : Steady s t) (hc : t.ctl.cong = s.ctl.cong) :
    t.edge cfg = s.edge cfg :=
  edge_congr (by rw [hs.snd]) (by rw [hs.snd]) hs.infinite (by rw [hc])

/-- The data at `t_seqno_`, when the window lets it be sent. -/
theorem Ready.datalen (hr : Ready cfg s) (hw : s.inWindow cfg s.snd.tSeqno = true) {d : Int}
    (hd : d = s.segmentLen (s.bytesToSend cfg s.snd.tSeqno)) :
    0 ≤ d ∧ (0 < d ↔ s.snd.tSeqno < s.edge cfg) ∧
      (0 < d → d ≠ s.snd.maxseg → d = s.edge cfg - s.snd.tSeqno ∧ d < s.snd.maxseg ∨
        s.app.infiniteSend = false ∧ s.snd.curseq < s.snd.tSeqno + d) := by
  have hm := hr.maxseg
  obtain ⟨h₁, h₂⟩ := (hr.inWindow _).mp hw
  have hedge : s.app.infiniteSend = false →
      s.edge cfg = s.snd.highestAck + s.window cfg * s.snd.maxseg := by
    intro hi
    rw [edge, hi]
    rfl
  rw [segmentLen, hr.bytesToSend] at hd
  cases hi : s.app.infiniteSend with
  | true =>
      rw [hi, if_pos rfl] at hd
      split_ifs at hd <;> omega
  | false =>
      rw [hi, if_neg Bool.false_ne_true] at hd
      have h₂ := h₂ hi
      have he := hedge hi
      simp only [true_and]
      split_ifs at hd <;> omega

/-- A connection that is quiet has room for a full segment. -/
theorem Ready.full (hr : Ready cfg s) (hq : s.snd.highestAck = s.snd.maxseq)
    (hw : s.snd.tSeqno < s.edge cfg) : s.snd.maxseg ≤ s.edge cfg - s.snd.tSeqno := by
  have hm := hr.maxseg
  have ht : s.snd.tSeqno = s.snd.highestAck := le_antisymm (hq ▸ hr.sent) hr.next
  have hseg := hr.segment
  rw [edge, ht] at hw ⊢
  -- the window is a number of segments
  have hpos : ∀ w : Int, 0 < w * s.snd.maxseg → s.snd.maxseg ≤ w * s.snd.maxseg := by
    intro w hw
    have h1 : 1 ≤ w := by
      by_contra hlt
      have hle : w * s.snd.maxseg ≤ 0 := mul_nonpos_of_nonpos_of_nonneg (by omega) hm.le
      omega
    calc s.snd.maxseg = 1 * s.snd.maxseg := (one_mul _).symm
      _ ≤ w * s.snd.maxseg := mul_le_mul_of_nonneg_right h1 hm.le
  have hwin := hpos (s.window cfg)
  cases hi : s.app.infiniteSend with
  | true =>
      have hseg := hseg hi
      rw [hi, if_pos rfl] at hw
      rw [if_pos rfl]
      omega
  | false =>
      rw [hi, if_neg Bool.false_ne_true] at hw
      rw [if_neg Bool.false_ne_true]
      omega

/-- Why `foutput` does not send. -/
theorem silly_of_not_wantsSend (hnd : cfg.nodelay = true) {t : FullTcpAgent κ} {seq d : Int}
    {pf : TcpFlag} {em : Bool} (hpos : 0 < d) (hw : t.wantsSend cfg seq d pf em = false) :
    d ≠ t.snd.maxseg ∧ em = false ∧ t.snd.maxseq ≤ seq ∧
      (d : ℚ) < cfg.wnd * t.snd.maxseg / 2 := by
  rw [wantsSend, decide_eq_false_iff_not] at hw
  refine ⟨fun hx => hw (.inl ⟨hpos, .inl hx⟩), ?_, ?_, ?_⟩
  · by_contra hem
    exact hw (.inl ⟨hpos, .inr (.inl ⟨.inr hnd, Bool.not_eq_false _ ▸ hem⟩)⟩)
  · by_contra hlt
    exact hw (.inl ⟨hpos, .inr (.inr (.inl (not_le.mp hlt)))⟩)
  · by_contra hlt
    exact hw (.inl ⟨hpos, .inr (.inr (.inr (.inl (not_lt.mp hlt))))⟩)

/-- **Where `foutput` does not send**, though the window has not been used up. -/
theorem Ready.conserved_of_silent (hr : Ready cfg s) (hnd : cfg.nodelay = true)
    (hw : s.inWindow cfg s.snd.tSeqno = true) {d : Int} {em : Bool} {t : FullTcpAgent κ}
    (hd : Decides cfg s s.snd.tSeqno d em t) {pf : TcpFlag}
    (hno : t.wantsSend cfg s.snd.tSeqno d pf em = false) : Conserved cfg t := by
  obtain ⟨-, hpos, hlen⟩ := hr.datalen hw hd.datalen
  by_cases hd0 : 0 < d
  · obtain ⟨hne, hem, hfresh, hhalf⟩ := silly_of_not_wantsSend hnd hd0 hno
    rw [hd.steady.snd] at hne hfresh hhalf
    -- the segment does not empty the buffer, so it is the window that cuts it down
    obtain ⟨hdl, hlt⟩ : d = s.edge cfg - s.snd.tSeqno ∧ d < s.snd.maxseg := by
      rcases hlen hd0 hne with hcut | ⟨hi, hcur⟩
      · exact hcut
      · rw [hd.empties, emptying, decide_eq_false_iff_not] at hem
        exact absurd ⟨by rw [hi]; rfl, .inl hcur⟩ hem
    have hcong : t.ctl.cong = s.ctl.cong := by
      refine hd.cong fun hq => ?_
      have hfull := hr.full hq.1 (hpos.mp hd0)
      omega
    have hedge : t.edge cfg = s.edge cfg := hd.steady.edge hcong
    rw [hdl] at hlt hhalf
    refine .inr (.inr ⟨?_, ?_, ?_⟩)
    · rw [hd.steady.snd]
      exact hfresh
    · rw [hedge, hd.steady.snd]
      exact hlt
    · rw [hedge, hd.steady.snd]
      exact hhalf
  · have hcong : t.ctl.cong = s.ctl.cong := hd.cong fun hq => hd0 hq.2
    refine .inr (.inl ?_)
    rw [hd.steady.edge hcong, hd.steady.snd]
    exact not_lt.mp fun hlt => hd0 (hpos.mpr hlt)

/-- What `foutput` sends in an established connection: the data, or the data and the FIN of a close
that the empty buffer asks for. -/
structure SendsData (cfg : FullTcpConfig) (s : FullTcpAgent κ) (d n : Int) (s' : FullTcpAgent κ) :
    Prop where
  snd : s'.snd = { s.snd with maxseq := max s.snd.maxseq (s.snd.tSeqno + n) }
  infinite : s'.app.infiniteSend = s.app.infiniteSend
  pipectrl : s'.ctl.pipectrl = s.ctl.pipectrl
  probe : s'.ctl.probMode = s.ctl.probMode
  close : s'.ctl.needClose = false
  window : ¬ 0 < d → s'.ctl.cong.cwnd = s.ctl.cong.cwnd
  state : s'.state = s.state ∧ n = d ∨
    s'.state = .finWait1 ∧ n = d + 1 ∧ s.snd.curseq < s.snd.tSeqno + d

theorem Ready.sendsData (hr : Ready cfg s) {d n : Int} {em : Bool} {t : FullTcpAgent κ}
    (hd : Decides cfg s s.snd.tSeqno d em t) {reason : XmissionReason}
    (he : t.transmit cfg h s.snd.tSeqno d (t.pflags cfg s.snd.tSeqno d em) reason =
      some (n, s')) : SendsData cfg s d n s' := by
  obtain ⟨hcwnd, hpipe, hprobe, hclose⟩ := transmit_gate he
  obtain ⟨e, f, -, -, hn, hs⟩ := transmit_spec h he
  obtain ⟨hsyn, hfin⟩ := pflags_spec t em (t.app.infiniteSend = true ∧
    decide (s.snd.tSeqno = cfg.iss) = true ∧ d = 0)
  have hst : t.state = .established := by rw [hd.steady.state, hr.state]
  have hsyn' : containsAll (t.pflags cfg s.snd.tSeqno d em) TcpFlag.syn = false := by
    rw [hst] at hsyn
    exact hsyn
  have hfin' : containsAll (t.pflags cfg s.snd.tSeqno d em) TcpFlag.fin = false := by
    by_contra hf
    have hcl := hfin (Bool.not_eq_false _ ▸ hf)
    rw [hst] at hcl
    simp [Closes] at hcl
  rw [hsyn', if_neg Bool.false_ne_true, add_zero] at hn
  rw [hfin', if_neg Bool.false_ne_true] at hs
  have hwin : ¬ 0 < d → s'.ctl.cong.cwnd = s.ctl.cong.cwnd := by
    intro hd0
    rw [hcwnd, hd.cong fun hq => hd0 hq.2]
  rw [hd.steady.pipectrl] at hpipe
  rw [hd.steady.probe] at hprobe
  rcases hs with ⟨hs, hf⟩ | ⟨hs, -, hcl, hf⟩
  · refine ⟨?_, ?_, hpipe, hprobe, hclose, hwin, .inl ⟨?_, by omega⟩⟩
    · rw [hs.eq, hd.steady.snd]
    · rw [hs.eq]
      exact hd.steady.infinite
    · rw [hs.eq]
      exact hd.steady.state
  · -- a close was pending, because the segment empties the buffer
    have hem : em = true := by
      rcases hd.close hcl with hx | hx
      · rw [hr.close] at hx
        exact absurd hx Bool.false_ne_true
      · exact hx
    rw [hd.empties, emptying, decide_eq_true_eq] at hem
    refine ⟨?_, ?_, hpipe, hprobe, hclose, hwin, .inr ⟨?_, by omega, ?_⟩⟩
    · rw [hs.eq]
      show { t.snd with maxseq := max t.snd.maxseq (s.snd.tSeqno + n) } = _
      rw [hd.steady.snd]
    · rw [hs.eq]
      exact hd.steady.infinite
    · rw [hs.eq]
      rfl
    · rcases hem.2 with hx | ⟨hx, -⟩
      · exact hx
      · -- the SYN has been acknowledged
        have h₁ := hr.syn
        have h₂ := hr.next
        rw [decide_eq_true_eq] at hx
        omega

theorem sent_gate (cfg : FullTcpConfig) (s : FullTcpAgent κ) (seq amt : Int) :
    SameGate s (s.sent cfg seq amt) := by
  simp only [FullTcpAgent.sent]
  split_ifs <;> exact ⟨rfl, rfl, rfl, rfl⟩

/-- The loop goes on from a sender that is ready. -/
theorem Ready.after (hr : Ready cfg s) {d n : Int} (hs : SendsData cfg s d n s') (hn : 0 < n)
    (hst : s'.state = s.state) : Ready cfg (s'.sent cfg s.snd.tSeqno n) := by
  obtain ⟨hsnd, -⟩ := sent_seq cfg s' s.snd.tSeqno n
  have hg := sent_gate cfg s' s.snd.tSeqno n
  rw [hs.snd] at hsnd
  simp only [if_true] at hsnd
  have hnext := hr.next
  have hseq := hr.sent
  refine ⟨?_, ?_, ?_, ?_, ?_, ?_, ?_, ?_, ?_, ?_, ?_⟩
  · rw [sent_state, hst, hr.state]
  · rw [hsnd]
    exact hr.floor
  · rw [hsnd]
    exact hr.syn
  · rw [hsnd]
    show s.snd.highestAck ≤ s.snd.tSeqno + n
    omega
  · rw [hsnd]
    exact le_max_right _ _
  · rw [hsnd]
    exact hr.maxseg
  · rw [hsnd, sent_app, hs.infinite]
    exact hr.segment
  · rw [hsnd]
    exact hr.recovered
  · rw [hg.pipectrl, hs.pipectrl, hr.pipectrl]
  · rw [hg.probe, hs.probe, hr.probe]
  · rw [hg.close, hs.close]

/-- Where the window is closed, the sender is at its edge or at the last byte. -/
theorem Ready.conserved_of_closed (hr : Ready cfg s)
    (hw : s.inWindow cfg s.snd.tSeqno = false) : Conserved cfg s := by
  by_cases hlt : s.snd.tSeqno < s.snd.highestAck + s.window cfg * s.snd.maxseg
  · have hcur : ¬ (s.app.infiniteSend = false → s.snd.tSeqno < s.snd.curseq) := by
      intro hx
      rw [(hr.inWindow _).mpr ⟨hlt, hx⟩] at hw
      simp at hw
    have hsent := hr.sent
    exact .inl (by omega)
  · refine .inr (.inl ?_)
    rw [edge]
    split_ifs <;> omega

/-- An ACK without data is sent at the edge of the window. -/
theorem SendsData.conserved_of_ack {d n : Int} (hs : SendsData cfg s d n s') (hd : ¬ 0 < d)
    (hedge : ¬ s.snd.tSeqno < s.edge cfg) : Conserved cfg s' := by
  refine .inr (.inl ?_)
  rw [edge_congr (s := s) (by rw [hs.snd]) (by rw [hs.snd]) hs.infinite (hs.window hd), hs.snd]
  exact not_lt.mp hedge

/-- The FIN follows the last byte. -/
theorem SendsData.conserved_of_fin {d n : Int} (hs : SendsData cfg s d n s')
    (hcur : s.snd.curseq ≤ s.snd.tSeqno + n) :
    Conserved cfg (s'.sent cfg s.snd.tSeqno (n - 1)) := by
  refine .inl ?_
  rw [(sent_seq cfg s' s.snd.tSeqno (n - 1)).1, hs.snd]
  show s.snd.curseq ≤ max s.snd.maxseq (s.snd.tSeqno + n)
  omega

/-- **One iteration**: the loop stops where nothing is left, or goes on. -/
theorem Ready.turn (hr : Ready cfg s) (hnd : cfg.nodelay = true) (hov : cfg.overhead = 0)
    {fuel : Nat} {reason : XmissionReason} {npackets : Int} {t : Turn κ}
    (he : turn cfg h fuel s false reason 0 npackets = some t) :
    (∀ s', t = .stops s' → Conserved cfg s') ∧ (∀ s', t = .goesOn s' → Ready cfg s') := by
  have hnxt : s.nxtTseq cfg fuel = some (s.snd.tSeqno, s) := by
    have hno : ¬ (cfg.kind.isSack = true ∧ s.snd.highestAck < s.snd.recover) :=
      fun hx => absurd hx.2 (not_lt.mpr hr.recovered)
    rw [nxtTseq, if_neg hno]
  have hallow : s.sendAllowed cfg s.snd.tSeqno = s.inWindow cfg s.snd.tSeqno := by
    rw [sendAllowed, hr.pipectrl, if_neg (by simp)]
  rw [FullTcpAgent.turn, hnxt] at he
  simp only [Option.bind_eq_bind, Option.bind_some, hallow, Bool.not_false, Bool.true_and] at he
  cases hw : s.inWindow cfg s.snd.tSeqno with
  | false =>
      rw [hw] at he
      simp only [Bool.not_false, if_true, Option.some_inj] at he
      subst he
      refine ⟨fun s' hs' => ?_, fun s' hs' => by simp at hs'⟩
      obtain rfl := Turn.stops.inj hs'
      exact hr.conserved_of_closed hw
  | true =>
      rw [hw] at he
      simp only [Bool.not_true, Bool.false_eq_true, if_false, hov, ne_eq, not_true, decide_false,
        Bool.false_and] at he
      -- the window is open: `foutput` sends data, or an ACK, or nothing
      obtain ⟨⟨n, s₁⟩, ho, he⟩ := Option.bind_eq_some_iff.mp he
      obtain ⟨d, em, t₁, hd, hcase⟩ := foutput_decides hr.maxseg.ne' ho
      dsimp only at he
      rcases hcase with hsend | ⟨hno, hn, rfl⟩
      swap
      · rw [hn, if_pos (Int.le_refl 0)] at he
        obtain rfl := Option.some.inj he
        refine ⟨fun s' hs' => ?_, fun s' hs' => by simp at hs'⟩
        obtain rfl := Turn.stops.inj hs'
        exact hr.conserved_of_silent hnd hw hd hno
      have hs := hr.sendsData hd hsend
      obtain ⟨hnn, hpos, -⟩ := hr.datalen hw hd.datalen
      rcases hs.state with ⟨hst, hnd'⟩ | ⟨hst, hnd', hcur⟩
      · have hflags : s₁.outflags = TcpFlag.ack := by rw [outflags, hst, hr.state]
        have hflags' : (s₁.sent cfg s.snd.tSeqno n).outflags = TcpFlag.ack := by
          rw [outflags, sent_state, hst, hr.state]
        by_cases hn : n ≤ 0
        · -- an ACK without data
          rw [if_pos hn] at he
          obtain rfl := Option.some.inj he
          refine ⟨fun s' hs' => ?_, fun s' hs' => by simp at hs'⟩
          obtain rfl := Turn.stops.inj hs'
          have hd0 : ¬ 0 < d := by omega
          exact hs.conserved_of_ack hd0 fun hlt => hd0 (hpos.mpr hlt)
        · have hack : containsAll TcpFlag.ack TcpFlag.fin = false ∧
              containsAny TcpFlag.ack (TcpFlag.syn ||| TcpFlag.fin) = false := by decide
          rw [if_neg hn, hflags, hack.1, if_neg Bool.false_ne_true, hflags', hack.2] at he
          simp only [Bool.false_or, Bool.false_eq_true, if_false, Option.some_inj] at he
          subst he
          refine ⟨fun s' hs' => by simp at hs', fun s' hs' => ?_⟩
          obtain rfl := Turn.goesOn.inj hs'
          exact hr.after hs (not_le.mp hn) hst
      · -- the FIN follows the last byte
        have hflags : s₁.outflags = TcpFlag.fin ||| TcpFlag.ack := by rw [outflags, hst]
        have hflags' : ∀ amt, (s₁.sent cfg s.snd.tSeqno amt).outflags =
            TcpFlag.fin ||| TcpFlag.ack := fun amt => by rw [outflags, sent_state, hst]
        have hfin : containsAll (TcpFlag.fin ||| TcpFlag.ack) TcpFlag.fin = true ∧
            containsAny (TcpFlag.fin ||| TcpFlag.ack) (TcpFlag.syn ||| TcpFlag.fin) = true := by
          decide
        have hn : ¬ n ≤ 0 := by omega
        rw [if_neg hn, hflags, hfin.1, if_pos rfl, hflags', hfin.2] at he
        simp only [Bool.true_or, if_true, Option.some_inj] at he
        subst he
        refine ⟨fun s' hs' => ?_, fun s' hs' => by simp at hs'⟩
        obtain rfl := Turn.stops.inj hs'
        exact hs.conserved_of_fin (by omega)

theorem Ready.sendLoop (hr : Ready cfg s) (hnd : cfg.nodelay = true) (hov : cfg.overhead = 0)
    {fuel : Nat} {reason : XmissionReason} {npackets : Int}
    (he : sendLoop cfg h fuel s false reason 0 npackets = some s') : Conserved cfg s' := by
  induction fuel generalizing s npackets with
  | zero => exact absurd he (by simp [FullTcpAgent.sendLoop])
  | succ fuel ih =>
      rw [sendLoop_succ] at he
      obtain ⟨t, ht, he⟩ := Option.bind_eq_some_iff.mp he
      obtain ⟨hstop, hgo⟩ := hr.turn hnd hov ht
      cases t with
      | stops s₁ =>
          obtain rfl := Option.some.inj he
          exact hstop s₁ rfl
      | goesOn s₁ => exact ih (hgo s₁ rfl) he

/-- **`send_much` is work conserving**, but for the last byte and for a silly window: when it
returns, all bytes before the last have been sent, or `t_seqno_` is at the edge of the window, or
what is left of the window is less than a segment. -/
theorem send_much_conserves (cfg : FullTcpConfig) (h : Hooks κ) (s s' : FullTcpAgent κ)
    (hr : Ready cfg s) (hnd : cfg.nodelay = true) (hov : cfg.overhead = 0)
    (hdel : s.ctl.delsndPending = false) (fuel : Nat) (reason : XmissionReason)
    (he : s.sendMuch cfg h fuel false reason 0 = some s') : Conserved cfg s' := by
  rw [sendMuch, hdel, if_neg (by simp)] at he
  exact hr.sendLoop hnd hov he

end FullTcpAgent

namespace NsDefault

open FullTcpAgent

/-- A sender with `nodelay_`. -/
def prompt : FullTcpConfig := { config .reno with nodelay := true }

/-- Five bytes are in flight, the window is two segments of 10 bytes, and 994 bytes are left. -/
def cutShort : FullTcpAgent Bool :=
  { agent with
    state := .established
    snd := ⟨1000, 6, 6, 1, 0, 10⟩
    rcv := ⟨1, 0, [], -1, []⟩
    ctl := { agent.ctl with lastAckSent := 1, cong := ⟨2, 20, true⟩ } }

theorem cutShort_ready : Ready prompt cutShort :=
  ⟨rfl, by decide, by decide, by decide, by decide, by decide, by decide, by decide, rfl, rfl, rfl⟩

/-- The sender stops five bytes short of the edge of the window, with 984 bytes unsent. -/
theorem silly_window_left : Ready prompt cutShort ∧
    ∃ s, cutShort.sendMuch prompt (hooks prompt) 5 false .normal 0 = some s ∧
      ¬ (s.snd.curseq ≤ s.snd.maxseq ∨
        s.snd.highestAck + s.window prompt * s.snd.maxseg ≤ s.snd.tSeqno) := by
  have hrun : (cutShort.sendMuch prompt (hooks prompt) 5 false .normal 0).map
      (fun s => decide (s.snd.curseq ≤ s.snd.maxseq ∨
        s.snd.highestAck + s.window prompt * s.snd.maxseg ≤ s.snd.tSeqno)) = some false := by
    decide +kernel
  obtain ⟨s, hs, hno⟩ := Option.map_eq_some_iff.mp hrun
  exact ⟨cutShort_ready, s, hs, of_decide_eq_false hno⟩

theorem send_much_conserves_cutShort :
    ∃ s, cutShort.sendMuch prompt (hooks prompt) 5 false .normal 0 = some s ∧ Conserved prompt s := by
  have hrun : (cutShort.sendMuch prompt (hooks prompt) 5 false .normal 0).isSome = true := by
    decide +kernel
  obtain ⟨s, hs⟩ := Option.isSome_iff_exists.mp hrun
  exact ⟨s, hs, send_much_conserves prompt (hooks prompt) cutShort s cutShort_ready rfl rfl rfl 5
    .normal hs⟩

end NsDefault

end Afabric
