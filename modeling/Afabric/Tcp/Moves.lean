import Afabric.Tcp.Acts

/-!
# Tcp — what an agent does

`Move` adds to the steps of the sender (`Act`) what is left: changes that do not concern the
sequence numbers (`Quiet`), segments without data that are sent beside `foutput`, the steps of the
handshake, and `reset`.  Every event of a connection is a sequence of such steps (`step_moves`),
whatever its state.

Header prediction takes an ACK without a cut of the SACK queue.  `Overtakes` says when it leaves
`h_seqno_` behind `highest_ack_`; the moves do not include that.
-/

namespace Afabric

namespace FullTcpAgent

variable {κ : Type}

/-- The states before the connection is established. -/
def Opening (st : TcpState) : Prop := st = .listen ∨ st = .synSent ∨ st = .synReceived

/-- The sequence numbers, the SACK queue and the segments sent stay as they are, and the connection
does not start to open. -/
structure Quiet (s s' : FullTcpAgent κ) : Prop where
  snd : s'.snd = s.snd
  sack : s'.sack = s.sack
  sent : s'.trace.sent = s.trace.sent
  resets : s'.trace.resets = s.trace.resets
  state : s'.state = s.state ∨ ¬ Opening s'.state

/-- One step of an agent, while it handles the segment `q` or a call. -/
inductive Move (cfg : FullTcpConfig) (h : Hooks κ) (q : Option Segment) :
    FullTcpAgent κ → FullTcpAgent κ → Prop where
  | act {s s' : FullTcpAgent κ} : Act cfg q s s' → Move cfg h q s s'
  | quiet {s s' : FullTcpAgent κ} : Quiet s s' → Move cfg h q s s'
  | pure {s s' : FullTcpAgent κ} {e : Emission} :
      s' = { s with ctl := s'.ctl, trace := { s.trace with sent := e :: s.trace.sent } } →
      e.datalen = 0 → Move cfg h q s s'
  | curseq (s : FullTcpAgent κ) (n : Int) :
      Move cfg h q s (s.setSnd fun t => { t with curseq := n })
  | listen {s : FullTcpAgent κ} : s.state = .listen →
      Move cfg h q s ((s.setSnd fun t => { t with tSeqno := cfg.iss }).newstate .synReceived)
  | cross {s : FullTcpAgent κ} : s.state = .synSent →
      Move cfg h q s ((s.setSnd fun t => { t with tSeqno := t.tSeqno - 1 }).newstate .synReceived)
  | reset (s : FullTcpAgent κ) (st : TcpState) : Move cfg h q s ((s.reset cfg h).newstate st)

/-- Steps of an agent, one after the other. -/
abbrev Moves (cfg : FullTcpConfig) (h : Hooks κ) (q : Option Segment) :
    FullTcpAgent κ → FullTcpAgent κ → Prop := Relation.ReflTransGen (Move cfg h q)

variable {cfg : FullTcpConfig} {h : Hooks κ} {q : Option Segment} {s s' s₁ s₂ : FullTcpAgent κ}

theorem Acts.moves (ha : Acts cfg q s s') : Moves cfg h q s s' := by
  induction ha with
  | refl => exact .refl
  | tail _ hst ih => exact ih.tail (.act hst)

namespace Quiet

theorem refl (s : FullTcpAgent κ) : Quiet s s := ⟨rfl, rfl, rfl, rfl, .inl rfl⟩

theorem trans (h₁ : Quiet s s₁) (h₂ : Quiet s₁ s₂) : Quiet s s₂ := by
  refine ⟨h₂.snd.trans h₁.snd, h₂.sack.trans h₁.sack, h₂.sent.trans h₁.sent,
    h₂.resets.trans h₁.resets, ?_⟩
  rcases h₂.state with e | e
  · rw [e]
    exact h₁.state
  · exact .inr e

theorem ite {c : Prop} [Decidable c] (h₁ : Quiet s s₁) (h₂ : Quiet s s₂) :
    Quiet s (if c then s₁ else s₂) := by
  by_cases hc : c
  · rwa [if_pos hc]
  · rwa [if_neg hc]

theorem moves (hq : Quiet s s') : Moves cfg h q s s' := .single (.quiet hq)

end Quiet

theorem CtlOnly.quiet (hc : CtlOnly s s') : Quiet s s' :=
  ⟨hc.snd, hc.sack, by rw [hc.trace], by rw [hc.trace], .inl hc.state⟩

theorem setCtl_quiet (s : FullTcpAgent κ) (f : Ctl κ → Ctl κ) : Quiet s (s.setCtl f) :=
  ⟨rfl, rfl, rfl, rfl, .inl rfl⟩

theorem setRcv_quiet (s : FullTcpAgent κ) (f : RcvState → RcvState) : Quiet s (s.setRcv f) :=
  ⟨rfl, rfl, rfl, rfl, .inl rfl⟩

theorem setApp_quiet (s : FullTcpAgent κ) (f : AppState → AppState) : Quiet s (s.setApp f) :=
  ⟨rfl, rfl, rfl, rfl, .inl rfl⟩

theorem newstate_quiet (s : FullTcpAgent κ) {st : TcpState} (hst : ¬ Opening st) :
    Quiet s (s.newstate st) := ⟨rfl, rfl, rfl, rfl, .inr hst⟩

theorem done_quiet (s : FullTcpAgent κ) : Quiet s s.done := ⟨rfl, rfl, rfl, rfl, .inl rfl⟩

instance (st : TcpState) : Decidable (Opening st) := inferInstanceAs (Decidable (_ ∨ _))

/-! ### `step6:` -/

theorem deliver_quiet (s : FullTcpAgent κ) (n d : Int) : Quiet s (s.deliver n d) := by
  rw [FullTcpAgent.deliver]
  exact .ite ((setRcv_quiet _ _).trans (setCtl_quiet _ _)) (setRcv_quiet _ _)

theorem reass_quiet {start len : Int} {ti : TcpFlag} {r : TcpFlag × FullTcpAgent κ}
    (he : s.reass start len ti = some r) : Quiet s r.2 := by
  simp only [reass] at he
  split_ifs at he <;> obtain rfl := Option.some.inj he <;> dsimp only
  · exact setRcv_quiet _ _
  · exact setRcv_quiet _ _
  · exact (setRcv_quiet _ _).trans (setRcv_quiet _ _)

theorem stepData_moves {fuel : Nat} {p : Segment} {x : Rx} {r : TcpFlag × Bool × FullTcpAgent κ}
    (he : s.stepData cfg h fuel p x = some r) : Moves cfg h q s r.2.2 := by
  rw [stepData] at he
  split_ifs at he
  · rw [inOrder] at he
    obtain ⟨t, ht, he⟩ := Option.bind_eq_some_iff.mp he
    obtain rfl := Option.some.inj he
    refine (onReceivePureIncoming_acts ht).moves.trans (Quiet.moves ?_)
    have hnext : Quiet t ((t.setCtl fun t => { t with delAck := true, delackPending := true }).setRcv
        fun t => { t with rcvNxt := t.rcvNxt + x.datalen }) :=
      (setCtl_quiet _ _).trans (setRcv_quiet _ _)
    exact .ite (hnext.trans (deliver_quiet _ _ _)) hnext
  · rw [outOfOrder] at he
    obtain ⟨⟨f, t⟩, ht, he⟩ := Option.bind_eq_some_iff.mp he
    obtain rfl := Option.some.inj he
    have hr := reass_quiet ht
    dsimp only
    exact Quiet.moves (.trans (.ite (hr.trans (deliver_quiet _ _ _)) hr) (setCtl_quiet _ _))
  · obtain rfl := Option.some.inj he
    exact .refl

theorem onFin_quiet (he : s.onFin = some s') : Quiet s s' := by
  rw [onFin] at he
  obtain ⟨t, ht⟩ : ∃ t, t = (if (!s.state.haveReceivedFin) = true then
    (s.setCtl fun t => { t with ackNow := true }).setRcv fun t => { t with rcvNxt := t.rcvNxt + 1 }
    else s) := ⟨_, rfl⟩
  have hq : Quiet s t := by
    rw [ht]
    split_ifs
    · exact (setCtl_quiet _ _).trans (setRcv_quiet _ _)
    · exact .refl s
  simp only [← ht] at he
  cases hst : t.state <;> rw [hst] at he <;> simp only at he
  case closed | listen | synSent | closeWait | closing | lastAck => exact absurd he (by simp)
  case synReceived | established | finWait1 =>
    obtain rfl := Option.some.inj he
    exact hq.trans (newstate_quiet t (by decide))
  case finWait2 =>
    obtain rfl := Option.some.inj he
    exact (hq.trans (newstate_quiet t (by decide))).trans (cancelTimers_ctlOnly _).quiet

/-- The closing of a connection by its own side. -/
theorem usrclosed_moves {fuel : Nat} (he : s.usrclosed cfg h fuel = some s') :
    Moves cfg h q s s' := by
  rw [usrclosed] at he
  obtain ⟨t, ht⟩ : ∃ t, t = (s.setSnd fun t => { t with curseq := t.maxseq - 1 }).setApp
    fun t => { t with infiniteSend := false } := ⟨_, rfl⟩
  have hm : Moves cfg h q s t := by
    rw [ht]
    exact .tail (.single (.curseq s (s.snd.maxseq - 1))) (.quiet (setApp_quiet _ _))
  simp only [← ht] at he
  have hclosing : ∀ {st : TcpState}, ¬ Opening st →
      ((t.newstate st).setCtl fun t => { t with needFin := true }).sendMuch cfg h fuel true .normal
        (t.newstate st).ctl.maxburst = some s' → Moves cfg h q s s' := fun hst he =>
    hm.trans (((newstate_quiet t hst).trans (setCtl_quiet _ _)).moves.trans (sendMuch_acts he).moves)
  have hclosed : Quiet t ((t.cancelTimers.newstate .closed).done) :=
    ((cancelTimers_ctlOnly t).quiet.trans (newstate_quiet _ (by decide))).trans (done_quiet _)
  cases hst : t.state <;> rw [hst] at he <;> simp only at he
  case closed | listen =>
    obtain rfl := Option.some.inj he
    exact hm.trans hclosed.moves
  case synSent | synReceived | established | closeWait => exact hclosing (by decide) he
  case lastAck =>
    exact hm.trans ((setCtl_quiet t _).moves.trans (sendMuch_acts he).moves)
  case finWait1 | finWait2 | closing =>
    obtain rfl := Option.some.inj he
    exact hm

theorem finish_moves {fuel : Nat} {out : Bool} (he : s.finish cfg h fuel out = some s') :
    Moves cfg h q s s' := by
  rw [finish_eq] at he
  obtain ⟨t, ht, he⟩ := Option.bind_eq_some_iff.mp he
  refine (finishOutput_acts ht).moves.trans ?_
  rw [finishClose] at he
  obtain ⟨u, hu, he⟩ := Option.bind_eq_some_iff.mp he
  obtain rfl := Option.some.inj he
  have hm : Moves cfg h q t u := by
    split_ifs at hu
    · exact usrclosed_moves hu
    · obtain rfl := Option.some.inj hu
      exact .refl
  exact hm.trans (Quiet.ite (done_quiet u) (.refl u)).moves

/-- **The label `step6:`.** -/
theorem step6_moves {fuel : Nat} {p : Segment} {x : Rx}
    (he : s.step6 cfg h fuel p x = some s') : Moves cfg h q s s' := by
  rw [step6_eq] at he
  obtain ⟨r, hr, he⟩ := Option.bind_eq_some_iff.mp he
  obtain ⟨t, ht, he⟩ := Option.bind_eq_some_iff.mp he
  refine (stepData_moves hr).trans (.trans ?_ (finish_moves he))
  split_ifs at ht
  · exact (onFin_quiet ht).moves
  · obtain rfl := Option.some.inj ht
    exact .refl

/-! ### ACK processing -/

theorem dropafterack_acts {fuel : Nat} (he : s.dropafterack cfg h fuel = some s') :
    Acts cfg q s s' := by
  have hc : CtlOnly s (s.setCtl fun t => { t with ackNow := true }) := setCtl_ctlOnly id id
  exact hc.acts.trans (sendMuch_acts he)

/-- A segment without data that is sent beside `foutput`. -/
theorem sendpacket_moves {seq ack : Int} {pf : TcpFlag} {reason : XmissionReason}
    (he : s.sendpacket cfg h seq ack pf 0 reason = some s') : Moves cfg h q s s' := by
  obtain ⟨prio, t, hc, rfl⟩ := sendpacket_spec h he
  refine .single (.pure (e := ⟨seq, ack, pf, 0, reason, prio, s.snd, s.app.infiniteSend⟩) ?_ rfl)
  rw [hc.eq]

theorem dropwithreset_moves {p : Segment} {x : Rx} (he : s.dropwithreset cfg h p x = some s') :
    Moves cfg h q s s' := by
  simp only [dropwithreset] at he
  split_ifs at he <;> exact sendpacket_moves he

/-- **The label `process_ACK:`**, in an agent that has taken the ACK into account or not yet. -/
theorem processAck_moves {t : FullTcpAgent κ} {fuel : Nat} {p : Segment} {x : Rx} (hq : p ∈ q)
    (hs : t.state.toNat ≥ TcpState.established.toNat) (hlo : t.snd.highestAck ≤ p.ackno)
    (hm : s.snd.maxseq < p.ackno → Moves cfg h q t s)
    (hacked : s.acked cfg p.ackno = t.acked cfg p.ackno) (hmax : s.snd.maxseq = t.snd.maxseq)
    (he : s.processAck cfg h fuel p x = some s') : Moves cfg h q t s' := by
  rcases processAck_spec (q := q) he with ⟨hgt, he⟩ | ⟨hle, s₁, ha, hout⟩
  · exact (hm hgt).trans (dropafterack_acts he).moves
  · rw [hacked] at ha
    rw [hmax] at hle
    refine (Relation.ReflTransGen.head (.act (acked_act hq hs hlo hle)) ha.moves).trans ?_
    rcases hout with ⟨out, he⟩ | ⟨-, rfl⟩
    · exact step6_moves he
    · have hclosed : Quiet s₁ (s₁.newstate .closed) := newstate_quiet s₁ (by decide)
      exact .head (.quiet (hclosed.trans (done_quiet _))) (.single (.reset _ .closed))

theorem established_moves {fuel : Nat} {p : Segment} {x : Rx} (hq : p ∈ q)
    (hs : s.state.toNat ≥ TcpState.established.toNat)
    (he : s.established cfg h fuel p x = some s') : Moves cfg h q s s' := by
  rcases established_spec hq hs he with ⟨-, -, ha⟩ | ⟨-, t, ha, he⟩ | ⟨hlt, t, ha, hsnd, hst, he⟩
  · exact ha.moves
  · exact ha.moves.trans (step6_moves he)
  · refine ha.moves.trans (processAck_moves hq ?_ ?_ (fun _ => .refl) rfl rfl he)
    · rwa [hst]
    · rw [hsnd]
      exact hlt.le

theorem ackSwitch_moves {fuel : Nat} {p : Segment} {x : Rx} (hq : p ∈ q)
    (he : s.ackSwitch cfg h fuel p x = some s') : Moves cfg h q s s' := by
  rw [ackSwitch] at he
  cases hst : s.state <;> rw [hst] at he <;> simp only at he
  case closed | listen | synSent => exact absurd he (by simp)
  case established | finWait1 | finWait2 | closeWait | closing | lastAck =>
    exact established_moves hq (by simp [hst, TcpState.toNat]) he
  case synReceived =>
    by_cases hrst : p.ackno < s.snd.highestAck ∨ p.ackno > s.snd.maxseq
    · rw [if_pos hrst] at he
      exact dropwithreset_moves he
    rw [if_neg hrst] at he
    obtain ⟨t, ht⟩ : ∃ t, t = s.setOther (h.onReceiveSynAckAck s p).2 := ⟨_, rfl⟩
    have hc : CtlOnly s t := by
      rw [ht]
      exact setOther_ctlOnly _ _
    have henter : ∀ w, (if (t.setCwnd w).ctl.needFin = true then
          ((t.setCwnd w).newstate .finWait1).setCtl fun t => { t with needFin := false }
        else (t.setCwnd w).newstate .established).established cfg h fuel p x = some s' →
        Moves cfg h q s s' := by
      intro w he
      have hw := hc.quiet.trans (setCwnd_ctlOnly t w).quiet
      split_ifs at he
      · have hwait : Quiet (t.setCwnd w) ((t.setCwnd w).newstate .finWait1) :=
          newstate_quiet _ (by decide)
        have hfin := hwait.trans (setCtl_quiet _ fun t => { t with needFin := false })
        exact (hw.trans hfin).moves.trans (established_moves hq (show 4 ≤ 6 by decide) he)
      · have hest : Quiet (t.setCwnd w) ((t.setCwnd w).newstate .established) :=
          newstate_quiet _ (by decide)
        exact (hw.trans hest).moves.trans (established_moves hq (show 4 ≤ 4 by decide) he)
    cases hd : (h.onReceiveSynAckAck s p).1 with
    | congestion w =>
        simp only [hd, ← ht] at he
        exact henter w he
    | noCongestion =>
        simp only [hd, ← ht] at he
        exact henter _ he
    | congestionDrop =>
        simp only [hd, ← ht] at he
        obtain ⟨o, ho, rfl⟩ := Option.map_eq_some_iff.mp he
        have hcan := hc.trans (cancelRtxTimer_ctlOnly t)
        have hsyn : synLen t.cancelRtxTimer.state = 1 := by
          rw [hcan.state, hst]
          rfl
        refine hcan.quiet.moves.trans (.tail (.single (.act ?_)) (.quiet (setCtl_quiet _ _)))
        exact foutput_act (.inr (.inr (.inl ⟨rfl, hsyn⟩))) ho

/-! ### Before ACK processing -/

theorem trim_ctlOnly (s : FullTcpAgent κ) (x : Rx) : CtlOnly s (s.trim x).1 := by
  have hc : CtlOnly s (s.setCtl fun t => { t with ackNow := true }) := setCtl_ctlOnly id id
  simp only [trim]
  split_ifs <;>
    first
    | exact hc
    | exact .refl s

theorem recordTs_ctlOnly (s : FullTcpAgent κ) (p : Segment) (seqno : Int) :
    CtlOnly s (s.recordTs cfg p seqno) := .ite (setCtl_ctlOnly id id) (.refl s)

theorem checked_moves {fuel : Nat} {p : Segment} {x : Rx} (hq : p ∈ q)
    (he : s.checked cfg h fuel p x = some s') : Moves cfg h q s s' := by
  rw [checked] at he
  by_cases hold : s.badTs cfg p = true ∧ ¬ s.ctl.now - s.ctl.recentAge > 24 * 24 * 60 * 60
  · rw [if_pos hold] at he
    exact (dropafterack_acts he).moves
  rw [if_neg hold] at he
  have hc : CtlOnly s (if s.badTs cfg p then s.setCtl fun t => { t with recent := 0 } else s) :=
    .ite (setCtl_ctlOnly id id) (.refl s)
  dsimp only at he
  generalize (if s.badTs cfg p = true then s.setCtl fun t => { t with recent := 0 } else s) = t
    at hc he
  have hrec : CtlOnly s ((t.trim x).1.recordTs cfg p (t.trim x).2.seqno) :=
    (hc.trans (trim_ctlOnly t x)).trans (recordTs_ctlOnly _ p _)
  generalize (t.trim x).1.recordTs cfg p (t.trim x).2.seqno = t₁ at hrec he
  refine hrec.acts.moves.trans ?_
  split_ifs at he
  · exact dropwithreset_moves he
  · obtain rfl := Option.some.inj he
    exact .refl
  · exact ackSwitch_moves hq he

theorem dooptions_ctlOnly (s : FullTcpAgent κ) (p : Segment) : CtlOnly s (s.dooptions cfg p) :=
  .ite (setCtl_ctlOnly id id) (.refl s)

theorem recvListen_moves {fuel : Nat} {p : Segment} {x : Rx} (hst : s.state = .listen)
    (he : s.recvListen cfg h fuel p x = some s') : Moves cfg h q s s' := by
  rw [recvListen] at he
  by_cases hack : containsAll x.tiflags TcpFlag.ack = true
  · rw [if_pos hack] at he
    exact dropwithreset_moves he
  rw [if_neg hack] at he
  by_cases hsyn : (!containsAll x.tiflags TcpFlag.syn) = true
  · rw [if_pos hsyn] at he
    obtain rfl := Option.some.inj he
    exact .refl
  rw [if_neg hsyn] at he
  dsimp only at he
  have hc : CtlOnly s (s.dooptions cfg p) := dooptions_ctlOnly s p
  generalize s.dooptions cfg p = t at hc he
  refine .trans (.tail (.single (.listen hst)) (.quiet ?_)) (step6_moves he)
  refine ⟨?_, hc.sack, congrArg Trace.sent hc.trace, congrArg Trace.resets hc.trace, .inl rfl⟩
  show { t.snd with tSeqno := cfg.iss } = _
  rw [hc.snd]
  rfl

/-- An agent that has taken a SYN+ACK, before it sends the ACK. -/
def synAcked (h : Hooks κ) (s : FullTcpAgent κ) (p : Segment) (x : Rx) : FullTcpAgent κ :=
  let s := s.setOther (h.onReceiveSynAck s p)
  let s := s.setSnd fun t => { t with highestAck := p.ackno }
  let s := s.setCwnd (h.initialWindow s)
  let s := s.setCtl fun t => { t with
    delAck := t.delAck || x.datalen > 0
    delackPending := t.delackPending || x.datalen > 0
    ackNow := t.ackNow || !(x.datalen > 0) }
  if s.ctl.needFin then
    (s.newstate .finWait1).setCtl fun t => { t with needFin := false }
  else s.newstate .established

theorem recvSynAck_eq (cfg : FullTcpConfig) (h : Hooks κ) (s : FullTcpAgent κ) (fuel : Nat)
    (p : Segment) (x : Rx) :
    ∃ x', s.recvSynAck cfg h fuel p x =
      ((synAcked h s p x).sendpacket cfg h (synAcked h s p x).snd.tSeqno
        (synAcked h s p x).rcv.rcvNxt TcpFlag.ack 0 .normal).bind fun t =>
          t.processAck cfg h fuel p x' := ⟨_, rfl⟩

theorem synAcked_spec (h : Hooks κ) (s : FullTcpAgent κ) (p : Segment) (x : Rx) :
    (synAcked h s p x).snd = { s.snd with highestAck := p.ackno } ∧
    Quiet s { synAcked h s p x with snd := s.snd } ∧
    (synAcked h s p x).state.toNat ≥ TcpState.established.toNat := by
  simp only [synAcked]
  split_ifs
  · exact ⟨rfl, ⟨rfl, rfl, rfl, rfl, .inr (show ¬ Opening .finWait1 by decide)⟩,
      show 4 ≤ 6 by decide⟩
  · exact ⟨rfl, ⟨rfl, rfl, rfl, rfl, .inr (show ¬ Opening .established by decide)⟩,
      show 4 ≤ 4 by decide⟩

/-- A SYN+ACK in SYN_SENT. -/
theorem recvSynAck_moves {fuel : Nat} {p : Segment} {x : Rx} (hq : p ∈ q)
    (hlo : s.snd.highestAck ≤ p.ackno) (hhi : p.ackno ≤ s.snd.maxseq)
    (he : s.recvSynAck cfg h fuel p x = some s') : Moves cfg h q s s' := by
  obtain ⟨x', heq⟩ := recvSynAck_eq cfg h s fuel p x
  rw [heq] at he
  obtain ⟨hsnd, hquiet, hstate⟩ := synAcked_spec h s p x
  generalize synAcked h s p x = t at he hsnd hquiet hstate
  obtain ⟨u, hu, he⟩ := Option.bind_eq_some_iff.mp he
  obtain ⟨prio, v, hc, rfl⟩ := sendpacket_spec h hu
  have hvsnd : v.snd = { s.snd with highestAck := p.ackno } := hc.snd.trans hsnd
  have hpure : Move cfg h q { t with snd := s.snd } { v with
      snd := s.snd
      trace := { t.trace with
        sent := ⟨t.snd.tSeqno, t.rcv.rcvNxt, TcpFlag.ack, 0, .normal, prio, t.snd,
          t.app.infiniteSend⟩ :: t.trace.sent } } := by
    refine .pure (e := ⟨t.snd.tSeqno, t.rcv.rcvNxt, TcpFlag.ack, 0, .normal, prio, t.snd,
      t.app.infiniteSend⟩) ?_ rfl
    rw [hc.eq]
  refine hquiet.moves.trans (.head hpure (processAck_moves hq ?_ hlo (fun hgt => ?_) ?_ ?_ he))
  · show v.state.toNat ≥ _
    rwa [hc.state]
  · rw [show v.snd.maxseq = s.snd.maxseq by rw [hvsnd]] at hgt
    omega
  · simp only [acked, SndSeq.acked, hvsnd, max_self, max_eq_right hlo]
  · show v.snd.maxseq = s.snd.maxseq
    rw [hvsnd]

/-- `recv` in SYN_SENT; nothing has been acknowledged yet. -/
theorem recvSynSent_moves {fuel : Nat} {p : Segment} {x : Rx} (hq : p ∈ q)
    (hst : s.state = .synSent) (hlo : s.snd.highestAck ≤ cfg.iss)
    (he : s.recvSynSent cfg h fuel p x = some s') : Moves cfg h q s s' := by
  rw [recvSynSent] at he
  dsimp only at he
  by_cases hrst : containsAll x.tiflags TcpFlag.ack = true ∧
      (p.ackno ≤ cfg.iss ∨ p.ackno > s.snd.maxseq)
  · rw [if_pos hrst] at he
    exact dropwithreset_moves he
  rw [if_neg hrst] at he
  by_cases hsyn : (!containsAll x.tiflags TcpFlag.syn) = true
  · rw [if_pos hsyn] at he
    obtain rfl := Option.some.inj he
    exact .refl
  rw [if_neg hsyn] at he
  by_cases hpre : containsAll x.tiflags TcpFlag.ack = true ∧ h.synAckDropped s p = true
  · rw [if_pos hpre] at he
    exact (setRtxTimer_ctlOnly h s).quiet.moves.trans (sendpacket_moves he)
  rw [if_neg hpre] at he
  have hrcv := setRcv_quiet s fun t =>
    { t with irs := p.seqno, rcvNxt := p.seqno + x.datalen + 1 }
  obtain ⟨t, ht⟩ : ∃ t, t = s.setRcv fun t =>
    { t with irs := p.seqno, rcvNxt := p.seqno + x.datalen + 1 } := ⟨_, rfl⟩
  have htst : t.state = .synSent := by rw [ht]; exact hst
  have htsnd : t.snd = s.snd := by rw [ht]; rfl
  rw [← ht] at hrcv
  simp only [← ht] at he
  refine hrcv.moves.trans ?_
  by_cases hack : containsAll x.tiflags TcpFlag.ack = true
  · rw [if_pos hack] at he
    have hlim : ¬ (p.ackno ≤ cfg.iss ∨ p.ackno > s.snd.maxseq) := fun hc => hrst ⟨hack, hc⟩
    rw [← htsnd] at hlo hlim
    exact recvSynAck_moves hq (by omega) (by omega) he
  · rw [if_neg hack] at he
    refine .trans (.tail (.single (.cross htst)) (.quiet ?_)) (step6_moves he)
    exact ⟨rfl, rfl, rfl, rfl, .inl rfl⟩

/-! ### `recv` -/

/-- The agent at header prediction, for a segment that `predict_ok` accepts. -/
def noted (cfg : FullTcpConfig) (h : Hooks κ) (s : FullTcpAgent κ) (p : Segment) :
    FullTcpAgent κ :=
  (s.recordTs cfg p p.seqno).setOther
    (h.onNewPacket (s.recordTs cfg p p.seqno) p (p.len > 0))

/-- The agent as `recv` starts. -/
def arrived (cfg : FullTcpConfig) (h : Hooks κ) (s : FullTcpAgent κ) (p : Segment) :
    FullTcpAgent κ :=
  (s.setCtl fun t => { t with probMode := false, probCount := 0, lastState := s.state }).opened
    cfg h p

/-- The fast path takes the segment as a pure ACK. -/
def fastAck (cfg : FullTcpConfig) (h : Hooks κ) (s : FullTcpAgent κ) (p : Segment) : Bool :=
  s.ctl.fid = p.fid ∧ !cfg.nopredict ∧ (s.arrived cfg h p).predictOk cfg h p ∧
    ((s.arrived cfg h p).noted cfg h p).takesAck cfg p

/-- The fast path takes an ACK beyond `h_seqno_`. -/
def Overtakes (cfg : FullTcpConfig) (h : Hooks κ) (s : FullTcpAgent κ) (p : Segment) : Prop :=
  cfg.kind.isSack = true ∧ s.fastAck cfg h p = true ∧ s.sack.hSeqno < p.ackno

theorem noted_ctlOnly (s : FullTcpAgent κ) (p : Segment) : CtlOnly s (s.noted cfg h p) :=
  (recordTs_ctlOnly s p p.seqno).trans (setOther_ctlOnly _ _)

theorem arrived_ctlOnly (s : FullTcpAgent κ) (p : Segment) : CtlOnly s (s.arrived cfg h p) := by
  obtain ⟨t, ht⟩ : ∃ t, t = s.setCtl fun t => { t with
    probMode := false, probCount := 0, lastState := s.state } := ⟨_, rfl⟩
  have hc : CtlOnly s t := by
    rw [ht]
    exact setCtl_ctlOnly id id
  rw [arrived, ← ht, opened]
  exact hc.trans ((CtlOnly.ite (dooptions_ctlOnly t p) (.refl t)).trans (setOther_ctlOnly _ _))

theorem predicted_eq (s : FullTcpAgent κ) (fuel : Nat) (p : Segment) :
    s.predicted cfg h fuel p =
      if (s.noted cfg h p).takesAck cfg p then
        ((s.noted cfg h p).newack cfg h p).sendMuch cfg h fuel false .normal
          (s.noted cfg h p).ctl.maxburst
      else if p.len ≠ 0 ∧ p.ackno = (s.noted cfg h p).snd.highestAck ∧
          (s.noted cfg h p).rcv.rq = [] then
        (s.noted cfg h p).predictedData cfg h fuel p
      else (s.noted cfg h p).slow cfg h fuel p := rfl

theorem slow_moves {fuel : Nat} {p : Segment} (hq : p ∈ q)
    (hsyn : s.state = .synSent → s.snd.highestAck ≤ cfg.iss)
    (he : s.slow cfg h fuel p = some s') : Moves cfg h q s s' := by
  rw [slow] at he
  cases hst : s.state <;> rw [hst] at he <;> simp only at he
  case listen => exact recvListen_moves hst he
  case synSent => exact recvSynSent_moves hq hst (hsyn hst) he
  case lastAck =>
    split_ifs at he
    · obtain rfl := Option.some.inj he
      exact .refl
    · exact checked_moves hq he
  all_goals exact checked_moves hq he

/-- The fast path for a pure ACK. -/
theorem takeAck_moves {fuel : Nat} {p : Segment} {mb : Int} (hq : p ∈ q)
    (hst : s.state = .established) (hta : s.takesAck cfg p = true)
    (hno : cfg.kind.isSack = true → p.ackno ≤ s.sack.hSeqno)
    (he : (s.newack cfg h p).sendMuch cfg h fuel false .normal mb = some s') :
    Moves cfg h q s s' := by
  simp only [takesAck, decide_eq_true_eq] at hta
  obtain ⟨-, hlo, hhi, -⟩ := hta
  have hack : Act cfg q s { s with snd := s.snd.acked p.ackno } :=
    .ack hq (by omega) (by omega) (by simp [hst]) (.inr ⟨rfl, hno⟩)
  exact .head (.act hack) ((newack_spec cfg s h p).quiet.moves.trans (sendMuch_acts he).moves)

theorem predictedData_moves {fuel : Nat} {p : Segment}
    (he : s.predictedData cfg h fuel p = some s') : Moves cfg h q s s' := by
  rw [predictedData] at he
  obtain ⟨t, ht, he⟩ := Option.bind_eq_some_iff.mp he
  refine (onReceivePureIncoming_acts ht).moves.trans ?_
  have hq : Quiet t (((t.setRcv fun t => { t with rcvNxt := t.rcvNxt + p.len }).setCtl fun t =>
      { t with delAck := true, delackPending := true }).deliver p.len p.len) :=
    ((setRcv_quiet _ _).trans (setCtl_quiet _ _)).trans (deliver_quiet _ _ _)
  dsimp only at he
  generalize ((t.setRcv fun t => { t with rcvNxt := t.rcvNxt + p.len }).setCtl fun t =>
      { t with delAck := true, delackPending := true }).deliver p.len p.len = u at hq he
  refine hq.moves.trans ?_
  split_ifs at he
  · exact (sendMuch_acts he).moves
  · obtain rfl := Option.some.inj he
    exact .refl

/-- **`recv`.** -/
theorem recv_moves {fuel : Nat} {p : Segment} (hq : p ∈ q)
    (hsyn : s.state = .synSent → s.snd.highestAck ≤ cfg.iss) (hno : ¬ Overtakes cfg h s p)
    (he : s.recv cfg h fuel p = some s') : Moves cfg h q s s' := by
  obtain ⟨t, ht⟩ : ∃ t, t = s.setCtl fun t => { t with
    probMode := false, probCount := 0, lastState := s.state } := ⟨_, rfl⟩
  have hc : CtlOnly s t := by
    rw [ht]
    exact setCtl_ctlOnly id id
  simp only [recv, ← ht] at he
  by_cases hfin : t.state = .closed ∧ containsAll p.flags TcpFlag.fin = true
  · rw [if_pos hfin] at he
    exact hc.quiet.moves.trans (dropafterack_acts he).moves
  rw [if_neg hfin] at he
  by_cases hdrop : t.state = .closed ∨ t.ctl.fid ≠ p.fid
  · rw [if_pos hdrop] at he
    obtain rfl := Option.some.inj he
    exact hc.quiet.moves
  rw [if_neg hdrop] at he
  have harr : t.opened cfg h p = s.arrived cfg h p := by rw [arrived, ht]
  have hc : CtlOnly s (s.arrived cfg h p) := arrived_ctlOnly s p
  rw [harr] at he
  refine hc.quiet.moves.trans ?_
  rw [← hc.state, ← hc.snd] at hsyn
  -- header prediction, or the slow path
  by_cases hok : (!cfg.nopredict) = true ∧ (s.arrived cfg h p).predictOk cfg h p = true
  swap
  · rw [if_neg hok] at he
    exact slow_moves hq hsyn he
  rw [if_pos hok] at he
  have hest : (s.arrived cfg h p).state = .established := by
    have hok := hok.2
    simp only [predictOk, decide_eq_true_eq] at hok
    exact hok.1
  have hfast : s.fastAck cfg h p =
      ((s.arrived cfg h p).noted cfg h p).takesAck cfg p := by
    have hfid : s.ctl.fid = p.fid := by
      rw [ht] at hdrop
      exact not_not.mp fun hne => hdrop (.inr hne)
    simp only [fastAck, hfid, hok.1, hok.2, true_and, Bool.decide_eq_true]
  rw [Overtakes, hfast, ← hc.sack] at hno
  rw [predicted_eq] at he
  generalize s.arrived cfg h p = u at he hsyn hest hno
  have hcn : CtlOnly u (u.noted cfg h p) := noted_ctlOnly u p
  rw [← hcn.sack] at hno
  have hstn : (u.noted cfg h p).state = .established := hcn.state.trans hest
  rw [← hcn.state, ← hcn.snd] at hsyn
  refine hcn.quiet.moves.trans ?_
  generalize u.noted cfg h p = v at he hsyn hstn hno
  -- a predicted segment is an ACK for new data, or data in sequence
  by_cases hta : v.takesAck cfg p = true
  · rw [if_pos hta] at he
    exact takeAck_moves hq hstn hta (fun hk => not_lt.mp fun hlt => hno ⟨hk, hta, hlt⟩) he
  · rw [if_neg hta] at he
    split_ifs at he
    · exact predictedData_moves he
    · exact slow_moves hq hsyn he

/-! ### The calls and the timers -/

theorem connect_moves {n : Int} (he : (((s.reset cfg h).setSnd fun t => { t with
    curseq := n }).connect cfg h) = some s') : Moves cfg h q s s' := by
  rw [connect] at he
  obtain ⟨o, ho, rfl⟩ := Option.map_eq_some_iff.mp he
  obtain ⟨e, hout⟩ := foutput_out h ho
  refine .tail (.tail (.single (.reset s .synSent)) (.curseq _ n)) (.act (.sent ?_ hout (.inl rfl)))
  exact .inr (.inr (.inl ⟨rfl, rfl⟩))

/-- What `advance_bytes` does before it sends. -/
def advanced (cfg : FullTcpConfig) (h : Hooks κ) (s : FullTcpAgent κ) (nb : Int) :
    Option (FullTcpAgent κ) :=
  match s.state with
  | .closed | .listen =>
      ((s.reset cfg h).setSnd fun t => { t with curseq := cfg.iss + nb }).connect cfg h
  | .established | .synSent | .synReceived =>
      some (s.setSnd fun t => { t with
        curseq := (if t.curseq < cfg.iss then cfg.iss else t.curseq) + nb })
  | .closeWait | .finWait1 | .closing | .lastAck | .finWait2 => some s

theorem advanceBytes_eq (s : FullTcpAgent κ) (fuel : Nat) (nb : Int) :
    s.advanceBytes cfg h fuel nb = (s.advanced cfg h nb).bind fun s =>
      if s.state = .established then
        s.sendMuch cfg h fuel (cfg.rtxOnEof && s.app.signalOnEmpty) .normal s.ctl.maxburst
      else some s := by
  rw [advanceBytes, advanced]
  cases s.state <;> rfl

theorem advanceBytes_moves {fuel : Nat} {nb : Int} (he : s.advanceBytes cfg h fuel nb = some s') :
    Moves cfg h q s s' := by
  rw [advanceBytes_eq] at he
  obtain ⟨t, ht, he⟩ := Option.bind_eq_some_iff.mp he
  have hm : Moves cfg h q s t := by
    rw [advanced] at ht
    cases hst : s.state <;> rw [hst] at ht <;> simp only at ht
    case closed | listen => exact connect_moves ht
    case established | synSent | synReceived =>
      obtain rfl := Option.some.inj ht
      exact .single (.curseq s _)
    all_goals
      obtain rfl := Option.some.inj ht
      exact .refl
  refine hm.trans ?_
  split_ifs at he
  · exact (sendMuch_acts he).moves
  · obtain rfl := Option.some.inj he
    exact .refl

theorem onDatEof_moves (s : FullTcpAgent κ) : Moves cfg h q s (s.onDatEof cfg h) := by
  obtain ⟨t, ht⟩ : ∃ t, t = (if cfg.rtxOnEof then
    (s.setApp fun t => { t with signalOnEmpty := true }).rewind cfg
    else s.setApp fun t => { t with signalOnEmpty := true }) := ⟨_, rfl⟩
  have hm : Moves cfg h q s t := by
    have happ := setApp_quiet s fun t => { t with signalOnEmpty := true }
    rw [ht]
    split_ifs
    · exact .head (.quiet happ) (.single (.act (.rewind _)))
    · exact happ.moves
  have hrto : Quiet t (if cfg.eofMinrto ≥ 0 then
      t.setCtl fun t => { t with minrto := cfg.eofMinrto } else t) :=
    .ite (setCtl_quiet _ _) (.refl t)
  refine hm.trans (Quiet.moves ?_)
  simp only [onDatEof, ← ht]
  generalize (if cfg.eofMinrto ≥ 0 then
      t.setCtl fun t => { t with minrto := cfg.eofMinrto } else t) = u at hrto ⊢
  refine hrto.trans (.ite ?_ (.refl u))
  exact ((setCwnd_ctlOnly u _).quiet.trans (setCtl_quiet _ _)).trans (setRtxTimer_ctlOnly h _).quiet

theorem softReset_quiet (s : FullTcpAgent κ) : Quiet s (s.softReset cfg h) :=
  ⟨rfl, rfl, rfl, rfl, .inl rfl⟩

theorem onDatNew_quiet (s : FullTcpAgent κ) : Quiet s (s.onDatNew cfg h) :=
  (Quiet.ite (setCtl_quiet s _) (.refl s)).trans (softReset_quiet _)

theorem sendmsg_moves {fuel : Nat} {nbytes : Int} {flag : MsgFlag}
    (he : s.sendmsg cfg h fuel nbytes flag = some s') : Moves cfg h q s s' := by
  have hrest : ∀ t : FullTcpAgent κ, Moves cfg h q s t →
      (if nbytes = -1 then
        (t.setApp fun t => { t with infiniteSend := true }).advanceBytes cfg h fuel 0
        else t.advanceBytes cfg h fuel nbytes) = some s' → Moves cfg h q s s' := by
    intro t hm he
    refine hm.trans ?_
    split_ifs at he
    · exact (setApp_quiet t _).moves.trans (advanceBytes_moves he)
    · exact advanceBytes_moves he
  cases flag with
  | plain => exact hrest s .refl he
  | msgEof => exact hrest _ (setApp_quiet s _).moves he
  | datEof => exact hrest _ (onDatEof_moves s) he
  | datNew => exact hrest _ (onDatNew_quiet s).moves he

/-- The segment of an event. -/
def Event.segment : Event → Option Segment
  | .recv p => some p
  | .sendmsg .. | .advanceBytes _ | .timeout _ => none

/-- **An event of a connection.** -/
theorem step_moves {fuel : Nat} {ev : Event}
    (hsyn : s.state = .synSent → s.snd.highestAck ≤ cfg.iss)
    (hno : ∀ p ∈ ev.segment, ¬ Overtakes cfg h s p) (he : s.step cfg h fuel ev = some s') :
    Moves cfg h ev.segment s s' := by
  cases ev with
  | sendmsg nbytes flag => exact sendmsg_moves he
  | advanceBytes nb => exact advanceBytes_moves he
  | recv p => exact recv_moves rfl hsyn (hno p rfl) he
  | timeout tno =>
      rw [step.eq_def] at he
      dsimp only at he
      split_ifs at he
      · exact (setCtl_quiet _ _).moves.trans (timeout_acts he).moves
      · obtain rfl := Option.some.inj he
        exact .refl

end FullTcpAgent

end Afabric
