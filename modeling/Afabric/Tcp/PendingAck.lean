import Afabric.Tcp.Receive

/-!
# Tcp — a pending ACK

`TF_ACKNOW` forces the next `send_much` that is forced to send a segment, and every segment has the
ACK of what the receiver has.  So the segment that completes a flow, which sets the flag, is
acknowledged before `recv` returns (`Handles.acks`).  The exception is a `DDTcpAgent`, whose
`need_send` gives up past the deadline; there the flag stays set.
-/

namespace Afabric

open SegList

namespace FullTcpAgent

variable {κ : Type} {cfg : FullTcpConfig} {h : Hooks κ} {s s' t : FullTcpAgent κ} {n : Int}
  {q : Option Segment}

/-- A segment with the ACK `n` has been sent. -/
def Acks (n : Int) (s s' : FullTcpAgent κ) : Prop :=
  ∃ l, s'.trace.sent = l ++ s.trace.sent ∧ ∃ e ∈ l, e.ackno = n

theorem Acks.trans_left (hs : s.trace.sent <:+ t.trace.sent) (ha : Acks n t s') : Acks n s s' := by
  obtain ⟨l, he, e, hel, hn⟩ := ha
  obtain ⟨k, hk⟩ := hs
  exact ⟨l ++ k, by rw [he, ← hk, List.append_assoc], e, by simp [hel], hn⟩

theorem Acks.trans_right (ha : Acks n s t) (hs : t.trace.sent <:+ s'.trace.sent) : Acks n s s' := by
  obtain ⟨l, he, e, hel, hn⟩ := ha
  obtain ⟨k, hk⟩ := hs
  exact ⟨k ++ l, by rw [← hk, he, List.append_assoc], e, by simp [hel], hn⟩

/-! ### Output -/

theorem sendpacket_sent {seq ack d : Int} {pf : TcpFlag} {reason : XmissionReason}
    (he : s.sendpacket cfg h seq ack pf d reason = some s') :
    ∃ e, s'.trace.sent = e :: s.trace.sent ∧ e.ackno = ack := by
  obtain ⟨prio, t, -, rfl⟩ := sendpacket_spec h he
  exact ⟨_, rfl, rfl⟩

theorem noteSent_trace (s : FullTcpAgent κ) (seq n : Int) (rt : Bool) :
    (s.noteSent cfg h seq n rt).trace = s.trace := by
  obtain ⟨c, hns, -⟩ := noteSent_spec h cfg s seq n rt
  rw [hns]

theorem takeClose_keeps (s : FullTcpAgent κ) (pf : TcpFlag) (fin : Bool) :
    (s.takeClose pf fin).2.2.rcv = s.rcv ∧ (s.takeClose pf fin).2.2.trace = s.trace := by
  simp only [takeClose]
  split_ifs <;> exact ⟨rfl, rfl⟩

/-- `foutput` from `send:` on sends a segment. -/
theorem transmit_acks {seq d : Int} {pf : TcpFlag} {reason : XmissionReason}
    {r : Int × FullTcpAgent κ} (he : s.transmit cfg h seq d pf reason = some r) :
    Acks s.rcv.rcvNxt s r.2 := by
  obtain ⟨t, ht, rfl⟩ := Option.map_eq_some_iff.mp he
  obtain ⟨hrcv, htrace⟩ := takeClose_keeps (s.setOther (h.modifyPflagsOnFoutput s pf
    (decide (seq < s.snd.maxseq))).2) _ (containsAll pf TcpFlag.fin)
  obtain ⟨e, hsent, hack⟩ := sendpacket_sent ht
  rw [htrace] at hsent
  refine ⟨[e], ?_, e, List.mem_singleton_self e, hack.trans (congrArg RcvState.rcvNxt hrcv)⟩
  dsimp only
  rw [noteSent_trace, hsent]
  rfl

/-- A pending ACK makes `foutput` send. -/
theorem foutput_acks {seq : Int} {reason : XmissionReason} {r : Int × FullTcpAgent κ}
    (ha : s.ctl.ackNow = true) (he : s.foutput cfg h seq reason = some r) :
    Acks s.rcv.rcvNxt s r.2 := by
  obtain ⟨t, pf, ho, -, -, -, heq | ⟨hno, -⟩⟩ := foutput_eq cfg h s seq reason
  · rw [heq] at he
    have hacks := transmit_acks he
    rw [Acks, ho.rcv, ho.sent] at hacks
    exact hacks
  · simp [ha] at hno

theorem nxtTseq_keeps {fuel : Nat} {r : Int × FullTcpAgent κ} (he : s.nxtTseq cfg fuel = some r) :
    r.2.ctl = s.ctl ∧ r.2.rcv = s.rcv ∧ r.2.trace = s.trace := by
  rw [nxtTseq] at he
  split_ifs at he
  · obtain ⟨o, -, rfl⟩ := Option.map_eq_some_iff.mp he
    cases o with
    | none => exact ⟨rfl, rfl, rfl⟩
    | some v =>
        dsimp only
        split_ifs <;> exact ⟨rfl, rfl, rfl⟩
  · obtain rfl := Option.some.inj he
    exact ⟨rfl, rfl, rfl⟩

/-- A pending ACK makes `send_much` send, when it is forced. -/
theorem sendMuch_acks {fuel : Nat} {reason : XmissionReason} {maxburst : Int}
    (ha : s.ctl.ackNow = true) (he : s.sendMuch cfg h fuel true reason maxburst = some s') :
    Acks s.rcv.rcvNxt s s' := by
  rw [sendMuch, if_neg (by simp)] at he
  cases fuel with
  | zero => exact absurd he (by simp [sendLoop])
  | succ fuel =>
      obtain ⟨⟨seq, t⟩, hr, he⟩ := Option.bind_eq_some_iff.mp he
      obtain ⟨hctl, hrcv, htrace⟩ := nxtTseq_keeps hr
      dsimp only at he hctl hrcv htrace
      rw [if_neg (by simp), if_neg (by simp)] at he
      obtain ⟨⟨n, u⟩, ho, he⟩ := Option.bind_eq_some_iff.mp he
      have hacks := foutput_acks (by rw [hctl, ha]) ho
      rw [Acks, htrace, hrcv] at hacks
      refine Acks.trans_right hacks ?_
      dsimp only at he ⊢
      generalize (if containsAll u.outflags TcpFlag.fin = true then n - 1 else n) = amt at he
      have hsent : u.trace.sent = (u.sent cfg seq amt).trace.sent := by rw [sent_trace]
      split_ifs at he
      · obtain rfl := Option.some.inj he
        exact List.suffix_rfl
      · obtain rfl := Option.some.inj he
        rw [hsent]
      · rw [hsent]
        exact (sendLoop_acts (q := none) h he).sent_suffix

/-! ### The last segment of a flow -/

theorem deliver_trace (s : FullTcpAgent κ) (n d : Int) : (s.deliver n d).trace = s.trace := by
  simp only [FullTcpAgent.deliver]
  split_ifs <;> rfl

/-- The ACK of the last bytes of a flow is pending. -/
theorem deliver_ackNow {d : Int} (hrem : s.rcv.flowRemaining = d) (hd : 0 < d) (n : Int) :
    (s.deliver n d).ctl.ackNow = true := by
  simp only [FullTcpAgent.deliver, hrem]
  rw [if_pos hd, if_pos (by omega)]
  rfl

/-- The end of `recv` with a pending ACK. -/
theorem finish_acks {fuel : Nat} {out : Bool} (hs : Flowing s.state) (ha : s.ctl.ackNow = true)
    (he : s.finish cfg h fuel out = some s') : Acks s.rcv.rcvNxt s s' := by
  rw [finish_eq] at he
  obtain ⟨t, ht, he⟩ := Option.bind_eq_some_iff.mp he
  have hacts := finishOutput_acts (q := none) ht
  obtain ⟨-, hcw, hcl⟩ := (hacts.flowing hs).open
  rw [finishClose, if_neg (by simp [hcw]), Option.bind_some, if_neg hcl] at he
  obtain rfl := Option.some.inj he
  rw [finishOutput, if_pos (by simp [ha])] at ht
  exact sendMuch_acks ha ht

theorem reass_trace {start len : Int} {ti f : TcpFlag} (he : s.reass start len ti = some (f, s')) :
    s'.trace = s.trace := by
  simp only [reass] at he
  split_ifs at he <;> obtain ⟨-, rfl⟩ := Prod.mk.inj (Option.some.inj he) <;> rfl

/-- The last bytes of a flow at `step6:`. -/
theorem Trimmed.step6_acks {fuel : Nat} {p : Segment} {x : Rx} {r : RcvState}
    (hx : Trimmed r p x) (hs : Flowing s.state) (hr : s.rcv = r) (hw : r.Wf)
    (hf : FinFree r.rq) (hp : p.IsData) (hle : p.seqno ≤ r.rcvNxt)
    (hlt : r.rcvNxt < p.seqno + p.len) (hrem : r.flowRemaining = p.seqno + p.len - r.rcvNxt)
    (he : s.step6 cfg h fuel p x = some s') : Acks s'.rcv.rcvNxt s s' := by
  subst hr
  obtain ⟨hseq, hlen⟩ : x.seqno = s.rcv.rcvNxt ∧ x.datalen = p.seqno + p.len - s.rcv.rcvNxt := by
    rcases hx.new with ⟨e, -⟩ | ⟨-, e₁, e₂⟩ <;> omega
  rw [step6_eq] at he
  obtain ⟨r, hr, he⟩ := Option.bind_eq_some_iff.mp he
  have hdata : containsAll r.1 TcpFlag.fin = false ∧ Flowing r.2.2.state ∧
      r.2.2.ctl.ackNow = true ∧ s.trace.sent <:+ r.2.2.trace.sent := by
    rw [stepData, if_pos ⟨.inl (by omega), by simp [hs.notFin]⟩] at hr
    by_cases hord : x.seqno = s.rcv.rcvNxt ∧ s.rcv.rq = []
    · rw [if_pos hord] at hr
      obtain ⟨h₁, h₂, -⟩ := inOrder_rcv hs hp (by omega) hr
      refine ⟨h₁, h₂, ?_⟩
      rw [inOrder] at hr
      obtain ⟨t, ht, hr⟩ := Option.bind_eq_some_iff.mp hr
      have hacts : Acts cfg none s t := onReceivePureIncoming_acts ht
      obtain rfl := Option.some.inj hr
      dsimp only
      rw [if_pos (by omega), deliver_trace]
      refine ⟨deliver_ackNow ?_ (by omega) _, hacts.sent_suffix⟩
      show t.rcv.flowRemaining = _
      rw [hacts.rcv, hrem, hlen]
    · rw [if_neg hord] at hr
      obtain ⟨h₁, h₂, -⟩ := outOfOrder_rcv hs hw hf hp (by omega) hx.len (by omega) hord hr
      refine ⟨h₁, h₂, ?_⟩
      rw [outOfOrder] at hr
      obtain ⟨⟨f, t⟩, ht, hr⟩ := Option.bind_eq_some_iff.mp hr
      obtain rfl := Option.some.inj hr
      refine ⟨rfl, ?_⟩
      rw [← reass_trace ht]
      dsimp only
      split_ifs
      · show t.trace.sent <:+ (t.deliver _ _).trace.sent
        rw [deliver_trace]
      · exact List.suffix_rfl
  obtain ⟨hnf, hfl, hack, hsuf⟩ := hdata
  rw [if_neg (by simp [hnf]), Option.bind_some] at he
  have hacks := Acks.trans_left hsuf (finish_acks hfl hack he)
  rwa [(finish_acts hfl he).rcv]

/-- The last bytes of a flow, with header prediction. -/
theorem predictedData_acks {fuel : Nat} {p : Segment}
    (hrem : s.rcv.flowRemaining = p.len) (hlen : 0 < p.len)
    (he : s.predictedData cfg h fuel p = some s') :
    Acks s'.rcv.rcvNxt s s' ∨ cfg.kind = .dd ∧ s'.ctl.ackNow = true := by
  rw [predictedData] at he
  obtain ⟨t, ht, he⟩ := Option.bind_eq_some_iff.mp he
  have hacts : Acts cfg none s t := onReceivePureIncoming_acts ht
  obtain ⟨u, hu⟩ : ∃ u : FullTcpAgent κ, u = (((t.setRcv fun t => { t with
    rcvNxt := t.rcvNxt + p.len }).setCtl fun t => { t with
      delAck := true, delackPending := true }).deliver p.len p.len) := ⟨_, rfl⟩
  have htrace : u.trace = t.trace := by rw [hu, deliver_trace]; rfl
  have hack : u.ctl.ackNow = true := by
    rw [hu]
    refine deliver_ackNow ?_ hlen _
    show t.rcv.flowRemaining = _
    rw [hacts.rcv, hrem]
  simp only [← hu] at he
  by_cases hns : u.needSend cfg = true
  · rw [if_pos hns] at he
    have ha : Acts cfg none u s' := sendMuch_acts he
    rw [ha.rcv]
    refine .inl (Acks.trans_left ?_ (sendMuch_acks hack he))
    rw [htrace]
    exact hacts.sent_suffix
  · rw [if_neg hns] at he
    obtain rfl := Option.some.inj he
    refine .inr ⟨?_, hack⟩
    rw [needSend, hack, Bool.true_or, Bool.and_true, Bool.not_eq_true'] at hns
    rw [Bool.not_eq_false, pastDeadline, decide_eq_true_eq] at hns
    exact hns.1

/-- **The segment that completes a flow is acknowledged.** -/
theorem Handles.acks {fuel : Nat} {p : Segment} (hh : Handles cfg h fuel p s s') (hw : s.rcv.Wf)
    (hf : FinFree s.rcv.rq) (hp : p.IsData) (hnd : ¬ Dropped cfg s p)
    (hle : p.seqno ≤ s.rcv.rcvNxt) (hlt : s.rcv.rcvNxt < p.seqno + p.len)
    (hrem : s.rcv.flowRemaining = p.seqno + p.len - s.rcv.rcvNxt) :
    Acks s'.rcv.rcvNxt s s' ∨ cfg.kind = .dd ∧ s'.ctl.ackNow = true := by
  cases hh with
  | dropped hd _ => exact absurd hd hnd
  | old _ hold _ => omega
  | predicted _ ha _ hseq _ he =>
      have hres := predictedData_acks (by rw [ha.rcv]; omega) hp.len he
      exact hres.imp_left (Acks.trans_left ha.sent_suffix)
  | step6 _ ha hfl hx he =>
      exact .inl (Acks.trans_left ha.sent_suffix
        (hx.step6_acks hfl ha.rcv hw hf hp hle hlt hrem he))

end FullTcpAgent

end Afabric
