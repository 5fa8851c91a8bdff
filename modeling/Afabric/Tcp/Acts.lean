import Afabric.Tcp.Connection
import Afabric.Tcp.OutputSpec

/-!
# Tcp — what the sender does

`Act` lists all that the code does to the sender of an agent, one constructor for each kind of
assignment, and the functions of the sender are sequences of such steps (`Acts`): `send_much`, the
actions at a duplicate, a partial and a new ACK, and the timeouts.  The receiver is not touched.

`Act` says where a segment starts (`FromSeq`), so that what a run keeps of the sequence numbers
can be shown for one step at a time.
-/

namespace Afabric

/-- The sequence numbers after an ACK of `a`. -/
def SndSeq.acked (t : SndSeq) (a : Int) : SndSeq :=
  { t with highestAck := max t.highestAck a, tSeqno := max t.tSeqno (max t.highestAck a) }

/-- The SACK queue after an ACK of `a`: `pack_action` and `ack_action`. -/
def SackState.cut (t : SackState) (a : Int) : SackState :=
  let t := if t.sq ≠ [] ∧ t.sackMin < a then
    { t with sackMin := a, sq := (SegList.clearto t.sq a).1 } else t
  if t.hSeqno < a then { t with hSeqno := a } else t

namespace FullTcpAgent

variable {κ : Type}

/-! ### The steps -/

/-- A hole in the SACKed blocks. -/
structure Hole (cfg : FullTcpConfig) (s : FullTcpAgent κ) (seq : Int) : Prop where
  sack : cfg.kind.isSack = true
  above : 0 ≤ s.snd.maxseg → s.sack.hSeqno ≤ seq
  below : SegList.Wf s.sack.sq → ∃ b ∈ s.sack.sq, seq ≤ b.stop

/-- Where a segment starts. -/
def FromSeq (cfg : FullTcpConfig) (s : FullTcpAgent κ) (seq : Int) : Prop :=
  seq = s.snd.tSeqno ∨ seq = s.snd.highestAck ∨ (seq = cfg.iss ∧ synLen s.state = 1) ∨
    Hole cfg s seq

/-- One step of the sender, while it handles the segment `q` or a call. -/
inductive Act (cfg : FullTcpConfig) (q : Option Segment) :
    FullTcpAgent κ → FullTcpAgent κ → Prop where
  | ctl {s s' : FullTcpAgent κ} : CtlOnly s s' → Act cfg q s s'
  | done (s : FullTcpAgent κ) : Act cfg q s s.done
  | out {s s' : FullTcpAgent κ} {seq n : Int} {o : Option Emission} :
      FromSeq cfg s seq → Out cfg s seq n o s' → Act cfg q s s'
  | sent {s s' : FullTcpAgent κ} {seq n amt : Int} {o : Option Emission} :
      FromSeq cfg s seq → Out cfg s seq n o s' → amt = n ∨ 0 < n ∧ amt = n - 1 →
      Act cfg q s (s'.sent cfg seq amt)
  | rtx {s s' : FullTcpAgent κ} {n : Int} {o : Option Emission} :
      Out cfg s s.snd.highestAck n o s' →
      Act cfg q s (s'.setSack fun t => { t with hSeqno := s.snd.highestAck + n })
  | hseqno {s : FullTcpAgent κ} {v : Int} : Hole cfg s v →
      Act cfg q s (s.setSack fun t => { t with hSeqno := v })
  | rewindHseqno (s : FullTcpAgent κ) :
      Act cfg q s (s.setSack fun t => { t with hSeqno := s.snd.highestAck })
  | rewind (s : FullTcpAgent κ) : Act cfg q s (s.rewind cfg)
  | restart (s : FullTcpAgent κ) :
      s.state.toNat ≥ TcpState.established.toNat →
      Act cfg q s (s.setSnd fun t => { t with tSeqno := t.highestAck })
  | recover (s : FullTcpAgent κ) : Act cfg q s (s.setSnd fun t => { t with recover := t.maxseq })
  | ack {s : FullTcpAgent κ} {p : Segment} {k : SackState} :
      p ∈ q → s.snd.highestAck ≤ p.ackno → p.ackno ≤ s.snd.maxseq →
      s.state.toNat ≥ TcpState.established.toNat →
      k = (if cfg.kind.isSack then s.sack.cut p.ackno else s.sack) ∨
        k = s.sack ∧ (cfg.kind.isSack = true → p.ackno ≤ s.sack.hSeqno) →
      Act cfg q s { s with snd := s.snd.acked p.ackno, sack := k }
  | sacked {s : FullTcpAgent κ} {p : Segment} {k : SackState} :
      p ∈ q → addBlocks (containsAll p.flags TcpFlag.fin) p.sack s.sack = some k →
      Act cfg q s { s with sack := k }
  | clearSack (s : FullTcpAgent κ) :
      Act cfg q s (s.setSack fun t => { t with sq := [], sackMin := s.snd.highestAck })
  | finWait2 {s : FullTcpAgent κ} : s.state = .finWait1 → Act cfg q s (s.newstate .finWait2)
  | closed {s : FullTcpAgent κ} : s.state = .closing → Act cfg q s (s.newstate .closed)

/-- Steps of the sender, one after the other. -/
abbrev Acts (cfg : FullTcpConfig) (q : Option Segment) :
    FullTcpAgent κ → FullTcpAgent κ → Prop := Relation.ReflTransGen (Act cfg q)

variable {cfg : FullTcpConfig} {q : Option Segment} {s s' s₁ : FullTcpAgent κ}

theorem CtlOnly.acts (h : CtlOnly s s') : Acts cfg q s s' := .single (.ctl h)

/-- The states of a connection that has not seen a FIN. -/
def Flowing (st : TcpState) : Prop := st = .established ∨ st = .finWait1 ∨ st = .finWait2

theorem Act.rcv (h : Act cfg q s s') : s'.rcv = s.rcv := by
  cases h with
  | ctl h => exact h.rcv
  | out _ h => exact h.rcv
  | sent _ h _ =>
      rw [← h.rcv]
      simp only [FullTcpAgent.sent]
      split_ifs <;> rfl
  | rtx h => exact h.rcv
  | done | hseqno | rewindHseqno | rewind | restart | recover | ack | sacked | clearSack | finWait2
  | closed => rfl

theorem sent_state (cfg : FullTcpConfig) (s : FullTcpAgent κ) (seq amt : Int) :
    (s.sent cfg seq amt).state = s.state := by
  simp only [FullTcpAgent.sent]
  split_ifs <;> rfl

theorem sent_trace (cfg : FullTcpConfig) (s : FullTcpAgent κ) (seq amt : Int) :
    (s.sent cfg seq amt).trace = s.trace := by
  simp only [FullTcpAgent.sent]
  split_ifs <;> rfl

theorem Act.flowing (h : Act cfg q s s') (hs : Flowing s.state) : Flowing s'.state := by
  have hout : ∀ {seq n : Int} {o : Option Emission} {s' : FullTcpAgent κ},
      Out cfg s seq n o s' → Flowing s'.state := by
    intro seq n o s' ho
    rcases ho.state with e | ⟨e, -⟩
    · rwa [e]
    · exact .inr (.inl e)
  cases h with
  | ctl h => rwa [h.state]
  | out _ h => exact hout h
  | sent _ h _ =>
      rw [sent_state]
      exact hout h
  | rtx h =>
      have hflow := hout h
      exact hflow
  | finWait2 _ => exact .inr (.inr rfl)
  | closed h =>
      rw [h] at hs
      simp [Flowing] at hs
  | done | hseqno | rewindHseqno | rewind | restart | recover | ack | sacked | clearSack => exact hs

/-- **The receiver stays as it is.** -/
theorem Acts.rcv (h : Acts cfg q s s') : s'.rcv = s.rcv := by
  induction h with
  | refl => rfl
  | tail _ hst ih => rw [hst.rcv, ih]

theorem Acts.flowing (h : Acts cfg q s s') (hs : Flowing s.state) : Flowing s'.state := by
  induction h with
  | refl => exact hs
  | tail _ hst ih => exact hst.flowing ih

theorem Act.sent_suffix (ha : Act cfg q s s') : s.trace.sent <:+ s'.trace.sent := by
  have hout : ∀ {seq n : Int} {o : Option Emission} {s' : FullTcpAgent κ},
      Out cfg s seq n o s' → s.trace.sent <:+ s'.trace.sent := by
    intro seq n o s' ho
    rw [ho.sent]
    exact List.suffix_append _ _
  cases ha with
  | ctl h => rw [h.trace]
  | out _ h => exact hout h
  | sent _ h _ =>
      rw [sent_trace]
      exact hout h
  | rtx h =>
      have hsuf := hout h
      exact hsuf
  | done | hseqno | rewindHseqno | rewind | restart | recover | ack | sacked | clearSack | finWait2
  | closed => exact List.suffix_rfl

theorem Acts.sent_suffix (ha : Acts cfg q s s') : s.trace.sent <:+ s'.trace.sent := by
  induction ha with
  | refl => exact List.suffix_rfl
  | tail _ hst ih => exact ih.trans hst.sent_suffix

/-! ### `send_much` -/

theorem nexthole_spec {l : List Block} {seq : Int} (h : 0 < (SegList.nexthole l seq).1) :
    seq ≤ (SegList.nexthole l seq).1 ∧
      (SegList.Wf l → ∃ b ∈ l, (SegList.nexthole l seq).1 ≤ b.stop) := by
  induction l with
  | nil => simp [SegList.nexthole] at h
  | cons b l ih =>
      rw [SegList.nexthole] at h ⊢
      by_cases hb : b.start > seq
      · rw [if_pos hb]
        refine ⟨Int.le_refl _, fun hwf => ⟨b, by simp, ?_⟩⟩
        have hlt : b.start < b.stop := (Normal.cons_iff.mp hwf).1
        show seq ≤ b.stop
        omega
      rw [if_neg hb] at h ⊢
      by_cases hb' : seq ≤ b.stop
      · rw [if_pos hb']
        exact ⟨hb', fun _ => ⟨b, by simp, Int.le_refl _⟩⟩
      rw [if_neg hb'] at h ⊢
      obtain ⟨hle, hmem⟩ := ih h
      refine ⟨hle, fun hwf => ?_⟩
      obtain ⟨x, hx, hx'⟩ := hmem (Normal.cons_iff.mp hwf).2.2
      exact ⟨x, by simp [hx], hx'⟩

/-- The loop of `nxt_tseq` finds a hole. -/
theorem holeLoop_spec {fuel : Nat} {start seq : Int}
    (he : s.holeLoop cfg fuel start = some (some seq)) :
    (0 ≤ s.snd.maxseg → start ≤ seq) ∧ (SegList.Wf s.sack.sq → ∃ b ∈ s.sack.sq, seq ≤ b.stop) := by
  induction fuel generalizing start with
  | zero => exact absurd he (by simp [holeLoop])
  | succ fuel ih =>
      rw [holeLoop] at he
      by_cases hpos : (SegList.nexthole s.sack.sq start).1 > 0
      swap
      · rw [if_neg hpos] at he
        exact absurd (Option.some.inj he) (by simp)
      obtain ⟨hle, hmem⟩ := nexthole_spec hpos
      rw [if_pos hpos] at he
      split_ifs at he
      · obtain rfl := Option.some.inj (Option.some.inj he)
        exact ⟨fun _ => hle, hmem⟩
      · exact absurd (Option.some.inj he) (by simp)
      all_goals
        obtain ⟨h₁, h₂⟩ := ih he
        refine ⟨fun hm => ?_, h₂⟩
        have hm' := h₁ hm
        omega

/-- The next sequence number to send. -/
theorem nxtTseq_acts {fuel : Nat} {r : Int × FullTcpAgent κ} (he : s.nxtTseq cfg fuel = some r) :
    Acts cfg q s r.2 ∧ FromSeq cfg r.2 r.1 := by
  rw [nxtTseq] at he
  split_ifs at he with hc
  · obtain ⟨o, ho, rfl⟩ := Option.map_eq_some_iff.mp he
    cases o with
    | none => exact ⟨.refl, .inl rfl⟩
    | some seq =>
        obtain ⟨habove, hbelow⟩ := holeLoop_spec ho
        dsimp only
        split_ifs with hgt
        · exact ⟨.single (.hseqno ⟨hc.1, habove, hbelow⟩),
            .inr (.inr (.inr ⟨hc.1, fun _ => Int.le_refl _, hbelow⟩))⟩
        · exact ⟨.refl, .inr (.inr (.inr ⟨hc.1, habove, hbelow⟩))⟩
  · obtain rfl := Option.some.inj he
    exact ⟨.refl, .inl rfl⟩

theorem foutput_act {h : Hooks κ} {seq : Int} {reason : XmissionReason}
    {r : Int × FullTcpAgent κ} (hseq : FromSeq cfg s seq)
    (he : s.foutput cfg h seq reason = some r) : Act cfg q s r.2 := by
  obtain ⟨o, ho⟩ := foutput_out h he
  exact .out hseq ho

theorem sendLoop_acts (h : Hooks κ) {fuel : Nat} {force : Bool} {reason : XmissionReason}
    {maxburst npackets : Int}
    (he : sendLoop cfg h fuel s force reason maxburst npackets = some s') : Acts cfg q s s' := by
  induction fuel generalizing s force npackets with
  | zero => exact absurd he (by simp [sendLoop])
  | succ fuel ih =>
      obtain ⟨⟨seq, s₁⟩, hr, he⟩ := Option.bind_eq_some_iff.mp he
      obtain ⟨hacts, hseq⟩ := nxtTseq_acts hr
      refine hacts.trans ?_
      dsimp only at he hseq ⊢
      split_ifs at he with h₁ h₂
      · obtain rfl := Option.some.inj he
        exact .refl
      · obtain rfl := Option.some.inj he
        exact CtlOnly.acts ⟨rfl, id, id⟩
      · obtain ⟨⟨n, s₂⟩, ho, he⟩ := Option.bind_eq_some_iff.mp he
        obtain ⟨o, hout⟩ := foutput_out h ho
        dsimp only at he
        by_cases hn : n ≤ 0
        · rw [if_pos hn] at he
          obtain rfl := Option.some.inj he
          exact .single (.out hseq hout)
        · rw [if_neg hn] at he
          obtain ⟨amt, hamt⟩ : ∃ amt, amt =
              if containsAll s₂.outflags TcpFlag.fin then n - 1 else n := ⟨_, rfl⟩
          have hsent : Act cfg q s₁ (s₂.sent cfg seq amt) := by
            refine .sent hseq hout ?_
            rw [hamt]
            split_ifs
            · exact .inr ⟨by omega, rfl⟩
            · exact .inl rfl
          rw [← hamt] at he
          split_ifs at he
          · obtain rfl := Option.some.inj he
            exact .single hsent
          · exact .head hsent (ih he)

/-- **`send_much`.** -/
theorem sendMuch_acts {h : Hooks κ} {fuel : Nat} {force : Bool} {reason : XmissionReason}
    {maxburst : Int} (he : s.sendMuch cfg h fuel force reason maxburst = some s') :
    Acts cfg q s s' := by
  rw [sendMuch] at he
  split_ifs at he
  · obtain rfl := Option.some.inj he
    exact .refl
  · exact sendLoop_acts h he

/-! ### ACKs -/

/-- The timer and the probing at an ACK. -/
def ackTimer (h : Hooks κ) (s : FullTcpAgent κ) (p : Segment) : FullTcpAgent κ :=
  let s := s.setCtl fun t => { t with probMode := false, probCount := 0 }
  if p.ackno = s.snd.maxseq then s.cancelRtxTimer
  else if decide (p.ackno > s.snd.highestAck) then s.setRtxTimer h else s

/-- The sequence numbers at an ACK; `progress` tells whether it is new. -/
def ackSeq (s : FullTcpAgent κ) (p : Segment) (progress : Bool) : FullTcpAgent κ :=
  let s := if progress then s.setSnd fun t => { t with highestAck := p.ackno } else s
  if s.snd.tSeqno < s.snd.highestAck then
    s.setSnd fun t => { t with tSeqno := t.highestAck } else s

/-- The round-trip time at an ACK. -/
def ackRtt (cfg : FullTcpConfig) (h : Hooks κ) (s : FullTcpAgent κ) (p : Segment) :
    FullTcpAgent κ :=
  if p.noTs then s
  else
    let s := if cfg.tsOption then
        let s := s.setCtl fun t => { t with recentAge := t.now, recent := p.ts }
        s.setOther (h.rttUpdate (s.ctl.now - p.tsEcho) s)
      else if s.ctl.rttActive ∧ p.ackno > s.ctl.rttSeq then
        let s := s.setCtl fun t => { t with rttActive := false }
        s.setOther (h.rttUpdate (s.ctl.now - s.ctl.rttTs) s)
      else s
    s.setOther (h.resetBackoff p s)

variable (cfg) (h : Hooks κ) (s) (p : Segment)

theorem newack_eq : s.newack cfg h p =
    ackRtt cfg h (ackSeq (ackTimer h s p) p (p.ackno > s.snd.highestAck)) p := rfl

theorem ackTimer_ctlOnly : CtlOnly s (ackTimer h s p) := by
  have hc : CtlOnly s (s.setCtl fun t => { t with probMode := false, probCount := 0 }) :=
    setCtl_ctlOnly id id
  exact .ite (hc.trans (cancelRtxTimer_ctlOnly _))
    (.ite (hc.trans (setRtxTimer_ctlOnly h _)) hc)

theorem ackRtt_ctlOnly : CtlOnly s (ackRtt cfg h s p) := by
  refine .ite (.refl s) (.trans (.ite ?_ (.ite ?_ (.refl s))) (setOther_ctlOnly _ _))
  · exact (setCtl_ctlOnly id id).trans (setOther_ctlOnly _ _)
  · exact (setCtl_ctlOnly id id).trans (setOther_ctlOnly _ _)

theorem ackSeq_eq : ackSeq s p (p.ackno > s.snd.highestAck) =
    { s with snd := s.snd.acked p.ackno } := by
  simp only [ackSeq]
  by_cases hp : p.ackno > s.snd.highestAck
  · rw [decide_eq_true hp, if_pos rfl, SndSeq.acked, max_eq_right (a := s.snd.highestAck) hp.le]
    by_cases ht : s.snd.tSeqno < p.ackno
    · rw [max_eq_right ht.le]
      exact if_pos ht
    · rw [max_eq_left (not_lt.mp ht)]
      exact if_neg ht
  · rw [decide_eq_false hp, if_neg Bool.false_ne_true, SndSeq.acked, max_eq_left (not_lt.mp hp)]
    by_cases ht : s.snd.tSeqno < s.snd.highestAck
    · rw [max_eq_right ht.le]
      exact if_pos ht
    · rw [max_eq_left (not_lt.mp ht)]
      exact if_neg ht

/-- `newack` moves the sequence numbers. -/
theorem newack_spec : CtlOnly { s with snd := s.snd.acked p.ackno } (s.newack cfg h p) := by
  have hc := ackTimer_ctlOnly s h p
  have hseq := ackSeq_eq (ackTimer h s p) p
  rw [hc.snd] at hseq
  have htimer : CtlOnly { s with snd := s.snd.acked p.ackno }
      { ackTimer h s p with snd := s.snd.acked p.ackno } := by
    refine ⟨?_, hc.close, hc.fin⟩
    rw [hc.eq]
  rw [newack_eq, hseq]
  exact htimer.trans (ackRtt_ctlOnly _ _ h p)

variable {cfg h s p}

theorem fastRetransmit_out {r : Int × FullTcpAgent κ}
    (he : s.fastRetransmit cfg h s.snd.highestAck = some r) :
    ∃ s₁ o, Acts cfg q s s₁ ∧ s₁.snd.highestAck = s.snd.highestAck ∧
      Out cfg s₁ s₁.snd.highestAck r.1 o r.2 := by
  obtain ⟨o, ho⟩ := foutput_out h he
  exact ⟨(s.setSnd fun t => { t with recover := t.maxseq }).setCtl fun t =>
    { t with lastCwndAction := .dupack }, o,
    .tail (.single (.recover s)) (.ctl ⟨rfl, id, id⟩), rfl, ho⟩

theorem fastRetransmit_acts {r : Int × FullTcpAgent κ}
    (he : s.fastRetransmit cfg h s.snd.highestAck = some r) : Acts cfg q s r.2 := by
  obtain ⟨s₁, o, hacts, -, ho⟩ := fastRetransmit_out (q := q) he
  exact hacts.tail (.out (.inr (.inl rfl)) ho)

theorem renoPackAction_ctlOnly (cfg : FullTcpConfig) (s : FullTcpAgent κ) :
    CtlOnly s (s.renoPackAction cfg) :=
  .trans (.ite (setCwnd_ctlOnly s _) (.refl s)) ⟨rfl, id, id⟩

/-- What is done at a partial or a new ACK, after `newack`. -/
theorem action_acts (he : (if s.pack p then s.packAction cfg h else some (s.ackAction cfg))
      = some s') :
    Acts cfg q { s with sack := if cfg.kind.isSack then s.sack.cut s.snd.highestAck else s.sack }
      s' := by
  by_cases hp : s.pack p = true
  · rw [if_pos hp, packAction] at he
    cases hk : cfg.kind <;> simp only [hk] at he <;>
      simp only [AgentKind.isSack, Bool.false_eq_true, if_true, if_false]
    case newreno =>
      obtain ⟨r, hr, rfl⟩ := Option.map_eq_some_iff.mp he
      refine (fastRetransmit_acts hr).trans (CtlOnly.acts ?_)
      exact .ite ⟨rfl, id, id⟩ ⟨rfl, id, id⟩
    case reno | tahoe =>
      obtain rfl := Option.some.inj he
      exact (renoPackAction_ctlOnly cfg s).acts
    case sack | min | dd =>
      obtain rfl := Option.some.inj he
      exact CtlOnly.acts ⟨rfl, id, id⟩
  · rw [if_neg hp] at he
    obtain rfl := Option.some.inj he
    rw [ackAction]
    cases hk : cfg.kind <;>
      simp only [AgentKind.isSack, Bool.false_eq_true, if_true, if_false]
    case newreno =>
      refine CtlOnly.acts (.trans (.ite ?_ (.refl s)) (renoPackAction_ctlOnly cfg _))
      exact ⟨rfl, id, id⟩
    case reno | tahoe => exact (renoPackAction_ctlOnly cfg s).acts
    case sack | min | dd => exact CtlOnly.acts ⟨rfl, id, id⟩

theorem ecn_acts (s : FullTcpAgent κ) (seqno : Int) : Acts cfg q s (s.ecn h seqno) := by
  rw [ecn]
  split_ifs
  · exact .head (.recover s) (CtlOnly.acts ⟨rfl, id, id⟩)
  · exact .refl

theorem onReceiveAck_acts (s : FullTcpAgent κ) (p : Segment) (ti : TcpFlag) :
    Acts cfg q s (s.onReceiveAck h p ti) := by
  simp only [onReceiveAck]
  split_ifs
  · exact (ecn_acts s _).trans (setRtxTimer_ctlOnly h _).acts
  · exact ecn_acts s _
  · exact .refl

theorem growWindow_ctlOnly (s : FullTcpAgent κ) (p : Segment) (b : Bool) :
    CtlOnly s (s.growWindow cfg h p b) :=
  .trans (.ite (setCong_ctlOnly s _) (.refl s)) (setOther_ctlOnly _ _)

/-- The agent with an ACK of `a` taken into account. -/
def acked (cfg : FullTcpConfig) (s : FullTcpAgent κ) (a : Int) : FullTcpAgent κ :=
  { s with
    snd := s.snd.acked a
    sack := if cfg.kind.isSack then s.sack.cut (max s.snd.highestAck a) else s.sack }

/-- `newack`, and what is done at a partial or a new ACK. -/
theorem newack_acts
    (he : (if (s.newack cfg h p).pack p then (s.newack cfg h p).packAction cfg h
      else some ((s.newack cfg h p).ackAction cfg)) = some s') :
    Acts cfg q (s.acked cfg p.ackno) s' := by
  have hn := newack_spec cfg s h p
  refine .trans (CtlOnly.acts ?_) (action_acts he)
  have hha : (s.newack cfg h p).snd.highestAck = max s.snd.highestAck p.ackno := by
    rw [hn.snd]
    rfl
  rw [hha, hn.sack]
  refine ⟨?_, hn.close, hn.fin⟩
  rw [hn.eq]
  rfl

theorem acked_act (hq : p ∈ q) (hs : s.state.toNat ≥ TcpState.established.toNat)
    (hlo : s.snd.highestAck ≤ p.ackno) (hhi : p.ackno ≤ s.snd.maxseq) :
    Act cfg q s (s.acked cfg p.ackno) := by
  rw [acked, max_eq_right hlo]
  exact .ack hq hlo hhi hs (.inl rfl)

/-! ### Duplicate ACKs -/

/-- The start of a recovery. -/
def dupackStart (s : FullTcpAgent κ) : FullTcpAgent κ :=
  s.setCtl fun t => { t with fastrecov := true, rtxbytes := 0 }

/-- The window is cut down, and the timer stopped. -/
def dupackCut (h : Hooks κ) (s : FullTcpAgent κ) (how : List Slowdown) : FullTcpAgent κ :=
  (s.setCong (h.slowdown how s)).cancelRtxTimer.setCtl fun t => { t with rttActive := false }

theorem dupackStart_ctlOnly (s : FullTcpAgent κ) : CtlOnly s s.dupackStart := ⟨rfl, id, id⟩

theorem dupackCut_ctlOnly (s : FullTcpAgent κ) (how : List Slowdown) :
    CtlOnly s (dupackCut h s how) :=
  (setCong_ctlOnly s _).trans ((cancelRtxTimer_ctlOnly _).trans (setCtl_ctlOnly id id))

/-- The retransmission of a `FullTcpAgent` at a duplicate ACK. -/
def renoRtx (cfg : FullTcpConfig) (h : Hooks κ) (s : FullTcpAgent κ) : Option (FullTcpAgent κ) :=
  ((s.setSnd fun t => { t with recover := t.maxseq }).fastRetransmit cfg h s.snd.highestAck).map
    fun o => o.2.setCwnd (o.2.ctl.cong.ssthresh + o.2.ctl.dupacks)

variable (cfg h) in
theorem renoDupackAction_eq (s : FullTcpAgent κ) : ∃ t, CtlOnly s t ∧
    (s.renoDupackAction cfg h = renoRtx cfg h t ∨
      s.renoDupackAction cfg h = (t.fastRetransmit cfg h t.snd.highestAck).map (·.2) ∨
      s.renoDupackAction cfg h = some t) := by
  have hc := dupackStart_ctlOnly s
  obtain ⟨c₁, c₂, hc₁, hc₂, he⟩ : ∃ c₁ c₂ : Prop, ∃ _ : Decidable c₁, ∃ _ : Decidable c₂,
      s.renoDupackAction cfg h =
        if c₁ then renoRtx cfg h (dupackCut h s.dupackStart [.ssthreshHalf, .cwndHalf])
        else if c₂ then
          ((dupackCut h s.dupackStart [.cwndHalf]).fastRetransmit cfg h s.snd.highestAck).map (·.2)
        else if cfg.bugFix then some s.dupackStart
        else renoRtx cfg h (dupackCut h s.dupackStart [.ssthreshHalf, .cwndHalf]) :=
    ⟨_, _, _, _, rfl⟩
  rw [he]
  split_ifs
  · exact ⟨_, hc.trans (dupackCut_ctlOnly _ _), .inl rfl⟩
  · exact ⟨_, hc.trans (dupackCut_ctlOnly _ _), .inr (.inl rfl)⟩
  · exact ⟨_, hc, .inr (.inr rfl)⟩
  · exact ⟨_, hc.trans (dupackCut_ctlOnly _ _), .inl rfl⟩

theorem renoDupackAction_acts (he : s.renoDupackAction cfg h = some s') : Acts cfg q s s' := by
  obtain ⟨t, hc, e | e | e⟩ := renoDupackAction_eq cfg h s <;> rw [e] at he
  · obtain ⟨r, hr, rfl⟩ := Option.map_eq_some_iff.mp he
    exact (hc.acts.tail (.recover t)).trans
      ((fastRetransmit_acts hr).trans (setCwnd_ctlOnly _ _).acts)
  · obtain ⟨r, hr, rfl⟩ := Option.map_eq_some_iff.mp he
    exact hc.acts.trans (fastRetransmit_acts hr)
  · obtain rfl := Option.some.inj he
    exact hc.acts

/-- The window and the timer of a `TahoeFullTcpAgent` at a duplicate ACK. -/
def restartCut (h : Hooks κ) (s : FullTcpAgent κ) (how : List Slowdown) : FullTcpAgent κ :=
  let s := s.setCtl fun t => { t with lastCwndAction := .dupack }
  ((s.setCong (h.slowdown how s)).setRtxTimer h).setCtl fun t => { t with rttActive := false }

theorem restartCut_ctlOnly (s : FullTcpAgent κ) (how : List Slowdown) :
    CtlOnly s (restartCut h s how) := by
  obtain ⟨t, ht⟩ : ∃ t, t = s.setCtl fun t => { t with lastCwndAction := .dupack } := ⟨_, rfl⟩
  have hc : CtlOnly s t := by
    rw [ht]
    exact ⟨rfl, id, id⟩
  have he : restartCut h s how = ((t.setCong (h.slowdown how t)).setRtxTimer h).setCtl fun t =>
      { t with rttActive := false } := by rw [ht]; rfl
  rw [he]
  have hset := (setCong_ctlOnly t (h.slowdown how t)).trans (setRtxTimer_ctlOnly h _)
  exact (hc.trans hset).trans ⟨rfl, id, id⟩

/-- A `TahoeFullTcpAgent` starts over at a duplicate ACK. -/
def tahoeRestart (h : Hooks κ) (s : FullTcpAgent κ) (how : List Slowdown) : FullTcpAgent κ :=
  (restartCut h s how).setSnd fun t => { t with tSeqno := t.highestAck }

variable (cfg h) in
theorem tahoeDupackAction_eq (s : FullTcpAgent κ) (fuel : Nat) :
    (∃ how, s.tahoeDupackAction cfg h fuel =
      (tahoeRestart h (s.dupackStart.setSnd fun t => { t with recover := t.maxseq }) how).sendMuch
        cfg h fuel false .normal 0) ∨
    (∃ how, s.tahoeDupackAction cfg h fuel = some (tahoeRestart h s.dupackStart how)) ∨
    s.tahoeDupackAction cfg h fuel = some s.dupackStart := by
  obtain ⟨c₁, c₂, hc₁, hc₂, t, hw, he⟩ : ∃ c₁ c₂ : Prop, ∃ _ : Decidable c₁, ∃ _ : Decidable c₂,
      ∃ how how', s.tahoeDupackAction cfg h fuel =
        if c₁ then (tahoeRestart h (s.dupackStart.setSnd fun t => { t with recover := t.maxseq })
          how).sendMuch cfg h fuel false .normal 0
        else if c₂ then some (tahoeRestart h s.dupackStart how')
        else if cfg.bugFix then some s.dupackStart
        else (tahoeRestart h (s.dupackStart.setSnd fun t => { t with recover := t.maxseq })
          how).sendMuch cfg h fuel false .normal 0 :=
    ⟨_, _, _, _, _, _, rfl⟩
  rw [he]
  split_ifs
  · exact .inl ⟨_, rfl⟩
  · exact .inr (.inl ⟨_, rfl⟩)
  · exact .inr (.inr rfl)
  · exact .inl ⟨_, rfl⟩

theorem tahoeRestart_acts (hs : s.state.toNat ≥ TcpState.established.toNat)
    (how : List Slowdown) : Acts cfg q s (tahoeRestart h s how) := by
  have hc := restartCut_ctlOnly (h := h) s how
  rw [tahoeRestart]
  generalize restartCut h s how = t at hc
  refine hc.acts.tail (.restart t ?_)
  rwa [hc.state]

theorem tahoeDupackAction_acts {fuel : Nat} (hs : s.state.toNat ≥ TcpState.established.toNat)
    (he : s.tahoeDupackAction cfg h fuel = some s') : Acts cfg q s s' := by
  have hc := dupackStart_ctlOnly s
  have hst : s.dupackStart.state = s.state := rfl
  rcases tahoeDupackAction_eq cfg h s fuel with ⟨how, e⟩ | ⟨how, e⟩ | e <;> rw [e] at he <;>
    generalize s.dupackStart = t at hc he hst
  · have hs' : (t.setSnd fun t => { t with recover := t.maxseq }).state.toNat ≥
        TcpState.established.toNat := by
      show t.state.toNat ≥ _
      rwa [hst]
    exact (hc.acts.tail (.recover t)).trans ((tahoeRestart_acts hs' how).trans (sendMuch_acts he))
  · obtain rfl := Option.some.inj he
    rw [← hst] at hs
    exact hc.acts.trans (tahoeRestart_acts hs how)
  · obtain rfl := Option.some.inj he
    exact hc.acts

/-- The retransmission of a `SackFullTcpAgent` at a duplicate ACK. -/
def sackRtx (cfg : FullTcpConfig) (h : Hooks κ) (fuel : Nat) (s : FullTcpAgent κ) :
    Option (FullTcpAgent κ) := do
  let o ← s.fastRetransmit cfg h s.snd.highestAck
  let s := o.2.setCtl fun t => { t with pipectrl := true }
  let s := s.setSack fun t => { t with hSeqno := s.snd.highestAck + o.1 }
  s.sendMuch cfg h fuel false .dupack s.ctl.maxburst

/-- The start of a recovery, with the estimate of what is in flight. -/
def sackStart (s : FullTcpAgent κ) : FullTcpAgent κ :=
  s.setCtl fun t => { t with
    fastrecov := true
    rtxbytes := 0
    pipe := s.snd.maxseq - s.snd.highestAck - SegList.total s.sack.sq }

/-- The window is cut down, and the sender controlled by `pipe_`. -/
def sackCut (h : Hooks κ) (s : FullTcpAgent κ) : FullTcpAgent κ :=
  (s.setCong (h.slowdown [.ssthreshHalf, .cwndHalf] s)).cancelRtxTimer.setCtl fun t =>
    { t with rttActive := false, pipectrl := true }

/-- The timer is stopped, and the window cut down if the marks ask for it. -/
def sackEcn (h : Hooks κ) (s : FullTcpAgent κ) : FullTcpAgent κ :=
  let s := s.setCtl fun t => { t with lastCwndAction := .dupack }
  let s := if h.shouldSlowdownOnDupAck s then
    s.setCong (h.slowdown [.ssthreshHalf, .cwndHalf] s) else s
  s.cancelRtxTimer.setCtl fun t => { t with rttActive := false }

variable (cfg h) in
theorem sackDupackAction_eq (s : FullTcpAgent κ) (fuel : Nat) : ∃ t, CtlOnly s t ∧
    (s.sackDupackAction cfg h fuel =
        sackRtx cfg h fuel (t.setSnd fun t => { t with recover := t.maxseq }) ∨
      s.sackDupackAction cfg h fuel = sackRtx cfg h fuel t ∨
      s.sackDupackAction cfg h fuel = some t) := by
  have hc : CtlOnly s s.sackStart := ⟨rfl, id, id⟩
  have hcut : CtlOnly s.sackStart (sackCut h s.sackStart) := ⟨rfl, id, id⟩
  have hecn : CtlOnly s.sackStart (sackEcn h s.sackStart) := by
    refine .trans (.trans ?_ (.ite (setCong_ctlOnly _ _) (.refl _))) ⟨rfl, id, id⟩
    exact ⟨rfl, id, id⟩
  obtain ⟨c₁, c₂, hc₁, hc₂, he⟩ : ∃ c₁ c₂ : Prop, ∃ _ : Decidable c₁, ∃ _ : Decidable c₂,
      s.sackDupackAction cfg h fuel =
        if c₁ then sackRtx cfg h fuel
          ((sackCut h s.sackStart).setSnd fun t => { t with recover := t.maxseq })
        else if c₂ then sackRtx cfg h fuel (sackEcn h s.sackStart)
        else if cfg.bugFix then some s.sackStart
        else sackRtx cfg h fuel
          ((sackCut h s.sackStart).setSnd fun t => { t with recover := t.maxseq }) :=
    ⟨_, _, _, _, rfl⟩
  rw [he]
  split_ifs
  · exact ⟨_, hc.trans hcut, .inl rfl⟩
  · exact ⟨_, hc.trans hecn, .inr (.inl rfl)⟩
  · exact ⟨_, hc, .inr (.inr rfl)⟩
  · exact ⟨_, hc.trans hcut, .inl rfl⟩

theorem sackRtx_acts {fuel : Nat} (he : sackRtx cfg h fuel s = some s') : Acts cfg q s s' := by
  obtain ⟨r, hr, he⟩ := Option.bind_eq_some_iff.mp he
  obtain ⟨s₁, o, hacts, -, ho⟩ := fastRetransmit_out (q := q) hr
  have hha : r.2.snd.highestAck = s₁.snd.highestAck := by
    rw [ho.snd]
    rfl
  obtain ⟨s₂, hs₂⟩ : ∃ s₂, s₂ =
    r.2.setSack fun t => { t with hSeqno := r.2.snd.highestAck + r.1 } := ⟨_, rfl⟩
  have hact : Act cfg q s₁ s₂ := by
    rw [hs₂, hha]
    exact .rtx ho
  have hc : CtlOnly s₂ (s₂.setCtl fun t => { t with pipectrl := true }) := ⟨rfl, id, id⟩
  have he' : (s₂.setCtl fun t => { t with pipectrl := true }).sendMuch cfg h fuel false .dupack
      s₂.ctl.maxburst = some s' := by
    rw [← he, hs₂]
    rfl
  exact (hacts.tail hact).trans (hc.acts.trans (sendMuch_acts he'))

theorem sackDupackAction_acts {fuel : Nat} (he : s.sackDupackAction cfg h fuel = some s') :
    Acts cfg q s s' := by
  obtain ⟨t, hc, e | e | e⟩ := sackDupackAction_eq cfg h s fuel <;> rw [e] at he
  · exact (hc.acts.tail (.recover t)).trans (sackRtx_acts he)
  · exact hc.acts.trans (sackRtx_acts he)
  · obtain rfl := Option.some.inj he
    exact hc.acts

/-- **What is done at a duplicate ACK.** -/
theorem dupackAction_acts {fuel : Nat} (hs : s.state.toNat ≥ TcpState.established.toNat)
    (he : s.dupackAction cfg h fuel = some s') : Acts cfg q s s' := by
  rw [dupackAction] at he
  split at he
  · exact renoDupackAction_acts he
  · exact renoDupackAction_acts he
  · exact tahoeDupackAction_acts hs he
  all_goals exact sackDupackAction_acts he

theorem processSack_acts (hp : p ∈ q) (he : s.processSack cfg p = some s') : Acts cfg q s s' := by
  simp only [processSack] at he
  obtain ⟨t, ht⟩ : ∃ t, t = s.setCtl fun t => { t with lastSqtotal := SegList.total s.sack.sq } :=
    ⟨_, rfl⟩
  have hc : CtlOnly s t := by
    rw [ht]
    exact ⟨rfl, id, id⟩
  rw [← ht] at he
  split_ifs at he
  · obtain rfl := Option.some.inj he
    exact hc.acts
  · obtain ⟨k, hk, rfl⟩ := Option.map_eq_some_iff.mp he
    exact .trans (hc.acts.tail (.sacked hp hk)) (CtlOnly.acts ⟨rfl, id, id⟩)
  · obtain rfl := Option.some.inj he
    exact .refl

/-! ### The rest -/

theorem onReceivePureIncoming_acts {fuel : Nat}
    (he : s.onReceivePureIncoming cfg h fuel = some s') : Acts cfg q s s' := by
  rw [onReceivePureIncoming] at he
  split_ifs at he
  · obtain ⟨s₁, hs₁, he⟩ := Option.bind_eq_some_iff.mp he
    obtain rfl := Option.some.inj he
    have hc : CtlOnly s ((s.setCtl fun t => { t with ackNow := true }).setOther
        (h.flipCe (s.setCtl fun t => { t with ackNow := true }))) :=
      (setCtl_ctlOnly id id).trans (setOther_ctlOnly _ _)
    exact hc.acts.trans ((sendMuch_acts hs₁).trans (setOther_ctlOnly _ _).acts)
  · obtain rfl := Option.some.inj he
    exact .refl

variable (cfg h s p) in
/-- The states of closing; a connection that leaves LAST_ACK is reset. -/
theorem closingStates_acts (x : Rx) :
    (∃ out, (s.closingStates cfg h p x).2 = some { x with needoutput := out } ∧
        Acts cfg q s (s.closingStates cfg h p x).1) ∨
      (s.state = .lastAck ∧
        s.closingStates cfg h p x = (((s.newstate .closed).done).reset cfg h, none)) := by
  simp only [closingStates]
  split_ifs
  · exact .inl ⟨x.needoutput, rfl, .refl⟩
  · cases hs : s.state <;> dsimp only
    case finWait1 => exact .inl ⟨_, rfl, .head (.finWait2 hs) (cancelTimers_ctlOnly _).acts⟩
    case closing =>
      exact .inl ⟨x.needoutput, rfl, .head (.closed hs) (cancelTimers_ctlOnly _).acts⟩
    case lastAck => exact .inr ⟨rfl, rfl⟩
    all_goals exact .inl ⟨x.needoutput, rfl, .refl⟩

/-- A timeout is counted towards the probing of a `MinTcpAgent`. -/
def probed (cfg : FullTcpConfig) (s : FullTcpAgent κ) : FullTcpAgent κ :=
  s.setCtl fun t => { t with
    probCount := t.probCount + 1
    probMode := t.probMode || t.probCount + 1 = cfg.probCap }

/-- The label `process_ACK:` after the action for the ACK. -/
def afterAction (cfg : FullTcpConfig) (h : Hooks κ) (s : FullTcpAgent κ) (fuel : Nat)
    (p : Segment) (partialAck : Bool) (x : Rx) : Option (FullTcpAgent κ) :=
  let s := s.onReceiveAck h p x.tiflags
  let x := if p.ackno = s.snd.maxseq then { x with needoutput := true } else x
  if p.ackno = s.snd.highestAck + 1 then s.step6 cfg h fuel p x
  else
    let r := (s.growWindow cfg h p partialAck).closingStates cfg h p x
    match r.2 with
    | some x => r.1.step6 cfg h fuel p x
    | none => some r.1

variable (cfg h s p) in
theorem processAck_eq (fuel : Nat) (x : Rx) : s.processAck cfg h fuel p x =
    if p.ackno > s.snd.maxseq then s.dropafterack cfg h fuel
    else (if (s.newack cfg h p).pack p then (s.newack cfg h p).packAction cfg h
      else some ((s.newack cfg h p).ackAction cfg)).bind fun t =>
        t.afterAction cfg h fuel p ((s.newack cfg h p).pack p) x := by
  rw [processAck]
  split_ifs
  · rfl
  · simp only [*]
    rfl
  · simp only [*]
    rfl

/-- **The label `process_ACK:`.**  An ACK of what has not been sent is dropped; after any other the
segment goes to `step6:`, unless the connection leaves LAST_ACK. -/
theorem processAck_spec {fuel : Nat} {x : Rx} (he : s.processAck cfg h fuel p x = some s') :
    (s.snd.maxseq < p.ackno ∧ s.dropafterack cfg h fuel = some s') ∨
      p.ackno ≤ s.snd.maxseq ∧ ∃ s₁, Acts cfg q (s.acked cfg p.ackno) s₁ ∧
        ((∃ out, s₁.step6 cfg h fuel p { x with needoutput := out } = some s') ∨
          s₁.state = .lastAck ∧ s' = ((s₁.newstate .closed).done).reset cfg h) := by
  rw [processAck_eq] at he
  by_cases hm : p.ackno > s.snd.maxseq
  · rw [if_pos hm] at he
    exact .inl ⟨hm, he⟩
  rw [if_neg hm] at he
  refine .inr ⟨by omega, ?_⟩
  obtain ⟨t, ht, he⟩ := Option.bind_eq_some_iff.mp he
  have hacts := (newack_acts (q := q) ht).trans (onReceiveAck_acts (h := h) t p x.tiflags)
  rw [afterAction] at he
  generalize t.onReceiveAck h p x.tiflags = t at hacts he
  have hx : (if p.ackno = t.snd.maxseq then { x with needoutput := true } else x) =
      { x with needoutput := if p.ackno = t.snd.maxseq then true else x.needoutput } := by
    split_ifs <;> rfl
  simp only [hx] at he
  by_cases hnext : p.ackno = t.snd.highestAck + 1
  · rw [if_pos hnext] at he
    exact ⟨t, hacts, .inl ⟨_, he⟩⟩
  rw [if_neg hnext] at he
  have hctl : CtlOnly t (t.growWindow cfg h p ((s.newack cfg h p).pack p)) :=
    growWindow_ctlOnly t p _
  have hgrow := hacts.trans hctl.acts
  generalize t.growWindow cfg h p ((s.newack cfg h p).pack p) = t₂ at hgrow he
  rcases closingStates_acts (q := q) cfg t₂ h p { x with
      needoutput := if p.ackno = t.snd.maxseq then true else x.needoutput } with
    ⟨out, hout, hclose⟩ | ⟨hst, hclose⟩
  · simp only [hout] at he
    exact ⟨_, hgrow.trans hclose, .inl ⟨out, he⟩⟩
  · simp only [hclose] at he
    obtain rfl := Option.some.inj he
    exact ⟨_, hgrow, .inr ⟨hst, rfl⟩⟩

/-- The threshold of duplicate ACKs. -/
def dupackThresh (cfg : FullTcpConfig) (s : FullTcpAgent κ) : FullTcpAgent κ :=
  if cfg.dynamicDupack > 0 then
    s.setCtl fun t => { t with
      tcprexmtthresh := max 3 (trunc (cfg.dynamicDupack * s.window cfg)) }
  else s

/-- A duplicate ACK is acted on, or the segment goes to `step6:`. -/
theorem dupack_spec {fuel : Nat} {x : Rx} (hs : s.state.toNat ≥ TcpState.established.toNat)
    (he : s.dupack cfg h fuel p x = some s') :
    Acts cfg q s s' ∨ ∃ t, CtlOnly s t ∧ t.step6 cfg h fuel p x = some s' := by
  have hc : CtlOnly s (s.dupackThresh cfg) := .ite (setCtl_ctlOnly id id) (.refl s)
  have he' : (if !(s.dupackThresh cfg).ctl.rtxPending ∨
      p.ackno < (s.dupackThresh cfg).snd.highestAck then
        ((s.dupackThresh cfg).setCtl fun t => { t with dupacks := 0 }).step6 cfg h fuel p x
      else
        let s := (s.dupackThresh cfg).setCtl fun t => { t with dupacks := t.dupacks + 1 }
        if s.ctl.dupacks = s.ctl.tcprexmtthresh then s.dupackAction cfg h fuel
        else if s.ctl.dupacks > s.ctl.tcprexmtthresh then
          let s := if cfg.renoFastrecov then s.setCwnd (s.ctl.cong.cwnd + 1) else s
          s.sendMuch cfg h fuel false .dupack s.ctl.maxburst
        else s.step6 cfg h fuel p x) = some s' := he
  generalize s.dupackThresh cfg = t at hc he'
  have hzero : CtlOnly s (t.setCtl fun t => { t with dupacks := 0 }) :=
    hc.trans (setCtl_ctlOnly id id)
  have hcount : CtlOnly s (t.setCtl fun t => { t with dupacks := t.dupacks + 1 }) :=
    hc.trans (setCtl_ctlOnly id id)
  generalize (t.setCtl fun t => { t with dupacks := 0 }) = t₀ at hzero he'
  generalize (t.setCtl fun t => { t with dupacks := t.dupacks + 1 }) = t₁ at hcount he'
  dsimp only at he'
  split_ifs at he'
  · exact .inr ⟨_, hzero, he'⟩
  · rw [← hcount.state] at hs
    exact .inl (hcount.acts.trans (dupackAction_acts hs he'))
  · exact .inl ((hcount.trans (setCwnd_ctlOnly _ _)).acts.trans (sendMuch_acts he'))
  · exact .inl (hcount.acts.trans (sendMuch_acts he'))
  · exact .inr ⟨_, hcount, he'⟩

theorem processSack_keeps (he : s.processSack cfg p = some s') :
    s'.snd = s.snd ∧ s'.state = s.state := by
  simp only [processSack] at he
  split_ifs at he
  · obtain rfl := Option.some.inj he
    exact ⟨rfl, rfl⟩
  · obtain ⟨k, -, rfl⟩ := Option.map_eq_some_iff.mp he
    exact ⟨rfl, rfl⟩
  · obtain rfl := Option.some.inj he
    exact ⟨rfl, rfl⟩

/-- ACK processing after `process_sack`. -/
def afterSack (cfg : FullTcpConfig) (h : Hooks κ) (s : FullTcpAgent κ) (fuel : Nat)
    (p : Segment) (x : Rx) : Option (FullTcpAgent κ) :=
  let s := if s.ctl.fastrecov ∧ (x.datalen = 0 ∨ p.ackno > s.snd.highestAck) then
    s.setCtl fun t => { t with pipe := t.pipe - s.snd.maxseg } else s
  if p.ackno ≤ s.snd.highestAck then
    if x.datalen = 0 ∧ (!cfg.dupsegFix ∨ !x.dupseg) then s.dupack cfg h fuel p x
    else
      let s := if cfg.dupackReset then
        s.setCtl fun t => { t with dupacks := 0, fastrecov := false } else s
      s.step6 cfg h fuel p x
  else s.processAck cfg h fuel p x

variable (cfg h s p) in
theorem established_eq (fuel : Nat) (x : Rx) : s.established cfg h fuel p x =
    (if s.state.toNat ≥ TcpState.established.toNat ∧ p.sack ≠ [] then
      (s.setOther (h.onNewPacket s p (x.datalen > 0))).processSack cfg p
    else some (s.setOther (h.onNewPacket s p (x.datalen > 0)))).bind fun t =>
      t.afterSack cfg h fuel p x := by
  rw [established]
  by_cases hc : s.state.toNat ≥ TcpState.established.toNat ∧ p.sack ≠ []
  · rw [if_pos hc]
    exact if_pos hc
  · rw [if_neg hc]
    exact if_neg hc

/-- **ACK processing in ESTABLISHED and later states.** -/
theorem established_spec {fuel : Nat} {x : Rx} (hq : p ∈ q)
    (hs : s.state.toNat ≥ TcpState.established.toNat)
    (he : s.established cfg h fuel p x = some s') :
    (p.ackno ≤ s.snd.highestAck ∧ x.datalen = 0 ∧ Acts cfg q s s') ∨
    (p.ackno ≤ s.snd.highestAck ∧ ∃ t, Acts cfg q s t ∧ t.step6 cfg h fuel p x = some s') ∨
    (s.snd.highestAck < p.ackno ∧
      ∃ t, Acts cfg q s t ∧ t.snd = s.snd ∧ t.state = s.state ∧
        t.processAck cfg h fuel p x = some s') := by
  rw [established_eq] at he
  obtain ⟨t, ht, he⟩ := Option.bind_eq_some_iff.mp he
  have hacts : Acts cfg q s t ∧ t.snd = s.snd ∧ t.state = s.state := by
    have hc := setOther_ctlOnly s (h.onNewPacket s p (x.datalen > 0))
    split_ifs at ht
    · obtain ⟨hsnd, hstate⟩ := processSack_keeps ht
      exact ⟨hc.acts.trans (processSack_acts hq ht), hsnd, hstate⟩
    · obtain rfl := Option.some.inj ht
      exact ⟨hc.acts, rfl, rfl⟩
  rw [afterSack] at he
  obtain ⟨t₁, ht₁⟩ : ∃ t₁, t₁ = if t.ctl.fastrecov ∧ (x.datalen = 0 ∨ p.ackno > t.snd.highestAck)
    then t.setCtl fun c => { c with pipe := c.pipe - t.snd.maxseg } else t := ⟨_, rfl⟩
  have hc₁ : CtlOnly t t₁ := by
    rw [ht₁]
    exact .ite (setCtl_ctlOnly id id) (.refl t)
  rw [← ht₁] at he
  obtain ⟨hst, hsnd, hstate⟩ := hacts
  rw [← hc₁.snd] at hsnd
  rw [← hc₁.state] at hstate
  have hacts := hst.trans hc₁.acts
  rw [← hsnd]
  dsimp only at he
  split_ifs at he with hle hdup hreset
  · rcases dupack_spec (q := q) (by rwa [hstate]) he with hd | ⟨t₂, hc₂, he⟩
    · exact .inl ⟨hle, hdup.1, hacts.trans hd⟩
    · exact .inr (.inl ⟨hle, t₂, hacts.trans hc₂.acts, he⟩)
  · refine .inr (.inl ⟨hle, _, hacts.trans (CtlOnly.acts ?_), he⟩)
    exact setCtl_ctlOnly id id
  · exact .inr (.inl ⟨hle, t₁, hacts, he⟩)
  · exact .inr (.inr ⟨not_le.mp hle, t₁, hacts, rfl, hstate, he⟩)

/-- The window after a timeout. -/
def timeoutCong (h : Hooks κ) (s : FullTcpAgent κ) : FullTcpAgent κ :=
  let s := if s.ctl.cong.cwnd < 1 then s.setCwnd 1 else s
  if s.ctl.lastCwndAction = .ecn then s.setCong (h.slowdown [.cwndOne] s)
  else
    (s.setCong (h.slowdown [.ssthreshHalf, .cwndRestart] s)).setCtl fun t =>
      { t with lastCwndAction := .timeout }

/-- `reset_rtx_timer`. -/
def resetRtxTimer (cfg : FullTcpConfig) (h : Hooks κ) (s : FullTcpAgent κ) : FullTcpAgent κ :=
  let s := if s.snd.highestAck = s.snd.maxseq ∧ cfg.restartBugfix then s
    else s.setOther (h.rttBackoff s)
  (s.setRtxTimer h).setCtl fun t => { t with rttActive := false }

/-- The end of a recovery that has timed out. -/
def timeoutEnd (h : Hooks κ) (s : FullTcpAgent κ) : FullTcpAgent κ :=
  (s.setOther (h.onTimeout s)).setCtl fun t => { t with fastrecov := false, dupacks := 0 }

theorem renoTimeoutAction_eq (s : FullTcpAgent κ) : s.renoTimeoutAction cfg h =
    timeoutEnd h ((resetRtxTimer cfg h (timeoutCong h
      (s.setSnd fun t => { t with recover := t.maxseq }))).rewind cfg) := rfl

theorem renoTimeoutAction_acts (s : FullTcpAgent κ) : Acts cfg q s (s.renoTimeoutAction cfg h) := by
  have hcong : ∀ t : FullTcpAgent κ, CtlOnly t (timeoutCong h t) := fun t => by
    have hfloor : CtlOnly t (if t.ctl.cong.cwnd < 1 then t.setCwnd 1 else t) :=
      .ite (setCwnd_ctlOnly t 1) (.refl t)
    exact hfloor.trans (.ite (setCong_ctlOnly _ _) ((setCong_ctlOnly _ _).trans ⟨rfl, id, id⟩))
  have htimer : ∀ t : FullTcpAgent κ, CtlOnly t (resetRtxTimer cfg h t) := fun t => by
    have hback : CtlOnly t (if t.snd.highestAck = t.snd.maxseq ∧ cfg.restartBugfix then t
        else t.setOther (h.rttBackoff t)) := .ite (.refl t) (setOther_ctlOnly t _)
    simp only [resetRtxTimer]
    exact hback.trans ((setRtxTimer_ctlOnly h _).trans (setCtl_ctlOnly id id))
  have hend : ∀ t : FullTcpAgent κ, CtlOnly t (timeoutEnd h t) := fun t => ⟨rfl, id, id⟩
  rw [renoTimeoutAction_eq]
  refine .head (.recover s) (.trans ((hcong _).trans (htimer _)).acts ?_)
  exact .head (.rewind _) (hend _).acts

theorem sackTimeoutAction_acts (s : FullTcpAgent κ) : Acts cfg q s (s.sackTimeoutAction cfg h) := by
  simp only [sackTimeoutAction]
  split_ifs
  · exact (renoTimeoutAction_acts s).tail (.clearSack _)
  · exact renoTimeoutAction_acts s

/-- **What is done at a timeout.** -/
theorem timeoutAction_acts (s : FullTcpAgent κ) : Acts cfg q s (s.timeoutAction cfg h) := by
  rw [timeoutAction]
  split
  · exact renoTimeoutAction_acts s
  · exact renoTimeoutAction_acts s
  · exact renoTimeoutAction_acts s
  · exact sackTimeoutAction_acts s
  · exact sackTimeoutAction_acts s
  · refine .trans ?_ (sackTimeoutAction_acts _)
    split_ifs
    · have hc : CtlOnly s (probed cfg s) := ⟨rfl, id, id⟩
      exact hc.acts.tail (.rewindHseqno (probed cfg s))
    · exact .refl

theorem timeout_acts {fuel : Nat} {tno : TimerId} (he : s.timeout cfg h fuel tno = some s') :
    Acts cfg q s s' := by
  by_cases hl : s.state = .listen
  · rw [timeout.eq_def, if_pos hl] at he
    obtain rfl := Option.some.inj he
    exact .refl
  rw [timeout.eq_def, if_neg hl] at he
  cases tno with
  | rtx => exact (timeoutAction_acts s).trans (sendMuch_acts he)
  | delsnd => exact sendMuch_acts he
  | delack =>
      dsimp only at he
      split_ifs at he
      · have hc : CtlOnly s (s.setCtl fun t => { t with delAck := false, ackNow := true }) :=
          ⟨rfl, id, id⟩
        exact hc.acts.trans (sendMuch_acts he)
      · obtain rfl := Option.some.inj he
        exact .refl

/-! ### The parts of `step6:` -/

variable (cfg h s)

/-- The output of `finish`. -/
def finishOutput (fuel : Nat) (needoutput : Bool) : Option (FullTcpAgent κ) :=
  if needoutput || s.ctl.ackNow then s.sendMuch cfg h fuel true .normal s.ctl.maxburst
  else if s.snd.curseq ≥ s.snd.highestAck || s.app.infiniteSend then
    s.sendMuch cfg h fuel false .normal s.ctl.maxburst
  else some s

/-- The close of `finish`. -/
def finishClose (fuel : Nat) : Option (FullTcpAgent κ) :=
  (if !cfg.halfclose && s.state = .closeWait && s.snd.highestAck = s.snd.maxseq then
    s.usrclosed cfg h fuel else some s).bind fun s => some (if s.state = .closed then s.done else s)

theorem finish_eq (fuel : Nat) (needoutput : Bool) : s.finish cfg h fuel needoutput =
    (s.finishOutput cfg h fuel needoutput).bind fun s => s.finishClose cfg h fuel := by
  have hclose : ∀ s : FullTcpAgent κ, s.finishClose cfg h fuel =
      (if !cfg.halfclose && s.state = .closeWait && s.snd.highestAck = s.snd.maxseq then do
        let s ← s.usrclosed cfg h fuel
        some (if s.state = .closed then s.done else s)
      else some (if s.state = .closed then s.done else s)) := by
    intro s
    rw [finishClose]
    by_cases hc : (!cfg.halfclose && s.state = .closeWait && s.snd.highestAck = s.snd.maxseq) = true
    · rw [if_pos hc, if_pos hc]
      rfl
    · rw [if_neg hc, if_neg hc]
      rfl
  simp only [finish, finishOutput, hclose]
  split_ifs <;> rfl

/-- The data of `step6:`. -/
def stepData (fuel : Nat) (p : Segment) (x : Rx) : Option (TcpFlag × Bool × FullTcpAgent κ) :=
  if (x.datalen > 0 ∨ containsAll x.tiflags TcpFlag.fin) ∧ !s.state.haveReceivedFin then
    if x.seqno = s.rcv.rcvNxt ∧ s.rcv.rq = [] then s.inOrder cfg h fuel p x
    else s.outOfOrder cfg p x
  else some (x.tiflags &&& ~~~TcpFlag.fin, x.needoutput, s)

theorem step6_eq (fuel : Nat) (p : Segment) (x : Rx) : s.step6 cfg h fuel p x =
    (s.stepData cfg h fuel p x).bind fun r =>
      (if containsAll r.1 TcpFlag.fin then r.2.2.onFin else some r.2.2).bind fun s =>
        s.finish cfg h fuel r.2.1 := by
  have hfin : ∀ r : TcpFlag × Bool × FullTcpAgent κ,
      ((if containsAll r.1 TcpFlag.fin then r.2.2.onFin else some r.2.2).bind fun s =>
        s.finish cfg h fuel r.2.1) =
      if containsAll r.1 TcpFlag.fin then do
        let s ← r.2.2.onFin
        s.finish cfg h fuel r.2.1
      else r.2.2.finish cfg h fuel r.2.1 := by
    intro r
    split_ifs <;> rfl
  simp only [step6, stepData, hfin]
  split_ifs <;> rfl

variable {cfg h s}

theorem finishOutput_acts {fuel : Nat} {out : Bool}
    (he : s.finishOutput cfg h fuel out = some s') : Acts cfg q s s' := by
  rw [finishOutput] at he
  split_ifs at he
  · exact sendMuch_acts he
  · exact sendMuch_acts he
  · obtain rfl := Option.some.inj he
    exact .refl

end FullTcpAgent

end Afabric
