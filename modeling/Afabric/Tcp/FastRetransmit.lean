import Afabric.Tcp.OneWay

/-!
# Tcp — fast retransmit in the default build

The recovery action of a `dupack_action` sets `recover_` to `maxseq_`.  The rest of it, `slowdown`,
`last_cwnd_action_` and the retransmission, stands under `#ifdef WITH_QS` in `TcpAgent`,
`NewRenoTcpAgent` and `Sack1TcpAgent`, so that the default build, which does not define it, does
none of it.  Only a `RenoTcpAgent` retransmits (`fast_retransmit_iff`).
-/

namespace Afabric

namespace Sender

variable {κ : Type} {cfg : SenderConfig} {h : SenderHooks κ} {s s' s'' : Sender κ}

/-- What a fast retransmit comes to by the time `recv` returns: a `slowdown` of `cwnd_` and
`ssthresh_`, the reason for it, and the packet after `last_ack_`. -/
structure FastRetransmits (s s' : Sender κ) : Prop where
  slowdown : ∃ c ∈ s'.cuts, .ssthreshHalf ∈ c ∧ (.cwndHalf ∈ c ∨ .cwndOne ∈ c)
  lastCwndAction : s'.lastCwndAction = .dupack
  output : s.lastAck + 1 ∈ s'.sent

/-- The SYN that would be sent again is one too many. -/
def Aborts (cfg : SenderConfig) (s : Sender κ) : Prop :=
  s.lastAck = -1 ∧ cfg.syn ∧ 0 < cfg.maxConnects ∧ cfg.maxConnects ≤ s.synConnects

/-! ### What sending leaves alone -/

/-- No answer to a loss in between: the window is cut after a quiescent period only. -/
structure Carries (s s' : Sender κ) : Prop where
  lastCwndAction : s'.lastCwndAction = s.lastCwndAction
  cuts : ∀ c ∈ s.cuts, c ∈ s'.cuts
  idle : ∀ c ∈ s'.cuts, .ssthreshHalf ∈ c → c ∈ s.cuts
  sent : ∀ q ∈ s.sent, q ∈ s'.sent

namespace Carries

theorem refl (s : Sender κ) : Carries s s :=
  ⟨rfl, fun _ hc => hc, fun _ hc _ => hc, fun _ hq => hq⟩

theorem trans (h₁ : Carries s s') (h₂ : Carries s' s'') : Carries s s'' where
  lastCwndAction := h₂.lastCwndAction.trans h₁.lastCwndAction
  cuts c hc := h₂.cuts c (h₁.cuts c hc)
  idle c hc hhalf := h₁.idle c (h₂.idle c hc hhalf) hhalf
  sent q hq := h₂.sent q (h₁.sent q hq)

/-- Changes of the other fields. -/
theorem of_eq (ha : s'.lastCwndAction = s.lastCwndAction) (hc : s'.cuts = s.cuts)
    (hs : s'.sent = s.sent) : Carries s s' :=
  ⟨ha, fun _ h => hc ▸ h, fun _ h _ => hc ▸ h, fun _ h => hs ▸ h⟩

end Carries

theorem output_carries (seqno : ℤ) (s : Sender κ) : Carries s (s.output cfg seqno) := by
  rw [output]
  split_ifs
  · exact .of_eq rfl rfl rfl
  · exact ⟨rfl, fun _ hc => hc, fun _ hc _ => hc, fun _ hq => List.mem_append_left _ hq⟩
  · exact .of_eq rfl rfl rfl
  · exact ⟨rfl, fun _ hc => hc, fun _ hc _ => hc, fun _ hq => List.mem_append_left _ hq⟩

theorem idleCut_carries (c : IdleCut) (s : Sender κ) : Carries s (s.slowdown h c.flags) := by
  refine ⟨rfl, fun _ hc => List.mem_append_left _ hc, fun d hd hhalf => ?_, fun _ hq => hq⟩
  rcases List.mem_append.mp hd with hd | hd
  · exact hd
  · rw [List.mem_singleton.mp hd] at hhalf
    cases c <;> simp [IdleCut.flags] at hhalf

theorem idle_carries (l : List IdleCut) (s : Sender κ) :
    Carries s (l.foldl (fun s c => s.slowdown h c.flags) s) := by
  induction l generalizing s with
  | nil => exact .refl s
  | cons c l ih =>
      rw [List.foldl_cons]
      exact (idleCut_carries c s).trans (ih _)

theorem afterSend_carries (s : Sender κ) : Carries s (s.afterSend cfg h) := by
  rw [afterSend]
  split_ifs
  · have hother : Carries s { s with other := (h.afterSend s).2 } := .of_eq rfl rfl rfl
    exact hother.trans (idle_carries _ _)
  · exact .refl s

theorem sendNext_carries (s : Sender κ) : Carries s (s.sendNext cfg h) := by
  have hsent : Carries s ((s.output cfg s.tSeqno).afterSend cfg h) :=
    (output_carries s.tSeqno s).trans (afterSend_carries _)
  exact hsent.trans (.of_eq rfl rfl rfl)

theorem sendLoop_carries (maxburst : ℤ) (fuel : ℕ) (npackets : ℤ) (s : Sender κ) :
    Carries s (s.sendLoop cfg h maxburst fuel npackets) := by
  induction fuel generalizing npackets s with
  | zero => exact .refl s
  | succ fuel ih =>
      rw [sendLoop]
      split_ifs
      · exact sendNext_carries s
      · exact (sendNext_carries s).trans (ih _ _)
      · exact .of_eq rfl rfl rfl
      · exact .refl s

theorem findPacket_carries {xmit win : ℤ} {r : Sender κ × ℤ × ℤ}
    (he : s.findPacket cfg xmit win = some r) : Carries s r.1 := by
  rw [findPacket] at he
  split_ifs at he
  · obtain rfl := Option.some.inj he
    exact .of_eq rfl rfl rfl
  · obtain rfl := Option.some.inj he
    exact .of_eq rfl rfl rfl

theorem sendFound_carries (seqno : ℤ) (s : Sender κ) : Carries s (s.sendFound cfg h seqno) := by
  have hmoved : Carries (s.output cfg seqno) { s.output cfg seqno with
      tSeqno := max (s.output cfg seqno).tSeqno (seqno + 1)
      pipe := (s.output cfg seqno).pipe + 1 } := .of_eq rfl rfl rfl
  exact ((output_carries seqno s).trans hmoved).trans (afterSend_carries _)

theorem sackLoop_carries (maxburst : ℤ) (fuel : ℕ) (npackets win : ℤ) (s : Sender κ) :
    Carries s (s.sackLoop cfg h maxburst fuel npackets win) := by
  induction fuel generalizing npackets win s with
  | zero => exact .refl s
  | succ fuel ih =>
      have hasked : Carries s { s with scb := s.scb.getNextRetran.1 } := .of_eq rfl rfl rfl
      rw [sackLoop]
      split
      · split
        · dsimp only
          cases hf : findPacket cfg { s with scb := s.scb.getNextRetran.1 }
              s.scb.getNextRetran.2 win with
          | none => exact hasked
          | some r =>
              obtain ⟨u, seqno, w⟩ := r
              have hfound : Carries s (u.sendFound cfg h seqno) :=
                (hasked.trans (findPacket_carries hf)).trans (sendFound_carries seqno u)
              dsimp only
              split_ifs
              · exact hfound
              · exact hfound.trans (ih _ _ _)
        · exact .of_eq rfl rfl rfl
      · exact .refl s

theorem sendMuch_carries (fuel : ℕ) (maxburst : ℤ) (s : Sender κ) :
    Carries s (s.sendMuch cfg h fuel maxburst) := by
  rw [sendMuch]
  split
  · exact .refl s
  · cases cfg.kind with
    | sack1 => exact sackLoop_carries _ _ _ _ s
    | tahoe | reno | newReno =>
        dsimp only
        split
        · exact .refl s
        · exact sendLoop_carries _ _ _ s

/-! ### The ACK before it counts -/

/-- An answer to the ECN echo of the ACK, or no cut for a loss. -/
structure Heard (s t : Sender κ) : Prop where
  lastAck : t.lastAck = s.lastAck
  synConnects : t.synConnects = s.synConnects
  sent : t.sent = []
  cuts : t.lastCwndAction = .ecn ∨ t.cuts = []

theorem onReceive_heard (p : DupAck) (hsent : s.sent = []) (hcuts : s.cuts = []) :
    Heard s (s.onReceive cfg h p) := by
  have hecn : ∀ t : Sender κ, t.sent = [] → t.cuts = [] → Heard t (t.ecn cfg h) := by
    intro t hs hc
    rw [ecn]
    split_ifs
    · exact ⟨rfl, rfl, hs, Or.inl rfl⟩
    · exact ⟨rfl, rfl, hs, Or.inr hc⟩
  obtain ⟨t, ht⟩ : ∃ t, t = if cfg.kind = .newReno then { s with other := h.onReceive s p } else s :=
    ⟨_, rfl⟩
  have hst : Heard s t := by
    rw [ht]
    split_ifs
    · exact ⟨rfl, rfl, hsent, Or.inr hcuts⟩
    · exact ⟨rfl, rfl, hsent, Or.inr hcuts⟩
  have htc : t.cuts = [] := by
    rw [ht]
    split_ifs
    · exact hcuts
    · exact hcuts
  rw [onReceive, ← ht]
  split_ifs
  · have hrest := hecn t hst.sent htc
    exact ⟨hrest.lastAck.trans hst.lastAck, hrest.synConnects.trans hst.synConnects, hrest.sent,
      hrest.cuts⟩
  · exact hst

theorem Heard.frto {t : Sender κ} (ht : Heard s t) : Heard s t.recvFrtoHelper := by
  rw [recvFrtoHelper]
  split_ifs
  · exact ⟨ht.lastAck, ht.synConnects, ht.sent, ht.cuts⟩
  · exact ht

theorem heard_heard (p : DupAck) (s : Sender κ) : Heard s (s.heard cfg h p) := by
  obtain ⟨t, ht⟩ : ∃ t : Sender κ, t = { s with cuts := [], sent := [] } := ⟨_, rfl⟩
  have hlift : ∀ u, Heard t u → Heard s u := by
    intro u hu
    rw [ht] at hu
    exact ⟨hu.lastAck, hu.synConnects, hu.sent, hu.cuts⟩
  have hsent : t.sent = [] := by rw [ht]
  have hcuts : t.cuts = [] := by rw [ht]
  rw [heard, ← ht]
  cases cfg.kind with
  | tahoe | reno => exact hlift _ (onReceive_heard p hsent hcuts).frto
  | newReno =>
      refine hlift _ (Heard.frto ?_)
      obtain ⟨u, hu⟩ : ∃ u : Sender κ, u = { t with
        ssthresh := (h.newSsthresh t).1, other := (h.newSsthresh t).2 } := ⟨_, rfl⟩
      have hheard : Heard u (u.onReceive cfg h p) :=
        onReceive_heard p (by rw [hu]; exact hsent) (by rw [hu]; exact hcuts)
      rw [hu] at hheard
      exact ⟨hheard.lastAck, hheard.synConnects, hheard.sent, hheard.cuts⟩
  | sack1 =>
      have hheard : Heard t (t.onReceive cfg h p) := onReceive_heard p hsent hcuts
      exact hlift _ ⟨hheard.lastAck, hheard.synConnects, hheard.sent, hheard.cuts⟩

theorem counted_heard (p : DupAck) (s : Sender κ) : Heard s (s.counted cfg h p) := by
  have hheard : Heard s (s.heard cfg h p) := heard_heard p s
  exact ⟨hheard.lastAck, hheard.synConnects, hheard.sent, hheard.cuts⟩

/-- Without an answer in `dupack_action` there is none. -/
theorem Heard.not_fastRetransmits {t t' : Sender κ} (ht : Heard s t) (hc : Carries t t') :
    ¬ FastRetransmits s t' := by
  rintro ⟨⟨c, hmem, hhalf, -⟩, hact, -⟩
  rcases ht.cuts with hecn | hnil
  · rw [hc.lastCwndAction, hecn] at hact
    cases hact
  · have := hc.idle c hmem hhalf
    rw [hnil] at this
    exact List.not_mem_nil this

/-! ### The four actions -/

theorem tahoe_carries (hcase : s.tahoeCase cfg = .recover) :
    Carries s (s.tahoeDupackAction cfg h) := by
  rw [tahoeDupackAction, hcase]
  exact .of_eq rfl rfl rfl

theorem newReno_carries (hcase : s.newRenoCase cfg = .recover) :
    Carries s (s.newRenoDupackAction cfg h) := by
  rw [newRenoDupackAction, hcase]
  exact .of_eq rfl rfl rfl

theorem sack_carries (hcase : s.tahoeCase cfg = .recover) :
    Carries s (s.sackDupackAction cfg) := by
  rw [sackDupackAction, hcase]
  exact .of_eq rfl rfl rfl

theorem output_of_not (seqno : ℤ) (s : Sender κ)
    (hno : ¬ (seqno = 0 ∧ cfg.syn ∧ 0 < cfg.maxConnects ∧ cfg.maxConnects ≤ s.synConnects)) :
    (s.output cfg seqno).sent = s.sent ++ [seqno] := by
  rw [output]
  by_cases hsyn : seqno = 0 ∧ cfg.syn = true
  · rw [if_pos hsyn, if_neg]
    rintro ⟨h₀, h₁, h₂, h₃⟩
    exact hno ⟨h₀, h₁, h₂, Int.lt_add_one_iff.mp h₃⟩
  · rw [if_neg hsyn, if_neg fun hc => hsyn ⟨hc.1, hc.2.1⟩]

theorem output_abort {seqno : ℤ} {s : Sender κ}
    (hab : seqno = 0 ∧ cfg.syn ∧ 0 < cfg.maxConnects ∧ cfg.maxConnects ≤ s.synConnects) :
    (s.output cfg seqno).sent = s.sent ∧ (s.output cfg seqno).curseq = 0 := by
  have hsyn : seqno = 0 ∧ cfg.syn = true := ⟨hab.1, hab.2.1⟩
  rw [output, if_pos hsyn, if_pos]
  · exact ⟨rfl, rfl⟩
  · exact ⟨hab.1, hab.2.1, hab.2.2.1, Int.lt_add_one_iff.mpr hab.2.2.2⟩

theorem reno_answers (hcase : s.renoCase cfg = .recover) :
    (s.renoDupackAction cfg h).lastCwndAction = .dupack ∧
    [.ssthreshHalf, .cwndHalf] ∈ (s.renoDupackAction cfg h).cuts ∧
    (Aborts cfg s → (s.renoDupackAction cfg h).sent = s.sent ∧
      (s.renoDupackAction cfg h).curseq = 0) ∧
    (¬ Aborts cfg s → s.lastAck + 1 ∈ (s.renoDupackAction cfg h).sent) := by
  obtain ⟨t, ht⟩ : ∃ t, t = ({ s with recover := s.maxseq, lastCwndAction := .dupack }.slowdown h
    [.ssthreshHalf, .cwndHalf]).resetRtxTimer true := ⟨_, rfl⟩
  have hlast : t.lastAck = s.lastAck := by rw [ht]; rfl
  have hsyn : t.synConnects = s.synConnects := by rw [ht]; rfl
  have hsent : t.sent = s.sent := by rw [ht]; rfl
  have hact : t.lastCwndAction = .dupack := by rw [ht]; rfl
  have hcut : [.ssthreshHalf, .cwndHalf] ∈ t.cuts := by
    rw [ht]
    exact List.mem_append_right _ (List.mem_singleton_self _)
  have heq : s.renoDupackAction cfg h =
      { t.output cfg (s.lastAck + 1) with dupwnd := cfg.numdupacks } := by
    rw [renoDupackAction, hcase, ht]
    rfl
  have hout : Carries t (t.output cfg (s.lastAck + 1)) := output_carries _ _
  rw [heq]
  refine ⟨hout.lastCwndAction.trans hact, hout.cuts _ hcut, fun hab => ?_, fun hab => ?_⟩
  · have hout : (t.output cfg (s.lastAck + 1)).sent = t.sent ∧
        (t.output cfg (s.lastAck + 1)).curseq = 0 :=
      output_abort ⟨by rw [hab.1]; rfl, hab.2.1, hab.2.2.1, hsyn ▸ hab.2.2.2⟩
    exact ⟨hout.1.trans hsent, hout.2⟩
  · show s.lastAck + 1 ∈ (t.output cfg (s.lastAck + 1)).sent
    rw [output_of_not]
    · exact List.mem_append_right _ (List.mem_singleton_self _)
    · rintro ⟨h₀, h₁, h₂, h₃⟩
      exact hab ⟨by omega, h₁, h₂, hsyn ▸ h₃⟩

/-! ### The connection that was aborted sends nothing -/

/-- There is nothing left to send, and packet 0 was not sent. -/
def Aborted (s : Sender κ) : Prop := s.curseq = 0 ∧ (0 : ℤ) ∉ s.sent

theorem idle_aborted (l : List IdleCut) (s : Sender κ) (hs : s.Aborted) :
    (l.foldl (fun s c => s.slowdown h c.flags) s).Aborted := by
  induction l generalizing s with
  | nil => exact hs
  | cons c l ih => exact ih (s.slowdown h c.flags) hs

theorem sendNext_aborted (hs : s.Aborted) (hlt : s.tSeqno < s.curseq) :
    (s.sendNext cfg h).Aborted := by
  have hne : s.tSeqno ≠ 0 := by
    have := hs.1
    omega
  have hout : (s.output cfg s.tSeqno).Aborted := by
    rw [output, if_neg fun hc => hne hc.1, if_neg fun hc => hne hc.1]
    refine ⟨hs.1, fun hmem => ?_⟩
    rcases List.mem_append.mp hmem with hmem | hmem
    · exact hs.2 hmem
    · exact hne (List.mem_singleton.mp hmem).symm
  rw [sendNext, afterSend]
  split_ifs
  · exact idle_aborted _ { s.output cfg s.tSeqno with other := _ } hout
  · exact hout

theorem sendLoop_aborted (maxburst : ℤ) (fuel : ℕ) (npackets : ℤ) (s : Sender κ)
    (hs : s.Aborted) : (s.sendLoop cfg h maxburst fuel npackets).Aborted := by
  induction fuel generalizing npackets s with
  | zero => exact hs
  | succ fuel ih =>
      rw [sendLoop]
      split_ifs with hc
      · exact sendNext_aborted hs hc.2
      · exact ih _ _ (sendNext_aborted hs hc.2)
      · exact hs
      · exact hs

/-! ### `recv` -/

theorem inflate_carries (u : Sender κ) : Carries u (u.inflate cfg) := by
  rw [inflate]
  split_ifs
  · exact .refl u
  · exact .of_eq rfl rfl rfl

theorem sackFrto_carries (u : Sender κ) (p : DupAck) : Carries u (u.sackFrto cfg p) := by
  rw [sackFrto]
  split_ifs
  · exact .of_eq rfl rfl rfl
  · exact .of_eq rfl rfl rfl
  · exact .refl u

/-- What `recv` does after `dupack_action` is no answer to the loss. -/
theorem recv_carries (fuel : ℕ) {p : DupAck} (hdup : s.Duplicate cfg h p) :
    Carries ((s.counted cfg h p).dupackAction cfg h) (s.recv cfg h fuel p) := by
  obtain ⟨u, hu⟩ : ∃ u, u = (s.counted cfg h p).dupackAction cfg h := ⟨_, rfl⟩
  rw [Duplicate] at hdup
  rw [recv, ← hu]
  cases hk : cfg.kind with
  | tahoe =>
      rw [hk] at hdup
      obtain ⟨heln, hcall⟩ := hdup
      dsimp only
      rw [recvTahoe, if_neg heln]
      dsimp only
      rw [if_pos hcall, ← hu]
      have hack : Carries u (if cfg.qOption ∧ cfg.enblRttCtr then { u with other := h.afterAck u }
          else u) := by
        split_ifs
        · exact .of_eq rfl rfl rfl
        · exact .refl u
      exact hack.trans (sendMuch_carries _ _ _)
  | reno =>
      rw [hk] at hdup
      obtain ⟨heln, hcall⟩ := hdup
      dsimp only
      rw [recvReno, if_neg heln]
      dsimp only
      rw [if_pos hcall, ← hu]
      split
      · exact (inflate_carries u).trans (sendMuch_carries _ _ _)
      · exact inflate_carries u
  | newReno =>
      rw [hk] at hdup
      obtain ⟨heln, hcall⟩ := hdup
      dsimp only
      rw [recvNewReno, if_neg heln]
      dsimp only
      rw [if_pos hcall, ← hu]
      split
      · exact (inflate_carries u).trans (sendMuch_carries _ _ _)
      · split
        · exact (inflate_carries u).trans (sendMuch_carries _ _ _)
        · exact inflate_carries u
  | sack1 =>
      rw [hk] at hdup
      obtain ⟨htimeout, -, hchanged, hcall⟩ := hdup
      have hchanged' : (s.heard cfg h p).scb.changed = true := hchanged
      have htime : ¬ s.timeout = true := by simp [htimeout]
      dsimp only
      rw [recvSack1, if_neg htime]
      dsimp only
      rw [if_pos hchanged', if_pos hcall, ← hu]
      split
      · exact (sackFrto_carries u p).trans (sendMuch_carries _ _ _)
      · exact sackFrto_carries u p

theorem recvReno_aborted (fuel : ℕ) {p : DupAck} (hk : cfg.kind = .reno)
    (hdup : s.Duplicate cfg h p) (hab : ((s.counted cfg h p).dupackAction cfg h).Aborted) :
    (s.recv cfg h fuel p).Aborted := by
  obtain ⟨u, hu⟩ : ∃ u, u = (s.counted cfg h p).dupackAction cfg h := ⟨_, rfl⟩
  rw [← hu] at hab
  rw [Duplicate, hk] at hdup
  obtain ⟨heln, hcall⟩ := hdup
  have hwnd : (u.inflate cfg).Aborted := by
    rw [inflate]
    split_ifs
    · exact hab
    · exact hab
  rw [recv, hk]
  dsimp only
  rw [recvReno, if_neg heln]
  dsimp only
  rw [if_pos hcall, ← hu]
  split
  · rw [sendMuch, hk]
    split
    · exact hwnd
    · dsimp only
      split
      · exact hwnd
      · exact sendLoop_aborted _ _ _ _ hwnd
  · exact hwnd

/-- **Fast retransmit in the default build.**  When the recovery action of `dupack_action` is
taken, the window is cut, the cut is recorded and the packet after `last_ack_` is sent again
exactly if the sender is a `RenoTcpAgent`, and does not give up its SYN. -/
theorem fast_retransmit_iff (cfg : SenderConfig) (h : SenderHooks κ) (s : Sender κ) (p : DupAck)
    (fuel : ℕ) (hdup : s.Duplicate cfg h p)
    (hcase : (s.counted cfg h p).dupackCase cfg = .recover) :
    FastRetransmits s (s.recv cfg h fuel p) ↔ cfg.kind = .reno ∧ ¬ Aborts cfg s := by
  have hheard : Heard s (s.counted cfg h p) := counted_heard p s
  have hcarries := recv_carries fuel hdup
  rw [dupackCase] at hcase
  rw [dupackAction] at hcarries
  cases hk : cfg.kind with
  | tahoe =>
      rw [hk] at hcase hcarries
      have := hheard.not_fastRetransmits ((tahoe_carries hcase).trans hcarries)
      simp [this]
  | newReno =>
      rw [hk] at hcase hcarries
      have := hheard.not_fastRetransmits ((newReno_carries hcase).trans hcarries)
      simp [this]
  | sack1 =>
      rw [hk] at hcase hcarries
      have := hheard.not_fastRetransmits ((sack_carries hcase).trans hcarries)
      simp [this]
  | reno =>
      rw [hk] at hcase hcarries
      obtain ⟨hact, hcut, hsyn, hout⟩ := reno_answers (h := h) hcase
      have habs : Aborts cfg (s.counted cfg h p) ↔ Aborts cfg s := by
        rw [Aborts, Aborts, hheard.lastAck, hheard.synConnects]
      rw [habs] at hsyn hout
      rw [hheard.lastAck] at hout
      refine ⟨fun hf => ⟨rfl, fun hab => ?_⟩, fun hno => ⟨?_, hcarries.lastCwndAction.trans hact,
        hcarries.sent _ (hout hno.2)⟩⟩
      · have haborted := recvReno_aborted (h := h) fuel hk hdup (by
          rw [dupackAction, hk]
          refine ⟨(hsyn hab).2, ?_⟩
          dsimp only
          rw [(hsyn hab).1, hheard.sent]
          exact List.not_mem_nil)
        have := hf.output
        rw [hab.1] at this
        exact haborted.2 this
      · exact ⟨_, hcarries.cuts _ hcut, by simp, by simp⟩

/-! ### The senders of `ns-default.tcl` -/

def nsDefault (kind : SenderKind) : SenderConfig where
  kind := kind
  bugFix := true
  bugfixSs := true
  bugfixTs := false
  bugfixAck := false
  lessCareful := false
  ecn := false
  ecnhat := false
  eln := false
  elnRxmitThresh := 1
  noFastRetrans := false
  singledup := true
  numdupacks := 3
  numdupacksFrac := -1
  exitFastRetrans := true
  newrenoChanges := 0
  limTransmitFix := false
  oldCode := false
  sfrtoEnabled := false
  spuriousResponse := 1
  overhead := 0
  maxburst := 0
  wnd := 20
  syn := true
  maxConnects := -1
  qOption := false
  enblRttCtr := false

/-- `slowdown` with `decrease_num_` 0.5, and no other option. -/
def halving : SenderHooks Unit where
  slowdown s how :=
    (max 1 (if .cwndHalf ∈ how then s.cwnd / 2 else 1), max 2 (FullTcpAgent.trunc (s.cwnd / 2)), ())
  ecnBackoff _ := ()
  onReceive _ _ := ()
  newSsthresh s := (s.ssthresh, ())
  afterSend _ := ([], ())
  afterAck _ := ()

/-- Packet 5 of the window 5 to 9 is lost, and two duplicate ACKs have come. -/
def twoDupacks : Sender Unit where
  lastAck := 4
  highestAck := 4
  prevHighestAck := 3
  tSeqno := 10
  maxseq := 9
  curseq := 1000
  recover := 0
  dupacks := 2
  dupwnd := 0
  lastCwndAction := .none
  cwnd := 5
  ssthresh := 20
  frto := 0
  pipePrev := 0
  timeout := false
  fastrecov := false
  pipe := 0
  scb := .init
  elnLastRxmit := -1
  synConnects := 1
  delsndPending := false
  burstsndPending := false
  tsMatch := false
  other := ()
  cuts := []
  sent := []

theorem fast_retransmit_iff_reno : FastRetransmits twoDupacks
    (twoDupacks.recv (nsDefault .reno) halving 20 ⟨false, false, []⟩) := by
  refine (fast_retransmit_iff _ _ _ _ _ ?_ (by decide +kernel)).mpr ⟨rfl, fun hab => ?_⟩
  · exact ⟨by decide, by decide +kernel⟩
  · exact absurd hab.1 (by decide)

/-- The third duplicate ACK sets `recover_`, and that is all: a `NewRenoTcpAgent` and a
`Sack1TcpAgent` send nothing, a `TcpAgent` sends its whole window again. -/
theorem no_fast_retransmit :
    ((twoDupacks.recv (nsDefault .newReno) halving 20 ⟨false, false, []⟩).sent = [] ∧
      (twoDupacks.recv (nsDefault .sack1) halving 20 ⟨false, false, [(8, 9)]⟩).sent = [] ∧
      (twoDupacks.recv (nsDefault .tahoe) halving 20 ⟨false, false, []⟩).sent =
        [5, 6, 7, 8, 9]) ∧
    twoDupacks.Duplicate (nsDefault .newReno) halving ⟨false, false, []⟩ ∧
    (twoDupacks.counted (nsDefault .newReno) halving ⟨false, false, []⟩).dupackCase
      (nsDefault .newReno) = .recover ∧
    (twoDupacks.recv (nsDefault .newReno) halving 20 ⟨false, false, []⟩).recover = 9 ∧
    ¬ FastRetransmits twoDupacks
      (twoDupacks.recv (nsDefault .newReno) halving 20 ⟨false, false, []⟩) := by
  refine ⟨by decide +kernel, ⟨by decide, by decide +kernel⟩, by decide +kernel, by decide +kernel,
    fun hf => ?_⟩
  exact absurd hf.lastCwndAction (by decide +kernel)

end Sender

end Afabric
