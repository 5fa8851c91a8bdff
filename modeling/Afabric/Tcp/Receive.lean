import Afabric.Tcp.Acts
import Afabric.Tcp.Reassembly

/-!
# Tcp — what `recv` does to the receiver

For a data segment that arrives in ESTABLISHED, `recv` either drops it (`Dropped`) or hands its new
bytes to the receiver (`RcvState.receive`), whichever of its paths it takes: header prediction, a
segment in order, or the reassembly queue.  `recv_rcv` is the proof.

The flags of the segment matter to FIN only, and a data segment has none; `FinFree` says that no
block of the queue has one either.
-/

namespace Afabric

open SegList

/-- No block of the queue has a FIN. -/
def FinFree (l : List Block) : Prop := ∀ b ∈ l, b.flags &&& TcpFlag.fin = 0

namespace RcvState

variable (r : RcvState)

/-- `recvBytes`, and what is left of the flow. -/
def deliver (n datalen : Int) : RcvState :=
  let rem := r.flowRemaining
  let rem := if rem > 0 then rem - datalen else rem
  { r with delivered := n :: r.delivered, flowRemaining := if rem = 0 then -1 else rem }

/-- The receiver takes the new bytes `[lo, hi)` of a segment. -/
def accept (lo hi : Int) (ti : TcpFlag) : RcvState :=
  if lo = r.rcvNxt ∧ r.rq = [] then
    { r with rcvNxt := hi }.deliver (hi - lo) (hi - lo)
  else
    let a := add r.rq r.rcvNxt lo hi ti
    if lo = r.rcvNxt then
      { r with rq := (clearto a.blocks a.rcvNxt).1, rcvNxt := a.rcvNxt }.deliver
        (a.rcvNxt - r.rcvNxt) (hi - lo)
    else { r with rq := a.blocks }

/-- The receiver takes a segment: what it has received before is trimmed. -/
def receive (p : Segment) : RcvState :=
  if p.seqno + p.len ≤ r.rcvNxt then r
  else r.accept (max p.seqno r.rcvNxt) (p.seqno + p.len) p.flags

end RcvState

/-- A segment with data, and neither SYN nor FIN. -/
structure Segment.IsData (p : Segment) : Prop where
  syn : containsAll p.flags TcpFlag.syn = false
  fin : p.flags &&& TcpFlag.fin = 0
  len : 0 < p.len

instance (p : Segment) : Decidable p.IsData :=
  decidable_of_iff (containsAll p.flags TcpFlag.syn = false ∧ p.flags &&& TcpFlag.fin = 0 ∧
    0 < p.len) ⟨fun h => ⟨h.1, h.2.1, h.2.2⟩, fun h => ⟨h.syn, h.fin, h.len⟩⟩

namespace FullTcpAgent

variable {κ : Type} (cfg : FullTcpConfig) (h : Hooks κ) (s : FullTcpAgent κ)

/-- `recv` drops a segment of another connection, one that is older than the last by its time
stamp, one that acknowledges nothing, and one that acknowledges what has not been sent. -/
def Dropped (p : Segment) : Prop :=
  s.ctl.fid ≠ p.fid ∨
    (s.badTs cfg p = true ∧ ¬ s.ctl.now - s.ctl.recentAge > 24 * 24 * 60 * 60) ∨
    containsAll p.flags TcpFlag.ack = false ∨ max s.snd.highestAck s.snd.maxseq < p.ackno

instance (p : Segment) : Decidable (Dropped cfg s p) := inferInstanceAs (Decidable (_ ∨ _))

variable {cfg h s} {s' : FullTcpAgent κ}

/-! ### `step6` -/

theorem deliver_rcv (s : FullTcpAgent κ) (n datalen : Int) :
    (s.deliver n datalen).rcv = s.rcv.deliver n datalen := by
  simp only [FullTcpAgent.deliver, RcvState.deliver]
  split_ifs <;> rfl

theorem deliver_state (s : FullTcpAgent κ) (n datalen : Int) :
    (s.deliver n datalen).state = s.state := by
  simp only [FullTcpAgent.deliver]
  split_ifs <;> rfl

theorem Flowing.notFin {st : TcpState} (hs : Flowing st) : st.haveReceivedFin = false := by
  rcases hs with rfl | rfl | rfl <;> rfl

theorem Flowing.haveSyn {st : TcpState} (hs : Flowing st) : st.haveReceivedSyn = true := by
  rcases hs with rfl | rfl | rfl <;> decide

theorem Flowing.open {st : TcpState} (hs : Flowing st) :
    st ≠ .synReceived ∧ st ≠ .closeWait ∧ st ≠ .closed := by
  rcases hs with rfl | rfl | rfl <;> decide

/-- The end of `recv` in a state without FIN: output only. -/
theorem finish_acts {fuel : Nat} {out : Bool} (hs : Flowing s.state)
    (he : s.finish cfg h fuel out = some s') : Acts cfg none s s' := by
  rw [finish_eq] at he
  obtain ⟨s₁, h₁, he⟩ := Option.bind_eq_some_iff.mp he
  have hacts := finishOutput_acts (q := none) h₁
  obtain ⟨-, hcw, hcl⟩ := (hacts.flowing hs).open
  rw [finishClose, if_neg (by simp [hcw]), Option.bind_some, if_neg hcl] at he
  obtain rfl := Option.some.inj he
  exact hacts

/-- A segment in order. -/
theorem inOrder_rcv {fuel : Nat} {p : Segment} {x : Rx} {r : TcpFlag × Bool × FullTcpAgent κ}
    (hs : Flowing s.state) (hp : p.IsData) (hlen : 0 < x.datalen)
    (he : s.inOrder cfg h fuel p x = some r) :
    containsAll r.1 TcpFlag.fin = false ∧ Flowing r.2.2.state ∧
      r.2.2.rcv = { s.rcv with rcvNxt := s.rcv.rcvNxt + x.datalen }.deliver x.datalen x.datalen := by
  rw [inOrder] at he
  obtain ⟨s₁, h₁, he⟩ := Option.bind_eq_some_iff.mp he
  have hacts : Acts cfg none s s₁ := onReceivePureIncoming_acts h₁
  obtain rfl := Option.some.inj he
  dsimp only
  rw [if_pos (by omega), hp.fin]
  refine ⟨by decide, ?_, ?_⟩
  · rw [deliver_state]
    exact hacts.flowing hs
  · rw [deliver_rcv, ← hacts.rcv]
    rfl

theorem orFlags_fin {t : List Block} (ht : FinFree t) : orFlags t &&& TcpFlag.fin = 0 := by
  induction t with
  | nil => decide
  | cons b t ih =>
      rw [orFlags_cons, BitVec.and_or_distrib_right, ht b (by simp),
        ih fun x hx => ht x (by simp [hx])]
      rfl

/-- The receiver after a hole is filled, as `reass` computes it. -/
theorem reass_rcv {start len : Int} {ti f : TcpFlag} (hs : Flowing s.state)
    (heq : start = s.rcv.rcvNxt) (hlen : 0 < len) (he : s.reass start len ti = some (f, s')) :
    s'.rcv = { s.rcv with
      rq := (clearto (add s.rcv.rq s.rcv.rcvNxt start (start + len) ti).blocks
        (add s.rcv.rq s.rcv.rcvNxt start (start + len) ti).rcvNxt).1
      rcvNxt := (add s.rcv.rq s.rcv.rcvNxt start (start + len) ti).rcvNxt } := by
  simp only [reass] at he
  rw [if_neg (by omega), if_neg (by simp [setRcv, hs.haveSyn, heq]),
    if_neg (by simp [setRcv, hs.open.1])] at he
  obtain ⟨-, rfl⟩ := Prod.mk.inj (Option.some.inj he)
  rfl

/-- A segment out of order, or one that fills a hole. -/
theorem outOfOrder_rcv {p : Segment} {x : Rx} {r : TcpFlag × Bool × FullTcpAgent κ}
    (hs : Flowing s.state) (hw : s.rcv.Wf) (hf : FinFree s.rcv.rq) (hp : p.IsData)
    (hlen : 0 < x.datalen) (hxl : x.len = x.datalen) (hle : s.rcv.rcvNxt ≤ x.seqno)
    (hno : ¬ (x.seqno = s.rcv.rcvNxt ∧ s.rcv.rq = []))
    (he : s.outOfOrder cfg p x = some r) :
    containsAll r.1 TcpFlag.fin = false ∧ Flowing r.2.2.state ∧
      r.2.2.rcv = s.rcv.accept x.seqno (x.seqno + x.datalen) p.flags := by
  rw [outOfOrder, hxl] at he
  obtain ⟨⟨f, s₁⟩, h₁, he⟩ := Option.bind_eq_some_iff.mp he
  obtain rfl := Option.some.inj he
  rw [RcvState.accept, if_neg hno]
  dsimp only
  rcases Int.lt_or_eq_of_le hle with hlt | heq
  · obtain ⟨hr, -⟩ := reass_ahead p.flags hw hlt hlen
    obtain ⟨rfl, rfl⟩ := Prod.mk.inj (Option.some.inj (h₁.symm.trans hr))
    rw [if_neg (by simp [setRcv]), if_neg (by omega)]
    exact ⟨by decide, hs, rfl⟩
  · obtain ⟨t, b, m, hj, -, hfl, hr⟩ :=
      reass_fill p.flags hw hs.haveSyn hs.open.1 heq.symm hlen
    have hrcv := reass_rcv hs heq.symm hlen h₁
    obtain ⟨rfl, rfl⟩ := Prod.mk.inj (Option.some.inj (h₁.symm.trans hr))
    have hle := hj.le_stop
    have ht : FinFree t := fun b hb => hf b (by rw [hj.eq]; simp [hb])
    rw [if_pos (by simp only [setRcv]; omega), if_pos heq.symm]
    refine ⟨?_, ?_, ?_⟩
    · rw [containsAll, hfl, BitVec.and_or_distrib_right, hp.fin, orFlags_fin ht]
      decide
    · show Flowing (FullTcpAgent.deliver _ _ _).state
      rw [deliver_state]
      exact hs
    · show (FullTcpAgent.deliver _ _ _).rcv = _
      rw [deliver_rcv, hrcv, show x.seqno + x.datalen - x.seqno = x.datalen by omega]

/-- **`step6:` on data.**  What is left of the segment after trimming is `[x.seqno, x.seqno +
x.datalen)`. -/
theorem step6_rcv {fuel : Nat} {p : Segment} {x : Rx} (hs : Flowing s.state) (hw : s.rcv.Wf)
    (hf : FinFree s.rcv.rq) (hp : p.IsData) (hlen : 0 ≤ x.datalen) (hxl : x.len = x.datalen)
    (hfin : containsAll x.tiflags TcpFlag.fin = false)
    (hle : x.datalen ≠ 0 → s.rcv.rcvNxt ≤ x.seqno) (he : s.step6 cfg h fuel p x = some s') :
    Flowing s'.state ∧ s'.rcv = if x.datalen = 0 then s.rcv
      else s.rcv.accept x.seqno (x.seqno + x.datalen) p.flags := by
  rw [step6_eq] at he
  obtain ⟨r, hr, he⟩ := Option.bind_eq_some_iff.mp he
  have hdata : containsAll r.1 TcpFlag.fin = false ∧ Flowing r.2.2.state ∧
      r.2.2.rcv = if x.datalen = 0 then s.rcv
        else s.rcv.accept x.seqno (x.seqno + x.datalen) p.flags := by
    rw [stepData] at hr
    by_cases hz : x.datalen = 0
    · rw [if_neg (by simp [hz, hfin])] at hr
      obtain rfl := Option.some.inj hr
      refine ⟨?_, hs, by rw [if_pos hz]⟩
      rw [containsAll, BitVec.and_assoc, show ~~~TcpFlag.fin &&& TcpFlag.fin = 0 by decide,
        show x.tiflags &&& 0 = 0 from BitVec.and_zero]
      decide
    · have hpos : 0 < x.datalen := by omega
      rw [if_pos ⟨.inl hpos, by simp [hs.notFin]⟩] at hr
      rw [if_neg hz]
      by_cases hord : x.seqno = s.rcv.rcvNxt ∧ s.rcv.rq = []
      · rw [if_pos hord] at hr
        obtain ⟨h₁, h₂, h₃⟩ := inOrder_rcv hs hp hpos hr
        refine ⟨h₁, h₂, ?_⟩
        rw [h₃, RcvState.accept, if_pos hord, hord.1]
        simp
      · rw [if_neg hord] at hr
        exact outOfOrder_rcv hs hw hf hp hpos hxl (hle hz) hord hr
  obtain ⟨hnf, hfl, hrcv⟩ := hdata
  rw [if_neg (by simp [hnf]), Option.bind_some] at he
  have hacts := finish_acts hfl he
  exact ⟨hacts.flowing hfl, hacts.rcv.trans hrcv⟩

/-! ### Before `step6:` -/

/-- What is left of a data segment after trimming. -/
structure Trimmed (r : RcvState) (p : Segment) (x : Rx) : Prop where
  ack : containsAll x.tiflags TcpFlag.ack = containsAll p.flags TcpFlag.ack
  syn : containsAll x.tiflags TcpFlag.syn = false
  fin : containsAll x.tiflags TcpFlag.fin = false
  len : x.len = x.datalen
  new : (p.seqno + p.len ≤ r.rcvNxt ∧ x.datalen = 0) ∨
    (r.rcvNxt < p.seqno + p.len ∧ x.seqno = max p.seqno r.rcvNxt ∧
      x.datalen = p.seqno + p.len - x.seqno)

theorem trim_spec (s : FullTcpAgent κ) {p : Segment} (hp : p.IsData) :
    CtlOnly s (s.trim (Rx.ofSegment p)).1 ∧ Trimmed s.rcv p (s.trim (Rx.ofSegment p)).2 := by
  have hfin : containsAll p.flags TcpFlag.fin = false := by
    rw [containsAll, hp.fin]
    decide
  have hlen := hp.len
  by_cases htod : s.rcv.rcvNxt - p.seqno > 0
  · by_cases hall : s.rcv.rcvNxt - p.seqno ≥ p.len
    · have ht : s.trim (Rx.ofSegment p) = (s.setCtl fun t => { t with ackNow := true },
          ⟨p.seqno + p.len, p.len - p.len, 0, p.flags &&& ~~~TcpFlag.fin, true, false⟩) := by
        simp only [trim, Rx.ofSegment, hp.syn, Bool.false_eq_true, false_or, if_false]
        rw [if_pos ⟨htod, hlen⟩]
        refine if_pos ?_
        simp only [hfin, Bool.not_false, and_true]
        omega
      have hctl : CtlOnly s (s.setCtl fun t => { t with ackNow := true }) := setCtl_ctlOnly id id
      rw [ht]
      refine ⟨hctl, ?_, ?_, ?_, Int.sub_self _, .inl ⟨by omega, rfl⟩⟩
      · rw [containsAll, containsAll, BitVec.and_assoc,
          show ~~~TcpFlag.fin &&& TcpFlag.ack = TcpFlag.ack by decide]
      · have hsyn := hp.syn
        rw [containsAll, decide_eq_false_iff_not] at hsyn ⊢
        rwa [BitVec.and_assoc, show ~~~TcpFlag.fin &&& TcpFlag.syn = TcpFlag.syn by decide]
      · rw [containsAll, BitVec.and_assoc, show ~~~TcpFlag.fin &&& TcpFlag.fin = 0 by decide,
          show p.flags &&& 0 = 0 from BitVec.and_zero]
        decide
    · have ht : s.trim (Rx.ofSegment p) = (s, ⟨p.seqno + (s.rcv.rcvNxt - p.seqno),
          p.len - (s.rcv.rcvNxt - p.seqno), p.len - (s.rcv.rcvNxt - p.seqno), p.flags, false,
          false⟩) := by
        simp only [trim, Rx.ofSegment, hp.syn, Bool.false_eq_true, false_or, if_false]
        rw [if_pos ⟨htod, hlen⟩]
        exact if_neg fun hc => by omega
      rw [ht]
      exact ⟨.refl s, rfl, hp.syn, hfin, rfl, .inr ⟨by omega, by dsimp only; omega,
        by dsimp only; omega⟩⟩
  · have ht : s.trim (Rx.ofSegment p) = (s, Rx.ofSegment p) := by
      exact if_neg fun hc => htod hc.1
    rw [ht]
    exact ⟨.refl s, rfl, hp.syn, hfin, rfl,
      .inr ⟨by omega, by simp only [Rx.ofSegment]; omega, by simp only [Rx.ofSegment]; omega⟩⟩

/-- A trimmed segment at `step6:`. -/
theorem Trimmed.step6 {t : FullTcpAgent κ} {fuel : Nat} {p : Segment} {x : Rx}
    (hx : Trimmed s.rcv p x) (hs : Flowing t.state) (hrcv : t.rcv = s.rcv) (hw : s.rcv.Wf)
    (hf : FinFree s.rcv.rq) (hp : p.IsData) (he : t.step6 cfg h fuel p x = some s') :
    Flowing s'.state ∧ s'.rcv = s.rcv.receive p := by
  have hdat : 0 ≤ x.datalen := by
    rcases hx.new with ⟨-, e⟩ | ⟨e₁, e₂, e₃⟩
    · omega
    · have := hp.len
      omega
  obtain ⟨hfl, hr⟩ := step6_rcv hs (hrcv ▸ hw) (hrcv ▸ hf) hp hdat hx.len hx.fin (by
    intro hne
    rw [hrcv]
    rcases hx.new with ⟨-, e⟩ | ⟨-, e, -⟩
    · exact absurd e hne
    · omega) he
  refine ⟨hfl, ?_⟩
  rw [hr, hrcv, RcvState.receive]
  have := hp.len
  rcases hx.new with ⟨hle, e⟩ | ⟨hlt, e₁, e₂⟩
  · rw [if_pos e, if_pos hle]
  · rw [if_neg (by omega), if_neg (by omega), ← e₁]
    congr 1
    omega

/-! ### `recv` -/

/-- What `recv` in ESTABLISHED does with a data segment. -/
inductive Handles (cfg : FullTcpConfig) (h : Hooks κ) (fuel : Nat) (p : Segment)
    (s s' : FullTcpAgent κ) : Prop where
  | dropped : Dropped cfg s p → Acts cfg (some p) s s' → Handles cfg h fuel p s s'
  | old : ¬ Dropped cfg s p → p.seqno + p.len ≤ s.rcv.rcvNxt → Acts cfg (some p) s s' →
      Handles cfg h fuel p s s'
  | predicted {t : FullTcpAgent κ} : ¬ Dropped cfg s p → Acts cfg (some p) s t →
      t.state = .established → p.seqno = s.rcv.rcvNxt → s.rcv.rq = [] →
      t.predictedData cfg h fuel p = some s' → Handles cfg h fuel p s s'
  | step6 {t : FullTcpAgent κ} {x : Rx} : ¬ Dropped cfg s p → Acts cfg (some p) s t →
      Flowing t.state → Trimmed s.rcv p x → t.step6 cfg h fuel p x = some s' →
      Handles cfg h fuel p s s'

theorem Handles.of_ctlOnly {fuel : Nat} {p : Segment} {t : FullTcpAgent κ} (hc : CtlOnly s t)
    (hd : Dropped cfg t p ↔ Dropped cfg s p) (hh : Handles cfg h fuel p t s') :
    Handles cfg h fuel p s s' := by
  cases hh with
  | dropped hdrop ha => exact .dropped (hd.mp hdrop) (hc.acts.trans ha)
  | old hnd hle ha => exact .old (hnd ∘ hd.mpr) (hc.rcv ▸ hle) (hc.acts.trans ha)
  | predicted hnd ha hst hseq hrq he =>
      exact .predicted (hnd ∘ hd.mpr) (hc.acts.trans ha) hst (hc.rcv ▸ hseq) (hc.rcv ▸ hrq) he
  | step6 hnd ha hfl hx he =>
      exact .step6 (hnd ∘ hd.mpr) (hc.acts.trans ha) hfl (hc.rcv ▸ hx) he

/-- ACK processing of a trimmed data segment. -/
theorem Trimmed.established {t : FullTcpAgent κ} {fuel : Nat} {p : Segment} {x : Rx}
    (hx : Trimmed s.rcv p x) (hst : t.state = .established) (hp : p.IsData)
    (he : t.established cfg h fuel p x = some s') :
    (max t.snd.highestAck t.snd.maxseq < p.ackno ∧ Acts cfg (some p) t s') ∨
      p.ackno ≤ max t.snd.highestAck t.snd.maxseq ∧
        (p.seqno + p.len ≤ s.rcv.rcvNxt ∧ Acts cfg (some p) t s' ∨
          ∃ t₁ x₁, Acts cfg (some p) t t₁ ∧ Trimmed s.rcv p x₁ ∧
            t₁.step6 cfg h fuel p x₁ = some s') := by
  have hge : t.state.toNat ≥ TcpState.established.toNat := by rw [hst]
  rcases established_spec (q := some p) rfl hge he with ⟨hle, hz, ha⟩ | ⟨hle, t₁, ha, he⟩ |
    ⟨hlt, t₁, ha, hsnd, hst₁, he⟩
  · refine .inr ⟨by omega, .inl ⟨?_, ha⟩⟩
    have := hp.len
    rcases hx.new with ⟨e, -⟩ | ⟨e₁, e₂, e₃⟩
    · exact e
    · omega
  · exact .inr ⟨by omega, .inr ⟨t₁, x, ha, hx, he⟩⟩
  · rcases processAck_spec (q := some p) he with ⟨hm, he⟩ | ⟨hm, t₂, ha₂, hout⟩
    · have hack : CtlOnly t₁ (t₁.setCtl fun t => { t with ackNow := true }) := setCtl_ctlOnly id id
      rw [hsnd] at hm
      exact .inl ⟨by omega, ha.trans (hack.acts.trans (sendMuch_acts he))⟩
    · have hacked : Acts cfg (some p) t t₂ := by
        refine (ha.tail (acked_act rfl ?_ ?_ hm)).trans ha₂
        · rw [hst₁, hst]
        · rw [hsnd]
          exact hlt.le
      rw [hsnd] at hm
      refine .inr ⟨by omega, .inr ?_⟩
      rcases hout with ⟨out, he⟩ | ⟨hlast, -⟩
      · exact ⟨t₂, { x with needoutput := out }, hacked,
          ⟨hx.ack, hx.syn, hx.fin, hx.len, hx.new⟩, he⟩
      · have hfl := hacked.flowing (.inl hst)
        rw [hlast] at hfl
        simp [Flowing] at hfl

/-- `recv` without header prediction. -/
theorem checked_handles {fuel : Nat} {p : Segment} (hst : s.state = .established)
    (hfid : s.ctl.fid = p.fid) (hp : p.IsData)
    (he : s.checked cfg h fuel p (Rx.ofSegment p) = some s') : Handles cfg h fuel p s s' := by
  rw [checked] at he
  by_cases hold : s.badTs cfg p = true ∧ ¬ s.ctl.now - s.ctl.recentAge > 24 * 24 * 60 * 60
  · rw [if_pos hold] at he
    have hc : CtlOnly s (s.setCtl fun t => { t with ackNow := true }) := setCtl_ctlOnly id id
    exact .dropped (.inr (.inl hold)) (hc.acts.trans (sendMuch_acts he))
  rw [if_neg hold] at he
  have hc : CtlOnly s (if s.badTs cfg p then s.setCtl fun t => { t with recent := 0 } else s) :=
    .ite (setCtl_ctlOnly id id) (.refl s)
  dsimp only at he
  generalize (if s.badTs cfg p = true then s.setCtl fun t => { t with recent := 0 } else s) = t
    at hc he
  obtain ⟨htrim, hx⟩ := trim_spec t hp
  have hrec : CtlOnly s ((t.trim (Rx.ofSegment p)).1.recordTs cfg p
      (t.trim (Rx.ofSegment p)).2.seqno) :=
    (hc.trans htrim).trans (.ite (setCtl_ctlOnly id id) (.refl _))
  generalize (t.trim (Rx.ofSegment p)).1.recordTs cfg p (t.trim (Rx.ofSegment p)).2.seqno = t₁
    at hrec he
  rw [hc.rcv] at hx
  rw [if_neg (by simp [hx.syn]), hx.ack] at he
  by_cases hack : containsAll p.flags TcpFlag.ack = true
  swap
  · rw [if_pos (by simp [hack])] at he
    obtain rfl := Option.some.inj he
    exact .dropped (.inr (.inr (.inl (by simpa using hack)))) hrec.acts
  have hst₁ : t₁.state = .established := hrec.state.trans hst
  rw [if_neg (by simp [hack]), ackSwitch, hst₁] at he
  have hres := hx.established hst₁ hp he
  rw [hrec.snd] at hres
  rcases hres with ⟨hgt, ha⟩ | ⟨hle, hres⟩
  · exact .dropped (.inr (.inr (.inr hgt))) (hrec.acts.trans ha)
  have hnd : ¬ Dropped cfg s p := by
    rintro (hne | hbad | hno | hgt)
    · exact absurd hfid hne
    · exact absurd hbad hold
    · simp [hack] at hno
    · exact absurd hgt (not_lt.mpr hle)
  rcases hres with ⟨hle, ha⟩ | ⟨t₂, x, ha, hx, he⟩
  · exact .old hnd hle (hrec.acts.trans ha)
  · exact .step6 hnd (hrec.acts.trans ha) (ha.flowing (.inl hst₁)) hx he

/-- `recv` with header prediction. -/
theorem predicted_handles {fuel : Nat} {p : Segment} (hst : s.state = .established)
    (hfid : s.ctl.fid = p.fid) (hp : p.IsData) (hok : s.predictOk cfg h p = true)
    (he : s.predicted cfg h fuel p = some s') : Handles cfg h fuel p s s' := by
  simp only [predictOk, decide_eq_true_eq] at hok
  obtain ⟨-, hflags, -, hts, hseq, -⟩ := hok
  have hold : ∀ t : FullTcpAgent κ, t.ctl.recent = s.ctl.recent ∨ t.ctl.recent = p.ts →
      t.badTs cfg p = false := by
    intro t ht
    simp only [badTs, decide_eq_false_iff_not]
    rintro ⟨h₁, h₂, -, h₄⟩
    rcases ht with e | e
    · rw [e] at h₄
      rcases hts with hn | hn | hn
      · simp [h₁] at hn
      · simp [hn] at h₂
      · exact absurd h₄ (not_lt.mpr hn)
    · rw [e] at h₄
      exact absurd h₄ (lt_irrefl _)
  obtain ⟨t, ht⟩ : ∃ t, t = (s.recordTs cfg p p.seqno).setOther
    (h.onNewPacket (s.recordTs cfg p p.seqno) p (p.len > 0)) := ⟨_, rfl⟩
  have hc : CtlOnly s t := by
    rw [ht]
    exact .trans (.ite (setCtl_ctlOnly id id) (.refl s)) (setOther_ctlOnly _ _)
  have htfid : t.ctl.fid = s.ctl.fid ∧ (t.ctl.recent = s.ctl.recent ∨ t.ctl.recent = p.ts) := by
    rw [ht, recordTs]
    split_ifs
    · exact ⟨rfl, .inr rfl⟩
    · exact ⟨rfl, .inl rfl⟩
  have hdrop : Dropped cfg t p ↔ Dropped cfg s p := by
    rw [Dropped, Dropped, htfid.1, hc.snd, hold t htfid.2, hold s (.inl rfl)]
    simp
  have hst' : t.state = .established := hc.state.trans hst
  have hlen := hp.len
  simp only [predicted, ← ht] at he
  rw [if_neg (by simp [takesAck]; omega)] at he
  refine .of_ctlOnly hc hdrop ?_
  by_cases hdata : p.len ≠ 0 ∧ p.ackno = t.snd.highestAck ∧ t.rcv.rq = []
  · rw [if_pos hdata] at he
    refine .predicted ?_ .refl hst' (by rw [hc.rcv, hseq]) hdata.2.2 he
    rintro (hne | ⟨hbad, -⟩ | hno | hgt)
    · exact absurd (htfid.1.trans hfid) hne
    · simp [hold t htfid.2] at hbad
    · simp [hflags.1] at hno
    · rw [hdata.2.1] at hgt
      omega
  · rw [if_neg hdata, slow, hst'] at he
    exact checked_handles hst' (htfid.1.trans hfid) hp he

/-- **`recv` on data**, in ESTABLISHED. -/
theorem recv_handles {fuel : Nat} {p : Segment} (hst : s.state = .established) (hp : p.IsData)
    (he : s.recv cfg h fuel p = some s') : Handles cfg h fuel p s s' := by
  obtain ⟨t, ht⟩ : ∃ t, t = s.setCtl fun t => { t with
    probMode := false, probCount := 0, lastState := s.state } := ⟨_, rfl⟩
  have hc : CtlOnly s t := by
    rw [ht]
    exact setCtl_ctlOnly id id
  have hst' : t.state = .established := hc.state.trans hst
  have hdrop : ∀ k, Dropped cfg (t.setOther k) p ↔ Dropped cfg s p := by
    intro k
    rw [ht]
    exact Iff.rfl
  simp only [recv, ← ht] at he
  rw [if_neg (by simp [hst'])] at he
  by_cases hfid : t.ctl.fid = p.fid
  swap
  · rw [if_pos (.inr hfid)] at he
    obtain rfl := Option.some.inj he
    refine .dropped (.inl ?_) hc.acts
    rwa [ht] at hfid
  rw [if_neg (by simp [hst', hfid])] at he
  have hopen : t.opened cfg h p = t.setOther (h.onReceive t p) := by
    rw [opened, if_pos (by simp [hst']), dooptions, if_neg (by simp [hp.syn])]
  rw [hopen] at he
  refine .of_ctlOnly (hc.trans (setOther_ctlOnly t (h.onReceive t p))) (hdrop _) ?_
  have hfid' : (t.setOther (h.onReceive t p)).ctl.fid = p.fid := hfid
  have hu : (t.setOther (h.onReceive t p)).state = .established := hst'
  generalize t.setOther (h.onReceive t p) = u at he hfid' hu
  split_ifs at he with hok
  · exact predicted_handles hu hfid' hp hok.2 he
  · rw [slow, hu] at he
    exact checked_handles hu hfid' hp he

/-! ### What the receiver takes -/

/-- Header prediction of data. -/
theorem predictedData_rcv {fuel : Nat} {p : Segment} (hst : s.state = .established)
    (hseq : p.seqno = s.rcv.rcvNxt) (hrq : s.rcv.rq = []) (hlen : 0 < p.len)
    (he : s.predictedData cfg h fuel p = some s') :
    Flowing s'.state ∧ s'.rcv = s.rcv.receive p := by
  rw [predictedData] at he
  obtain ⟨t, ht, he⟩ := Option.bind_eq_some_iff.mp he
  have hacts : Acts cfg none s t := onReceivePureIncoming_acts ht
  obtain ⟨u, hu⟩ : ∃ u : FullTcpAgent κ, u = (((t.setRcv fun t => { t with
    rcvNxt := t.rcvNxt + p.len }).setCtl fun t => { t with
      delAck := true, delackPending := true }).deliver p.len p.len) := ⟨_, rfl⟩
  have hflow : Flowing u.state := by
    rw [hu, deliver_state]
    exact hacts.flowing (.inl hst)
  have hrcv : u.rcv = s.rcv.receive p := by
    rw [hu, deliver_rcv, RcvState.receive, if_neg (by omega), RcvState.accept,
      if_pos ⟨by omega, hrq⟩, ← hacts.rcv]
    rw [← hacts.rcv] at hseq
    simp only [hseq, max_self, add_sub_cancel_left]
    rfl
  simp only [← hu] at he
  split_ifs at he
  · have ha : Acts cfg none u s' := sendMuch_acts he
    exact ⟨ha.flowing hflow, ha.rcv.trans hrcv⟩
  · obtain rfl := Option.some.inj he
    exact ⟨hflow, hrcv⟩

/-- **A data segment is dropped, or the receiver takes it.** -/
theorem Handles.rcv {fuel : Nat} {p : Segment} (hh : Handles cfg h fuel p s s') (hw : s.rcv.Wf)
    (hf : FinFree s.rcv.rq) (hp : p.IsData) :
    (Dropped cfg s p → s'.rcv = s.rcv) ∧ (¬ Dropped cfg s p → s'.rcv = s.rcv.receive p) := by
  cases hh with
  | dropped hd ha => exact ⟨fun _ => ha.rcv, fun hn => absurd hd hn⟩
  | old hnd hle ha =>
      refine ⟨fun hd => absurd hd hnd, fun _ => ?_⟩
      rw [ha.rcv, RcvState.receive, if_pos hle]
  | predicted hnd ha hst hseq hrq he =>
      refine ⟨fun hd => absurd hd hnd, fun _ => ?_⟩
      rw [← ha.rcv] at hseq hrq ⊢
      exact (predictedData_rcv hst hseq hrq hp.len he).2
  | step6 hnd ha hfl hx he =>
      exact ⟨fun hd => absurd hd hnd, fun _ => (hx.step6 hfl ha.rcv hw hf hp he).2⟩

end FullTcpAgent

end Afabric
