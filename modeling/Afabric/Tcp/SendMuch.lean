import Afabric.Tcp.HoleSelection
import Afabric.Tcp.SeqSpace

/-!
# Tcp — the loop of `send_much`

`turn` is one iteration of the loop, and `sendLoop_succ` cuts the loop into its iterations.  An
iteration that goes on has sent data (`turn_goesOn`): no SYN and no FIN is in flight, so the bytes
counted are the bytes of the segment, and they move up `t_seqno_`, which stays within the bytes the
application has handed over, or `h_seqno_`, which has been at a hole and so below the top of `sq_`.
`sendWork` counts what is left for both.
-/

namespace Afabric

namespace FullTcpAgent

open SegList

variable {κ : Type}

/-- What an iteration of the loop of `send_much` comes to. -/
inductive Turn (κ : Type) where
  | stops (s : FullTcpAgent κ)
  | goesOn (s : FullTcpAgent κ)

/-- One iteration of the loop of `send_much`. -/
def turn (cfg : FullTcpConfig) (h : Hooks κ) (fuel : Nat) (s : FullTcpAgent κ) (force : Bool)
    (reason : XmissionReason) (maxburst npackets : Int) : Option (Turn κ) := do
  let r ← s.nxtTseq cfg fuel
  if !force && !r.2.sendAllowed cfg r.1 then some (.stops r.2)
  else if !force && cfg.overhead ≠ 0 && !r.2.ctl.delsndPending then
    some (.stops (r.2.setCtl fun t => { t with delsndPending := true }))
  else do
    let o ← r.2.foutput cfg h r.1 reason
    if o.1 ≤ 0 then some (.stops o.2)
    else
      let amt := if containsAll o.2.outflags TcpFlag.fin then o.1 - 1 else o.1
      let s := o.2.sent cfg r.1 amt
      if containsAny s.outflags (TcpFlag.syn ||| TcpFlag.fin) ||
          (maxburst ≠ 0 && npackets + 1 ≥ maxburst) then some (.stops s)
      else some (.goesOn s)

variable (cfg : FullTcpConfig) (h : Hooks κ) {s s' : FullTcpAgent κ}

theorem sendLoop_succ (fuel : Nat) (s : FullTcpAgent κ) (force : Bool) (reason : XmissionReason)
    (maxburst npackets : Int) :
    sendLoop cfg h (fuel + 1) s force reason maxburst npackets =
      (turn cfg h (fuel + 1) s force reason maxburst npackets).bind fun
        | .stops s => some s
        | .goesOn s => sendLoop cfg h fuel s false reason maxburst (npackets + 1) := by
  rw [sendLoop, turn]
  cases s.nxtTseq cfg (fuel + 1) with
  | none => rfl
  | some r =>
      simp only [Option.bind_eq_bind, Option.bind_some]
      split_ifs
      · rfl
      · rfl
      · cases r.2.foutput cfg h r.1 reason with
        | none => rfl
        | some o =>
            simp only [Option.bind_some]
            split_ifs <;> rfl

variable {cfg}

/-- Where a segment of the loop starts: at `t_seqno_`, or at a hole that `h_seqno_` is set to. -/
theorem nxtTseq_cases (ha : Advances cfg s) {fuel : Nat} {r : Int × FullTcpAgent κ}
    (he : s.nxtTseq cfg fuel = some r) :
    r = (s.snd.tSeqno, s) ∨ cfg.kind.isSack = true ∧ s.sack.hSeqno ≤ r.1 ∧
      r.1 ≤ top s.sack.sq ∧ r.2 = s.setSack fun t => { t with hSeqno := r.1 } := by
  rw [nxtTseq] at he
  split_ifs at he with hc
  · obtain ⟨o, ho, rfl⟩ := Option.map_eq_some_iff.mp he
    cases o with
    | none => exact .inl rfl
    | some seq =>
        obtain ⟨hle, htop⟩ := holeLoop_range ha ho
        refine .inr ⟨hc.1, hle, htop, ?_⟩
        by_cases hgt : seq > s.sack.hSeqno
        · exact if_pos hgt
        · have heq : seq = s.sack.hSeqno := le_antisymm (not_lt.mp hgt) hle
          rw [heq]
          exact if_neg (lt_irrefl _)
  · exact .inl (Option.some.inj he).symm

/-- No SYN and no FIN in the flags of a state. -/
theorem plain_of_outflags
    (hf : containsAny s.outflags (TcpFlag.syn ||| TcpFlag.fin) = false) :
    synLen s.state = 0 ∧ ¬ Closes s.state ∧ containsAll s.outflags TcpFlag.fin = false := by
  rw [outflags] at hf ⊢
  cases hst : s.state <;> rw [hst] at hf <;> simp only at hf <;>
    first
      | exact absurd hf (by decide)
      | exact ⟨rfl, by simp [Closes], by decide⟩

theorem sent_seq (cfg : FullTcpConfig) (s : FullTcpAgent κ) (seq amt : Int) :
    (s.sent cfg seq amt).snd = { s.snd with
        tSeqno := if seq = s.snd.tSeqno then s.snd.tSeqno + amt else s.snd.tSeqno } ∧
      (s.sent cfg seq amt).sack = { s.sack with
        hSeqno := if cfg.kind.isSack = true ∧ seq = s.sack.hSeqno then s.sack.hSeqno + amt
          else s.sack.hSeqno } := by
  obtain ⟨t, ht⟩ : ∃ t, t = (if cfg.kind.isSack = true ∧ seq = s.sack.hSeqno then
    s.setSack fun t => { t with hSeqno := t.hSeqno + amt } else s) := ⟨_, rfl⟩
  have hsnd : t.snd = s.snd := by
    rw [ht]
    split_ifs <;> rfl
  have hsack : t.sack = { s.sack with hSeqno := if cfg.kind.isSack = true ∧ seq = s.sack.hSeqno
      then s.sack.hSeqno + amt else s.sack.hSeqno } := by
    rw [ht]
    split_ifs <;> rfl
  simp only [FullTcpAgent.sent, ← ht, ← hsnd, ← hsack]
  by_cases hseq : seq = t.snd.tSeqno
  · rw [if_pos hseq, if_pos hseq]
    constructor <;> split_ifs <;> rfl
  · rw [if_neg hseq, if_neg hseq]
    constructor <;> split_ifs <;> rfl

theorem sent_app (s : FullTcpAgent κ) (seq amt : Int) : (s.sent cfg seq amt).app = s.app := by
  simp only [FullTcpAgent.sent]
  split_ifs <;> rfl

/-- An iteration that goes on has sent the data at `seq`. -/
structure GoesOn (cfg : FullTcpConfig) (s : FullTcpAgent κ) (seq n : Int) (s₁ s' : FullTcpAgent κ) :
    Prop where
  next : (seq, s₁) = (s.snd.tSeqno, s) ∨ cfg.kind.isSack = true ∧ s.sack.hSeqno ≤ seq ∧
    seq ≤ top s.sack.sq ∧ s₁ = s.setSack fun t => { t with hSeqno := seq }
  pos : 0 < n
  len : n = s₁.dataLen cfg seq
  eq : ∃ s₂ e, Out cfg s₁ seq n (some e) s₂ ∧ s₂.state = s₁.state ∧ s' = s₂.sent cfg seq n

variable {h} in
theorem turn_goesOn (ha : Advances cfg s) {fuel : Nat} {force : Bool} {reason : XmissionReason}
    {maxburst npackets : Int}
    (he : turn cfg h fuel s force reason maxburst npackets = some (.goesOn s')) :
    ∃ seq n s₁, GoesOn cfg s seq n s₁ s' := by
  obtain ⟨⟨seq, s₁⟩, hr, he⟩ := Option.bind_eq_some_iff.mp he
  have hnext := nxtTseq_cases ha hr
  dsimp only at he hnext
  split_ifs at he with h₁ h₂
  · exact absurd (Option.some.inj he) (by simp)
  · exact absurd (Option.some.inj he) (by simp)
  obtain ⟨⟨n, s₂⟩, ho, he⟩ := Option.bind_eq_some_iff.mp he
  obtain ⟨o, hout⟩ := foutput_out h ho
  dsimp only at he
  by_cases hn : n ≤ 0
  · rw [if_pos hn] at he
    exact absurd (Option.some.inj he) (by simp)
  rw [if_neg hn] at he
  obtain ⟨amt, hamt⟩ : ∃ amt, amt =
      if containsAll s₂.outflags TcpFlag.fin = true then n - 1 else n := ⟨_, rfl⟩
  rw [← hamt] at he
  split_ifs at he with hstop
  · exact absurd (Option.some.inj he) (by simp)
  have hs' : s₂.sent cfg seq amt = s' := Turn.goesOn.inj (Option.some.inj he)
  rw [Bool.or_eq_true, not_or, Bool.not_eq_true] at hstop
  obtain ⟨hsyn, hclose, hnofin⟩ := plain_of_outflags hstop.1
  have hflags : (s₂.sent cfg seq amt).outflags = s₂.outflags := by
    rw [outflags, outflags, sent_state]
  rw [sent_state] at hsyn hclose
  -- no FIN is in flight, so all that was sent is counted
  rw [hflags] at hnofin
  rw [hnofin, if_neg Bool.false_ne_true] at hamt
  cases o with
  | none => exact absurd (hout.unsent rfl).le hn
  | some e =>
      have hstate : s₂.state = s₁.state := by
        rcases hout.state with hst | ⟨hst, -⟩
        · exact hst
        · exact absurd (.inl hst) hclose
      obtain ⟨f, hlen, hf⟩ := hout.length e rfl
      have hdata : e.datalen = s₁.dataLen cfg seq := hout.datalen e rfl
      have hf0 : f = 0 := by
        rcases hf with hf | ⟨-, hcl | hne⟩
        · exact hf
        · exact absurd (hstate ▸ hcl) hclose
        · exact absurd hstate hne
      rw [hstate] at hsyn
      rw [hamt] at hs'
      exact ⟨seq, n, s₁, hnext, not_le.mp hn, by omega, s₂, e, hout, hstate, hs'.symm⟩

/-- The sequence numbers that are left for new data and for holes. -/
def sendWork (s : FullTcpAgent κ) : Nat :=
  (s.snd.curseq + 1 - s.snd.tSeqno).toNat + s.holesLeft s.sack.hSeqno

/-- What the loop keeps. -/
structure Sending (s : FullTcpAgent κ) : Prop where
  maxseg : 0 < s.snd.maxseg
  finite : s.app.infiniteSend = false

/-- **An iteration that goes on leaves less to send.** -/
theorem GoesOn.sendWork_lt {seq n : Int} {s₁ : FullTcpAgent κ} (hg : GoesOn cfg s seq n s₁ s')
    (hs : Sending s) :
    Sending s' ∧ s'.sendWork < s.sendWork ∧
      s'.holesLeft s'.sack.hSeqno ≤ s.holesLeft s.sack.hSeqno := by
  obtain ⟨s₂, e, hout, -, rfl⟩ := hg.eq
  have hpos := hg.pos
  obtain ⟨hsnd₁, happ₁⟩ : s₁.snd = s.snd ∧ s₁.app = s.app := by
    rcases hg.next with hn | ⟨-, -, -, rfl⟩
    · rw [(Prod.mk.inj hn).2]
      exact ⟨rfl, rfl⟩
    · exact ⟨rfl, rfl⟩
  have hsnd : s₂.snd = { s.snd with maxseq := max s.snd.maxseq (seq + n) } := by
    rw [hout.snd, sized, segsize, hsnd₁, if_neg hs.maxseg.ne']
    rfl
  have hinf₁ : s₁.app.infiniteSend = false := by rw [happ₁, hs.finite]
  -- the segment ends within the bytes of the application
  have hend : seq + n ≤ s.snd.curseq + 1 := by
    have hle : s₁.dataLen cfg seq ≤ 0 ∨ seq + s₁.dataLen cfg seq ≤
        if s₁.snd.highestAck < 0 then s₁.snd.curseq else s₁.snd.curseq + 1 := dataLen_le hinf₁
    rw [← hg.len, hsnd₁] at hle
    rcases hle with hle | hle
    · omega
    · split_ifs at hle <;> omega
  obtain ⟨hsnd', hsack'⟩ := sent_seq cfg s₂ seq n
  refine ⟨⟨?_, ?_⟩, ?_⟩
  · rw [hsnd', hsnd]
    exact hs.maxseg
  · rw [sent_app, hout.app]
    exact hinf₁
  simp only [sendWork, holesLeft, hsnd', hsack', hsnd, hout.sack]
  rcases hg.next with hn | ⟨hk, hle, htop, rfl⟩
  · -- at `t_seqno_`
    obtain ⟨hseq, rfl⟩ := Prod.mk.inj hn
    rw [if_pos hseq]
    split_ifs <;> omega
  · -- at a hole
    have hhole : cfg.kind.isSack = true ∧
        seq = (s.setSack fun t => { t with hSeqno := seq }).sack.hSeqno := ⟨hk, rfl⟩
    rw [if_pos hhole]
    simp only [setSack]
    split_ifs <;> omega

/-- `n` iterations, each of which goes on. -/
inductive Turns (cfg : FullTcpConfig) (h : Hooks κ) (reason : XmissionReason) (maxburst : Int) :
    Nat → FullTcpAgent κ → Bool → Int → Prop where
  | nil (s : FullTcpAgent κ) (force : Bool) (npackets : Int) :
      Turns cfg h reason maxburst 0 s force npackets
  | cons {n fuel : Nat} {s s' : FullTcpAgent κ} {force : Bool} {npackets : Int} :
      turn cfg h fuel s force reason maxburst npackets = some (.goesOn s') →
      Turns cfg h reason maxburst n s' false (npackets + 1) →
      Turns cfg h reason maxburst (n + 1) s force npackets

variable {h} in
theorem Turns.le {reason : XmissionReason} {maxburst npackets : Int} {n : Nat} {force : Bool}
    (ht : Turns cfg h reason maxburst n s force npackets) (hs : Sending s) :
    n ≤ s.sendWork := by
  induction ht with
  | nil => exact Nat.zero_le _
  | cons he _ ih =>
      obtain ⟨seq, n, s₁, hg⟩ := turn_goesOn (.inl hs.maxseg) he
      obtain ⟨hs', hlt, -⟩ := hg.sendWork_lt hs
      exact Nat.lt_of_le_of_lt (ih hs') hlt

/-! ### The loop returns -/

theorem schemePriority_isSome (hp : cfg.prioScheme ≠ .unknown)
    (remaining front batch seq maxseq : Int) :
    (s.schemePriority cfg remaining front batch seq maxseq).isSome := by
  rw [schemePriority]
  cases he : cfg.prioScheme with
  | unknown => exact absurd he hp
  | batchedRemainingSize =>
      simp only
      split_ifs <;> rfl
  | cappedBytesSent | remainingSize | lazyRemainingSize | lazyRemainingSizeBytesSent | flowSize
  | bytesSent => rfl

theorem unboundedPriority_isSome (hp : cfg.prioScheme ≠ .unknown) (seq maxseq : Int) :
    (s.unboundedPriority cfg seq maxseq).isSome := by
  rw [unboundedPriority]
  cases cfg.kind with
  | dd =>
      simp only
      rw [if_pos hp]
      rfl
  | reno | tahoe | newreno | sack | min => exact schemePriority_isSome hp _ _ _ _ _

theorem packetPriority_isSome (hp : cfg.prioScheme ≠ .unknown) (seq d : Int) :
    (s.packetPriority cfg seq d).isSome := by
  rw [packetPriority]
  split
  · rfl
  split
  · split
    · rfl
    · rw [Option.isSome_map, noDeadlinePriority, Option.isSome_map]
      exact unboundedPriority_isSome hp _ _
  · rfl

/-- `foutput` returns: only the priority scheme `UNKNOWN` aborts. -/
theorem foutput_isSome (hp : cfg.prioScheme ≠ .unknown) (seq : Int) (reason : XmissionReason) :
    (s.foutput cfg h seq reason).isSome := by
  obtain ⟨s₃, pf, -, -, -, -, he | ⟨-, he⟩⟩ := foutput_eq cfg h s seq reason
  · rw [he, transmit, Option.isSome_map, sendpacket, Option.isSome_map]
    exact packetPriority_isSome hp _ _
  · rw [he]
    rfl

theorem turn_isSome (hp : cfg.prioScheme ≠ .unknown) (ha : Advances cfg s) {fuel : Nat}
    (hf : s.holesLeft s.sack.hSeqno < fuel) (force : Bool) (reason : XmissionReason)
    (maxburst npackets : Int) :
    (turn cfg h fuel s force reason maxburst npackets).isSome := by
  have hnxt : (s.nxtTseq cfg fuel).isSome := by
    rw [nxtTseq]
    split_ifs
    · rw [Option.isSome_map]
      exact holeLoop_isSome ha hf
    · rfl
  obtain ⟨r, hr⟩ := Option.isSome_iff_exists.mp hnxt
  rw [turn, hr]
  simp only [Option.bind_eq_bind, Option.bind_some]
  split_ifs
  · rfl
  · rfl
  · obtain ⟨o, ho⟩ := Option.isSome_iff_exists.mp (foutput_isSome h hp (s := r.2) r.1 reason)
    rw [ho]
    simp only [Option.bind_some]
    split_ifs <;> rfl

theorem sendLoop_isSome (hp : cfg.prioScheme ≠ .unknown) (hs : Sending s) {fuel : Nat}
    (hf : s.sendWork + s.holesLeft s.sack.hSeqno < fuel) (force : Bool) (reason : XmissionReason)
    (maxburst npackets : Int) :
    (sendLoop cfg h fuel s force reason maxburst npackets).isSome := by
  induction fuel generalizing s force npackets with
  | zero => exact absurd hf (Nat.not_lt_zero _)
  | succ fuel ih =>
      have hfuel : s.holesLeft s.sack.hSeqno < fuel + 1 := by omega
      obtain ⟨t, ht⟩ := Option.isSome_iff_exists.mp
        (turn_isSome h hp (.inl hs.maxseg) hfuel force reason maxburst npackets)
      rw [sendLoop_succ, ht, Option.bind_some]
      cases t with
      | stops s' => rfl
      | goesOn s' =>
          obtain ⟨seq, n, s₁, hg⟩ := turn_goesOn (.inl hs.maxseg) ht
          obtain ⟨hs', hlt, hle⟩ := hg.sendWork_lt hs
          exact ih hs' (by omega) _ _

/-- **`send_much` terminates**: the loop goes on at most once for each sequence number that is left
to send, and it returns, unless a priority scheme that is not known aborts the program. -/
theorem send_much_terminates (cfg : FullTcpConfig) (h : Hooks κ) (s : FullTcpAgent κ)
    (hm : 0 < s.snd.maxseg) (hi : s.app.infiniteSend = false) (reason : XmissionReason)
    (maxburst : Int) :
    (∀ n force, Turns cfg h reason maxburst n s force 0 → n ≤ s.sendWork) ∧
      (cfg.prioScheme ≠ .unknown → ∃ N, ∀ fuel, N ≤ fuel → ∀ force,
        (s.sendMuch cfg h fuel force reason maxburst).isSome) := by
  refine ⟨fun n force ht => ht.le ⟨hm, hi⟩, fun hp => ?_⟩
  refine ⟨s.sendWork + s.holesLeft s.sack.hSeqno + 1, fun fuel hf force => ?_⟩
  rw [sendMuch]
  split_ifs
  · rfl
  · exact sendLoop_isSome h hp ⟨hm, hi⟩ hf force reason maxburst 0

end FullTcpAgent

namespace NsDefault

/-- In recovery, with the holes [20, 30) and [40, 50) and 140 bytes of new data. -/
theorem send_much_terminates_holes : 0 < holes.snd.maxseg ∧ holes.app.infiniteSend = false ∧
    ∃ N, ∀ fuel, N ≤ fuel → ∀ force,
      (holes.sendMuch (config .sack) (hooks (config .sack)) fuel force .normal 0).isSome := by
  refine ⟨by decide, rfl, ?_⟩
  exact (FullTcpAgent.send_much_terminates (config .sack) (hooks (config .sack)) holes (by decide)
    rfl .normal 0).2 (by decide)

end NsDefault

end Afabric
