import Afabric.Tcp.Agent

/-!
# Tcp — output

`sendpacket`, `foutput` and `send_much` of `FullTcpAgent`, with the priorities of the packets and
the choice of the next sequence number of a `SackFullTcpAgent`.

`foutput` is cut at its label `send:` (`transmit`), and the loops of `send_much` and `nxt_tseq`
take fuel.  The Tcl and application callbacks that it makes on the way, `idle` and `done_data`, do
not call the agent back.
-/

namespace Afabric

namespace FullTcpAgent

variable {κ : Type} (cfg : FullTcpConfig) (h : Hooks κ) (s : FullTcpAgent κ)

/-! ### Priorities -/

/-- `get_lowest_priority`. -/
def lowestPriority : Int := 2 ^ 30

/-- `get_num_bytes_remaining`. -/
def numBytesRemaining : Int :=
  match cfg.kind with
  | .dd => s.snd.curseq - s.snd.highestAck - SegList.total s.sack.sq
  | .sack | .min =>
      s.snd.curseq - s.snd.highestAck - SegList.total s.sack.sq - s.window cfg * s.snd.maxseg
  | .reno | .tahoe | .newreno => s.snd.curseq - s.snd.highestAck - s.window cfg * s.snd.maxseg

/-- The remaining size as a `SackFullTcpAgent` estimates it. -/
def sackRemaining (maxseq : Int) : Int :=
  let r := maxseq - s.snd.highestAck - SegList.total s.sack.sq + 10
  if r < 0 then 0 else r

/-- The result of `calc_unbounded_no_deadline_priority`, with `seq_bound_` and `last_prio_`. -/
structure Priority where
  prio : Int
  seqBound : Int
  lastPrio : Int

/-- `calc_unbounded_no_deadline_priority`; `remaining` is the size left, and `front` the sequence
number a batch is compared with.  The scheme `UNKNOWN` aborts. -/
def schemePriority (remaining front batch seq maxseq : Int) : Option Priority :=
  let same (p : Int) : Priority := ⟨p, s.ctl.seqBound, s.ctl.lastPrio⟩
  let max := 100 * 1460
  match cfg.prioScheme with
  | .cappedBytesSent =>
      some (same (if seq - s.ctl.startseq > max then max else seq - s.ctl.startseq))
  | .remainingSize => some (same remaining)
  | .lazyRemainingSize => some (same (if s.app.signalOnEmpty then remaining else lowestPriority))
  | .lazyRemainingSizeBytesSent =>
      some (same (if s.app.signalOnEmpty then remaining else lowestPriority + seq - s.ctl.startseq))
  | .flowSize => some (same (maxseq - s.ctl.startseq))
  | .bytesSent => some (same (seq - s.ctl.startseq))
  | .batchedRemainingSize =>
      if front ≥ s.ctl.seqBound then some ⟨batch, s.snd.maxseq, batch⟩
      else some (same s.ctl.lastPrio)
  | .unknown => none

/-- `calc_unbounded_no_deadline_priority` of each class. -/
def unboundedPriority (seq maxseq : Int) : Option Priority :=
  let r := s.sackRemaining maxseq
  match cfg.kind with
  | .reno | .tahoe | .newreno =>
      let batch := if maxseq - seq + 10 < 0 then 0 else maxseq - seq + 10
      s.schemePriority cfg (maxseq - seq) seq batch seq maxseq
  | .sack | .min => s.schemePriority cfg r s.snd.highestAck r seq maxseq
  | .dd =>
      if cfg.prioScheme ≠ .unknown then some ⟨lowestPriority, s.ctl.seqBound, s.ctl.lastPrio⟩
      else s.schemePriority cfg r s.snd.highestAck r seq maxseq

/-- `into_bounded_priority`. -/
def intoBoundedPriority (prio : Int) : Int :=
  if cfg.prioNum ≠ 2 ∧ cfg.prioNum ≠ 4 ∧ cfg.prioNum ≠ 8 then 0
  else
    let n := cfg.prioNum.toNat
    match (List.range' 1 (n - 1)).find? fun i => prio ≤ cfg.prioCap (i * 8 / n - 1) with
    | some i => i - 1
    | none => cfg.prioNum - 1

/-- `calc_no_deadline_priority`. -/
def noDeadlinePriority (seq maxseq : Int) : Option Priority :=
  (s.unboundedPriority cfg seq maxseq).map fun p =>
    if cfg.prioNum = 0 then p else { p with prio := intoBoundedPriority cfg p.prio }

/-- `calc_deadline_priority`. -/
def deadlinePriority : Int :=
  let tleft := s.ctl.deadline - trunc ((s.ctl.now - s.ctl.startTime) * 1000000)
  if tleft < 0 ∨ (s.numBytesRemaining cfg * 8 : ℚ) / (cfg.linkRate * 1000) > tleft then
    lowestPriority
  else s.ctl.deadline + trunc (s.ctl.startTime * 1000000)

/-- `piasPrio`. -/
def piasPrio (bytesSent : Int) : Int :=
  if cfg.enablePias ∧ cfg.piasPrioNum ≥ 1 then
    let n := min cfg.piasPrioNum 8
    match (List.range (n.toNat - 1)).find? fun i => bytesSent ≤ cfg.piasThresh i with
    | some i => i
    | none => n - 1
  else 0

/-- The priority `sendpacket` gives to a packet, if any. -/
def packetPriority (seqno datalen : Int) : Option (Option Int × FullTcpAgent κ) :=
  if cfg.enablePias then
    some (some (if datalen > 0 then piasPrio cfg (seqno - s.ctl.startseq) else 0), s)
  else if datalen > 0 then
    if s.ctl.deadline ≠ 0 ∧ cfg.useDeadline then some (some (s.deadlinePriority cfg), s)
    else
      let maxSeq := if cfg.useTrueRemainingSize ∧ cfg.trueFlowSize ≥ 0 then
        s.ctl.startseq + cfg.trueFlowSize else s.snd.curseq
      (s.noDeadlinePriority cfg seqno maxSeq).map fun p =>
        (some p.prio, s.setCtl fun t => { t with seqBound := p.seqBound, lastPrio := p.lastPrio })
  else some (none, s)

/-! ### `sendpacket`, `foutput` -/

/-- `sendpacket`; the options it writes and the bits of `hdr_flags` are not kept. -/
def sendpacket (seqno ackno : Int) (pflags : TcpFlag) (datalen : Int) (reason : XmissionReason) :
    Option (FullTcpAgent κ) :=
  let s := s.setOther (h.onSendpacket s pflags (datalen > 0))
  let s := if datalen > 0 then s.setCtl fun t => { t with lastSendTime := t.now } else s
  let s := s.setCtl fun t => { t with lastAckSent := ackno }
  (s.packetPriority cfg seqno datalen).map fun r =>
    { r.2 with trace := { r.2.trace with sent :=
        ⟨seqno, ackno, pflags, datalen, reason, r.1, r.2.snd, r.2.app.infiniteSend⟩ ::
          r.2.trace.sent } }

/-- `DDTcpAgent::need_send` gives up past the deadline. -/
def pastDeadline : Bool :=
  cfg.kind = .dd ∧ s.ctl.deadline ≠ 0 ∧
    (s.ctl.deadline : ℚ) / 1000000 - (s.ctl.now - s.ctl.startTime) < 0

/-- `need_send`. -/
def needSend : Bool :=
  !s.pastDeadline cfg && (s.ctl.ackNow || s.rcv.rcvNxt - s.ctl.lastAckSent > 0)

/-- `win` of `foutput` and `send_allowed`, in bytes. -/
def winBytes : Int :=
  let win := s.window cfg * s.snd.maxseg
  if s.ctl.probMode ∧ win > 1 then 1 else win

/-- `buffered_bytes`. -/
def bufferedBytes : Int :=
  if s.app.infiniteSend then 1073741824
  else if s.snd.highestAck < 0 then s.snd.curseq - cfg.iss
  else s.snd.curseq - s.snd.highestAck + 1

/-- `datalen` of `foutput`, before it is cut down to a segment. -/
def bytesToSend (seqno : Int) : Int :=
  let off := if s.snd.highestAck < 0 then seqno - cfg.iss else seqno - s.snd.highestAck
  if seqno = cfg.iss ∧ !cfg.dataOnSyn then 0
  else if s.ctl.pipectrl then s.bufferedBytes cfg - off
  else min (s.bufferedBytes cfg) (s.winBytes cfg) - off

/-- `datalen` of `foutput`. -/
def segmentLen (datalen : Int) : Int :=
  if datalen < 0 then 0 else if datalen > s.snd.maxseg then s.snd.maxseg else datalen

/-- `DDTcpAgent::foutput` gives up a deadline that cannot be met. -/
def dropDeadline : FullTcpAgent κ :=
  let tleft : ℚ := (s.ctl.deadline : ℚ) / 1000000 - (s.ctl.now - s.ctl.startTime) -
    ((s.snd.curseq - s.snd.maxseq : Int) : ℚ) * 8 / (cfg.linkRate * 1000000000)
  if cfg.kind = .dd ∧ s.ctl.deadline ≠ 0 ∧ tleft < 0 then s.setCtl fun t => { t with deadline := 0 }
  else s

/-- A `maxseg_` that is not set is set. -/
def setMaxseg : FullTcpAgent κ :=
  if s.snd.maxseg = 0 then s.setSnd fun t => { t with maxseg := cfg.size } else s

/-- The FIN that a pending close adds to a segment. -/
def takeClose (pflags : TcpFlag) (fin : Bool) : TcpFlag × Bool × FullTcpAgent κ :=
  if s.ctl.needClose then
    let t := s.setCtl fun t => { t with needClose := false }
    if s.state.toNat ≤ TcpState.established.toNat ∧ s.state ≠ .closed then
      (pflags ||| TcpFlag.fin, true, t.newstate .finWait1)
    else (pflags, fin, t)
  else (pflags, fin, s)

/-- What `foutput` does after the segment is sent. -/
def noteSent (seqno reliable : Int) (isRetransmit : Bool) : FullTcpAgent κ :=
  let s := s.setCtl fun t => { t with ackNow := false, delAck := false, delackPending := false }
  let highest := seqno + reliable
  let s := s.setOther (h.onFoutput s reliable highest isRetransmit)
  let s := if highest > s.snd.maxseq then
      let s := s.setSnd fun t => { t with maxseq := highest }
      if !cfg.tsOption ∧ !s.ctl.rttActive then
        s.setCtl fun t => { t with rttActive := true, rttSeq := seqno, rttTs := t.now }
      else s
    else s
  if !s.ctl.rtxPending ∧ reliable ≠ 0 then s.setRtxTimer h else s

/-- `foutput` from its label `send:` on. -/
def transmit (seqno datalen : Int) (pflags : TcpFlag) (reason : XmissionReason) :
    Option (Int × FullTcpAgent κ) :=
  let isRetransmit : Bool := seqno < s.snd.maxseq
  let syn := containsAll pflags TcpFlag.syn
  let e := h.modifyPflagsOnFoutput s pflags isRetransmit
  let s := s.setOther e.2
  let pflags' :=
    if datalen > 0 ∧ h.hasSenderResponded s ∧ !isRetransmit then e.1 ||| TcpFlag.cwr else e.1
  let r := s.takeClose pflags' (containsAll pflags TcpFlag.fin)
  let reliable := datalen + (if syn then 1 else 0) + if r.2.1 then 1 else 0
  (r.2.2.sendpacket cfg h seqno r.2.2.rcv.rcvNxt r.1 datalen reason).map fun s =>
    (reliable, s.noteSent cfg h seqno reliable isRetransmit)

/-- Whether `foutput` sends a segment. -/
def wantsSend (seqno datalen : Int) (pflags : TcpFlag) (emptying : Bool) : Bool :=
  (datalen > 0 ∧ (datalen = s.snd.maxseg ∨
      ((s.snd.highestAck = s.snd.maxseq ∨ cfg.nodelay) ∧ emptying) ∨ seqno < s.snd.maxseq ∨
      (datalen : ℚ) ≥ cfg.wnd * s.snd.maxseg / 2 ∨ (datalen = 1 ∧ s.ctl.probMode))) ∨
    s.needSend cfg ∨ s.ctl.ackNow ∨ s.ctl.needClose ∨
    containsAny pflags (TcpFlag.syn ||| TcpFlag.fin)

/-- `foutput`: the number of sequence numbers sent. -/
def foutput (seqno : Int) (reason : XmissionReason) : Option (Int × FullTcpAgent κ) :=
  let s := (s.dropDeadline cfg).setMaxseg cfg
  let quiet : Bool := s.snd.highestAck = s.snd.maxseq
  let syn : Bool := seqno = cfg.iss
  let bytes := s.bytesToSend cfg seqno
  let s := if s.app.signalOnEmpty ∧ s.bufferedBytes cfg = 0 ∧ !syn then s.bufferempty else s
  let datalen := s.segmentLen bytes
  let s := if cfg.slowStartRestart ∧ quiet ∧ datalen > 0 ∧ h.idleRestart s then
      s.setCong (h.slowdown [.cwndInit] s) else s
  let emptying : Bool :=
    !s.app.infiniteSend ∧ (seqno + datalen > s.snd.curseq ∨ (syn ∧ datalen = 0))
  let s := if emptying ∧ !syn ∧ s.app.closeOnEmpty ∧ quiet then
      s.setCtl fun t => { t with needClose := true } else s
  let pflags := if emptying then s.outflags ||| TcpFlag.push else s.outflags &&& ~~~TcpFlag.fin
  let pflags := if s.app.infiniteSend ∧ syn ∧ datalen = 0 then pflags ||| TcpFlag.push else pflags
  if s.wantsSend cfg seqno datalen pflags emptying then s.transmit cfg h seqno datalen pflags reason
  else some (0, s)

/-! ### `send_much` -/

/-- Whether `nxt_tseq` takes a hole, by `sack_rtx_threshmode_`. -/
def takesHole (fcnt fbytes : Int) : Bool :=
  let c := fcnt ≥ cfg.sackRtxCthresh
  let b := fbytes ≥ cfg.sackRtxBthresh
  cfg.sackRtxThreshmode = 0 ∨ (cfg.sackRtxThreshmode = 1 ∧ c) ∨ (cfg.sackRtxThreshmode = 2 ∧ b) ∨
    (cfg.sackRtxThreshmode = 3 ∧ (c ∨ b)) ∨ (cfg.sackRtxThreshmode = 4 ∧ c ∧ b)

/-- The loop of `SackFullTcpAgent::nxt_tseq`: a hole to fill, if there is one. -/
def holeLoop : Nat → Int → Option (Option Int)
  | 0, _ => none
  | fuel + 1, seq =>
      let r := SegList.nexthole s.sack.sq seq
      if r.1 > 0 then
        if takesHole cfg r.2.1 r.2.2 then some (some r.1)
        else if r.2.1 ≤ 0 then some none
        else holeLoop fuel (if cfg.probCap ≠ 0 then r.1 + 1 else r.1 + s.snd.maxseg)
      else some none

/-- `nxt_tseq`. -/
def nxtTseq (fuel : Nat) : Option (Int × FullTcpAgent κ) :=
  if cfg.kind.isSack ∧ s.snd.highestAck < s.snd.recover then
    (s.holeLoop cfg fuel s.sack.hSeqno).map fun
      | some seq =>
          (seq, if seq > s.sack.hSeqno then s.setSack fun t => { t with hSeqno := seq } else s)
      | none => (s.snd.tSeqno, s)
  else some (s.snd.tSeqno, s)

/-- `FullTcpAgent::send_allowed`. -/
def inWindow (seq : Int) : Bool :=
  let win := s.winBytes cfg
  let topwin := if s.snd.curseq > s.snd.highestAck + win ∨ s.app.infiniteSend then
    s.snd.highestAck + win else s.snd.curseq
  seq < topwin

/-- `send_allowed`. -/
def sendAllowed (seq : Int) : Bool :=
  if cfg.kind.isSack ∧ s.ctl.pipectrl then
    if seq ≥ s.snd.highestAck + trunc cfg.wnd * s.snd.maxseg then false
    else if s.state ≠ .established ∧ seq > s.snd.curseq then false
    else s.ctl.pipe < trunc s.ctl.cong.cwnd * s.snd.maxseg
  else s.inWindow cfg seq

/-- `sent`. -/
def sent (seq amt : Int) : FullTcpAgent κ :=
  let s := if cfg.kind.isSack ∧ seq = s.sack.hSeqno then
    s.setSack fun t => { t with hSeqno := t.hSeqno + amt } else s
  let s := if seq = s.snd.tSeqno then s.setSnd fun t => { t with tSeqno := t.tSeqno + amt } else s
  let s := s.setCtl fun t => { t with pipe := t.pipe + amt }
  if seq < s.snd.maxseq then s.setCtl fun t => { t with rtxbytes := t.rtxbytes + amt } else s

/-- The loop of `send_much`. -/
def sendLoop : Nat → FullTcpAgent κ → Bool → XmissionReason → Int → Int → Option (FullTcpAgent κ)
  | 0, _, _, _, _, _ => none
  | fuel + 1, s, force, reason, maxburst, npackets => do
      let r ← s.nxtTseq cfg (fuel + 1)
      if !force && !r.2.sendAllowed cfg r.1 then some r.2
      else if !force && cfg.overhead ≠ 0 && !r.2.ctl.delsndPending then
        some (r.2.setCtl fun t => { t with delsndPending := true })
      else do
        let o ← r.2.foutput cfg h r.1 reason
        if o.1 ≤ 0 then some o.2
        else
          -- FINs are not counted
          let amt := if containsAll o.2.outflags TcpFlag.fin then o.1 - 1 else o.1
          let s := o.2.sent cfg r.1 amt
          if containsAny s.outflags (TcpFlag.syn ||| TcpFlag.fin) ||
              (maxburst ≠ 0 && npackets + 1 ≥ maxburst) then some s
          else sendLoop fuel s false reason maxburst (npackets + 1)

/-- `send_much`. -/
def sendMuch (fuel : Nat) (force : Bool) (reason : XmissionReason) (maxburst : Int) :
    Option (FullTcpAgent κ) :=
  if !force && s.ctl.delsndPending then some s
  else sendLoop cfg h fuel s force reason maxburst 0

end FullTcpAgent

end Afabric
