import Afabric.Tcp.Output

/-!
# Tcp — input

`FullTcpAgent::recv`.  The function is cut at its labels: `predicted` is the header prediction,
`slow` the `switch` on LISTEN and SYN_SENT, `checked` the tests and the trimming before ACK
processing, `established` the ACK processing up to `process_ACK:`, then `processAck`, `step6` and
`finish`.  A `goto` is a call.  The locals of `recv` that cross a label are the fields of `Rx`.

A Tcl call does not call the agent back.
-/

namespace Afabric

namespace FullTcpAgent

variable {κ : Type} (cfg : FullTcpConfig) (h : Hooks κ) (s : FullTcpAgent κ)

/-! ### ACKs -/

/-- `newack`. -/
def newack (p : Segment) : FullTcpAgent κ :=
  let s := s.setCtl fun t => { t with probMode := false, probCount := 0 }
  let progress : Bool := p.ackno > s.snd.highestAck
  let s := if p.ackno = s.snd.maxseq then s.cancelRtxTimer
    else if progress then s.setRtxTimer h else s
  let s := if progress then s.setSnd fun t => { t with highestAck := p.ackno } else s
  let s := if s.snd.tSeqno < s.snd.highestAck then
    s.setSnd fun t => { t with tSeqno := t.highestAck } else s
  if p.noTs then s
  else
    let s := if cfg.tsOption then
        let s := s.setCtl fun t => { t with recentAge := t.now, recent := p.ts }
        s.setOther (h.rttUpdate (s.ctl.now - p.tsEcho) s)
      else if s.ctl.rttActive ∧ p.ackno > s.ctl.rttSeq then
        let s := s.setCtl fun t => { t with rttActive := false }
        s.setOther (h.rttUpdate (s.ctl.now - s.ctl.rttTs) s)
      else s
    s.setOther (h.resetBackoff p s)

/-- `pack`: the ACK is partial. -/
def pack (p : Segment) : Bool :=
  s.ctl.fastrecov ∧ p.ackno ≥ s.snd.highestAck ∧ p.ackno < s.snd.recover

/-- `fast_retransmit`. -/
def fastRetransmit (seq : Int) : Option (Int × FullTcpAgent κ) :=
  let s := s.setSnd fun t => { t with recover := t.maxseq }
  let s := s.setCtl fun t => { t with lastCwndAction := .dupack }
  s.foutput cfg h seq .dupack

/-- `FullTcpAgent::pack_action`. -/
def renoPackAction : FullTcpAgent κ :=
  let s := if cfg.renoFastrecov ∧ s.ctl.fastrecov ∧ s.ctl.cong.cwnd > s.ctl.cong.ssthresh then
    s.setCwnd s.ctl.cong.ssthresh else s
  s.setCtl fun t => { t with fastrecov := false, dupacks := 0 }

/-- The queue of SACKed blocks is cut at the ACK, and `h_seqno_` brought up to it. -/
def cutSack : FullTcpAgent κ :=
  s.setSack fun t =>
    let t := if t.sq ≠ [] ∧ t.sackMin < s.snd.highestAck then
      { t with sackMin := s.snd.highestAck, sq := (SegList.clearto t.sq s.snd.highestAck).1 } else t
    if t.hSeqno < s.snd.highestAck then { t with hSeqno := s.snd.highestAck } else t

/-- `pack_action`. -/
def packAction : Option (FullTcpAgent κ) :=
  match cfg.kind with
  | .reno | .tahoe => some (s.renoPackAction cfg)
  | .newreno =>
      (s.fastRetransmit cfg h s.snd.highestAck).map fun o =>
        let s := o.2.setCwnd o.2.ctl.cong.ssthresh
        if s.ctl.saveMaxburst < 0 then
          s.setCtl fun t => { t with saveMaxburst := t.maxburst, maxburst := cfg.recovMaxburst }
        else s
  | .sack | .min | .dd =>
      some (s.cutSack.setCtl fun t => { t with pipe := t.pipe - s.snd.maxseg })

/-- `ack_action`. -/
def ackAction : FullTcpAgent κ :=
  match cfg.kind with
  | .reno | .tahoe => s.renoPackAction cfg
  | .newreno =>
      let s := if s.ctl.saveMaxburst ≥ 0 then
        s.setCtl fun t => { t with maxburst := t.saveMaxburst, saveMaxburst := -1 } else s
      s.renoPackAction cfg
  | .sack | .min | .dd =>
      (s.setCtl fun t => { t with fastrecov := false, pipectrl := false, dupacks := 0 }).cutSack

/-- `EcnProcessor::ecn`. -/
def ecn (seqno : Int) : FullTcpAgent κ :=
  if seqno > s.snd.recover ∨ s.ctl.lastCwndAction = .timeout then
    let s := s.setSnd fun t => { t with recover := t.maxseq }
    let s := s.setCtl fun t => { t with lastCwndAction := .ecn }
    s.setCong (h.ecnSlowdown s)
  else s

/-- `EcnProcessor::on_receive_ack`. -/
def onReceiveAck (p : Segment) (tiflags : TcpFlag) : FullTcpAgent κ :=
  if h.isEcnActive s p ∧ !containsAll tiflags TcpFlag.syn then
    let s := s.ecn h s.snd.highestAck
    if s.ctl.cong.cwnd < 1 then s.setRtxTimer h else s
  else s

/-- `FullTcpAgent::dupack_action`. -/
def renoDupackAction : Option (FullTcpAgent κ) :=
  let recovered := s.snd.highestAck > s.snd.recover
  let s := s.setCtl fun t => { t with fastrecov := true, rtxbytes := 0 }
  let full : Option (FullTcpAgent κ) :=
    let s := s.setCong (h.slowdown [.ssthreshHalf, .cwndHalf] s)
    let s := s.cancelRtxTimer.setCtl fun t => { t with rttActive := false }
    let s := s.setSnd fun t => { t with recover := t.maxseq }
    (s.fastRetransmit cfg h s.snd.highestAck).map fun o =>
      o.2.setCwnd (o.2.ctl.cong.ssthresh + o.2.ctl.dupacks)
  if recovered ∨ (!cfg.bugFix ∧ !h.ecnEnabled s) ∨ s.ctl.lastCwndAction = .dupack ∨
      s.snd.highestAck = 0 then full
  else if h.ecnEnabled s ∧ s.ctl.lastCwndAction = .ecn then
    let s := s.setCong (h.slowdown [.cwndHalf] s)
    let s := s.cancelRtxTimer.setCtl fun t => { t with rttActive := false }
    (s.fastRetransmit cfg h s.snd.highestAck).map fun o => o.2
  else if cfg.bugFix then some s
  else full

/-- `TahoeFullTcpAgent::dupack_action`. -/
def tahoeDupackAction (fuel : Nat) : Option (FullTcpAgent κ) :=
  let recovered := s.snd.highestAck > s.snd.recover
  let s := s.setCtl fun t => { t with fastrecov := true, rtxbytes := 0 }
  let slowStart (how : List Slowdown) (s : FullTcpAgent κ) : FullTcpAgent κ :=
    let s := s.setCtl fun t => { t with lastCwndAction := .dupack }
    let s := (s.setCong (h.slowdown how s)).setRtxTimer h
    let s := s.setCtl fun t => { t with rttActive := false }
    s.setSnd fun t => { t with tSeqno := t.highestAck }
  let full : Option (FullTcpAgent κ) :=
    let s := s.setSnd fun t => { t with recover := t.maxseq }
    (slowStart [.ssthreshHalf, .cwndOne] s).sendMuch cfg h fuel false .normal 0
  if recovered ∨ (!cfg.bugFix ∧ !h.ecnEnabled s) ∨ s.snd.highestAck = 0 then full
  else if h.ecnEnabled s ∧ s.ctl.lastCwndAction = .ecn then some (slowStart [.cwndOne] s)
  else if cfg.bugFix then some s
  else full

/-- `SackFullTcpAgent::dupack_action`. -/
def sackDupackAction (fuel : Nat) : Option (FullTcpAgent κ) :=
  let recovered := s.snd.highestAck > s.snd.recover
  let s := s.setCtl fun t => { t with
    fastrecov := true
    rtxbytes := 0
    pipe := s.snd.maxseq - s.snd.highestAck - SegList.total s.sack.sq }
  let retransmit (s : FullTcpAgent κ) : Option (FullTcpAgent κ) := do
    let o ← s.fastRetransmit cfg h s.snd.highestAck
    let s := o.2.setCtl fun t => { t with pipectrl := true }
    let s := s.setSack fun t => { t with hSeqno := s.snd.highestAck + o.1 }
    s.sendMuch cfg h fuel false .dupack s.ctl.maxburst
  let full : Option (FullTcpAgent κ) :=
    let s := s.setCong (h.slowdown [.ssthreshHalf, .cwndHalf] s)
    let s := s.cancelRtxTimer.setCtl fun t => { t with rttActive := false, pipectrl := true }
    retransmit (s.setSnd fun t => { t with recover := t.maxseq })
  if recovered ∨ (!cfg.bugFix ∧ !h.ecnEnabled s) then full
  else if h.ecnEnabled s ∧ s.ctl.lastCwndAction = .ecn then
    let s := s.setCtl fun t => { t with lastCwndAction := .dupack }
    let s := if h.shouldSlowdownOnDupAck s then
      s.setCong (h.slowdown [.ssthreshHalf, .cwndHalf] s) else s
    retransmit (s.cancelRtxTimer.setCtl fun t => { t with rttActive := false })
  else if cfg.bugFix then some s
  else full

/-- `dupack_action`. -/
def dupackAction (fuel : Nat) : Option (FullTcpAgent κ) :=
  match cfg.kind with
  | .reno | .newreno => s.renoDupackAction cfg h
  | .tahoe => s.tahoeDupackAction cfg h fuel
  | .sack | .min | .dd => s.sackDupackAction cfg h fuel

/-- The loop of `process_sack`; `add` aborts on a block that ends before it starts. -/
def addBlocks (fin : Bool) : List (Int × Int) → SackState → Option SackState
  | [], t => some t
  | (left, right) :: rest, t =>
      if !fin ∧ left ≥ right then addBlocks fin rest t
      else if right < left then none
      else
        let r := SegList.add t.sq t.sackMin left right 0
        addBlocks fin rest { t with sq := r.blocks, sackMin := r.rcvNxt }

/-- `process_sack`. -/
def processSack (p : Segment) : Option (FullTcpAgent κ) :=
  if cfg.kind.isSack then
    let s := s.setCtl fun t => { t with lastSqtotal := SegList.total s.sack.sq }
    if cfg.maxSackBlocks ≤ 0 then some s
    else
      (addBlocks (containsAll p.flags TcpFlag.fin) p.sack s.sack).map fun t =>
        { s with sack := t }.setCtl fun c => { c with curSqtotal := SegList.total t.sq }
  else some s

/-! ### The receiver -/

/-- `EcnProcessor::on_receive_pure_incoming`. -/
def onReceivePureIncoming (fuel : Nat) : Option (FullTcpAgent κ) :=
  if h.hasPending s ∧ s.rcv.rcvNxt - s.ctl.lastAckSent > 0 then do
    let s := s.setCtl fun t => { t with ackNow := true }
    let s := s.setOther (h.flipCe s)
    let s ← s.sendMuch cfg h fuel true .normal s.ctl.maxburst
    some (s.setOther (h.flipCe s))
  else some s

/-- `recvBytes`, and what is left of the flow. -/
def deliver (n datalen : Int) : FullTcpAgent κ :=
  let rem := s.rcv.flowRemaining
  let rem := if rem > 0 then rem - datalen else rem
  let s := s.setRcv fun t => { t with
    delivered := n :: t.delivered
    flowRemaining := if rem = 0 then -1 else rem }
  if rem = 0 then s.setCtl fun t => { t with ackNow := true } else s

/-- `reass`; `start` and `len` are of the segment as trimmed. -/
def reass (start len : Int) (tiflags : TcpFlag) : Option (TcpFlag × FullTcpAgent κ) :=
  let stop := start + len
  if (start = stop ∧ !containsAll tiflags TcpFlag.fin) ∨ stop < start then none
  else
    let fillshole : Bool := start = s.rcv.rcvNxt
    let a := SegList.add s.rcv.rq s.rcv.rcvNxt start stop tiflags
    let s := s.setRcv fun t => { t with rq := a.blocks, rcvNxt := a.rcvNxt }
    if !s.state.haveReceivedSyn ∨ !fillshole then some (0, s)
    else if s.state = .synReceived ∧ stop > start then some (0, s)
    else
      let c := SegList.clearto s.rcv.rq s.rcv.rcvNxt
      some (a.flags ||| c.2, s.setRcv fun t => { t with rq := c.1 })

/-! ### Closing, dropping -/

/-- `usrclosed`. -/
def usrclosed (fuel : Nat) : Option (FullTcpAgent κ) :=
  let s := s.setSnd fun t => { t with curseq := t.maxseq - 1 }
  let s := s.setApp fun t => { t with infiniteSend := false }
  let closing (s : FullTcpAgent κ) : Option (FullTcpAgent κ) :=
    (s.setCtl fun t => { t with needFin := true }).sendMuch cfg h fuel true .normal s.ctl.maxburst
  match s.state with
  | .closed | .listen => some (s.cancelTimers.newstate .closed).done
  | .synSent => closing (s.newstate .closed)
  | .lastAck => closing s
  | .synReceived | .established => closing (s.newstate .finWait1)
  | .closeWait => closing (s.newstate .lastAck)
  | .finWait1 | .finWait2 | .closing => some s

/-- The label `dropafterack:`. -/
def dropafterack (fuel : Nat) : Option (FullTcpAgent κ) :=
  (s.setCtl fun t => { t with ackNow := true }).sendMuch cfg h fuel true .normal s.ctl.maxburst

/-- The locals of `recv`: the header fields it moves, and what it has found out. -/
structure Rx where
  seqno : Int
  len : Int
  datalen : Int
  tiflags : TcpFlag
  dupseg : Bool
  needoutput : Bool

/-- The locals at the start of `recv`. -/
def Rx.ofSegment (p : Segment) : Rx := ⟨p.seqno, p.len, p.len, p.flags, false, false⟩

/-- The label `dropwithreset:`. -/
def dropwithreset (p : Segment) (x : Rx) : Option (FullTcpAgent κ) :=
  if containsAll x.tiflags TcpFlag.ack then s.sendpacket cfg h p.ackno 0 0 0 .normal
  else
    let ack := x.seqno + x.datalen
    let ack := if containsAll x.tiflags TcpFlag.syn then ack - 1 else ack
    s.sendpacket cfg h 0 ack TcpFlag.ack 0 .normal

/-! ### `step6:` -/

/-- The end of `recv`: output, and the close of a connection that the peer has closed. -/
def finish (fuel : Nat) (needoutput : Bool) : Option (FullTcpAgent κ) := do
  let s ← if needoutput || s.ctl.ackNow then s.sendMuch cfg h fuel true .normal s.ctl.maxburst
    else if s.snd.curseq ≥ s.snd.highestAck || s.app.infiniteSend then
      s.sendMuch cfg h fuel false .normal s.ctl.maxburst
    else some s
  let s ← if !cfg.halfclose && s.state = .closeWait && s.snd.highestAck = s.snd.maxseq then
      s.usrclosed cfg h fuel
    else some s
  some (if s.state = .closed then s.done else s)

/-- A FIN has been received. -/
def onFin : Option (FullTcpAgent κ) :=
  let s := if !s.state.haveReceivedFin then
      (s.setCtl fun t => { t with ackNow := true }).setRcv fun t => { t with rcvNxt := t.rcvNxt + 1 }
    else s
  match s.state with
  | .synReceived | .established => some (s.newstate .closeWait)
  | .finWait1 => some (s.newstate .closing)
  | .finWait2 => some ((s.newstate .closed).cancelTimers)
  | .closed | .listen | .synSent | .closeWait | .closing | .lastAck => none

/-- The label `step6:` for a segment in order, with nothing to reassemble: the flags and
`needoutput` after it. -/
def inOrder (fuel : Nat) (p : Segment) (x : Rx) : Option (TcpFlag × Bool × FullTcpAgent κ) := do
  let s ← s.onReceivePureIncoming cfg h fuel
  let s := s.setCtl fun t => { t with delAck := true, delackPending := true }
  let s := s.setRcv fun t => { t with rcvNxt := t.rcvNxt + x.datalen }
  let s := if x.datalen ≠ 0 then s.deliver x.datalen x.datalen else s
  some (p.flags &&& TcpFlag.fin, s.needSend cfg, s)

/-- The label `step6:` for a segment out of order, or one that fills a hole. -/
def outOfOrder (p : Segment) (x : Rx) : Option (TcpFlag × Bool × FullTcpAgent κ) := do
  let old := s.rcv.rcvNxt
  let r ← s.reass x.seqno x.len p.flags
  let s := if r.2.rcv.rcvNxt > old then r.2.deliver (r.2.rcv.rcvNxt - old) x.datalen else r.2
  let s := s.setCtl fun t => { t with ackNow := true }
  some (r.1, if containsAll r.1 TcpFlag.push then s.needSend cfg else x.needoutput, s)

/-- The label `step6:`. -/
def step6 (fuel : Nat) (p : Segment) (x : Rx) : Option (FullTcpAgent κ) := do
  let r ← if (x.datalen > 0 ∨ containsAll x.tiflags TcpFlag.fin) ∧ !s.state.haveReceivedFin then
      if x.seqno = s.rcv.rcvNxt ∧ s.rcv.rq = [] then s.inOrder cfg h fuel p x
      else s.outOfOrder cfg p x
    else some (x.tiflags &&& ~~~TcpFlag.fin, x.needoutput, s)
  let s ← if containsAll r.1 TcpFlag.fin then r.2.2.onFin else some r.2.2
  s.finish cfg h fuel r.2.1

/-! ### `process_ACK:` -/

/-- The states of closing at an ACK; `none` in the inner result is the return from LAST_ACK. -/
def closingStates (p : Segment) (x : Rx) : FullTcpAgent κ × Option Rx :=
  let ourfinisacked : Bool :=
    s.state.toNat ≥ TcpState.finWait1.toNat ∧ p.ackno = s.snd.maxseq
  if !ourfinisacked then (s, some x)
  else
    match s.state with
    | .finWait1 => ((s.newstate .finWait2).cancelTimers, some { x with needoutput := false })
    | .closing => ((s.newstate .closed).cancelTimers, some x)
    | .lastAck => ((s.newstate .closed).done.reset cfg h, none)
    | .closed | .listen | .synSent | .synReceived | .established | .closeWait | .finWait2 =>
        (s, some x)

/-- The growth of the window at an ACK. -/
def growWindow (p : Segment) (partialAck : Bool) : FullTcpAgent κ :=
  let s := if (!cfg.delayGrowth ∨ s.rcv.rcvNxt > 0) ∧ s.ctl.lastState = .established ∧
      (!partialAck ∨ cfg.openCwndOnPack) ∧ h.canOpenCwnd s p then s.setCong (h.opencwnd s) else s
  s.setOther (h.onReceiveNewack s p)

/-- The label `process_ACK:`. -/
def processAck (fuel : Nat) (p : Segment) (x : Rx) : Option (FullTcpAgent κ) :=
  if p.ackno > s.snd.maxseq then s.dropafterack cfg h fuel
  else do
    let s := s.newack cfg h p
    let partialAck := s.pack p
    let s ← if partialAck then s.packAction cfg h else some (s.ackAction cfg)
    let s := s.onReceiveAck h p x.tiflags
    let x := if p.ackno = s.snd.maxseq then { x with needoutput := true } else x
    if p.ackno = s.snd.highestAck + 1 then s.step6 cfg h fuel p x
    else
      let r := (s.growWindow cfg h p partialAck).closingStates cfg h p x
      match r.2 with
      | some x => r.1.step6 cfg h fuel p x
      | none => some r.1

/-- The counting of duplicate ACKs. -/
def dupack (fuel : Nat) (p : Segment) (x : Rx) : Option (FullTcpAgent κ) :=
  let s := if cfg.dynamicDupack > 0 then
      s.setCtl fun t => { t with
        tcprexmtthresh := max 3 (trunc (cfg.dynamicDupack * s.window cfg)) }
    else s
  if !s.ctl.rtxPending ∨ p.ackno < s.snd.highestAck then
    -- `oldack`
    (s.setCtl fun t => { t with dupacks := 0 }).step6 cfg h fuel p x
  else
    let s := s.setCtl fun t => { t with dupacks := t.dupacks + 1 }
    if s.ctl.dupacks = s.ctl.tcprexmtthresh then s.dupackAction cfg h fuel
    else if s.ctl.dupacks > s.ctl.tcprexmtthresh then
      -- `extra_ack`
      let s := if cfg.renoFastrecov then s.setCwnd (s.ctl.cong.cwnd + 1) else s
      s.sendMuch cfg h fuel false .dupack s.ctl.maxburst
    else s.step6 cfg h fuel p x

/-- ACK processing in ESTABLISHED and later states. -/
def established (fuel : Nat) (p : Segment) (x : Rx) : Option (FullTcpAgent κ) := do
  let s := s.setOther (h.onNewPacket s p (x.datalen > 0))
  let s ← if s.state.toNat ≥ TcpState.established.toNat ∧ p.sack ≠ [] then s.processSack cfg p
    else some s
  let s := if s.ctl.fastrecov ∧ (x.datalen = 0 ∨ p.ackno > s.snd.highestAck) then
    s.setCtl fun t => { t with pipe := t.pipe - s.snd.maxseg } else s
  if p.ackno ≤ s.snd.highestAck then
    if x.datalen = 0 ∧ (!cfg.dupsegFix ∨ !x.dupseg) then s.dupack cfg h fuel p x
    else
      let s := if cfg.dupackReset then
        s.setCtl fun t => { t with dupacks := 0, fastrecov := false } else s
      s.step6 cfg h fuel p x
  else s.processAck cfg h fuel p x

/-- ACK processing. -/
def ackSwitch (fuel : Nat) (p : Segment) (x : Rx) : Option (FullTcpAgent κ) :=
  match s.state with
  | .synReceived =>
      if p.ackno < s.snd.highestAck ∨ p.ackno > s.snd.maxseq then s.dropwithreset cfg h p x
      else
        let e := h.onReceiveSynAckAck s p
        let s := s.setOther e.2
        let enter (s : FullTcpAgent κ) : Option (FullTcpAgent κ) :=
          let s := if s.ctl.needFin then
              (s.newstate .finWait1).setCtl fun t => { t with needFin := false }
            else s.newstate .established
          s.established cfg h fuel p x
        match e.1 with
        | .congestionDrop =>
            -- `retry_syn_ack`
            (s.cancelRtxTimer.foutput cfg h cfg.iss .normal).map fun o =>
              o.2.setOther (h.retrySynAck o.2)
        | .congestion w => enter (s.setCwnd w)
        | .noCongestion => enter (s.setCwnd (h.initialWindow s))
  | .established | .finWait1 | .finWait2 | .closeWait | .closing | .lastAck =>
      s.established cfg h fuel p x
  | .closed | .listen | .synSent => none

/-! ### Before ACK processing -/

/-- The time stamp of a segment that holds the last ACK sent is recorded. -/
def recordTs (p : Segment) (seqno : Int) : FullTcpAgent κ :=
  if cfg.tsOption ∧ !p.noTs ∧ seqno ≤ s.ctl.lastAckSent then
    s.setCtl fun t => { t with recentAge := t.now, recent := p.ts }
  else s

/-- The trimming of what has been received before. -/
def trim (x : Rx) : FullTcpAgent κ × Rx :=
  let todrop := s.rcv.rcvNxt - x.seqno
  if todrop > 0 ∧ (containsAll x.tiflags TcpFlag.syn ∨ x.datalen > 0) then
    let syn := containsAll x.tiflags TcpFlag.syn
    let x := if syn then
      { x with tiflags := x.tiflags &&& ~~~TcpFlag.syn, seqno := x.seqno + 1, len := x.len - 1 }
      else x
    let todrop := if syn then todrop - 1 else todrop
    if todrop > x.datalen ∨ (todrop = x.datalen ∧ !containsAll x.tiflags TcpFlag.fin) then
      (s.setCtl fun t => { t with ackNow := true },
        { x with
          tiflags := x.tiflags &&& ~~~TcpFlag.fin
          dupseg := true
          seqno := x.seqno + x.datalen
          len := x.len - x.datalen
          datalen := 0 })
    else
      (s, { x with
        seqno := x.seqno + todrop
        len := x.len - todrop
        datalen := x.datalen - todrop })
  else (s, x)

/-- The segment is older than the last one, by its time stamp. -/
def badTs (p : Segment) : Bool :=
  cfg.tsOption ∧ !p.noTs ∧ s.ctl.recent ≠ 0 ∧ p.ts < s.ctl.recent

/-- `recv` in the states that are not LISTEN or SYN_SENT, before ACK processing. -/
def checked (fuel : Nat) (p : Segment) (x : Rx) : Option (FullTcpAgent κ) :=
  if s.badTs cfg p ∧ ¬ s.ctl.now - s.ctl.recentAge > 24 * 24 * 60 * 60 then
    s.dropafterack cfg h fuel
  else
    let s := if s.badTs cfg p then s.setCtl fun t => { t with recent := 0 } else s
    let r := s.trim x
    let s := r.1.recordTs cfg p r.2.seqno
    let x := r.2
    if containsAll x.tiflags TcpFlag.syn then s.dropwithreset cfg h p x
    else if !containsAll x.tiflags TcpFlag.ack then some s
    else s.ackSwitch cfg h fuel p x

/-- `dooptions`. -/
def dooptions (p : Segment) : FullTcpAgent κ :=
  if cfg.tsOption ∧ !p.noTs ∧ 0 ≤ p.ts ∧ containsAll p.flags TcpFlag.syn then
    s.setCtl fun t => { t with recent := p.ts, recentAge := t.now }
  else s

/-- `recv` in LISTEN. -/
def recvListen (fuel : Nat) (p : Segment) (x : Rx) : Option (FullTcpAgent κ) :=
  if containsAll x.tiflags TcpFlag.ack then s.dropwithreset cfg h p x
  else if !containsAll x.tiflags TcpFlag.syn then some s
  else
    let s := s.dooptions cfg p
    let s := s.setRcv fun t => { t with irs := p.seqno, rcvNxt := p.seqno + x.datalen + 1 }
    let s := s.setSnd fun t => { t with tSeqno := cfg.iss }
    let s := s.setCtl fun t => { t with ackNow := true }
    let s := s.setOther (h.onReceiveSyn s p)
    let s := s.setCtl fun t => { t with fid := if t.fid = 0 then p.fid else t.fid }
    (s.newstate .synReceived).step6 cfg h fuel p { x with seqno := x.seqno + 1 }

/-- `recv` of a SYN+ACK in SYN_SENT. -/
def recvSynAck (fuel : Nat) (p : Segment) (x : Rx) : Option (FullTcpAgent κ) := do
  let s := s.setOther (h.onReceiveSynAck s p)
  let s := s.setSnd fun t => { t with highestAck := p.ackno }
  let s := s.setCwnd (h.initialWindow s)
  let s := s.setCtl fun t => { t with
    delAck := t.delAck || x.datalen > 0
    delackPending := t.delackPending || x.datalen > 0
    ackNow := t.ackNow || !(x.datalen > 0) }
  let x := if s.ctl.needFin then { x with tiflags := x.tiflags &&& ~~~TcpFlag.syn } else x
  let s := if s.ctl.needFin then
      (s.newstate .finWait1).setCtl fun t => { t with needFin := false }
    else s.newstate .established
  -- a pure ACK: the handshake ends before the application writes
  let s ← s.sendpacket cfg h s.snd.tSeqno s.rcv.rcvNxt TcpFlag.ack 0 .normal
  s.processAck cfg h fuel p { x with seqno := x.seqno + 1 }

/-- `recv` in SYN_SENT. -/
def recvSynSent (fuel : Nat) (p : Segment) (x : Rx) : Option (FullTcpAgent κ) :=
  let ack := containsAll x.tiflags TcpFlag.ack
  if ack ∧ (p.ackno ≤ cfg.iss ∨ p.ackno > s.snd.maxseq) then s.dropwithreset cfg h p x
  else if !containsAll x.tiflags TcpFlag.syn then some s
  else if ack ∧ h.synAckDropped s p then
    -- `on_receive_syn_ack_pre`
    (s.setRtxTimer h).sendpacket cfg h s.snd.tSeqno s.rcv.rcvNxt (TcpFlag.ack ||| TcpFlag.ece) 0
      .normal
  else
    let s := s.setRcv fun t => { t with irs := p.seqno, rcvNxt := p.seqno + x.datalen + 1 }
    if ack then s.recvSynAck cfg h fuel p x
    else
      -- simultaneous open
      let s := s.setOther (h.onReceiveSyn s p)
      let s := s.cancelRtxTimer.setCtl fun t => { t with ackNow := true }
      let s := s.newstate .synReceived
      let s := s.setSnd fun t => { t with tSeqno := t.tSeqno - 1 }
      s.step6 cfg h fuel p { x with seqno := x.seqno + 1 }

/-- `recv` without header prediction. -/
def slow (fuel : Nat) (p : Segment) : Option (FullTcpAgent κ) :=
  let x := Rx.ofSegment p
  match s.state with
  | .listen => s.recvListen cfg h fuel p x
  | .synSent => s.recvSynSent cfg h fuel p x
  | .lastAck => if containsAll x.tiflags TcpFlag.fin then some s else s.checked cfg h fuel p x
  | .closed | .synReceived | .established | .closeWait | .finWait1 | .closing | .finWait2 =>
      s.checked cfg h fuel p x

/-! ### Header prediction, `recv` -/

/-- `predict_ok`. -/
def predictOk (p : Segment) : Bool :=
  s.state = .established ∧
    (containsAll p.flags TcpFlag.ack ∧ !containsAny p.flags (TcpFlag.syn ||| TcpFlag.fin)) ∧
    !s.ctl.needFin ∧ (!cfg.tsOption ∨ p.noTs ∨ p.ts ≥ s.ctl.recent) ∧ p.seqno = s.rcv.rcvNxt ∧
    s.snd.tSeqno = s.snd.maxseq ∧ h.ecnPredictOk s p ∧ p.sack = []

/-- The fast path takes a pure ACK. -/
def takesAck (p : Segment) : Bool :=
  p.len = 0 ∧ p.ackno > s.snd.highestAck ∧ p.ackno < s.snd.maxseq ∧ s.ctl.cong.cwnd ≥ cfg.wnd ∧
    !s.ctl.fastrecov

/-- The fast path for a data segment. -/
def predictedData (fuel : Nat) (p : Segment) : Option (FullTcpAgent κ) := do
  let s ← s.onReceivePureIncoming cfg h fuel
  let s := s.setRcv fun t => { t with rcvNxt := t.rcvNxt + p.len }
  let s := s.setCtl fun t => { t with delAck := true, delackPending := true }
  let s := s.deliver p.len p.len
  if s.needSend cfg then s.sendMuch cfg h fuel true .normal s.ctl.maxburst else some s

/-- Header prediction. -/
def predicted (fuel : Nat) (p : Segment) : Option (FullTcpAgent κ) :=
  let s := s.recordTs cfg p p.seqno
  let s := s.setOther (h.onNewPacket s p (p.len > 0))
  if s.takesAck cfg p then
    (s.newack cfg h p).sendMuch cfg h fuel false .normal s.ctl.maxburst
  else if p.len ≠ 0 ∧ p.ackno = s.snd.highestAck ∧ s.rcv.rq = [] then s.predictedData cfg h fuel p
  else s.slow cfg h fuel p

/-- What `recv` does before header prediction. -/
def opened (p : Segment) : FullTcpAgent κ :=
  let s := if s.state ≠ .listen then s.dooptions cfg p else s
  s.setOther (h.onReceive s p)

/-- `recv`. -/
def recv (fuel : Nat) (p : Segment) : Option (FullTcpAgent κ) :=
  let s := s.setCtl fun t => { t with probMode := false, probCount := 0, lastState := s.state }
  if s.state = .closed ∧ containsAll p.flags TcpFlag.fin then s.dropafterack cfg h fuel
  else if s.state = .closed ∨ s.ctl.fid ≠ p.fid then some s
  else
    let s := s.opened cfg h p
    if !cfg.nopredict ∧ s.predictOk cfg h p then s.predicted cfg h fuel p else s.slow cfg h fuel p

end FullTcpAgent

end Afabric
