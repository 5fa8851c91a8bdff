import Afabric.Tcp.Agent
import Afabric.Tcp.ScoreBoardRq

/-!
# Tcp — the one-way senders

`TcpAgent` (`tcp/tcp.cc`) and its subclasses `RenoTcpAgent`, `NewRenoTcpAgent` and `Sack1TcpAgent`
send numbered packets.  This is what they do with a duplicate ACK, from `recv` on, in the default
build: without `WITH_QS`.  The other ACKs are left out, and so are the timers, the estimation of
the round-trip time and the counters, which nothing here reads; `Sack1TcpAgent` is modelled outside
its fast recovery.

How `slowdown` computes the window and the threshold, and the state of the ECN and quiescence
options, are the fields of `SenderHooks`, as in `Agent.lean`: arbitrary functions that see the
whole sender, so that what is proved holds for each of them.  A loop takes the number of its rounds as
fuel.
-/

namespace Afabric

/-- The class of a sender. -/
inductive SenderKind where
  | tahoe
  | reno
  | newReno
  | sack1
deriving DecidableEq, Repr

/-- `TcpSlowdownFlags`, as far as they are used here. -/
inductive CutFlag where
  | cwndHalf
  | cwndOne
  | ssthreshHalf
  | cwndEcnhat
  | ssthreshEcnhat
  | ssthreshThreeQuater
  | cwndHalfWithMin
  | cwndHalfWay
  | tcpIdle
deriving DecidableEq, Repr

/-- The calls of `slowdown` in `process_qoption_after_send` and `rtt_counting`. -/
inductive IdleCut where
  | threshold
  | halfWithMin
  | halfWay
deriving DecidableEq, Repr

def IdleCut.flags : IdleCut → List CutFlag
  | .threshold => [.ssthreshThreeQuater, .tcpIdle]
  | .halfWithMin => [.cwndHalfWithMin, .tcpIdle]
  | .halfWay => [.cwndHalfWay, .tcpIdle]

/-- The variables bound from Tcl. -/
structure SenderConfig where
  kind : SenderKind
  bugFix : Bool
  bugfixSs : Bool
  bugfixTs : Bool
  bugfixAck : Bool
  lessCareful : Bool
  ecn : Bool
  ecnhat : Bool
  eln : Bool
  elnRxmitThresh : ℤ
  noFastRetrans : Bool
  singledup : Bool
  numdupacks : ℤ
  numdupacksFrac : ℤ
  exitFastRetrans : Bool
  newrenoChanges : ℤ
  limTransmitFix : Bool
  oldCode : Bool
  sfrtoEnabled : Bool
  spuriousResponse : ℤ
  overhead : ℚ
  maxburst : ℤ
  wnd : ℚ
  syn : Bool
  maxConnects : ℤ
  qOption : Bool
  enblRttCtr : Bool

/-- An ACK, with what is read of it.  Its number is `last_ack_`. -/
structure DupAck where
  ecnecho : Bool
  eln : Bool
  sack : List (ℤ × ℤ)
deriving DecidableEq, Repr

/-- A sender.  `tsMatch` is the test `tss[highest_ack_ % tss_size_] == ts_echo_`; `cuts` are the
calls of `slowdown` and `sent` the packets sent since the ACK that is processed came in. -/
structure Sender (κ : Type) where
  lastAck : ℤ
  highestAck : ℤ
  prevHighestAck : ℤ
  tSeqno : ℤ
  maxseq : ℤ
  curseq : ℤ
  recover : ℤ
  dupacks : ℤ
  dupwnd : ℤ
  lastCwndAction : CwndAction
  cwnd : ℚ
  ssthresh : ℤ
  frto : ℤ
  pipePrev : ℤ
  timeout : Bool
  fastrecov : Bool
  pipe : ℤ
  scb : ScoreBoardRQ
  elnLastRxmit : ℤ
  synConnects : ℤ
  delsndPending : Bool
  burstsndPending : Bool
  tsMatch : Bool
  other : κ
  cuts : List (List CutFlag)
  sent : List ℤ

/-- What is left open. -/
structure SenderHooks (κ : Type) where
  /-- `cwnd_` and `ssthresh_` after a `slowdown`. -/
  slowdown : Sender κ → List CutFlag → ℚ × ℤ × κ
  /-- `rtt_backoff` and `ecn_backoff_`, in `ecn`. -/
  ecnBackoff : Sender κ → κ
  /-- The send tracker of a `NewRenoTcpAgent` receives an ACK. -/
  onReceive : Sender κ → DupAck → κ
  /-- The estimation of `ssthresh_` from the first ACKs of a `NewRenoTcpAgent`. -/
  newSsthresh : Sender κ → ℤ × κ
  /-- `process_qoption_after_send`. -/
  afterSend : Sender κ → List IdleCut × κ
  /-- `process_qoption_after_ack`. -/
  afterAck : Sender κ → κ

namespace Sender

variable {κ : Type} (cfg : SenderConfig) (h : SenderHooks κ) (s : Sender κ)

/-- `slowdown`. -/
def slowdown (how : List CutFlag) : Sender κ :=
  { s with
    cwnd := (h.slowdown s how).1
    ssthresh := (h.slowdown s how).2.1
    other := (h.slowdown s how).2.2
    cuts := s.cuts ++ [how] }

/-- `force_wnd`. -/
def forceWnd (num : ℤ) : ℤ := s.recover + num - s.highestAck

/-- `window` of a `TcpAgent`, and of a `RenoTcpAgent`. -/
def window : ℤ :=
  match cfg.kind with
  | .tahoe | .sack1 =>
      if s.frto = 2 then
        if (s.forceWnd 2 : ℚ) < cfg.wnd then s.forceWnd 2 else FullTcpAgent.trunc cfg.wnd
      else if s.cwnd < cfg.wnd then FullTcpAgent.trunc s.cwnd else FullTcpAgent.trunc cfg.wnd
  | .reno | .newReno =>
      let win := if s.frto = 2 then s.forceWnd 2 else FullTcpAgent.trunc s.cwnd + s.dupwnd
      if FullTcpAgent.trunc cfg.wnd < win then FullTcpAgent.trunc cfg.wnd else win

/-- `numdupacks`. -/
def numdupacks : ℤ :=
  let cwndfraction := (FullTcpAgent.trunc s.cwnd).tdiv cfg.numdupacksFrac
  if cfg.numdupacks > cwndfraction then cfg.numdupacks else cwndfraction

/-- `output`.  A SYN beyond `max_connects_` aborts the connection, and is not sent. -/
def output (seqno : ℤ) : Sender κ :=
  let s := if seqno = 0 ∧ cfg.syn then
    { s with curseq := s.curseq + 1, synConnects := s.synConnects + 1 } else s
  if seqno = 0 ∧ cfg.syn ∧ 0 < cfg.maxConnects ∧ cfg.maxConnects < s.synConnects then
    { s with curseq := 0 }
  else { s with sent := s.sent ++ [seqno], maxseq := max s.maxseq seqno }

/-- `process_qoption_after_send`, if `QOption_` is set. -/
def afterSend : Sender κ :=
  if cfg.qOption then
    (h.afterSend s).1.foldl (fun s c => s.slowdown h c.flags)
      { s with other := (h.afterSend s).2 }
  else s

/-- `reset_rtx_timer`. -/
def resetRtxTimer (mild : Bool) : Sender κ :=
  if mild then s else { s with tSeqno := s.highestAck + 1 }

/-- The packet `t_seqno_`, in `send_much` and in `send_one`. -/
def sendNext : Sender κ :=
  let s := (s.output cfg s.tSeqno).afterSend cfg h
  { s with tSeqno := s.tSeqno + 1 }

/-- The loop of `TcpAgent::send_much`. -/
def sendLoop (maxburst : ℤ) : ℕ → ℤ → Sender κ → Sender κ
  | 0, _, s => s
  | fuel + 1, npackets, s =>
      if s.tSeqno ≤ s.highestAck + s.window cfg ∧ s.tSeqno < s.curseq then
        if cfg.overhead = 0 then
          if maxburst ≠ 0 ∧ npackets + 1 = maxburst then s.sendNext cfg h
          else sendLoop maxburst fuel (npackets + 1) (s.sendNext cfg h)
        else { s with delsndPending := true }
      else s

/-- What a round of `Sack1TcpAgent::send_much` finds to send, `xmit` being the `GetNextRetran` of
the scoreboard: a packet, with `win` after it. -/
def findPacket (xmit win : ℤ) : Option (Sender κ × ℤ × ℤ) :=
  let wnd := FullTcpAgent.trunc cfg.wnd
  if xmit = -1 then
    if (!s.fastrecov ∧ s.tSeqno ≤ s.highestAck + win ∨
        s.fastrecov ∧ s.tSeqno ≤ s.highestAck + wnd) ∧ s.tSeqno < s.curseq then
      some ({ s with tSeqno := s.tSeqno + 1 }, s.tSeqno, win)
    else none
  else if 0 < s.recover ∧ xmit ≤ s.highestAck + wnd then
    some ({ s with scb := s.scb.markRetran xmit }, xmit, s.window cfg)
  else none

/-- The packet `seqno`, in `Sack1TcpAgent::send_much`. -/
def sendFound (seqno : ℤ) : Sender κ :=
  let s := s.output cfg seqno
  { s with tSeqno := max s.tSeqno (seqno + 1), pipe := s.pipe + 1 }.afterSend cfg h

/-- The loop of `Sack1TcpAgent::send_much`. -/
def sackLoop (maxburst : ℤ) : ℕ → ℤ → ℤ → Sender κ → Sender κ
  | 0, _, _, s => s
  | fuel + 1, npackets, win, s =>
      if (!s.fastrecov ∧ s.tSeqno ≤ s.lastAck + win ∨
          s.fastrecov ∧ s.pipe < FullTcpAgent.trunc s.cwnd) ∧ s.lastAck + 1 < s.curseq then
        if cfg.overhead = 0 then
          let t := { s with scb := s.scb.getNextRetran.1 }
          match t.findPacket cfg s.scb.getNextRetran.2 win with
          | none => t
          | some (u, seqno, win) =>
              if maxburst ≠ 0 ∧ npackets + 1 = maxburst then u.sendFound cfg h seqno
              else sackLoop maxburst fuel (npackets + 1) win (u.sendFound cfg h seqno)
        else { s with delsndPending := true }
      else s

/-- `send_much`, without `force`. -/
def sendMuch (fuel : ℕ) (maxburst : ℤ) : Sender κ :=
  if s.delsndPending then s
  else match cfg.kind with
    | .sack1 => s.sackLoop cfg h maxburst fuel 0 (s.window cfg)
    | .tahoe | .reno | .newReno =>
        if s.burstsndPending then s else s.sendLoop cfg h maxburst fuel 0

/-- `send_one`. -/
def sendOne : Sender κ :=
  if (s.tSeqno : ℚ) ≤ s.highestAck + cfg.wnd ∧ s.tSeqno < s.curseq ∧
      (s.tSeqno : ℚ) ≤ s.highestAck + s.cwnd + s.dupacks then
    s.sendNext cfg h
  else s

/-- `tcp_eln`. -/
def tcpEln (fuel : ℕ) : Sender κ :=
  let s := { s with dupacks := s.dupacks + 1 }
  if s.dupacks = cfg.elnRxmitThresh ∧ s.elnLastRxmit < s.lastAck then
    { s.output cfg (s.lastAck + 1) with elnLastRxmit := s.lastAck + 1 }
  else s.sendMuch cfg h fuel cfg.maxburst

/-- `ecn_slowdown` of the send tracker. -/
def ecnSlowdown : Sender κ :=
  s.slowdown h (if cfg.ecnhat then [.cwndEcnhat, .ssthreshEcnhat] else [.cwndHalf, .ssthreshHalf])

/-- `ecn`, of the ACK. -/
def ecn : Sender κ :=
  if s.recover < s.lastAck ∨ s.lastCwndAction = .timeout then
    let s := { s with recover := s.maxseq, lastCwndAction := .ecn }
    { s with other := h.ecnBackoff s }.ecnSlowdown cfg h
  else s

/-- `on_receive` of the `EcnProcessor`. -/
def onReceive (p : DupAck) : Sender κ :=
  let s := if cfg.kind = .newReno then { s with other := h.onReceive s p } else s
  if cfg.ecn ∧ p.ecnecho then s.ecn cfg h else s

/-- `recv_frto_helper`. -/
def recvFrtoHelper : Sender κ :=
  if s.frto ≠ 0 then
    { s with tSeqno := s.highestAck + 1, cwnd := s.frto, frto := 0, dupacks := -1 }
  else s

/-- `spurious_timeout`. -/
def spuriousTimeout : Sender κ :=
  { s with
    frto := 0
    cwnd :=
      if cfg.spuriousResponse = 2 then s.ssthresh
      else if cfg.spuriousResponse = 3 then 1
      else s.tSeqno - s.prevHighestAck
    ssthresh := s.pipePrev
    recover := s.highestAck - 1 }

/-! ### The duplicate ACK action -/

/-- The outcomes of the truth tables: the action of the class, the response to a duplicate ACK
after an ECN echo, or nothing. -/
inductive DupackCase where
  | recover
  | ecn
  | nothing
deriving DecidableEq, Repr

/-- The conditions all four classes test, the first two of `dupack_action`. -/
def goesToAction (allowFastRetransmit : Bool) : Bool :=
  s.highestAck > s.recover || (!cfg.bugFix && !cfg.ecn) || allowFastRetransmit ||
    (cfg.bugfixSs && s.highestAck = 0)

def afterEcn : Bool := cfg.ecn && s.lastCwndAction = .ecn

/-- The truth table of `TcpAgent` and of `Sack1TcpAgent`. -/
def tahoeCase : DupackCase :=
  if s.goesToAction cfg false then .recover
  else if s.afterEcn cfg then .ecn
  else if cfg.bugFix then .nothing else .recover

/-- The truth table of `RenoTcpAgent`. -/
def renoCase : DupackCase :=
  if s.goesToAction cfg (s.lastCwndAction = .dupack) then .recover
  else if s.afterEcn cfg then .ecn
  else if cfg.bugFix then .nothing else .recover

/-- The truth table of `NewRenoTcpAgent`. -/
def newRenoCase : DupackCase :=
  if s.goesToAction cfg false then .recover
  else if cfg.bugFix ∧ cfg.lessCareful ∧ s.highestAck = s.recover then .recover
  else if s.afterEcn cfg then .ecn
  else if cfg.bugFix then
    if cfg.bugfixTs ∧ s.tsMatch then .recover
    else if cfg.bugfixAck ∧ 1 < s.cwnd ∧ s.highestAck - s.prevHighestAck ≤ cfg.numdupacks then
      .recover
    else .nothing
  else .recover

def dupackCase : DupackCase :=
  match cfg.kind with
  | .tahoe | .sack1 => s.tahoeCase cfg
  | .reno => s.renoCase cfg
  | .newReno => s.newRenoCase cfg

/-- `TcpAgent::dupack_action`. -/
def tahoeDupackAction : Sender κ :=
  match s.tahoeCase cfg with
  | .ecn => ({ s with lastCwndAction := .dupack }.slowdown h [.cwndOne]).resetRtxTimer false
  | .nothing => s
  | .recover => { s with recover := s.maxseq }.resetRtxTimer false

/-- `RenoTcpAgent::dupack_action`. -/
def renoDupackAction : Sender κ :=
  match s.renoCase cfg with
  | .ecn =>
      let s := { s with lastCwndAction := .dupack }.resetRtxTimer true
      { s.output cfg (s.lastAck + 1) with dupwnd := cfg.numdupacks }
  | .nothing => s
  | .recover =>
      let s := { s with recover := s.maxseq, lastCwndAction := .dupack }
      let s := (s.slowdown h [.ssthreshHalf, .cwndHalf]).resetRtxTimer true
      { s.output cfg (s.lastAck + 1) with dupwnd := cfg.numdupacks }

/-- `NewRenoTcpAgent::dupack_action`. -/
def newRenoDupackAction : Sender κ :=
  match s.newRenoCase cfg with
  | .ecn =>
      let s := { s with lastCwndAction := .dupack }.resetRtxTimer true
      let s := if cfg.ecnhat then s.slowdown h [.ssthreshHalf, .cwndHalf] else s
      { s.output cfg (s.lastAck + 1) with dupwnd := cfg.numdupacks }
  | .nothing => s
  | .recover => { s with recover := s.maxseq }.resetRtxTimer true

/-- `pipe_` at the start of the fast recovery of a `Sack1TcpAgent`. -/
def sackPipe : ℤ :=
  if cfg.singledup ∧ cfg.limTransmitFix then s.maxseq - s.highestAck - 1
  else s.maxseq - s.highestAck - s.numdupacks cfg

/-- `Sack1TcpAgent::dupack_action`. -/
def sackDupackAction : Sender κ :=
  match s.tahoeCase cfg with
  | .ecn =>
      let s := { s with lastCwndAction := .dupack }.resetRtxTimer true
      let s := { s with
        pipe := s.sackPipe cfg, fastrecov := true, scb := s.scb.markRetran (s.highestAck + 1) }
      s.output cfg (s.lastAck + 1)
  | .nothing => s
  | .recover =>
      let s := { s with recover := s.maxseq }
      let s := { s with pipe :=
        if cfg.oldCode then FullTcpAgent.trunc s.cwnd - s.numdupacks cfg else s.sackPipe cfg }
      { s.resetRtxTimer true with
        fastrecov := true, scb := s.scb.markRetran (s.highestAck + 1) }

def dupackAction : Sender κ :=
  match cfg.kind with
  | .tahoe => s.tahoeDupackAction cfg h
  | .reno => s.renoDupackAction cfg h
  | .newReno => s.newRenoDupackAction cfg h
  | .sack1 => s.sackDupackAction cfg

/-! ### `recv`, of a duplicate ACK -/

/-- `recv` up to the test of the ELN bit, or of `timeout_` in a `Sack1TcpAgent`. -/
def heard (p : DupAck) : Sender κ :=
  let s := { s with cuts := [], sent := [] }
  match cfg.kind with
  | .tahoe | .reno => (s.onReceive cfg h p).recvFrtoHelper
  | .newReno =>
      let s := { s with ssthresh := (h.newSsthresh s).1, other := (h.newSsthresh s).2 }
      (s.onReceive cfg h p).recvFrtoHelper
  | .sack1 =>
      let s := s.onReceive cfg h p
      { s with scb := s.scb.updateScoreBoard s.highestAck p.sack }

/-- The sender, with the ACK counted, when `recv` decides what to do about it. -/
def counted (p : DupAck) : Sender κ :=
  let s := s.heard cfg h p
  { s with dupacks := s.dupacks + 1 }

/-- Whether `recv` calls `dupack_action`. -/
def Duplicate (p : DupAck) : Prop :=
  match cfg.kind with
  | .tahoe => ¬ (p.eln ∧ cfg.eln) ∧ (s.counted cfg h p).dupacks = cfg.numdupacks ∧
      cfg.noFastRetrans = false
  | .reno | .newReno => ¬ (p.eln ∧ cfg.eln) ∧ (s.counted cfg h p).dupacks = cfg.numdupacks
  | .sack1 => s.timeout = false ∧ s.fastrecov = false ∧ (s.counted cfg h p).scb.changed = true ∧
      (s.counted cfg h p).dupacks = (s.counted cfg h p).numdupacks cfg

/-- `TcpAgent::recv`. -/
def recvTahoe (fuel : ℕ) (p : DupAck) : Sender κ :=
  if p.eln ∧ cfg.eln then (s.heard cfg h p).tcpEln cfg h fuel
  else
    let s := s.counted cfg h p
    let s :=
      if s.dupacks = cfg.numdupacks ∧ cfg.noFastRetrans = false then s.dupackAction cfg h
      else if s.dupacks < cfg.numdupacks ∧ cfg.singledup then s.sendOne cfg h
      else s
    let s := if cfg.qOption ∧ cfg.enblRttCtr then { s with other := h.afterAck s } else s
    s.sendMuch cfg h fuel cfg.maxburst

/-- `dupwnd_` after the `dupack_action` of a `RenoTcpAgent` or `NewRenoTcpAgent`. -/
def inflate : Sender κ := if cfg.exitFastRetrans then s else { s with dupwnd := cfg.numdupacks }

/-- `RenoTcpAgent::recv`. -/
def recvReno (fuel : ℕ) (p : DupAck) : Sender κ :=
  if p.eln ∧ cfg.eln then (s.heard cfg h p).tcpEln cfg h fuel
  else
    let s := s.counted cfg h p
    let s :=
      if s.dupacks = cfg.numdupacks then (s.dupackAction cfg h).inflate cfg
      else if cfg.numdupacks < s.dupacks ∧
          (cfg.exitFastRetrans = false ∨ s.lastCwndAction = .dupack) then
        { s with dupwnd := s.dupwnd + 1 }
      else if s.dupacks < cfg.numdupacks ∧ cfg.singledup then s.sendOne cfg h
      else s
    if s.dupacks = 0 ∨ s.dupacks > cfg.numdupacks - 1 then s.sendMuch cfg h fuel cfg.maxburst
    else s

/-- `NewRenoTcpAgent::recv`. -/
def recvNewReno (fuel : ℕ) (p : DupAck) : Sender κ :=
  if p.eln ∧ cfg.eln then (s.heard cfg h p).tcpEln cfg h fuel
  else
    let s := s.counted cfg h p
    let s :=
      if s.dupacks = cfg.numdupacks then (s.dupackAction cfg h).inflate cfg
      else if cfg.numdupacks < s.dupacks ∧
          (cfg.exitFastRetrans = false ∨ s.lastCwndAction = .dupack) then
        let s := { s with dupwnd := s.dupwnd + 1 }
        if 0 < cfg.newrenoChanges ∧ s.dupacks % 2 = 1 then
          { s with tSeqno := s.tSeqno + 1 }.output cfg s.tSeqno
        else s
      else if s.dupacks < cfg.numdupacks ∧ cfg.singledup then s.sendOne cfg h
      else s
    if s.dupacks = 0 then s.sendMuch cfg h fuel cfg.maxburst
    else if s.dupacks > cfg.numdupacks - 1 ∧ cfg.newrenoChanges = 0 then s.sendMuch cfg h fuel 2
    else s

/-- `is_sacked`, with the bounds `recover_` and `maxseq_`. -/
def isSacked (p : DupAck) : Bool :=
  p.sack.any fun b =>
    (b.2 > s.recover && b.2 ≤ s.maxseq) || (b.1 ≥ s.recover && b.1 < s.maxseq) ||
      (b.1 < s.recover && b.2 > s.maxseq)

/-- The SACK-based F-RTO. -/
def sackFrto (p : DupAck) : Sender κ :=
  if cfg.sfrtoEnabled ∧ s.frto = 2 then
    if s.scb.changed ∧ !s.isSacked p then s.spuriousTimeout cfg
    else { s with tSeqno := s.highestAck + 1, cwnd := s.frto, frto := 0, dupacks := 0 }
  else s

/-- `Sack1TcpAgent::recv`, outside fast recovery. -/
def recvSack1 (fuel : ℕ) (p : DupAck) : Sender κ :=
  let s :=
    if s.timeout then { s with cuts := [], sent := [] }.onReceive cfg h p
    else
      let t :=
        if (s.heard cfg h p).scb.changed then
          let t := s.counted cfg h p
          if t.dupacks = t.numdupacks cfg then t.dupackAction cfg h
          else if t.dupacks < t.numdupacks cfg ∧ cfg.singledup then t.sendOne cfg h
          else t
        else s.heard cfg h p
      t.sackFrto cfg p
  if s.dupacks = 0 then s.sendMuch cfg h fuel cfg.maxburst else s

def recv (fuel : ℕ) (p : DupAck) : Sender κ :=
  match cfg.kind with
  | .tahoe => s.recvTahoe cfg h fuel p
  | .reno => s.recvReno cfg h fuel p
  | .newReno => s.recvNewReno cfg h fuel p
  | .sack1 => s.recvSack1 cfg h fuel p

end Sender

end Afabric
