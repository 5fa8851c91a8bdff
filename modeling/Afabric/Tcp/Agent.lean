import Afabric.Tcp.SegList
import Mathlib.Data.Rat.Floor

/-!
# Tcp — the state of a `FullTcpAgent`

The two-way TCP of `tcp/tcp-full.h`, with its subclasses `TahoeFullTcpAgent`,
`NewRenoFullTcpAgent`, `SackFullTcpAgent`, `MinTcpAgent` and `DDTcpAgent`.  The class of an agent
is a field of its configuration, and a virtual function is one definition by cases on it.

The state is cut into records by who writes them: `SndSeq`, the sequence numbers of the sender;
`SackState`, what a `SackFullTcpAgent` adds to them; `RcvState`, the receiver; `AppState`, what the
application has asked for; and `Ctl`, the control of the sender (window, timers, counters, pending
flags).  Both reassembly queues are lists of blocks (`SegList.lean`).

Congestion control proper is in `tcp/tcp.cc` and `tcp/ecn`: how `slowdown` and `opencwnd` change
the window, the estimation of the round-trip time, and the trackers of the `EcnProcessor`.  They
are the fields of `Hooks`: arbitrary functions that see the whole agent, and write the window, the
threshold and a state `κ` of their own.  Nothing is assumed of them, so what is proved of an agent
holds for each of them.

Integers do not overflow here, and a `double` is a rational.  `none` is a call that does not
return: `abort()`, an exception, or a loop that has used up its fuel.
-/

namespace Afabric

inductive AgentKind where
  | reno
  | tahoe
  | newreno
  | sack
  | min
  | dd
deriving DecidableEq, Repr

/-- `SackFullTcpAgent` and what is derived from it. -/
def AgentKind.isSack : AgentKind → Bool
  | .sack | .min | .dd => true
  | .reno | .tahoe | .newreno => false

/-- `TcpState`. -/
inductive TcpState where
  | closed
  | listen
  | synSent
  | synReceived
  | established
  | closeWait
  | finWait1
  | closing
  | lastAck
  | finWait2
deriving DecidableEq, Repr

namespace TcpState

/-- The number of the state; the source compares states by it. -/
def toNat : TcpState → Nat
  | closed => 0
  | listen => 1
  | synSent => 2
  | synReceived => 3
  | established => 4
  | closeWait => 5
  | finWait1 => 6
  | closing => 7
  | lastAck => 8
  | finWait2 => 9

/-- `have_received_FIN`. -/
def haveReceivedFin (s : TcpState) : Bool := s = closing ∨ s = closed ∨ s = closeWait

/-- `have_received_SYN`. -/
def haveReceivedSyn (s : TcpState) : Bool := s.toNat ≥ synReceived.toNat

end TcpState

namespace TcpFlag

def fin : TcpFlag := 0x01
def syn : TcpFlag := 0x02
def push : TcpFlag := 0x08
def ack : TcpFlag := 0x10
def ece : TcpFlag := 0x40
def cwr : TcpFlag := 0x80

end TcpFlag

/-- `contains_all`. -/
def containsAll (me what : TcpFlag) : Bool := me &&& what = what

/-- `contains_any`. -/
def containsAny (me what : TcpFlag) : Bool := me &&& what ≠ 0

/-- `TcpXmissionReason`. -/
inductive XmissionReason where
  | normal
  | timeout
  | dupack
  | sack
deriving DecidableEq, Repr

/-- `CongestionWindowAdjustmentReason`. -/
inductive CwndAction where
  | none
  | dupack
  | timeout
  | ecn
  | exited
deriving DecidableEq, Repr

/-- The `TcpSlowdownFlags` the agent passes to `slowdown`. -/
inductive Slowdown where
  | cwndHalf
  | cwndRestart
  | cwndInit
  | cwndOne
  | ssthreshHalf
deriving DecidableEq, Repr

/-- `PrioScheme`. -/
inductive PrioScheme where
  | cappedBytesSent
  | flowSize
  | remainingSize
  | bytesSent
  | batchedRemainingSize
  | unknown
  | lazyRemainingSize
  | lazyRemainingSizeBytesSent
deriving DecidableEq, Repr

/-- A segment as it arrives: the fields of `hdr_tcp`, `hdr_ip` and `hdr_flags` that are read.
`len` is `th->size() - tcph->hlen()`. -/
structure Segment where
  seqno : Int
  ackno : Int
  flags : TcpFlag
  len : Int
  sack : List (Int × Int)
  fid : Int
  prio : Int
  noTs : Bool
  ts : ℚ
  tsEcho : ℚ
  ect : Bool
  ce : Bool
  ecnecho : Bool
  ecnLowPrio : Bool
  congAction : Bool
  cwr : Bool

/-- The bound variables of an agent that its own code does not write. -/
structure FullTcpConfig where
  kind : AgentKind
  size : Int
  iss : Int
  wnd : ℚ
  nodelay : Bool
  dataOnSyn : Bool
  dupsegFix : Bool
  dupackReset : Bool
  renoFastrecov : Bool
  openCwndOnPack : Bool
  halfclose : Bool
  nopredict : Bool
  tsOption : Bool
  slowStartRestart : Bool
  bugFix : Bool
  delayGrowth : Bool
  restartBugfix : Bool
  overhead : ℚ
  dynamicDupack : ℚ
  probCap : Int
  rtxOnEof : Bool
  resetWindowOnEof : Bool
  noEofMinrto : ℚ
  eofMinrto : ℚ
  recovMaxburst : Int
  clearOnTimeout : Bool
  maxSackBlocks : Int
  sackRtxThreshmode : Int
  sackRtxCthresh : Int
  sackRtxBthresh : Int
  prioScheme : PrioScheme
  prioNum : Int
  prioCap : Nat → Int
  enablePias : Bool
  piasPrioNum : Int
  piasThresh : Nat → Int
  useDeadline : Bool
  nominalDeadline : Int
  linkRate : Int
  trueFlowSize : Int
  useTrueRemainingSize : Bool

/-- The sequence numbers of the sender. -/
structure SndSeq where
  curseq : Int
  tSeqno : Int
  maxseq : Int
  highestAck : Int
  recover : Int
  maxseg : Int
deriving DecidableEq, Repr

/-- The SACK queue of a sender. -/
structure SackState where
  sq : List Block
  sackMin : Int
  hSeqno : Int
deriving DecidableEq, Repr

/-- The receiver; `delivered` are the arguments of `recvBytes`, the latest first. -/
structure RcvState where
  rcvNxt : Int
  irs : Int
  rq : List Block
  flowRemaining : Int
  delivered : List Int
deriving DecidableEq, Repr

structure AppState where
  signalOnEmpty : Bool
  closeOnEmpty : Bool
  infiniteSend : Bool
deriving DecidableEq, Repr

/-- The window, and the state of what changes it. -/
structure Cong (κ : Type) where
  cwnd : ℚ
  ssthresh : Int
  other : κ

/-- The control of the sender.  `ackNow`, `delAck`, `needFin` and `needClose` are the bits of
`flags_`; of a timer it is kept whether it is pending. -/
structure Ctl (κ : Type) where
  now : ℚ
  fid : Int
  lastState : TcpState
  ackNow : Bool
  delAck : Bool
  needFin : Bool
  needClose : Bool
  dupacks : Int
  tcprexmtthresh : Int
  fastrecov : Bool
  pipe : Int
  pipectrl : Bool
  rtxbytes : Int
  maxburst : Int
  saveMaxburst : Int
  lastCwndAction : CwndAction
  cong : Cong κ
  rttActive : Bool
  rttSeq : Int
  rttTs : ℚ
  minrto : ℚ
  rtxPending : Bool
  delackPending : Bool
  delsndPending : Bool
  lastSendTime : ℚ
  lastAckSent : Int
  recent : ℚ
  recentAge : ℚ
  probMode : Bool
  probCount : Int
  lastSqtotal : Int
  curSqtotal : Int
  deadline : Int
  startTime : ℚ
  earlyTerminated : Int
  startseq : Int
  seqBound : Int
  lastPrio : Int

/-- A segment as it is sent, with the sequence numbers of the sender and `infinite_send_` at that
moment.  A segment without data has no priority of its own. -/
structure Emission where
  seqno : Int
  ackno : Int
  flags : TcpFlag
  datalen : Int
  reason : XmissionReason
  prio : Option Int
  snd : SndSeq
  infiniteSend : Bool
deriving DecidableEq, Repr

/-- What an agent has done, the latest first: the segments sent, and the calls of `bufferempty`
with the sequence numbers they were made at.  `resets` counts the calls of `reset`, `done` those
of the Tcl procedure of that name. -/
structure Trace where
  sent : List Emission
  emptied : List SndSeq
  resets : Nat
  done : Nat

structure FullTcpAgent (κ : Type) where
  state : TcpState
  snd : SndSeq
  sack : SackState
  rcv : RcvState
  app : AppState
  ctl : Ctl κ
  trace : Trace

/-- `EcnDecision`; congestion comes with the window the `EcnProcessor` sets. -/
inductive EcnDecision where
  | congestion (cwnd : ℚ)
  | noCongestion
  | congestionDrop

/-- Congestion control: the functions of `TcpAgent` and of the `EcnProcessor` that the agent
calls. -/
structure Hooks (κ : Type) where
  /-- `initial_window`. -/
  initialWindow : FullTcpAgent κ → ℚ
  slowdown : List Slowdown → FullTcpAgent κ → Cong κ
  opencwnd : FullTcpAgent κ → Cong κ
  /-- The window and the estimates of `TcpAgent::reset`. -/
  resetCong : FullTcpAgent κ → Cong κ
  /-- `rtt_timeout`, as `set_rtx_timer` calls it. -/
  rttTimeout : FullTcpAgent κ → κ
  rttBackoff : FullTcpAgent κ → κ
  rttUpdate : ℚ → FullTcpAgent κ → κ
  /-- The reset of the backoff in `newack`. -/
  resetBackoff : Segment → FullTcpAgent κ → κ
  idleRestart : FullTcpAgent κ → Bool
  ecnEnabled : FullTcpAgent κ → Bool
  /-- `EcnProcessor::predict_ok`. -/
  ecnPredictOk : FullTcpAgent κ → Segment → Bool
  onReceive : FullTcpAgent κ → Segment → κ
  /-- `update_state_new_packet`. -/
  onNewPacket : FullTcpAgent κ → Segment → Bool → κ
  /-- `has_pending` of the receiver's tracker. -/
  hasPending : FullTcpAgent κ → Bool
  flipCe : FullTcpAgent κ → κ
  onReceiveSyn : FullTcpAgent κ → Segment → κ
  /-- Whether `on_receive_syn_ack_pre` drops the segment. -/
  synAckDropped : FullTcpAgent κ → Segment → Bool
  onReceiveSynAck : FullTcpAgent κ → Segment → κ
  /-- `on_receive_syn_ack_ack`. -/
  onReceiveSynAckAck : FullTcpAgent κ → Segment → EcnDecision × κ
  /-- The initial window of `retry_syn_ack`. -/
  retrySynAck : FullTcpAgent κ → κ
  /-- `is_ecn_active`. -/
  isEcnActive : FullTcpAgent κ → Segment → Bool
  /-- The backoff and the slowdown of `ecn`. -/
  ecnSlowdown : FullTcpAgent κ → Cong κ
  canOpenCwnd : FullTcpAgent κ → Segment → Bool
  onReceiveNewack : FullTcpAgent κ → Segment → κ
  shouldSlowdownOnDupAck : FullTcpAgent κ → Bool
  onTimeout : FullTcpAgent κ → κ
  modifyPflagsOnFoutput : FullTcpAgent κ → TcpFlag → Bool → TcpFlag × κ
  hasSenderResponded : FullTcpAgent κ → Bool
  onSendpacket : FullTcpAgent κ → TcpFlag → Bool → κ
  /-- `cong_action_` is turned off, and `on_foutput`. -/
  onFoutput : FullTcpAgent κ → Int → Int → Bool → κ

namespace FullTcpAgent

variable {κ : Type} (cfg : FullTcpConfig) (h : Hooks κ) (s : FullTcpAgent κ)

/-! ### Assignments -/

def setCtl (f : Ctl κ → Ctl κ) : FullTcpAgent κ := { s with ctl := f s.ctl }

def setSnd (f : SndSeq → SndSeq) : FullTcpAgent κ := { s with snd := f s.snd }

def setSack (f : SackState → SackState) : FullTcpAgent κ := { s with sack := f s.sack }

def setRcv (f : RcvState → RcvState) : FullTcpAgent κ := { s with rcv := f s.rcv }

def setApp (f : AppState → AppState) : FullTcpAgent κ := { s with app := f s.app }

def setCong (c : Cong κ) : FullTcpAgent κ := s.setCtl fun t => { t with cong := c }

def setOther (k : κ) : FullTcpAgent κ :=
  s.setCtl fun t => { t with cong := { t.cong with other := k } }

def setCwnd (w : ℚ) : FullTcpAgent κ := s.setCtl fun t => { t with cong := { t.cong with cwnd := w } }

/-- `newstate`. -/
def newstate (st : TcpState) : FullTcpAgent κ := { s with state := st }

/-- The conversion of a `double` to an `int`. -/
def trunc (q : ℚ) : Int := if 0 ≤ q then q.floor else q.ceil

/-- `window`; `frto_` is never set in a `FullTcpAgent`. -/
def window : Int := if s.ctl.cong.cwnd < cfg.wnd then trunc s.ctl.cong.cwnd else trunc cfg.wnd

/-- `set_rtx_timer`. -/
def setRtxTimer : FullTcpAgent κ :=
  (s.setOther (h.rttTimeout s)).setCtl fun t => { t with rtxPending := true }

/-- `cancel_rtx_timer`. -/
def cancelRtxTimer : FullTcpAgent κ := s.setCtl fun t => { t with rtxPending := false }

/-- `cancel_timers`. -/
def cancelTimers : FullTcpAgent κ :=
  s.setCtl fun t => { t with rtxPending := false, delackPending := false, delsndPending := false }

/-- The Tcl procedure `done`, also as `finish` calls it. -/
def done : FullTcpAgent κ := { s with trace := { s.trace with done := s.trace.done + 1 } }

/-- `bufferempty`. -/
def bufferempty : FullTcpAgent κ :=
  { s with
    app := { s.app with signalOnEmpty := false }
    trace := { s.trace with emptied := s.snd :: s.trace.emptied } }

/-- `reset`; `state_` stays. -/
def reset : FullTcpAgent κ where
  state := s.state
  snd := ⟨0, cfg.iss, -1, -1, 0, s.snd.maxseg⟩
  sack := if cfg.kind.isSack then ⟨[], -1, -1⟩ else s.sack
  rcv := { s.rcv with rcvNxt := -1, irs := -1, rq := [], flowRemaining := -1 }
  app := { s.app with closeOnEmpty := false }
  ctl :=
    { s.ctl with
      rtxPending := false, delackPending := false, delsndPending := false
      dupacks := 0
      lastCwndAction := .none
      cong := h.resetCong s
      rttSeq := -1
      lastAckSent := -1
      pipe := 0
      rtxbytes := 0
      ackNow := false, delAck := false, needFin := false, needClose := false
      lastSendTime := -1
      recent := if cfg.tsOption then 0 else -1
      recentAge := if cfg.tsOption then 0 else -1
      fastrecov := false
      probMode := false
      probCount := 0
      lastSqtotal := 0
      deadline := 0
      earlyTerminated := 0 }
  trace := { s.trace with resets := s.trace.resets + 1 }

/-- `outflags`. -/
def outflags : TcpFlag :=
  match s.state with
  | .closed | .established | .closeWait | .finWait2 => TcpFlag.ack
  | .listen => 0
  | .synSent => TcpFlag.syn
  | .synReceived => TcpFlag.syn ||| TcpFlag.ack
  | .finWait1 | .closing | .lastAck => TcpFlag.fin ||| TcpFlag.ack

end FullTcpAgent

/-! ### The settings of `ns-default.tcl` -/

namespace NsDefault

/-- The bound variables of an agent as the Tcl defaults set them, with its class, `iss_` 0 and
segments of 10 bytes. -/
def config (kind : AgentKind) : FullTcpConfig where
  kind := kind
  size := 10
  iss := 0
  wnd := 20
  nodelay := false
  dataOnSyn := false
  dupsegFix := true
  dupackReset := false
  renoFastrecov := kind = .reno ∨ kind = .newreno
  openCwndOnPack := kind = .reno ∨ kind = .tahoe
  halfclose := false
  nopredict := false
  tsOption := false
  slowStartRestart := true
  bugFix := true
  delayGrowth := true
  restartBugfix := true
  overhead := 0
  dynamicDupack := 0
  probCap := 0
  rtxOnEof := false
  resetWindowOnEof := false
  noEofMinrto := -1
  eofMinrto := -1
  recovMaxburst := 2
  clearOnTimeout := true
  maxSackBlocks := 3
  sackRtxThreshmode := 1
  sackRtxCthresh := 1
  sackRtxBthresh := 1
  prioScheme := .remainingSize
  prioNum := 0
  prioCap := fun _ => 0
  enablePias := false
  piasPrioNum := 0
  piasThresh := fun _ => 0
  useDeadline := true
  nominalDeadline := 0
  linkRate := 10
  trueFlowSize := -1
  useTrueRemainingSize := false

/-- `slowdown` with `precisionReduce_` and `decrease_num_` 0.5. -/
def slowdown (wnd : ℚ) (how : List Slowdown) (s : FullTcpAgent Bool) : Cong Bool :=
  let c := s.ctl.cong
  let halfwin := min c.cwnd wnd / 2
  let ssthresh := if .ssthreshHalf ∈ how then FullTcpAgent.trunc halfwin else c.ssthresh
  let cwnd :=
    if .cwndHalf ∈ how then halfwin
    else if .cwndRestart ∈ how ∨ .cwndOne ∈ how then 1
    else if .cwndInit ∈ how then 2
    else c.cwnd
  ⟨max cwnd 1, max ssthresh 2, true⟩

/-- Congestion control without ECN, `windowOption_` 1.  Its state is `cong_action_`; the round-trip
times, which only set the delays of timers, are left out. -/
def hooks (cfg : FullTcpConfig) : Hooks Bool where
  initialWindow := fun _ => 2
  slowdown := slowdown cfg.wnd
  opencwnd := fun s =>
    let c := s.ctl.cong
    if c.cwnd < c.ssthresh then { c with cwnd := c.cwnd + 1 }
    else { c with cwnd := c.cwnd + 1 / c.cwnd }
  resetCong := fun s => ⟨1, FullTcpAgent.trunc cfg.wnd, s.ctl.cong.other⟩
  rttTimeout := fun s => s.ctl.cong.other
  rttBackoff := fun s => s.ctl.cong.other
  rttUpdate := fun _ s => s.ctl.cong.other
  resetBackoff := fun _ s => s.ctl.cong.other
  idleRestart := fun s => 0 ≤ s.ctl.lastSendTime ∧ s.ctl.now - s.ctl.lastSendTime > 3
  ecnEnabled := fun _ => false
  ecnPredictOk := fun _ _ => true
  onReceive := fun s _ => s.ctl.cong.other
  onNewPacket := fun s _ _ => s.ctl.cong.other
  hasPending := fun _ => false
  flipCe := fun s => s.ctl.cong.other
  onReceiveSyn := fun s _ => s.ctl.cong.other
  synAckDropped := fun _ _ => false
  onReceiveSynAck := fun s _ => s.ctl.cong.other
  onReceiveSynAckAck := fun s _ => (.noCongestion, s.ctl.cong.other)
  retrySynAck := fun s => s.ctl.cong.other
  isEcnActive := fun _ p => p.ecnecho
  ecnSlowdown := slowdown cfg.wnd [.cwndHalf, .ssthreshHalf]
  canOpenCwnd := fun _ _ => true
  onReceiveNewack := fun s _ => s.ctl.cong.other
  shouldSlowdownOnDupAck := fun _ => false
  onTimeout := fun s => s.ctl.cong.other
  modifyPflagsOnFoutput := fun s pflags _ => (pflags, s.ctl.cong.other)
  hasSenderResponded := fun s => s.ctl.cong.other
  onSendpacket := fun s _ _ => s.ctl.cong.other
  onFoutput := fun s reliable _ isRetransmit =>
    s.ctl.cong.other && !(reliable > 0 && !isRetransmit)

/-- An agent as it is constructed, with flow id 1. -/
def agent : FullTcpAgent Bool where
  state := .closed
  snd := ⟨0, 0, -1, -1, 0, 10⟩
  sack := ⟨[], -1, -1⟩
  rcv := ⟨-1, -1, [], -1, []⟩
  app := ⟨false, false, false⟩
  ctl :=
    { now := 0, fid := 1, lastState := .closed, ackNow := false, delAck := false,
      needFin := false, needClose := false, dupacks := 0, tcprexmtthresh := 3, fastrecov := false,
      pipe := 0, pipectrl := false, rtxbytes := 0, maxburst := 0, saveMaxburst := -1,
      lastCwndAction := .none, cong := ⟨1, 20, false⟩, rttActive := false, rttSeq := -1,
      rttTs := 0, minrto := 1 / 5, rtxPending := false, delackPending := false,
      delsndPending := false, lastSendTime := -1, lastAckSent := -1, recent := -1,
      recentAge := -1, probMode := false, probCount := 0, lastSqtotal := 0, curSqtotal := 0,
      deadline := 0, startTime := 0, earlyTerminated := 0, startseq := 0, seqBound := 0,
      lastPrio := 0 }
  trace := ⟨[], [], 0, 0⟩

/-- A segment of flow 1 without options. -/
def segment (seqno ackno len : Int) (flags : TcpFlag) : Segment where
  seqno := seqno
  ackno := ackno
  flags := flags
  len := len
  sack := []
  fid := 1
  prio := 0
  noTs := false
  ts := -1
  tsEcho := -1
  ect := false
  ce := false
  ecnecho := false
  ecnLowPrio := false
  congAction := false
  cwr := false

end NsDefault

end Afabric
