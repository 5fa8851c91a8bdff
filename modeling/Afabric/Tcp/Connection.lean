import Afabric.Tcp.Input

/-!
# Tcp — the connection

The calls of the application (`sendmsg`, `advance_bytes`, `close`), the timers, and runs of an
agent: sequences of calls, arriving segments and expiring timers, each at its time.  A timer
expires only if it is pending.
-/

namespace Afabric

namespace FullTcpAgent

variable {κ : Type} (cfg : FullTcpConfig) (h : Hooks κ) (s : FullTcpAgent κ)

/-! ### Timers -/

/-- `t_seqno_` goes back to what is not acknowledged. -/
def rewind : FullTcpAgent κ :=
  s.setSnd fun t => { t with tSeqno := if t.highestAck < 0 then cfg.iss else t.highestAck }

/-- `FullTcpAgent::timeout_action`. -/
def renoTimeoutAction : FullTcpAgent κ :=
  let s := s.setSnd fun t => { t with recover := t.maxseq }
  let s := if s.ctl.cong.cwnd < 1 then s.setCwnd 1 else s
  let s := if s.ctl.lastCwndAction = .ecn then s.setCong (h.slowdown [.cwndOne] s)
    else
      (s.setCong (h.slowdown [.ssthreshHalf, .cwndRestart] s)).setCtl fun t =>
        { t with lastCwndAction := .timeout }
  -- `reset_rtx_timer`
  let s := if s.snd.highestAck = s.snd.maxseq ∧ cfg.restartBugfix then s
    else s.setOther (h.rttBackoff s)
  let s := (s.setRtxTimer h).setCtl fun t => { t with rttActive := false }
  let s := s.rewind cfg
  let s := s.setOther (h.onTimeout s)
  s.setCtl fun t => { t with fastrecov := false, dupacks := 0 }

/-- `SackFullTcpAgent::timeout_action`. -/
def sackTimeoutAction : FullTcpAgent κ :=
  let s := s.renoTimeoutAction cfg h
  if cfg.clearOnTimeout then s.setSack fun t => { t with sq := [], sackMin := s.snd.highestAck }
  else s

/-- `timeout_action`. -/
def timeoutAction : FullTcpAgent κ :=
  match cfg.kind with
  | .reno | .tahoe | .newreno => s.renoTimeoutAction cfg h
  | .sack | .dd => s.sackTimeoutAction cfg h
  | .min =>
      let s := if cfg.probCap ≠ 0 then
          let s := s.setCtl fun t => { t with
            probCount := t.probCount + 1
            probMode := t.probMode || t.probCount + 1 = cfg.probCap }
          s.setSack fun t => { t with hSeqno := s.snd.highestAck }
        else s
      s.sackTimeoutAction cfg h

inductive TimerId where
  | rtx
  | delsnd
  | delack
deriving DecidableEq, Repr

/-- `timeout`. -/
def timeout (fuel : Nat) (tno : TimerId) : Option (FullTcpAgent κ) :=
  if s.state = .listen then some s
  else
    match tno with
    | .rtx => (s.timeoutAction cfg h).sendMuch cfg h fuel true .timeout s.ctl.maxburst
    | .delsnd => s.sendMuch cfg h fuel true .timeout s.ctl.maxburst
    | .delack =>
        if s.ctl.delAck then
          (s.setCtl fun t => { t with delAck := false, ackNow := true }).sendMuch cfg h fuel true
            .normal 0
        else some s

/-- The timer is pending. -/
def pending : TimerId → Bool
  | .rtx => s.ctl.rtxPending
  | .delsnd => s.ctl.delsndPending
  | .delack => s.ctl.delackPending

/-- A timer that expires is no longer pending. -/
def expire (tno : TimerId) : FullTcpAgent κ :=
  s.setCtl fun t =>
    match tno with
    | .rtx => { t with rtxPending := false }
    | .delsnd => { t with delsndPending := false }
    | .delack => { t with delackPending := false }

/-! ### The application -/

/-- `connect`. -/
def connect : Option (FullTcpAgent κ) :=
  ((s.newstate .synSent).foutput cfg h cfg.iss .normal).map fun o => o.2.sent cfg cfg.iss o.1

/-- `soft_reset`. -/
def softReset : FullTcpAgent κ :=
  let s := s.setCwnd (h.initialWindow s)
  s.setCtl fun t =>
    let t := { t with startTime := t.now, earlyTerminated := 0, seqBound := -1 }
    match s.state with
    | .closed | .listen => { t with deadline := cfg.nominalDeadline, startseq := cfg.iss }
    | .established | .synSent | .synReceived =>
        { t with startseq := if s.snd.curseq < cfg.iss then cfg.iss else s.snd.curseq }
    | .closeWait | .finWait1 | .closing | .lastAck | .finWait2 => t

/-- `advance_bytes`. -/
def advanceBytes (fuel : Nat) (nb : Int) : Option (FullTcpAgent κ) := do
  let s ← match s.state with
    | .closed | .listen =>
        ((s.reset cfg h).setSnd fun t => { t with curseq := cfg.iss + nb }).connect cfg h
    | .established | .synSent | .synReceived =>
        some (s.setSnd fun t => { t with
          curseq := (if t.curseq < cfg.iss then cfg.iss else t.curseq) + nb })
    | .closeWait | .finWait1 | .closing | .lastAck | .finWait2 => some s
  if s.state = .established then
    s.sendMuch cfg h fuel (cfg.rtxOnEof && s.app.signalOnEmpty) .normal s.ctl.maxburst
  else some s

/-- The second argument of `sendmsg`. -/
inductive MsgFlag where
  | plain
  | msgEof
  | datEof
  | datNew
deriving DecidableEq, Repr

/-- `sendmsg` with `DAT_EOF`, before it advances. -/
def onDatEof : FullTcpAgent κ :=
  let s := s.setApp fun t => { t with signalOnEmpty := true }
  let s := if cfg.rtxOnEof then s.rewind cfg else s
  let s := if cfg.eofMinrto ≥ 0 then s.setCtl fun t => { t with minrto := cfg.eofMinrto } else s
  if cfg.resetWindowOnEof then
    let s := s.setCwnd (max (h.initialWindow s) s.ctl.cong.cwnd)
    (s.setCtl fun t => { t with probMode := false, probCount := 0 }).setRtxTimer h
  else s

/-- `sendmsg` with `DAT_NEW`, before it advances. -/
def onDatNew : FullTcpAgent κ :=
  let s := if cfg.noEofMinrto ≥ 0 then
    s.setCtl fun t => { t with minrto := cfg.noEofMinrto } else s
  s.softReset cfg h

/-- `sendmsg`. -/
def sendmsg (fuel : Nat) (nbytes : Int) (flag : MsgFlag) : Option (FullTcpAgent κ) :=
  let s := match flag with
    | .plain => s
    | .msgEof => s.setApp fun t => { t with closeOnEmpty := true }
    | .datEof => s.onDatEof cfg h
    | .datNew => s.onDatNew cfg h
  if nbytes = -1 then (s.setApp fun t => { t with infiniteSend := true }).advanceBytes cfg h fuel 0
  else s.advanceBytes cfg h fuel nbytes

/-! ### Runs -/

/-- What happens to an agent. -/
inductive Event where
  | sendmsg (nbytes : Int) (flag : MsgFlag)
  | advanceBytes (nb : Int)
  | recv (p : Segment)
  | timeout (tno : TimerId)

/-- One event. -/
def step (fuel : Nat) : Event → Option (FullTcpAgent κ)
  | .sendmsg nbytes flag => s.sendmsg cfg h fuel nbytes flag
  | .advanceBytes nb => s.advanceBytes cfg h fuel nb
  | .recv p => s.recv cfg h fuel p
  | .timeout tno => if s.pending tno then (s.expire tno).timeout cfg h fuel tno else some s

/-- The clock moves. -/
def tick (now : ℚ) : FullTcpAgent κ := s.setCtl fun t => { t with now }

/-- Events at their times, one after the other. -/
def run (fuel : Nat) (evs : List (ℚ × Event)) : Option (FullTcpAgent κ) :=
  evs.foldlM (fun s e => (s.tick e.1).step cfg h fuel e.2) s

/-- An agent as `reset` leaves it, closed or listening, that has done nothing. -/
structure Fresh (s : FullTcpAgent κ) : Prop where
  reset : ∃ s₀ : FullTcpAgent κ, s = { s₀.reset cfg h with state := s.state }
  state : s.state = .closed ∨ s.state = .listen
  sent : s.trace.sent = []
  emptied : s.trace.emptied = []

end FullTcpAgent

end Afabric
