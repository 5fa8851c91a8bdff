import Mathlib.Algebra.Order.Ring.Nat
import Mathlib.Data.List.Basic

/-!
# Mac — the Ethernet MAC

`Mac802_3` (`mac/mac-802_3.cc`) and its four timers.  `mhSend_` runs while a frame is on the wire,
`mhRecv_` while one comes in, `mhIFS_` during an inter-frame gap, and `mhRetx_` while the MAC backs
off; `mhRetx_` also holds the frame of the upper layer until it has been sent or given up.

`none` is a failed `assert`, the `exit` of `transmit`, or a null pointer followed.  A frame of the
upper layer has the number of its `sendDown`, which stands for its address.  Times are any type
with the operations the code uses.  The log is what can be seen of the MAC from outside: memory is
not modelled, so a frame that is freed is gone without an entry.
-/

namespace Afabric

/-- The states that `Mac802_3` uses. -/
inductive MacState where
  | idle
  | recv
  | send
deriving DecidableEq, Repr

/-- A frame: its size, and what of the MAC header the MAC reads. -/
structure Frame where
  uid : Nat
  size : Int
  macDA : Int
  padding : Int
  error : Bool
deriving DecidableEq, Repr

/-- What happens at the MAC, in order: a frame goes to the phy (`down`); its transmission collides
or gets to its end; it is given up after too many attempts (`dropped`); the callback that came with
it is called; a frame of another MAC is delivered (`up`), or dropped in a collision when
`trace_` is set (`jammed`). -/
inductive MacEntry where
  | down (f : Frame)
  | collided (uid : Nat)
  | ended (uid : Nat)
  | dropped (f : Frame)
  | called (uid : Nat)
  | up (f : Frame)
  | jammed (f : Frame)
deriving DecidableEq, Repr

/-- A `MacHandler`: `expire` is the time of its event. -/
structure MacHandler (R : Type) where
  busy : Bool
  expire : R

/-- `Mac8023HandlerSend`. -/
structure MacHandlerSend (R : Type) extends MacHandler R where
  p : Option Frame

structure MacHandlerRecv (R : Type) extends MacHandler R where
  p : Option Frame

structure MacHandlerRetx (R : Type) extends MacHandler R where
  p : Option Frame
  tries : Nat

/-- `Mac802_3`.  `callback` names the frame that `callback_` came with, and `frames` counts the
frames of the upper layer. -/
structure Mac8023 (R : Type) where
  state : MacState
  callback : Option Nat
  mhSend : MacHandlerSend R
  mhRecv : MacHandlerRecv R
  mhRetx : MacHandlerRetx R
  mhIFS : MacHandler R
  frames : Nat
  log : List MacEntry

/-- The MAC's surroundings: its address, `trace_`, and `txtime` of a number of bytes. -/
structure MacConfig (R : Type) where
  index : Int
  trace : Bool
  txtime : Int → R
  eps : R
  netif : Bool
  uptarget : Bool
  downtarget : Bool
  maxdelay : R

namespace MacConfig

/-- `IEEE_8023_ALIMIT`. -/
def alimit : Nat := 16

/-- `IEEE_8023_BLIMIT`. -/
def blimit : Nat := 10

/-- `IEEE_8023_MAXFRAME`. -/
def maxFrame : Int := 1518

/-- `IEEE_8023_MINFRAME`. -/
def minFrame : Int := 64

/-- `ETHER_HDR_LEN`. -/
def etherHdrLen : Int := 14

/-- `BCAST_ADDR`. -/
def bcastAddr : Int := -1

variable {R : Type} (cfg : MacConfig R)

/-- 96 bits. -/
def ifsTime : R := cfg.txtime 12

/-- Jam and gap, 32 and 96 bits. -/
def jamTime : R := cfg.txtime 16

/-- 512 bits. -/
def slotTime : R := cfg.txtime 64

/-- `initialized`. -/
def initialized : Bool := cfg.netif && cfg.uptarget && cfg.downtarget

/-- The propagation delay is as short as the specification wants it. -/
def Short [LT R] [Add R] : Prop := cfg.txtime minFrame > cfg.maxdelay + cfg.maxdelay

instance [LT R] [DecidableLT R] [Add R] : Decidable cfg.Short :=
  inferInstanceAs (Decidable (_ < _))

end MacConfig

namespace Mac8023

variable {R : Type}

def note (m : Mac8023 R) (e : MacEntry) : Mac8023 R := { m with log := m.log ++ [e] }

/-! ### The timers -/

/-- `Mac8023HandlerSend::cancel`. -/
def sendCancel (m : Mac8023 R) : Option (Mac8023 R) :=
  if m.mhSend.busy then some { m with mhSend := { m.mhSend with busy := false, p := none } }
  else none

/-- `MacHandlerRecv::cancel`. -/
def recvCancel (m : Mac8023 R) : Option (Mac8023 R) :=
  if m.mhRecv.busy ∧ m.mhRecv.p ≠ none then
    some { m with mhRecv := { m.mhRecv with busy := false, p := none } }
  else none

/-- `MacHandlerRetx::cancel`, which leaves `busy_` set. -/
def retxCancel (m : Mac8023 R) : Option (Mac8023 R) :=
  if m.mhRetx.busy ∧ m.mhRetx.p ≠ none then some m else none

/-- `MacHandlerIFS::cancel`. -/
def ifsCancel (m : Mac8023 R) : Option (Mac8023 R) :=
  if m.mhIFS.busy then some { m with mhIFS := { m.mhIFS with busy := false } } else none

/-- `MacHandlerRetx::reset`. -/
def retxReset (m : Mac8023 R) : Option (Mac8023 R) := do
  let m ← (if m.mhRetx.busy then m.retxCancel else some m)
  some { m with mhRetx := { m.mhRetx with tries := 1, p := none } }

/-- `MacHandlerRetx::free`. -/
def retxFree (m : Mac8023 R) : Mac8023 R := { m with mhRetx := { m.mhRetx with p := none } }

section Schedule

variable [Add R] (now t : R)

/-- `Mac8023HandlerSend::schedule`. -/
def sendSchedule (m : Mac8023 R) (f : Frame) : Option (Mac8023 R) :=
  if m.mhSend.busy then none
  else some { m with mhSend := { busy := true, expire := now + t, p := some f } }

/-- `MacHandlerRecv::schedule`. -/
def recvSchedule (m : Mac8023 R) (f : Frame) : Option (Mac8023 R) :=
  if m.mhRecv.busy then none
  else some { m with mhRecv := { busy := true, expire := now + t, p := some f } }

/-- `MacHandlerIFS::schedule`. -/
def ifsSchedule (m : Mac8023 R) : Option (Mac8023 R) :=
  if m.mhIFS.busy then none else some { m with mhIFS := { busy := true, expire := now + t } }

end Schedule

section Handlers

variable [LT R] [DecidableLT R] [Add R] [Sub R] [Mul R] [NatCast R] (cfg : MacConfig R) (now : R)

/-- `MacHandlerRetx::schedule`, with the delay `delta`: false when the attempts are used up.
`Random::integer(n)` is `rnd % n`. -/
def retxSchedule (rnd : Nat) (delta : R) (m : Mac8023 R) : Option (Bool × Mac8023 R) :=
  if m.mhRetx.p ≠ none ∧ m.mhRetx.busy = false then
    if m.mhRetx.tries < MacConfig.alimit then
      let k := min m.mhRetx.tries MacConfig.blimit
      let r := rnd % 2 ^ k
      some (true, { m with mhRetx := { m.mhRetx with
        busy := true
        expire := now + (r * cfg.slotTime + delta) } })
    else some (false, m)
  else none

/-! ### Sending -/

/-- `transmit`. -/
def transmit (m : Mac8023 R) (f : Frame) : Option (Mac8023 R) :=
  if m.callback = none then none
  else if m.mhSend.p ≠ none then none
  else if m.mhIFS.busy ∨ m.state ≠ .idle then
    -- we'll try again when IDLE
    some m
  else do
    let m ← m.sendSchedule now (cfg.txtime f.size) f
    some { m.note (.down f) with state := .send }

/-- The frame as `sendDown` sends it: with the header, and padded. -/
def framed (f : Frame) (uid : Nat) : Frame :=
  let size := f.size + MacConfig.etherHdrLen
  if size > MacConfig.maxFrame then { f with uid, size, padding := 0 }
  else if size < MacConfig.minFrame then
    { f with uid, size := MacConfig.minFrame, padding := MacConfig.minFrame - size }
  else { f with uid, size, padding := 0 }

/-- `sendDown`. -/
def sendDown (m : Mac8023 R) (f : Frame) : Option (Mac8023 R) :=
  if !cfg.initialized then none
  else if ¬ cfg.Short then none
  else
    let p := framed f m.frames
    let m := { m with
      callback := some m.frames
      frames := m.frames + 1
      mhRetx := { m.mhRetx with p := some p } }
    m.transmit cfg now p

/-- The upper layer has been called, and may send a frame: a new one only after the callback of
the one before. -/
def react (m : Mac8023 R) : Option Frame → Option (Mac8023 R)
  | some f => if m.callback = none then m.sendDown cfg now f else some m
  | none => some m

/-- `resume`; `next` is the frame that the upper layer sends when it is called back. -/
def resume (next : Option Frame) (m : Mac8023 R) : Option (Mac8023 R) :=
  if m.mhRecv.busy ∨ m.mhSend.busy ∨ m.mhIFS.busy then none
  else
    let m := { m with state := .idle }
    match m.mhRetx.p with
    | some f => if m.mhRetx.busy then some m else m.transmit cfg now f
    | none =>
        match m.callback with
        | some u =>
            if m.mhRetx.busy then some m
            else { m.note (.called u) with callback := none }.react cfg now next
        | none => some m

/-! ### Receiving -/

/-- The own side of a collision while sending: back off, or give up. -/
def backOff (rnd : Nat) (m : Mac8023 R) : Option (Mac8023 R) :=
  if m.mhRetx.busy then some m
  else do
    let x ← m.retxSchedule cfg now rnd cfg.jamTime
    if x.1 then some x.2
    else
      -- drop if backed off far enough
      let p ← x.2.mhRetx.p
      let p := { p with size := p.size - (MacConfig.etherHdrLen + p.padding) }
      (x.2.note (.dropped p)).retxReset

/-- The transmission that the collision ends. -/
def cutShort (m : Mac8023 R) : Option (Mac8023 R) :=
  match m.mhSend.p with
  | some p => (m.note (.collided p.uid)).sendCancel
  | none => m.sendCancel

/-- `collision` in the sending state. -/
def collideSending (rnd : Nat) (m : Mac8023 R) (f : Frame) : Option (Mac8023 R) := do
  let m := if cfg.trace then m.note (.jammed f) else m
  let m ← (if m.mhSend.busy then m.cutShort else some m)
  m.backOff cfg now rnd

/-- `collision`. -/
def collision (rnd : Nat) (m : Mac8023 R) (f : Frame) : Option (Mac8023 R) := do
  let m ← (if m.mhIFS.busy then m.ifsCancel else some m)
  let m ← m.ifsSchedule now cfg.jamTime
  match m.state with
  | .send => m.collideSending cfg now rnd f
  | .recv => if m.mhRecv.busy then m.recvCancel else some m
  | .idle => none

/-- The last lines of `sendUp`. -/
def takeIn (rnd : Nat) (m : Mac8023 R) (f : Frame) : Option (Mac8023 R) :=
  if m.state = .idle then
    { m with state := .recv }.recvSchedule now (cfg.txtime f.size) f
  else
    -- received packet while sending or receiving
    m.collision cfg now rnd f

/-- `sendUp`: the first bit of a frame has arrived. -/
def sendUp (rnd : Nat) (next : Option Frame) (m : Mac8023 R) (f : Frame) : Option (Mac8023 R) :=
  if m.state ≠ .idle ∧ m.mhIFS.busy then
    if m.mhIFS.expire - now > cfg.eps then some m
    else do
      -- IFS is about to expire now
      let m ← m.ifsCancel
      let m ← m.resume cfg now next
      m.takeIn cfg now rnd f
  else m.takeIn cfg now rnd f

/-- The frame on its way to the upper layer: filtered by address, stripped and checked; `next` is
the frame that the upper layer sends when it gets this one. -/
def deliver (next : Option Frame) (m : Mac8023 R) (f : Frame) : Option (Mac8023 R) :=
  if f.macDA ≠ MacConfig.bcastAddr ∧ f.macDA ≠ cfg.index then some m
  else
    let f := { f with size := f.size - (MacConfig.etherHdrLen + f.padding) }
    if f.error then some m else (m.note (.up f)).react cfg now next

/-- `recv_complete`. -/
def recvComplete (next : Option Frame) (m : Mac8023 R) (f : Frame) : Option (Mac8023 R) :=
  if m.mhRecv.busy ∨ m.mhSend.busy then none
  else do
    let m ← m.deliver cfg now next f
    -- wait for one IFS, then resume
    m.ifsSchedule now cfg.ifsTime

/-! ### The timers expire -/

/-- `Mac8023HandlerSend::handle`. -/
def sendHandle (m : Mac8023 R) : Option (Mac8023 R) := do
  let f ← m.mhSend.p
  -- Transmission completed successfully
  let m := { m.note (.ended f.uid) with mhSend := { m.mhSend with busy := false, p := none } }
  let m ← m.retxFree.retxReset
  m.ifsSchedule now cfg.ifsTime

/-- `MacHandlerRecv::handle`. -/
def recvHandle (next : Option Frame) (m : Mac8023 R) : Option (Mac8023 R) := do
  let f ← m.mhRecv.p
  let m ← { m with mhRecv := { m.mhRecv with busy := false } }.recvComplete cfg now next f
  some { m with mhRecv := { m.mhRecv with p := none } }

/-- `MacHandlerRetx::handle`. -/
def retxHandle (m : Mac8023 R) : Option (Mac8023 R) := do
  let f ← m.mhRetx.p
  { m with mhRetx := { m.mhRetx with busy := false, tries := m.mhRetx.tries + 1 } }.transmit
    cfg now f

/-- `MacHandlerIFS::handle`. -/
def ifsHandle (next : Option Frame) (m : Mac8023 R) : Option (Mac8023 R) :=
  { m with mhIFS := { m.mhIFS with busy := false } }.resume cfg now next

end Handlers

/-! ### Runs -/

/-- What happens to the MAC, and when: the upper layer sends a frame, the first bit of a frame
arrives, or a timer expires.  `next` is the frame that the upper layer sends if it is called
meanwhile, and `rnd` is drawn for a back-off. -/
inductive Event (R : Type) where
  | send (now : R) (f : Frame)
  | firstBit (now : R) (rnd : Nat) (next : Option Frame) (f : Frame)
  | sendTimer (now : R)
  | recvTimer (now : R) (next : Option Frame)
  | retxTimer (now : R)
  | ifsTimer (now : R) (next : Option Frame)

/-- The upper layer waits for the callback, and only a timer that is pending expires.  This is more
than the scheduler allows, which has the timers expire in the order of their times. -/
def Allows (m : Mac8023 R) : Event R → Prop
  | .send _ _ => m.callback = none
  | .firstBit _ _ _ _ => True
  | .sendTimer _ => m.mhSend.busy = true
  | .recvTimer _ _ => m.mhRecv.busy = true
  | .retxTimer _ => m.mhRetx.busy = true
  | .ifsTimer _ _ => m.mhIFS.busy = true

/-- The MAC as it is constructed. -/
structure Fresh (m : Mac8023 R) : Prop where
  state : m.state = .idle
  callback : m.callback = none
  send : m.mhSend.busy = false ∧ m.mhSend.p = none
  recv : m.mhRecv.busy = false
  retx : m.mhRetx.busy = false ∧ m.mhRetx.p = none ∧ m.mhRetx.tries = 1
  ifs : m.mhIFS.busy = false
  frames : m.frames = 0
  log : m.log = []

variable [LT R] [DecidableLT R] [Add R] [Sub R] [Mul R] [NatCast R] (cfg : MacConfig R)

def step (m : Mac8023 R) : Event R → Option (Mac8023 R)
  | .send now f => m.sendDown cfg now f
  | .firstBit now rnd next f => m.sendUp cfg now rnd next f
  | .sendTimer now => m.sendHandle cfg now
  | .recvTimer now next => m.recvHandle cfg now next
  | .retxTimer now => m.retxHandle cfg now
  | .ifsTimer now next => m.ifsHandle cfg now next

inductive Reach : Mac8023 R → Prop
  | init {m : Mac8023 R} (h : m.Fresh) : Reach m
  | step {m m' : Mac8023 R} (h : Reach m) (e : Event R) (ha : m.Allows e)
      (he : m.step cfg e = some m') : Reach m'

end Mac8023

end Afabric
