import Afabric.Support.RingBuffer

/-!
# Tcp — the cache of snoop

`Snoop` of `snoop.cc` for the data that goes to a wireless host: `snoop_data`, `snoop_ack` and the
timeout of `SnoopRxmitHandler`, over the ring `pkts_` of cached copies.  A copy is known by a number
of its own, which stands for its address; `toutPending_` is one of them.

The clock is left out: the times and estimates kept with the copies only set how long a timeout
waits, and a timeout may come at any time here.  Null pointers have no result.
-/

namespace Afabric

open RingBuffer

namespace Snoop

def SNOOP_ACTIVE : BitVec 16 := 0x01

def SNOOP_CLOSED : BitVec 16 := 0x02

def SNOOP_NOACK : BitVec 16 := 0x04

def SNOOP_FULL : BitVec 16 := 0x08

def SNOOP_ALIVE : BitVec 16 := 0x20

def SNOOP_MAXWIND : ℕ := 100

def SNOOP_MAX_RXMIT : ℕ := 10

def RTX_THRESH : ℕ := 1

end Snoop

open Snoop

/-- A cached copy with its `hdr_snoop`; its TCP header has the same sequence number. -/
structure SnoopPkt where
  ptr : ℕ
  seqno : ℤ
  numRxmit : ℕ := 0
  senderRxmit : Bool := false
deriving DecidableEq

/-- The bound variables.  `pkts_` has `SNOOP_MAXWIND` places. -/
structure SnoopConfig where
  maxbufs : ℕ := SNOOP_MAXWIND
  lru : Bool := false
  maxbufs_pos : 0 < maxbufs := by decide
  maxbufs_le : maxbufs ≤ SNOOP_MAXWIND := by decide

structure Snoop where
  fstate : BitVec 16 := 0
  lastSeen : ℤ := -1
  lastAck : ℤ := -1
  expNextAck : ℤ := 0
  expDupacks : ℤ := 0
  bufhead : ℕ := 0
  buftail : ℕ := 0
  toutPending : Option ℕ := none
  pkts : ℕ → Option SnoopPkt := fun _ => none
  /-- The number of the next copy. -/
  fresh : ℕ := 0

/-- What is done with an ack. -/
inductive SnoopVerdict where
  | propagate
  | suppress
deriving DecidableEq

inductive SnoopEvent where
  /-- `snoop_data`; `room` when the interface queue is shorter than its limit less one. -/
  | data (seq : ℤ) (room : Bool)
  /-- `snoop_ack`; `thresh` is a static variable, shared by every agent. -/
  | ack (ack : ℤ) (thresh : ℕ)
  | timeout
deriving DecidableEq

namespace Snoop

/-- A flag of `fstate_` is set. -/
def has (s : Snoop) (f : BitVec 16) : Bool := s.fstate &&& f != 0

def set (s : Snoop) (f : BitVec 16) : Snoop := { s with fstate := s.fstate ||| f }

def clear (s : Snoop) (f : BitVec 16) : Snoop := { s with fstate := s.fstate &&& ~~~f }

/-- `empty_`. -/
def empty (s : Snoop) : Bool := s.bufhead = s.buftail ∧ s.has SNOOP_FULL = false

def write (s : Snoop) (i : ℕ) (p : Option SnoopPkt) : Snoop :=
  { s with pkts := Function.update s.pkts i p }

/-- `reset`. -/
def reset (s : Snoop) : Snoop := { fresh := s.fresh }

section Insert

variable (C : SnoopConfig)

/-- `fstate_ |= ~SNOOP_FULL`, once the tail is freed. -/
def makeRoom (s : Snoop) : Option Snoop :=
  if s.has SNOOP_FULL then
    match s.pkts s.buftail with
    | none => none
    | some _ =>
      some ({ s.write s.buftail none with buftail := next C.maxbufs s.buftail }.set (~~~SNOOP_FULL))
  else some s

/-- Where the search of `snoop_insert` ends. -/
inductive Place where
  | cached (i : ℕ) (p : SnoopPkt)
  | before (i : ℕ)
  | bufhead

/-- `for (i = buftail_; i != bufhead_; i = next(i))`. -/
def search (s : Snoop) (seq : ℤ) : ℕ → ℕ → Option Place
  | 0, _ => none
  | fuel + 1, i =>
    if i = s.bufhead then some .bufhead
    else
      match s.pkts i with
      | none => none
      | some p =>
        if p.seqno = seq then some (.cached i p)
        else if seq < p.seqno then some (.before i)
        else search s seq fuel (next C.maxbufs i)

/-- `savepkt_`, with the flag of a full cache. -/
def savepkt (s : Snoop) (seq : ℤ) (i : ℕ) : Snoop :=
  { s.write i (some { ptr := s.fresh, seqno := seq }) with
    fresh := s.fresh + 1
    fstate := if s.bufhead = s.buftail then s.fstate ||| SNOOP_FULL else s.fstate }

/-- The end of `snoop_insert`, with the packet's place found. -/
def insertAt (s : Snoop) (seq : ℤ) (i : ℕ) : Bool × Snoop :=
  let s := s.savepkt seq i
  if seq < s.lastSeen then
    let s :=
      if s.buftail = i then
        s.write i ((s.pkts i).map fun p => { p with senderRxmit := true, numRxmit := 0 })
      else s
    (true, { s with expNextAck := s.buftail })
  else (false, { s with lastSeen := seq })

/-- `snoop_insert` of a packet beyond the last ack, once there is room. -/
def insertNew (s : Snoop) (seq : ℤ) : Option (Bool × Snoop) :=
  match s.pkts s.buftail with
  | none => some ({ s with bufhead := next C.maxbufs s.bufhead }.insertAt seq s.bufhead)
  | some tail =>
    if s.lastSeen < seq then
      some ({ s with bufhead := next C.maxbufs s.bufhead }.insertAt seq s.bufhead)
    else if seq < tail.seqno then
      let i := prev C.maxbufs s.buftail
      some ({ s with buftail := i }.insertAt seq i)
    else
      match s.search C seq C.maxbufs s.buftail with
      | none => none
      | some (.cached i p) =>
        some (true, s.write i (some { p with numRxmit := 0, senderRxmit := true }))
      | some (.before i) =>
        let temp := s.pkts (prev C.maxbufs s.buftail)
        match shiftBack C.maxbufs i C.maxbufs s.buftail s.pkts with
        | none => none
        | some pkts =>
          let i := prev C.maxbufs i
          let s := { s with
            pkts := Function.update pkts i temp
            buftail := prev C.maxbufs s.buftail
            bufhead := if i = s.bufhead then next C.maxbufs s.bufhead else s.bufhead }
          some (s.insertAt seq i)
      | some .bufhead =>
        some ({ s with bufhead := next C.maxbufs s.bufhead }.insertAt seq s.bufhead)

/-- `snoop_insert`, with whether it returns `SNOOP_TAIL`. -/
def snoopInsert (s : Snoop) (seq : ℤ) : Option (Bool × Snoop) :=
  if seq ≤ s.lastAck then some (false, s)
  else
    match s.makeRoom C with
    | none => none
    | some s => s.insertNew C seq

end Insert

/-- `toutPending_` is set to a copy. -/
def schedule (s : Snoop) (p : SnoopPkt) : Snoop := { s with toutPending := some p.ptr }

/-- The timeout is set for the tail, unless the cache is empty. -/
def scheduleTail (s : Snoop) : Option Snoop :=
  if s.empty then some s
  else
    match s.pkts s.buftail with
    | none => none
    | some p => some (s.schedule p)

/-- The state in which `snoop_data` inserts. -/
def alive (s : Snoop) (seq : ℤ) : Snoop :=
  (if s.has SNOOP_ALIVE ∧ seq = 0 then s.reset else s).set SNOOP_ALIVE

/-- `snoop_data`. -/
def snoopData (C : SnoopConfig) (s : Snoop) (seq : ℤ) (room : Bool) : Option Snoop :=
  let s := s.alive seq
  if s.has SNOOP_FULL ∧ C.lru = false then
    some { s with lastSeen := if s.lastSeen < seq then seq else s.lastSeen }
  else
    match if room then s.snoopInsert C seq else some (false, s) with
    | none => none
    | some (resetPending, s) =>
      let s := if resetPending then { s with toutPending := none } else s
      if s.toutPending.isNone then s.scheduleTail else some s

/-- The loop of `snoop_cleanbufs_`, with the place it stops at. -/
def cleanFrom (C : SnoopConfig) (ack : ℤ) : ℕ → ℕ → Snoop → Option (ℕ × Snoop)
  | 0, _, _ => none
  | fuel + 1, i, s =>
    match s.pkts i with
    | none => none
    | some p =>
      if p.seqno ≤ ack then
        let s := (s.write i none).clear SNOOP_FULL
        if next C.maxbufs i = s.bufhead then some (next C.maxbufs i, s)
        else cleanFrom C ack fuel (next C.maxbufs i) s
      else some (i, s)

/-- The new tail. -/
def cleanTo (s : Snoop) (i : ℕ) : Snoop :=
  if i ≠ s.buftail ∨ s.bufhead ≠ s.buftail then { s.clear SNOOP_FULL with buftail := i } else s

/-- `snoop_cleanbufs_`, once the timeout is cancelled. -/
def cleanbufs (C : SnoopConfig) (s : Snoop) (ack : ℤ) : Option Snoop :=
  if s.empty then some s
  else
    match cleanFrom C ack C.maxbufs s.buftail s with
    | none => none
    | some (i, s) => (s.cleanTo i).scheduleTail

def snoopCleanbufs (C : SnoopConfig) (s : Snoop) (ack : ℤ) : Option Snoop :=
  { s with toutPending := none }.cleanbufs C ack

/-- `snoop_rxmit` of the copy at a place. -/
def snoopRxmit (s : Snoop) (i : ℕ) (p : SnoopPkt) : SnoopVerdict × Snoop :=
  if p.numRxmit < SNOOP_MAX_RXMIT then
    (.suppress, (s.write i (some { p with numRxmit := p.numRxmit + 1 })).schedule p)
  else (.propagate, s)

/-- The dupacks to expect. -/
def dupacksToExpect (s : Snoop) : ℤ :=
  let d := s.bufhead - s.expNextAck
  (if d < 0 then d + SNOOP_MAXWIND else d) - (RTX_THRESH + 1)

/-- `snoop_ack` of a duplicate. -/
def snoopDupack (C : SnoopConfig) (s : Snoop) (ack : ℤ) (thresh : ℕ) : SnoopVerdict × Snoop :=
  match s.pkts s.buftail with
  | none => (.propagate, s)
  | some p =>
    if ack + 1 < p.seqno then (.propagate, s)
    else if s.expDupacks = 0 then
      if thresh < RTX_THRESH ∨ p.senderRxmit then (.propagate, s)
      else
        let s := { s with
          expDupacks := s.dupacksToExpect
          expNextAck := next C.maxbufs s.buftail }
        if p.numRxmit = 0 then s.snoopRxmit s.buftail p else (.propagate, s)
    else if 0 < s.expDupacks then (.suppress, { s with expDupacks := s.expDupacks - 1 })
    else if s.expDupacks = -1 ∧ p.numRxmit < 2 then s.snoopRxmit s.buftail p
    else (.propagate, s)

/-- `snoop_ack`. -/
def snoopAck (C : SnoopConfig) (s : Snoop) (ack : ℤ) (thresh : ℕ) : Option (SnoopVerdict × Snoop) :=
  if s.has SNOOP_CLOSED ∨ ack < s.lastAck then some (.propagate, s)
  else if s.lastAck = ack then some (s.snoopDupack C ack thresh)
  else
    match (s.clear SNOOP_NOACK).snoopCleanbufs C ack with
    | none => none
    | some s =>
      some (.propagate, { s with expDupacks := 0, expNextAck := s.buftail, lastAck := ack })

/-- `SnoopRxmitHandler::handle`. -/
def handle (C : SnoopConfig) (s : Snoop) : Snoop :=
  match s.pkts s.buftail with
  | none => { s with toutPending := none }
  | some p =>
    let s := { s with toutPending := none }
    if p.seqno ≠ s.lastAck + 1 then s
    else if s.bufhead ≠ s.buftail ∨ s.has SNOOP_FULL then
      match s.snoopRxmit s.buftail p with
      | (.suppress, s) => { s with expNextAck := next C.maxbufs s.buftail }
      | (.propagate, s) => s
    else s

def step (C : SnoopConfig) (s : Snoop) : SnoopEvent → Option Snoop
  | .data seq room => s.snoopData C seq room
  | .ack ack thresh => (s.snoopAck C ack thresh).map Prod.snd
  | .timeout => some (s.handle C)

end Snoop

end Afabric
