import Mathlib.Data.Rat.Floor

/-!
# Mcast — an SRM agent

`SRMAgent` (`mcast/srm.cc`, `mcast/srm.h`) with the Tcl half of `Agent/SRM` and its `SRM/request`
and `SRM/repair` objects (`tcl/mcast/srm.tcl`).  The C++ half keeps the highest message id heard of
for each sender and a bit vector; the Tcl half keeps one object in `pending_` for a message that is
being asked for or repaired.

A Tcl error or a failed `assert` ends the run (`SrmFault`).  Times are rationals.  Averages, traces
and logs are not modelled, and of the agent's own sending only its control messages.
-/

namespace Afabric

/-- `<sender:msgid>`, the index of `pending_`, `done_` and `old_`. -/
abbrev SrmKey := Int × Int

inductive SrmFault where
  /-- `Oy vey!  How did we get here?` -/
  | oyVey
  /-- `duplicate loss detection in agent` -/
  | dupLoss
  /-- `duplicate repair detection in agent??  really??` -/
  | dupRepair
  /-- `assert(miss)` -/
  | miss
  /-- `assert(id >= 0)` -/
  | negative
  /-- A command to an object that has been deleted. -/
  | noObject
  /-- `unset` of an element that `pending_` does not have. -/
  | noPending
  /-- `ignore_` is read before it is set. -/
  | noIgnore
deriving DecidableEq, Repr

/-- `SRMinfo`. -/
structure SrmInfo where
  lsess : Int
  sendTime : Int
  recvTime : Int
  distance : ℚ
  ldata : Int
  received : Int → Bool

namespace SrmInfo

def new : SrmInfo where
  lsess := -1
  sendTime := 0
  recvTime := 0
  distance := 1
  ldata := -1
  received := fun _ => false

def ifReceived (sp : SrmInfo) (id : Int) : Except SrmFault Bool :=
  if 0 ≤ id then .ok (sp.received id) else .error .negative

def setReceived (sp : SrmInfo) (id : Int) : Except SrmFault SrmInfo :=
  if 0 ≤ id then .ok { sp with received := Function.update sp.received id true }
  else .error .negative

/-- The loop of `SRMAgent::request`, over the `n` ids from `i` on. -/
def missing (sp : SrmInfo) (i : Int) : ℕ → Except SrmFault (List Int)
  | 0 => .ok []
  | n + 1 => do
      let received ← sp.ifReceived i
      let msgids ← sp.missing (i + 1) n
      return if received then msgids else i :: msgids

end SrmInfo

inductive SrmKind where
  | request
  | repair
deriving DecidableEq, Repr

/-- An `SRM/request` or an `SRM/repair`.  `distance` is `times_(distance)`; `delay`, `ignore` and
the backoff are those of a request, and the requestor that of a repair. -/
structure SrmObject where
  kind : SrmKind
  sender : Int
  msgid : Int
  round : ℕ
  sent : ℕ
  eventID : Option ℕ
  distance : ℚ
  delay : ℚ
  ignore : Option ℚ
  backoff : ℕ
  backoffCtr : ℕ
  requestor : Int

namespace SrmObject

def key (o : SrmObject) : SrmKey := (o.sender, o.msgid)

/-- The node whose distance the timers of the object go by. -/
def node (o : SrmObject) : Int :=
  match o.kind with
  | .request => o.sender
  | .repair => o.requestor

end SrmObject

/-- The commands that are scheduled with `$ns_ at`; an object has a number for a name. -/
inductive SrmCommand where
  | sendRequest (obj : ℕ)
  | sendRepair (obj : ℕ)
  | clear (obj : ℕ) (s m : Int)
  | cleanup
deriving DecidableEq, Repr

structure SrmAt where
  uid : ℕ
  time : ℚ
  command : SrmCommand

/-- A block of a session message. -/
structure SrmBlock where
  sender : Int
  dataCnt : Int
  rtime : Int
  stime : Int
deriving DecidableEq, Repr

/-- The messages of SRM; the first block of a session message is its sender's. -/
inductive SrmMsg where
  | data (sender msgid : Int)
  | rqst (requestor round sender msgid : Int)
  | repr (round sender msgid : Int)
  | sess (sessCtr : Int) (first : SrmBlock) (blocks : List SrmBlock)
deriving DecidableEq, Repr

/-- The agent's variables that do not change, `distanceCompute_`, and what `uniform 0 1` yields. -/
structure SrmConfig where
  addr : Int
  packetSize : Int
  c1 : ℚ
  c2 : ℚ
  d1 : ℚ
  d2 : ℚ
  requestBackoffLimit : ℕ
  distanceCompute : ℚ → ℚ → ℚ
  uniform : ℕ → ℚ

/-- `SRMAgent` with its Tcl variables, the objects, and the commands scheduled.  `out` are the
control messages sent, with their sizes. -/
structure SrmAgent where
  info : Int → SrmInfo
  pending : SrmKey → Option ℕ
  done : List (SrmKey × ℕ)
  old : SrmKey → Option ℕ
  dupReq : ℤ
  dupRep : ℤ
  objects : ℕ → Option SrmObject
  created : ℕ
  queue : List SrmAt
  uids : ℕ
  draws : ℕ
  out : List (SrmMsg × Int)

namespace SrmAgent

/-- The agent after `start`. -/
def start (cfg : SrmConfig) : SrmAgent where
  info := Function.update (fun _ => .new) cfg.addr { SrmInfo.new with distance := 0 }
  pending := fun _ => none
  done := []
  old := fun _ => none
  dupReq := -1
  dupRep := -1
  objects := fun _ => none
  created := 0
  queue := []
  uids := 0
  draws := 0
  out := []

def setInfo (a : SrmAgent) (sender : Int) (sp : SrmInfo) : SrmAgent :=
  { a with info := Function.update a.info sender sp }

/-- `sp->ldata_ = msgid`. -/
def setLdata (a : SrmAgent) (sender msgid : Int) : SrmAgent :=
  a.setInfo sender { a.info sender with ldata := msgid }

/-! ### Objects and the scheduler -/

def find (a : SrmAgent) (id : ℕ) : Except SrmFault SrmObject :=
  match a.objects id with
  | some o => .ok o
  | none => .error .noObject

def put (a : SrmAgent) (id : ℕ) (o : SrmObject) : SrmAgent :=
  { a with objects := Function.update a.objects id (some o) }

def delete (a : SrmAgent) (id : ℕ) : Except SrmFault SrmAgent := do
  let _ ← a.find id
  return { a with objects := Function.update a.objects id none }

/-- `set pending_($sender:$msgid) [new …]`. -/
def setPending (a : SrmAgent) (o : SrmObject) : SrmAgent :=
  { a.put a.created o with
    pending := Function.update a.pending o.key (some a.created)
    created := a.created + 1 }

/-- `$ns_ at`; the event is `a.uids`. -/
def nsAt (a : SrmAgent) (time : ℚ) (command : SrmCommand) : SrmAgent :=
  { a with queue := a.queue ++ [⟨a.uids, time, command⟩], uids := a.uids + 1 }

/-- `$ns_ cancel`, which does nothing for an event that has been. -/
def nsCancel (a : SrmAgent) (uid : ℕ) : SrmAgent :=
  { a with queue := a.queue.filter fun e => e.uid ≠ uid }

/-! ### `SRM`, `SRM/request` and `SRM/repair` -/

variable (cfg : SrmConfig)

/-- `Agent/SRM round?`. -/
def round? (a : SrmAgent) (k : SrmKey) : ℕ := (a.old k).getD 0

/-- `SRM distance?`: what it returns, and what it leaves in `times_(distance)`. -/
def distance? (a : SrmAgent) (o : SrmObject) : ℚ :=
  cfg.distanceCompute o.distance (a.info o.node).distance

/-- `new` and `set-params` of an object. -/
def newObject (a : SrmAgent) (kind : SrmKind) (requestor sender msgid : Int) : SrmObject :=
  let o : SrmObject :=
    { kind, sender, msgid, requestor
      round := a.round? (sender, msgid)
      sent := 0
      eventID := none
      distance := -1
      delay := 0
      ignore := none
      backoff := 1
      backoffCtr := 0 }
  { o with distance := a.distance? cfg o }

/-- `SRM cancel`. -/
def cancel (a : SrmAgent) (id : ℕ) : Except SrmFault SrmAgent := do
  let o ← a.find id
  match o.eventID with
  | some uid => return (a.nsCancel uid).put id { o with eventID := none }
  | none => return a

/-- `backoff_` after `SRM/request backoff?`, which returns the one before. -/
def nextBackoff (o : SrmObject) : ℕ :=
  if o.backoffCtr + 1 ≤ cfg.requestBackoffLimit then o.backoff + o.backoff else o.backoff

/-- `schedule`, with `compute-delay`. -/
def schedule (a : SrmAgent) (now : ℚ) (id : ℕ) : Except SrmFault SrmAgent := do
  let o ← a.find id
  let dist := a.distance? cfg o
  let a' := { a with draws := a.draws + 1 }
  match o.kind with
  | .request =>
      let delay := (cfg.c1 + cfg.c2 * cfg.uniform a.draws) * dist * o.backoff
      return (a'.nsAt (now + delay) (.sendRequest id)).put id
        { o with
          round := o.round + 1
          distance := dist
          delay := delay
          backoff := nextBackoff cfg o
          backoffCtr := o.backoffCtr + 1
          eventID := some a.uids }
  | .repair =>
      let delay := (cfg.d1 + cfg.d2 * cfg.uniform a.draws) * dist
      return (a'.nsAt (now + delay) (.sendRepair id)).put id
        { o with round := o.round + 1, distance := dist, eventID := some a.uids }

/-- `dup-request?`. -/
def dupRequest? (a : SrmAgent) (now : ℚ) (id : ℕ) : Except SrmFault ℤ := do
  let o ← a.find id
  match o.kind with
  | .request =>
      if o.round = 2 then
        match o.ignore with
        | some t => return if now ≤ t then 1 else 0
        | none => throw .noIgnore
      else return 0
  | .repair => return 0

/-- `dup-repair?`. -/
def dupRepair? (a : SrmAgent) (id : ℕ) : Except SrmFault ℤ := do
  let o ← a.find id
  match o.kind with
  | .request => return 0
  | .repair => return if o.round = 1 then 1 else 0

/-- `recv-request` of an object. -/
def objRecvRequest (a : SrmAgent) (now : ℚ) (id : ℕ) : Except SrmFault SrmAgent := do
  let o ← a.find id
  match o.kind with
  | .request =>
      if o.ignore.any fun t => now < t then return a
      else
        let a ← a.cancel id
        let a ← a.schedule cfg now id
        let o ← a.find id
        return a.put id { o with ignore := some (now + o.delay / 2) }
  | .repair => return a

/-- `recv-repair` of an object: `ignore_` of a request is `holdDown` of a repair. -/
def objRecvRepair (a : SrmAgent) (now : ℚ) (id : ℕ) : Except SrmFault SrmAgent := do
  let o ← a.find id
  match o.eventID with
  | some _ =>
      let dist := a.distance? cfg o
      let holdDown := now + 3 * dist
      let ignore := match o.kind with
        | .request => some holdDown
        | .repair => o.ignore
      ((a.put id { o with distance := dist, ignore := ignore }).nsAt holdDown
        (.clear id o.sender o.msgid)).cancel id
  | none => return a

/-- `send-request`. -/
def sendRequest (a : SrmAgent) (id : ℕ) : Except SrmFault SrmAgent := do
  let o ← a.find id
  return { a.put id { o with sent := o.round } with
    out := a.out ++ [(.rqst cfg.addr o.round o.sender o.msgid, 0)] }

/-- `send-repair`. -/
def sendRepair (a : SrmAgent) (id : ℕ) : Except SrmFault SrmAgent := do
  let o ← a.find id
  return { a.put id { o with sent := o.round } with
    out := a.out ++ [(.repr o.round o.sender o.msgid, cfg.packetSize)] }

/-! ### `Agent/SRM` -/

/-- `recv-data`. -/
def tclRecvData (a : SrmAgent) (now : ℚ) (sender msgid : Int) : Except SrmFault SrmAgent :=
  match a.pending (sender, msgid) with
  | none => .error .oyVey
  | some id => do
      let o ← a.find id
      if o.round = 1 then
        let a ← a.cancel id
        let a ← a.delete id
        return { a with pending := Function.update a.pending (sender, msgid) none }
      else a.objRecvRepair cfg now id

/-- A round of `request`. -/
def detect (now : ℚ) (sender : Int) (a : SrmAgent) (msgid : Int) : Except SrmFault SrmAgent :=
  if (a.pending (sender, msgid)).isSome then .error .dupLoss
  else (a.setPending (a.newObject cfg .request 0 sender msgid)).schedule cfg now a.created

/-- `request`.  `old_` is no variable of this procedure, so `newReq` counts them all. -/
def tclRequest (a : SrmAgent) (now : ℚ) (sender : Int) (msgids : List Int) :
    Except SrmFault SrmAgent := do
  let a ← msgids.foldlM (detect cfg now sender) a
  return if msgids.length ≠ 0 then { a with dupReq := 0 } else a

/-- `repair`. -/
def repair (a : SrmAgent) (now : ℚ) (requestor sender msgid : Int) : Except SrmFault SrmAgent :=
  if (a.pending (sender, msgid)).isSome then .error .dupRepair
  else do
    let o := a.newObject cfg .repair requestor sender msgid
    let a ← (a.setPending o).schedule cfg now a.created
    return { a with dupRep := 0 }

/-- `recv-request`. -/
def tclRecvRequest (a : SrmAgent) (now : ℚ) (requestor round sender msgid : Int) :
    Except SrmFault SrmAgent :=
  match a.pending (sender, msgid) with
  | some id => do
      let dup ← (if round = 1 then a.dupRequest? now id else .ok 0)
      { a with dupReq := a.dupReq + dup }.objRecvRequest cfg now id
  | none => a.repair cfg now requestor sender msgid

/-- `recv-repair`. -/
def tclRecvRepair (a : SrmAgent) (now : ℚ) (round sender msgid : Int) : Except SrmFault SrmAgent :=
  match a.pending (sender, msgid) with
  | none => .ok a
  | some id => do
      let dup ← (if round = 1 then a.dupRepair? id else .ok 0)
      { a with dupRep := a.dupRep + dup }.objRecvRepair cfg now id

/-- `clear`. -/
def clear (a : SrmAgent) (now : ℚ) (obj : ℕ) (s m : Int) : Except SrmFault SrmAgent := do
  let o ← a.find obj
  if a.pending (s, m) = none then throw .noPending
  else
    let a' := { a with
      done := ((s, m), obj) :: a.done.filter fun d => d.1 ≠ (s, m)
      old := Function.update a.old (s, m) (some o.round)
      pending := Function.update a.pending (s, m) none }
    return if 32 < a'.done.length then a'.nsAt (now + 1 / 100) .cleanup else a'

/-- `cleanup`. -/
def cleanup (a : SrmAgent) : Except SrmFault SrmAgent := do
  let a' ← a.done.foldlM (fun a d => a.delete d.2) a
  return { a' with done := [] }

/-! ### `SRMAgent` -/

/-- `SRMAgent::request`, without the count that it returns. -/
def request (a : SrmAgent) (now : ℚ) (sender hi : Int) : Except SrmFault SrmAgent :=
  let sp := a.info sender
  if hi ≤ sp.ldata then .ok a
  else do
    let msgids ← sp.missing (sp.ldata + 1) (hi - sp.ldata).toNat
    if msgids.length = 0 then throw .miss
    else a.tclRequest cfg now sender msgids

/-- The first branch of `recv_data` and of `recv_repr`. -/
def recvNew (a : SrmAgent) (now : ℚ) (sender msgid : Int) : Except SrmFault SrmAgent := do
  let a ← a.request cfg now sender (msgid - 1)
  let sp ← (a.info sender).setReceived msgid
  return (a.setInfo sender sp).setLdata sender msgid

def recvData (a : SrmAgent) (now : ℚ) (sender msgid : Int) : Except SrmFault SrmAgent :=
  if (a.info sender).ldata < msgid then a.recvNew cfg now sender msgid
  else a.tclRecvData cfg now sender msgid

def recvRqst (a : SrmAgent) (now : ℚ) (requestor round sender msgid : Int) :
    Except SrmFault SrmAgent :=
  if (a.info sender).ldata < msgid then do
    let a ← a.request cfg now sender msgid
    return a.setLdata sender msgid
  else a.tclRecvRequest cfg now requestor round sender msgid

def recvRepr (a : SrmAgent) (now : ℚ) (round sender msgid : Int) : Except SrmFault SrmAgent :=
  if (a.info sender).ldata < msgid then a.recvNew cfg now sender msgid
  else a.tclRecvRepair cfg now round sender msgid

/-- `request(sp, dataCnt)` and the new `ldata_`. -/
def heard (a : SrmAgent) (now : ℚ) (sender dataCnt : Int) : Except SrmFault SrmAgent := do
  let a ← a.request cfg now sender dataCnt
  return if (a.info sender).ldata < dataCnt then a.setLdata sender dataCnt else a

/-- The clock in milliseconds. -/
def ms (now : ℚ) : Int := ⌊now * 1000⌋

/-- A block of `recv_sess` after the first, in a message that `sentBy` sent at `sentAt`. -/
def recvBlock (now : ℚ) (sentBy sentAt : Int) (a : SrmAgent) (b : SrmBlock) :
    Except SrmFault SrmAgent :=
  if b.sender = cfg.addr ∧ ms now ≠ 0 then
    let rtt := (ms now - sentAt) + (b.rtime - b.stime)
    .ok (a.setInfo sentBy { a.info sentBy with distance := (rtt : ℚ) / 2 / 1000 })
  else a.heard cfg now b.sender b.dataCnt

def recvSess (a : SrmAgent) (now : ℚ) (sessCtr : Int) (first : SrmBlock) (blocks : List SrmBlock) :
    Except SrmFault SrmAgent :=
  let sp := a.info first.sender
  if first.sender = cfg.addr then .ok a
  else if sessCtr < sp.lsess then .ok a
  else do
    let a ← (a.setInfo first.sender
      { sp with lsess := sessCtr, recvTime := ms now, sendTime := first.stime }).heard cfg now
        first.sender first.dataCnt
    blocks.foldlM (recvBlock cfg now first.sender first.stime) a

/-- `SRMAgent::recv`. -/
def recv (a : SrmAgent) (now : ℚ) : SrmMsg → Except SrmFault SrmAgent
  | .data sender msgid => a.recvData cfg now sender msgid
  | .rqst requestor round sender msgid => a.recvRqst cfg now requestor round sender msgid
  | .repr round sender msgid => a.recvRepr cfg now round sender msgid
  | .sess sessCtr first blocks => a.recvSess cfg now sessCtr first blocks

/-- A command whose time has come. -/
def dispatch (a : SrmAgent) (now : ℚ) : SrmCommand → Except SrmFault SrmAgent
  | .sendRequest obj => a.sendRequest cfg obj
  | .sendRepair obj => a.sendRepair cfg obj
  | .clear obj s m => a.clear now obj s m
  | .cleanup => a.cleanup

end SrmAgent

/-- What happens to an agent: a message comes, or a scheduled command is due. -/
inductive SrmEvent where
  | recv (now : ℚ) (m : SrmMsg)
  | due (uid : ℕ)
deriving DecidableEq, Repr

/-- One event; a command that is not scheduled is not run. -/
def SrmAgent.step (cfg : SrmConfig) (a : SrmAgent) : SrmEvent → Except SrmFault SrmAgent
  | .recv now m => a.recv cfg now m
  | .due uid =>
      match a.queue.find? fun e => e.uid = uid with
      | some e => (a.nsCancel uid).dispatch cfg e.time e.command
      | none => .ok a

end Afabric
