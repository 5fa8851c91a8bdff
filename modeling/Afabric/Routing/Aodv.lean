import Afabric.Support.Assoc

/-!
# Routing — an AODV agent

`aodv/aodv.cc` as compiled: link-layer detection and local repair are on, gratuitous replies are
off.  Sequence numbers and hop counts are natural numbers, so that they do not wrap.  What a handler
gives is the agent after it and the packets it sends, each with its next hop or none for a broadcast;
an assertion that fails aborts, and there is no result.

Time is left out: that a route has expired, that the limits on route requests let one out, and that
a data packet waits for a route are arguments.  So are the buffered packets, the time to live, the
lists of neighbours, and the soft state and the statistics of route requests.
-/

namespace Afabric

inductive RtFlag where
  | down
  | up
  | inRepair
deriving DecidableEq, Repr

/-- `INFINITY2`. -/
def infinity2 : ℕ := 255

/-- `NETWORK_DIAMETER`, the time to live of a data packet. -/
def networkDiameter : ℕ := 30

structure AodvRtEntry where
  seqno : ℕ
  hops : ℕ
  nexthop : ℕ
  flags : RtFlag
  pclist : List ℕ
deriving DecidableEq, Repr

namespace AodvRtEntry

/-- The entry that `rt_add` makes. -/
def added : AodvRtEntry := ⟨0, infinity2, 0, .down, []⟩

/-- `rt_update`. -/
def rtUpdate (seqnum metric nexthop : ℕ) (rt : AodvRtEntry) : AodvRtEntry :=
  { rt with seqno := seqnum, hops := metric, flags := .up, nexthop := nexthop }

/-- `rt_down`. -/
def rtDown (rt : AodvRtEntry) : AodvRtEntry :=
  if rt.flags = .down then rt
  else { rt with hops := infinity2, flags := .down, nexthop := 0 }

/-- `pc_insert`. -/
def pcInsert (id : ℕ) (rt : AodvRtEntry) : AodvRtEntry :=
  if id ∈ rt.pclist then rt else { rt with pclist := id :: rt.pclist }

/-- `pc_delete` of one precursor. -/
def pcDelete (id : ℕ) (rt : AodvRtEntry) : AodvRtEntry := { rt with pclist := rt.pclist.erase id }

end AodvRtEntry

structure AodvRequest where
  hopCount : ℕ
  bcastId : ℕ
  dst : ℕ
  dstSeqno : ℕ
  src : ℕ
  srcSeqno : ℕ
deriving DecidableEq, Repr

structure AodvReply where
  hopCount : ℕ
  dst : ℕ
  dstSeqno : ℕ
  src : ℕ
deriving DecidableEq, Repr

/-- A packet with what is read of its IP header. -/
inductive AodvPacket where
  | rreq (saddr : ℕ) (rq : AodvRequest)
  | rrep (daddr : ℕ) (rp : AodvReply)
  | rerr (saddr : ℕ) (unreachable : List (ℕ × ℕ))
deriving DecidableEq, Repr

abbrev AodvOut := List (Option ℕ × AodvPacket)

structure Aodv where
  index : ℕ
  seqno : ℕ
  bid : ℕ
  rtable : List (ℕ × AodvRtEntry)
  /-- The broadcast ids heard, each with its source. -/
  bihead : List (ℕ × ℕ)
  /-- The destinations under local repair, one for each timeout to come. -/
  lrtimer : List ℕ

namespace Aodv

def init (id : ℕ) : Aodv := ⟨id, 2, 1, [], [], []⟩

/-- `rt_lookup`. -/
def rtLookup (id : ℕ) (n : Aodv) : Option AodvRtEntry := n.rtable.lookup id

/-- The entry for `id`, which `rt_add` adds if it is not there. -/
def rtEntry (id : ℕ) (n : Aodv) : AodvRtEntry := (n.rtLookup id).getD .added

/-- `n` with the entry for `id` written. -/
def write (id : ℕ) (rt : AodvRtEntry) (n : Aodv) : Aodv :=
  { n with rtable := Assoc.put id rt n.rtable }

/-! ### Sending -/

/-- `sendRequest`; `allowed` says that its limits let the request out. -/
def sendRequest (dst : ℕ) (allowed : Bool) (n : Aodv) : Option (Aodv × AodvOut) :=
  match n.rtLookup dst with
  | none => none
  | some rt =>
      if rt.flags = .up then
        if rt.hops ≠ infinity2 then some (n, []) else none
      else if allowed = false then some (n, [])
      else if (n.seqno + 2) % 2 = 0 then
        some ({ n with bid := n.bid + 1, seqno := n.seqno + 2 },
          [(none, .rreq n.index ⟨1, n.bid, dst, rt.seqno, n.index, n.seqno + 2⟩)])
      else none

/-- `sendReply`. -/
def sendReply (ipdst hopCount rpdst rpseq : ℕ) (n : Aodv) : Option (Aodv × AodvOut) :=
  match n.rtLookup ipdst with
  | none => none
  | some rt => some (n, [(some rt.nexthop, .rrep ipdst ⟨hopCount, rpdst, rpseq, n.index⟩)])

/-- `sendError`, unless there is nothing to tell. -/
def sendError (unreachable : List (ℕ × ℕ)) (n : Aodv) : AodvOut :=
  if unreachable = [] then [] else [(none, .rerr n.index unreachable)]

/-- `pc_insert` on the entry for `dst`. -/
def pcInsert (dst id : ℕ) (n : Aodv) : Aodv :=
  match n.rtLookup dst with
  | none => n
  | some rt => n.write dst (rt.pcInsert id)

/-! ### Link failures -/

/-- The round of `handle_link_failure` for one entry. -/
def failEntry (id : ℕ) (s : Aodv × List (ℕ × ℕ)) (dst : ℕ) : Option (Aodv × List (ℕ × ℕ)) :=
  match s.1.rtLookup dst with
  | none => some s
  | some rt =>
      if rt.hops ≠ infinity2 ∧ rt.nexthop = id then
        if rt.flags = .up ∧ rt.seqno % 2 = 0 then
          some (s.1.write dst (AodvRtEntry.rtDown { rt with seqno := rt.seqno + 1 } |>.pcDelete id),
            s.2 ++ [(dst, rt.seqno + 1)])
        else none
      else some (s.1.write dst (rt.pcDelete id), s.2)

/-- `handle_link_failure`. -/
def handleLinkFailure (id : ℕ) (n : Aodv) : Option (Aodv × AodvOut) :=
  ((n.rtable.map Prod.fst).foldlM (failEntry id) (n, [])).map fun s => (s.1, s.1.sendError s.2)

/-- `nb_delete`. -/
def nbDelete (id : ℕ) (n : Aodv) : Option (Aodv × AodvOut) :=
  if (n.seqno + 2) % 2 = 0 then handleLinkFailure id { n with seqno := n.seqno + 2 } else none

/-- `local_rt_repair`. -/
def localRtRepair (dst : ℕ) (rt : AodvRtEntry) (allowed : Bool) (n : Aodv) :
    Option (Aodv × AodvOut) :=
  sendRequest dst allowed
    { n.write dst { rt with flags := .inRepair } with lrtimer := dst :: n.lrtimer }

/-- `rt_ll_failed` for a data packet. -/
def rtLlFailed (nextHop daddr numForwards : ℕ) (allowed : Bool) (n : Aodv) :
    Option (Aodv × AodvOut) :=
  match n.rtLookup daddr with
  | none => some (n, [])
  | some rt =>
      if rt.hops < numForwards then localRtRepair daddr rt allowed n else nbDelete nextHop n

/-- `LocalRepairTimer::handle`. -/
def repairTimeout (daddr : ℕ) (n : Aodv) : Option (Aodv × AodvOut) :=
  if daddr ∈ n.lrtimer then
    let n := { n with lrtimer := n.lrtimer.erase daddr }
    match n.rtLookup daddr with
    | none => some (n, [])
    | some rt => if rt.flags ≠ .up then some (n.write daddr rt.rtDown, []) else some (n, [])
  else none

/-! ### Routes -/

/-- `rt_resolve`. -/
def rtResolve (saddr daddr : ℕ) (allowed : Bool) (n : Aodv) : Option (Aodv × AodvOut) :=
  let rt := n.rtEntry daddr
  let n := n.write daddr rt
  if rt.flags = .up then
    if rt.hops ≠ infinity2 then some (n, []) else none
  else if saddr = n.index then n.sendRequest daddr allowed
  else if rt.flags = .inRepair then some (n, [])
  else some (n, n.sendError [(daddr, rt.seqno)])

/-- The round of `rt_purge` for one entry. -/
def purgeEntry (expired waiting : List ℕ) (s : Aodv × AodvOut) (dst : ℕ) :
    Option (Aodv × AodvOut) :=
  match s.1.rtLookup dst with
  | none => some s
  | some rt =>
      if rt.flags = .up ∧ dst ∈ expired then
        if rt.hops ≠ infinity2 ∧ (rt.seqno + 1) % 2 = 1 then
          some (s.1.write dst (AodvRtEntry.rtDown { rt with seqno := rt.seqno + 1 }), s.2)
        else none
      else if rt.flags = .up then
        if rt.hops ≠ infinity2 then some s else none
      else if dst ∈ waiting then (s.1.sendRequest dst true).map fun r => (r.1, s.2 ++ r.2)
      else some s

/-- `rt_purge`; `waiting` are the destinations for which packets wait and a request is let out. -/
def rtPurge (expired waiting : List ℕ) (n : Aodv) : Option (Aodv × AodvOut) :=
  (n.rtable.map Prod.fst).foldlM (purgeEntry expired waiting) (n, [])

/-- `id_purge`. -/
def idPurge (expired : List (ℕ × ℕ)) (n : Aodv) : Option (Aodv × AodvOut) :=
  some ({ n with bihead := n.bihead.filter fun b => b ∉ expired }, [])

/-! ### Packets received -/

/-- The reverse route of a request. -/
def reverseRoute (saddr : ℕ) (rq : AodvRequest) (n : Aodv) : Aodv :=
  let rt0 := n.rtEntry rq.src
  n.write rq.src
    (if rt0.seqno < rq.srcSeqno ∨ (rq.srcSeqno = rt0.seqno ∧ rq.hopCount < rt0.hops) then
      rt0.rtUpdate rq.srcSeqno rq.hopCount saddr
    else rt0)

/-- The sequence number with which the destination answers. -/
def replySeqno (seqno dstSeqno : ℕ) : ℕ :=
  let s := max seqno dstSeqno + 1
  if s % 2 ≠ 0 then s + 1 else s

/-- The precursors that a reply of `n` in the place of the destination adds. -/
def addPrecursors (src dst : ℕ) (n : Aodv) : Aodv :=
  let n := n.pcInsert dst (n.rtEntry src).nexthop
  n.pcInsert src (n.rtEntry dst).nexthop

/-- The reply to a request, or the request that is sent on. -/
def answer (rq : AodvRequest) (n : Aodv) : Option (Aodv × AodvOut) :=
  if rq.dst = n.index then
    let seqno := replySeqno n.seqno rq.dstSeqno
    sendReply rq.src 1 n.index seqno { n with seqno := seqno }
  else
    match n.rtLookup rq.dst with
    | some rt =>
        if rt.hops ≠ infinity2 ∧ rq.dstSeqno ≤ rt.seqno then
          (n.sendReply rq.src (rt.hops + 1) rq.dst rt.seqno).map fun r =>
            (r.1.addPrecursors rq.src rq.dst, r.2)
        else
          some (n, [(none, .rreq n.index
            { rq with hopCount := rq.hopCount + 1, dstSeqno := max rt.seqno rq.dstSeqno })])
    | none => some (n, [(none, .rreq n.index { rq with hopCount := rq.hopCount + 1 })])

/-- `recvRequest`. -/
def recvRequest (saddr : ℕ) (rq : AodvRequest) (n : Aodv) : Option (Aodv × AodvOut) :=
  if rq.src = n.index ∨ (rq.src, rq.bcastId) ∈ n.bihead then some (n, [])
  else
    answer rq (reverseRoute saddr rq { n with bihead := (rq.src, rq.bcastId) :: n.bihead })

/-- The reply that is sent on towards the source of the request. -/
def forwardReply (daddr : ℕ) (rp : AodvReply) (n : Aodv) : Option (Aodv × AodvOut) :=
  match n.rtLookup daddr with
  | none => some (n, [])
  | some rt0 =>
      if rt0.hops ≠ infinity2 then
        if rt0.flags = .up then
          some (n.pcInsert rp.dst rt0.nexthop,
            [(some rt0.nexthop, .rrep daddr { rp with hopCount := rp.hopCount + 1, src := n.index })])
        else none
      else some (n, [])

/-- `recvReply`. -/
def recvReply (daddr : ℕ) (rp : AodvReply) (n : Aodv) : Option (Aodv × AodvOut) :=
  let rt := n.rtEntry rp.dst
  if rt.seqno < rp.dstSeqno ∨ (rt.seqno = rp.dstSeqno ∧ rp.hopCount < rt.hops) then
    let n := n.write rp.dst (rt.rtUpdate rp.dstSeqno rp.hopCount rp.src)
    if daddr = n.index then some (n, []) else forwardReply daddr rp n
  else some (n.write rp.dst rt, [])

/-- The round of `recvError` for one unreachable destination. -/
def errorEntry (saddr : ℕ) (s : Aodv × List (ℕ × ℕ)) (u : ℕ × ℕ) :
    Option (Aodv × List (ℕ × ℕ)) :=
  match s.1.rtLookup u.1 with
  | none => some s
  | some rt =>
      if rt.hops ≠ infinity2 ∧ rt.nexthop = saddr ∧ rt.seqno ≤ u.2 then
        if rt.flags = .up ∧ rt.seqno % 2 = 0 then
          let rt := AodvRtEntry.rtDown { rt with seqno := u.2 }
          if rt.pclist = [] then some (s.1.write u.1 rt, s.2)
          else some (s.1.write u.1 { rt with pclist := [] }, s.2 ++ [(u.1, u.2)])
        else none
      else some s

/-- `recvError`. -/
def recvError (saddr : ℕ) (unreachable : List (ℕ × ℕ)) (n : Aodv) : Option (Aodv × AodvOut) :=
  (unreachable.foldlM (errorEntry saddr) (n, [])).map fun s => (s.1, s.1.sendError s.2)

/-- `recvAODV`. -/
def recvAODV (n : Aodv) : AodvPacket → Option (Aodv × AodvOut)
  | .rreq saddr rq => n.recvRequest saddr rq
  | .rrep daddr rp => n.recvReply daddr rp
  | .rerr saddr unreachable => n.recvError saddr unreachable

end Aodv

end Afabric
