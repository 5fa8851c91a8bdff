import Afabric.Routing.AodvAsserts
import Afabric.Routing.AodvRqueue

/-!
# Routing — an AODV agent with its send buffer

The handlers of `aodv/aodv.cc` on the routing table of `Aodv` and the buffer of `AodvRqueue`, with
the loops that send or drop what is buffered for a destination, and the assertions in them.  The
fields of a packet and the numbers of the agent are cut to their width when a handler ends; none
compares a number that it has counted up itself.

An assertion fails exactly when a handler comes upon a route that is under local repair: a link
breaks on which it goes, a route error takes it back, or a reply is to be sent along it
(`agent_asserts_iff`).
-/

namespace Afabric

/-- The limits on route requests let one out, make it wait, or give the destination up. -/
inductive RreqLimit where
  | allow
  | wait
  | giveUp
deriving DecidableEq, Repr

/-- A packet as its header holds it. -/
def AodvPacket.cast : AodvPacket → AodvPacket
  | .rreq saddr rq => .rreq saddr
      { rq with hopCount := rq.hopCount % 2 ^ 8, bcastId := rq.bcastId % 2 ^ 32
                dstSeqno := rq.dstSeqno % 2 ^ 32, srcSeqno := rq.srcSeqno % 2 ^ 32 }
  | .rrep daddr rp => .rrep daddr
      { rp with hopCount := rp.hopCount % 2 ^ 8, dstSeqno := rp.dstSeqno % 2 ^ 32 }
  | .rerr saddr unreachable => .rerr saddr unreachable

structure AodvAgent where
  route : Aodv
  rqueue : AodvRqueue

/-- What a handler gives: the agent, the packets of AODV, the data packets with their next hops, and
the data packets that are dropped. -/
structure AodvResult where
  agent : AodvAgent
  out : AodvOut
  forwarded : List (ℕ × ℕ)
  dropped : List ℕ

inductive AodvEvent where
  | recvAODV (p : AodvPacket)
  /-- A data packet of `saddr` to be routed. -/
  | resolve (p saddr : ℕ) (limit : RreqLimit)
  /-- The link layer could not send a data packet to `nextHop`. -/
  | linkFailed (p nextHop numForwards : ℕ) (limit : RreqLimit)
  | repairTimeout (daddr : ℕ)
  | rtPurge (expired : List ℕ) (limit : ℕ → RreqLimit)
  | idPurge (expired : List (ℕ × ℕ))

namespace AodvAgent

def init (id : ℕ) : AodvAgent := ⟨.init id, .init⟩

/-- A bound for the scans of the buffer. -/
def rqFuel : ℕ := 66

/-- `while ((p = rqueue.deque(dst))) …`, where `c` is asserted of every packet; the last number
bounds the rounds. -/
def drain (daddr : ℕ → ℕ) (now : ℚ) (dst : ℕ) (c : Prop) [Decidable c] :
    ℕ → AodvRqueue → Option (List ℕ × AodvRqueue)
  | 0, _ => none
  | k + 1, q => do
      match ← q.dequeDst daddr now rqFuel dst with
      | (none, q) => some ([], q)
      | (some p, q) => if c then (drain daddr now dst c k q).map fun r => (p :: r.1, r.2) else none

/-- `sendRequest` on the buffer: a destination that is given up loses its packets. -/
def giveUp (daddr : ℕ → ℕ) (now : ℚ) (dst : ℕ) (limit : RreqLimit) (q : AodvRqueue) :
    Option (List ℕ × AodvRqueue) :=
  if limit = .giveUp then drain daddr now dst True rqFuel q else some ([], q)

/-- The end of a handler. -/
def finish (q : AodvRqueue) (forwarded : List (ℕ × ℕ)) (dropped : List ℕ) (r : Aodv × AodvOut) :
    AodvResult where
  agent := ⟨{ r.1 with seqno := r.1.seqno % 2 ^ 32, bid := r.1.bid % 2 ^ 32 }, q⟩
  out := r.2.map fun m => (m.1, m.2.cast)
  forwarded := forwarded
  dropped := dropped

/-- `id_insert`. -/
def heard (rq : AodvRequest) (n : Aodv) : Aodv :=
  { n with bihead := (rq.src, rq.bcastId) :: n.bihead }

/-- A request is dropped if it is the agent's own, or has been heard. -/
def Drops (a : AodvAgent) (rq : AodvRequest) : Prop :=
  rq.src = a.route.index ∨ (rq.src, rq.bcastId) ∈ a.route.bihead

instance (a : AodvAgent) (rq : AodvRequest) : Decidable (a.Drops rq) :=
  inferInstanceAs (Decidable (_ ∨ _))

/-- `recvRequest`. -/
def recvRequest (daddr : ℕ → ℕ) (now : ℚ) (saddr : ℕ) (rq : AodvRequest) (a : AodvAgent) :
    Option AodvResult :=
  if a.Drops rq then some (finish a.rqueue [] [] (a.route, []))
  else
    let n := (heard rq a.route).reverseRoute saddr rq
    let rt0 := n.rtEntry rq.src
    if Aodv.TakesRequest rq (a.route.rtEntry rq.src) then
      if rt0.flags = .up then do
        let (ps, q) ← drain daddr now rq.src (rt0.hops ≠ infinity2) rqFuel a.rqueue
        (n.answer rq).map (finish q (ps.map fun p => (rt0.nexthop, p)) [])
      else none
    else (n.answer rq).map (finish a.rqueue [] [])

/-- `recvReply`; a packet that is taken out for a route without an end is lost. -/
def recvReply (daddr : ℕ → ℕ) (now : ℚ) (ipdst : ℕ) (rp : AodvReply) (a : AodvAgent) :
    Option AodvResult :=
  let rt := a.route.rtEntry rp.dst
  if Aodv.TakesReply rp rt then do
    let rt := rt.rtUpdate rp.dstSeqno rp.hopCount rp.src
    let n := a.route.write rp.dst rt
    let (ps, q) ← drain daddr now rp.dst (rt.hops ≠ infinity2 → rt.flags = .up) rqFuel a.rqueue
    let sent := if rt.hops ≠ infinity2 then ps.map fun p => (rt.nexthop, p) else []
    if ipdst = n.index then some (finish q sent [] (n, []))
    else (n.forwardReply ipdst rp).map (finish q sent [])
  else some (finish a.rqueue [] [] (a.route.write rp.dst rt, []))

/-- `recvAODV`. -/
def recvAODV (daddr : ℕ → ℕ) (now : ℚ) (a : AodvAgent) : AodvPacket → Option AodvResult
  | .rreq saddr rq => a.recvRequest daddr now saddr rq
  | .rrep ipdst rp => a.recvReply daddr now ipdst rp
  | .rerr saddr unreachable => (a.route.recvError saddr unreachable).map (finish a.rqueue [] [])

/-- `rt_resolve`. -/
def rtResolve (daddr : ℕ → ℕ) (now : ℚ) (p saddr : ℕ) (limit : RreqLimit) (a : AodvAgent) :
    Option AodvResult := do
  let rt := a.route.rtEntry (daddr p)
  let r ← a.route.rtResolve saddr (daddr p) (limit = .allow)
  if rt.flags = .up then some (finish a.rqueue [(rt.nexthop, p)] [] r)
  else if saddr = a.route.index then
    let q ← a.rqueue.enque now rqFuel p
    let (ps, q) ← giveUp daddr now (daddr p) limit q
    some (finish q [] ps r)
  else if rt.flags = .inRepair then
    let q ← a.rqueue.enque now rqFuel p
    some (finish q [] [] r)
  else some (finish a.rqueue [] [p] r)

/-- `rt_ll_failed` for a data packet. -/
def rtLlFailed (daddr : ℕ → ℕ) (now : ℚ) (p nextHop numForwards : ℕ) (limit : RreqLimit)
    (a : AodvAgent) : Option AodvResult := do
  let r ← a.route.rtLlFailed nextHop (daddr p) numForwards (limit = .allow)
  match a.route.rtLookup (daddr p) with
  | none => some (finish a.rqueue [] [p] r)
  | some rt =>
      if rt.hops < numForwards then
        let q ← a.rqueue.enque now rqFuel p
        let (ps, q) ← giveUp daddr now (daddr p) limit q
        some (finish q [] ps r)
      else some (finish a.rqueue [] [p] r)

/-- What `rt_purge` has done so far. -/
structure Purging where
  sent : Aodv × AodvOut
  q : AodvRqueue
  forwarded : List (ℕ × ℕ)
  dropped : List ℕ

/-- The round of `rt_purge` for one entry. -/
def purgeEntry (daddr : ℕ → ℕ) (now : ℚ) (expired : List ℕ) (limit : ℕ → RreqLimit) (s : Purging)
    (dst : ℕ) : Option Purging :=
  match s.sent.1.rtLookup dst with
  | none => some s
  | some rt =>
      if rt.flags = .up ∧ dst ∈ expired then do
        let r ← Aodv.purgeEntry expired [] s.sent dst
        let (ps, q) ← drain daddr now dst True rqFuel s.q
        some ⟨r, q, s.forwarded, s.dropped ++ ps⟩
      else if rt.flags = .up then do
        let r ← Aodv.purgeEntry expired [] s.sent dst
        let (ps, q) ← drain daddr now dst True rqFuel s.q
        some ⟨r, q, s.forwarded ++ ps.map fun p => (rt.nexthop, p), s.dropped⟩
      else do
        if ← s.q.find daddr rqFuel dst then
          let r ← Aodv.purgeEntry expired (if limit dst = .allow then [dst] else []) s.sent dst
          let (ps, q) ← giveUp daddr now dst (limit dst) s.q
          some ⟨r, q, s.forwarded, s.dropped ++ ps⟩
        else some s

/-- `rt_purge`. -/
def rtPurge (daddr : ℕ → ℕ) (now : ℚ) (expired : List ℕ) (limit : ℕ → RreqLimit) (a : AodvAgent) :
    Option AodvResult :=
  ((a.route.rtable.map Prod.fst).foldlM (purgeEntry daddr now expired limit)
    ⟨(a.route, []), a.rqueue, [], []⟩).map fun s => finish s.q s.forwarded s.dropped s.sent

/-- The handler of an event. -/
def handle (daddr : ℕ → ℕ) (now : ℚ) (a : AodvAgent) : AodvEvent → Option AodvResult
  | .recvAODV p => a.recvAODV daddr now p
  | .resolve p saddr limit => a.rtResolve daddr now p saddr limit
  | .linkFailed p nextHop numForwards limit => a.rtLlFailed daddr now p nextHop numForwards limit
  | .repairTimeout dst => (a.route.repairTimeout dst).map (finish a.rqueue [] [])
  | .rtPurge expired limit => a.rtPurge daddr now expired limit
  | .idPurge expired => (a.route.idPurge expired).map (finish a.rqueue [] [])

/-! ### The buffer -/

variable {daddr : ℕ → ℕ} {now : ℚ} {q : AodvRqueue} {dst p : ℕ} {a : AodvAgent} {e : AodvEvent}
  {c : Prop}

/-- The pointers are in order, and there is room in the bounds of the scans. -/
def Buffers (q : AodvRqueue) : Prop := ∃ l, q.Rep l ∧ l.length ≤ 64

theorem fuel_of_le {l : List ℕ} (hl : l.length ≤ 64) : l.length < rqFuel :=
  Nat.lt_succ_of_le (hl.trans (by decide))

theorem dequeDst_buffers {l : List ℕ} (hq : q.Rep l) (hl : l.length ≤ 64) (daddr : ℕ → ℕ) (now : ℚ)
    (dst : ℕ) :
    ∃ o q' l', q.dequeDst daddr now rqFuel dst = some (o, q') ∧ q'.Rep l' ∧
      l'.length + o.toList.length ≤ l.length := by
  obtain ⟨q', he, h'⟩ := hq.dequeDst daddr now dst (fuel_of_le hl)
  refine ⟨_, q', _, he, h'.rep, ?_⟩
  have hle : (AodvRqueue.young now q.ts l).length ≤ l.length := List.length_filter_le _ _
  cases hx : (AodvRqueue.young now q.ts l).find? (fun p => daddr p = dst) with
  | none =>
      rw [Option.toList_none, List.length_nil, add_zero]
      exact (List.eraseP_sublist.length_le).trans hle
  | some x =>
      have hmem := List.mem_of_find?_eq_some hx
      have hlen := List.length_eraseP_add_one hmem (List.find?_some hx)
      rw [Option.toList_some, List.length_singleton]
      omega

theorem drain_some [Decidable c] {l : List ℕ} {k : ℕ} (hq : q.Rep l) (hl : l.length ≤ 64)
    (hk : l.length < k) (hc : c) :
    ∃ r, drain daddr now dst c k q = some r ∧ Buffers r.2 := by
  induction k generalizing q l with
  | zero => omega
  | succ k ih =>
      obtain ⟨o, q', l', he, hq', hle⟩ := dequeDst_buffers hq hl daddr now dst
      rw [drain, he]
      cases o with
      | none => exact ⟨([], q'), rfl, l', hq', (Nat.le_of_add_right_le hle).trans hl⟩
      | some x =>
          rw [Option.toList_some, List.length_singleton] at hle
          obtain ⟨r, hr, hb⟩ := ih hq' (by omega) (by omega)
          refine ⟨(x :: r.1, r.2), ?_, hb⟩
          simp only [Option.bind_eq_bind, Option.bind_some, if_pos hc, hr, Option.map_some]

theorem Buffers.drain [Decidable c] (hq : Buffers q) (daddr : ℕ → ℕ) (now : ℚ) (dst : ℕ) (hc : c) :
    ∃ r, drain daddr now dst c rqFuel q = some r ∧ Buffers r.2 := by
  obtain ⟨l, hl, hle⟩ := hq
  exact drain_some hl hle (fuel_of_le hle) hc

theorem Buffers.giveUp (hq : Buffers q) (daddr : ℕ → ℕ) (now : ℚ) (dst : ℕ) (limit : RreqLimit) :
    ∃ r, giveUp daddr now dst limit q = some r ∧ Buffers r.2 := by
  rw [AodvAgent.giveUp]
  split_ifs
  · exact hq.drain daddr now dst trivial
  · exact ⟨_, rfl, hq⟩

theorem Buffers.enque (hq : Buffers q) (now : ℚ) (hp : ∀ l, q.Rep l → p ∉ l) :
    ∃ q', q.enque now rqFuel p = some q' ∧ Buffers q' := by
  obtain ⟨l, hl, hle⟩ := hq
  obtain ⟨q', d, l', he, hq', -, hlt, -⟩ := hl.enque now hle (hp l hl)
    (Nat.lt_succ_of_le (Nat.succ_le_succ hle) : _ < rqFuel)
  refine ⟨q', he, _, hq', ?_⟩
  rw [List.length_append, List.length_singleton]
  omega

theorem Buffers.find (hq : Buffers q) (daddr : ℕ → ℕ) (dst : ℕ) : ∃ b, q.find daddr rqFuel dst = some b := by
  obtain ⟨l, hl, hle⟩ := hq
  obtain ⟨prev, hscan, -⟩ := hl.findPacketWithDst daddr dst (fuel_of_le hle)
  exact ⟨_, Option.map_eq_some_iff.mpr ⟨_, hscan, rfl⟩⟩

/-! ### Handlers -/

structure Inv (a : AodvAgent) : Prop where
  sane : a.route.Sane
  buffers : Buffers a.rqueue

/-- A handler ends exactly when `c`, and keeps the invariant. -/
structure Works (c : Prop) (o : Option AodvResult) : Prop where
  isSome_iff : o.isSome ↔ c
  inv : ∀ r, o = some r → r.agent.Inv
  genuine : ∀ r, o = some r → ∀ m ∈ r.out, m.2.Genuine

theorem even_cast {k : ℕ} (h : k % 2 = 0) : k % 2 ^ 32 % 2 = 0 := by
  rw [Nat.mod_mod_of_dvd _ (by decide : 2 ∣ 2 ^ 32), h]

theorem cast_genuine {m : AodvPacket} (hm : m.Genuine) : m.cast.Genuine := by
  cases m with
  | rreq saddr rq => exact even_cast hm
  | rrep ipdst rp => exact even_cast hm
  | rerr saddr us => trivial

theorem works_finish {o : Option (Aodv × AodvOut)} (ho : Aodv.Gives c o) (hq : Buffers q)
    {sent : List (ℕ × ℕ)} {ps : List ℕ} : Works c (o.map (finish q sent ps)) := by
  refine ⟨?_, fun r hr => ?_, fun r hr m hm => ?_⟩
  · rw [Option.isSome_map]
    exact ho.isSome_iff
  · obtain ⟨r', h, rfl⟩ := Option.map_eq_some_iff.mp hr
    exact ⟨(ho.sane r' h).congr rfl (even_cast (ho.sane r' h).seqno), hq⟩
  · obtain ⟨r', h, rfl⟩ := Option.map_eq_some_iff.mp hr
    obtain ⟨m', hm', rfl⟩ := List.mem_map.mp hm
    exact cast_genuine (ho.genuine r' h m' hm')

theorem works_some {n : Aodv} (hn : n.Sane) (hq : Buffers q) {sent : List (ℕ × ℕ)} {ps : List ℕ} :
    Works True (some (finish q sent ps (n, []))) :=
  works_finish (Aodv.Gives.silent hn) hq

theorem works_of_eq {o : Option (Aodv × AodvOut)} {r : Aodv × AodvOut} (ho : Aodv.Gives c o)
    (hr : o = some r) (hq : Buffers q) {sent : List (ℕ × ℕ)} {ps : List ℕ} :
    Works True (some (finish q sent ps r)) :=
  works_finish (.some (ho.sane r hr) (ho.genuine r hr)) hq

theorem Works.congr {c' : Prop} {o : Option AodvResult} (ho : Works c o) (hc : c ↔ c') :
    Works c' o :=
  ⟨ho.isSome_iff.trans hc, ho.inv, ho.genuine⟩

/-- The route that a reply takes, and the agent that has it. -/
def taken (rp : AodvReply) (n : Aodv) : Aodv :=
  n.write rp.dst ((n.rtEntry rp.dst).rtUpdate rp.dstSeqno rp.hopCount rp.src)

/-- The route that is taken is not under repair. -/
theorem underRepair_taken {rp : AodvReply} {n : Aodv} {d : ℕ} :
    (taken rp n).underRepair d = none ↔ (d ≠ rp.dst → n.underRepair d = none) := by
  rw [taken, Aodv.underRepair, Aodv.rtLookup_write]
  split_ifs with hd
  · exact iff_of_true rfl fun hne => absurd hd hne
  · exact ⟨fun h _ => h, fun h => h hd⟩

theorem recvRequest_works {saddr : ℕ} {rq : AodvRequest} (ha : a.Inv) (hs : rq.srcSeqno % 2 = 0)
    (hh : ¬ a.Drops rq → Aodv.TakesRequest rq (a.route.rtEntry rq.src) →
      rq.hopCount ≠ infinity2) :
    Works True (a.recvRequest daddr now saddr rq) := by
  rw [recvRequest]
  by_cases hdrop : a.Drops rq
  · rw [if_pos hdrop]
    exact works_some ha.sane ha.buffers
  · have hn : (heard rq a.route).Sane := ha.sane.congr rfl ha.sane.seqno
    have hrev := Aodv.reverseRoute_sane saddr hn hs (hh hdrop)
    obtain ⟨rt, hl, hrt⟩ := Aodv.rtLookup_reverseRoute saddr rq (heard rq a.route)
    have hentry := Aodv.rtEntry_of_rtLookup hl
    rw [if_neg hdrop]
    simp only [hentry]
    by_cases htake : Aodv.TakesRequest rq (a.route.rtEntry rq.src)
    · obtain ⟨hup, hhops⟩ := hrt htake
      obtain ⟨r, hr, hb⟩ := ha.buffers.drain daddr now rq.src
        (show rt.hops ≠ infinity2 from hhops.trans_ne (hh hdrop htake))
      rw [if_pos htake, if_pos hup, hr]
      exact works_finish (Aodv.answer_gives hrev hs hl) hb
    · rw [if_neg htake]
      exact works_finish (Aodv.answer_gives hrev hs hl) ha.buffers

theorem recvReply_works {ipdst : ℕ} {rp : AodvReply} (ha : a.Inv) (hs : rp.dstSeqno % 2 = 0)
    (hh : Aodv.TakesReply rp (a.route.rtEntry rp.dst) → rp.hopCount ≠ infinity2) :
    Works (Aodv.TakesReply rp (a.route.rtEntry rp.dst) → ipdst ≠ a.route.index → ipdst ≠ rp.dst →
      a.route.underRepair ipdst = none) (a.recvReply daddr now ipdst rp) := by
  rw [recvReply]
  by_cases htake : Aodv.TakesReply rp (a.route.rtEntry rp.dst)
  · have hn : (taken rp a.route).Sane := Aodv.takeReply_sane ha.sane hs (hh htake)
    have hup : ((a.route.rtEntry rp.dst).rtUpdate rp.dstSeqno rp.hopCount rp.src).hops ≠ infinity2 →
        ((a.route.rtEntry rp.dst).rtUpdate rp.dstSeqno rp.hopCount rp.src).flags = .up :=
      fun _ => rfl
    obtain ⟨r, hr, hb⟩ := ha.buffers.drain daddr now rp.dst hup
    simp only [if_pos htake, hr, Option.bind_eq_bind, Option.bind_some]
    by_cases hself : ipdst = a.route.index
    · rw [if_pos (show ipdst = Aodv.index (Aodv.write _ _ _) from hself)]
      exact (works_some hn hb).congr (iff_of_true trivial fun _ hne => absurd hself hne)
    · rw [if_neg (show ¬ ipdst = Aodv.index (Aodv.write _ _ _) from hself)]
      refine (works_finish (Aodv.forwardReply_gives hn hs) hb).congr ?_
      rw [underRepair_taken]
      exact ⟨fun h _ _ => h, fun h => h htake hself⟩
  · simp only [if_neg htake]
    exact (works_some (ha.sane.write (ha.sane.rtEntry _)) ha.buffers).congr
      (iff_of_true trivial fun h => absurd h htake)

theorem rtResolve_works {saddr : ℕ} {limit : RreqLimit} (ha : a.Inv)
    (hp : ∀ l, a.rqueue.Rep l → p ∉ l) :
    Works True (a.rtResolve daddr now p saddr limit) := by
  have hg := Aodv.rtResolve_gives ha.sane saddr (daddr p) (limit = .allow)
  obtain ⟨r, hr⟩ := Option.isSome_iff_exists.mp (hg.isSome_iff.mpr trivial)
  obtain ⟨q, hq, hb⟩ := ha.buffers.enque now hp
  obtain ⟨ps, hps, hb'⟩ := hb.giveUp daddr now (daddr p) limit
  simp only [rtResolve, hr, hq, hps, Option.bind_eq_bind, Option.bind_some]
  split_ifs
  · exact works_of_eq hg hr ha.buffers
  · exact works_of_eq hg hr hb'
  · exact works_of_eq hg hr hb
  · exact works_of_eq hg hr ha.buffers

theorem rtLlFailed_works {nextHop numForwards : ℕ} {limit : RreqLimit} (ha : a.Inv)
    (hp : ∀ l, a.rqueue.Rep l → p ∉ l) (hnum : numForwards ≤ networkDiameter) :
    Works (a.route.Repairable nextHop (daddr p) numForwards)
      (a.rtLlFailed daddr now p nextHop numForwards limit) := by
  have hg := Aodv.rtLlFailed_gives ha.sane nextHop (daddr p) (hnum.trans (by decide)) (limit = .allow)
  rw [rtLlFailed]
  cases hr : a.route.rtLlFailed nextHop (daddr p) numForwards (limit = .allow) with
  | none =>
      rw [hr] at hg
      exact ⟨hg.isSome_iff, fun _ h => (by cases h), fun _ h => by cases h⟩
  | some r =>
      have hc : a.route.Repairable nextHop (daddr p) numForwards :=
        hg.isSome_iff.mp (by rw [hr]; rfl)
      obtain ⟨q, hq, hb⟩ := ha.buffers.enque now hp
      obtain ⟨ps, hps, hb'⟩ := hb.giveUp daddr now (daddr p) limit
      refine Works.congr ?_ (iff_true_intro hc).symm
      cases a.route.rtLookup (daddr p) with
      | none => exact works_of_eq hg hr ha.buffers
      | some rt =>
          simp only [hq, hps, Option.bind_eq_bind, Option.bind_some]
          split_ifs
          · exact works_of_eq hg hr hb'
          · exact works_of_eq hg hr ha.buffers

/-- The invariant of `rt_purge`. -/
structure Purging.Inv (s : Purging) : Prop where
  sane : s.sent.1.Sane
  genuine : ∀ m ∈ s.sent.2, m.2.Genuine
  buffers : Buffers s.q

theorem purgeEntry_works {s : Purging} (hs : s.Inv) (daddr : ℕ → ℕ) (now : ℚ) (expired : List ℕ)
    (limit : ℕ → RreqLimit) (dst : ℕ) :
    ∃ s', purgeEntry daddr now expired limit s dst = some s' ∧ s'.Inv := by
  -- what the routing table does, with any requests let out
  have hroute (waiting : List ℕ) : ∃ r, Aodv.purgeEntry expired waiting s.sent dst = some r ∧
      r.1.Sane ∧ ∀ m ∈ r.2, m.2.Genuine := by
    have hg := Aodv.purgeEntry_gives hs.sane hs.genuine expired waiting dst
    obtain ⟨r, hr⟩ := Option.isSome_iff_exists.mp (hg.isSome_iff.mpr trivial)
    exact ⟨r, hr, hg.sane r hr, hg.genuine r hr⟩
  rw [purgeEntry]
  cases s.sent.1.rtLookup dst with
  | none => exact ⟨s, rfl, hs⟩
  | some rt =>
      obtain ⟨ps, hps, hb⟩ := hs.buffers.drain daddr now dst trivial
      obtain ⟨r, hr, hn, hm⟩ := hroute []
      simp only [hr, hps, Option.bind_eq_bind, Option.bind_some]
      by_cases hexp : rt.flags = .up ∧ dst ∈ expired
      · rw [if_pos hexp]
        exact ⟨_, rfl, hn, hm, hb⟩
      by_cases hup : rt.flags = .up
      · rw [if_neg hexp, if_pos hup]
        exact ⟨_, rfl, hn, hm, hb⟩
      · rw [if_neg hexp, if_neg hup]
        obtain ⟨b, hfound⟩ := hs.buffers.find daddr dst
        rw [hfound, Option.bind_some]
        cases b with
        | false => exact ⟨s, rfl, hs⟩
        | true =>
            obtain ⟨r, hr, hn, hm⟩ := hroute (if limit dst = .allow then [dst] else [])
            obtain ⟨ps, hps, hb⟩ := hs.buffers.giveUp daddr now dst (limit dst)
            rw [if_pos rfl, hr, Option.bind_some, hps, Option.bind_some]
            exact ⟨_, rfl, hn, hm, hb⟩

theorem rtPurge_works {expired : List ℕ} {limit : ℕ → RreqLimit} (ha : a.Inv) :
    Works True (a.rtPurge daddr now expired limit) := by
  have h₀ : Purging.Inv ⟨(a.route, []), a.rqueue, [], []⟩ :=
    ⟨ha.sane, fun _ hm => absurd hm List.not_mem_nil, ha.buffers⟩
  have hstep (dst : ℕ) (s s' : Purging) (hs : s.Inv)
      (h : purgeEntry daddr now expired limit s dst = some s') : s'.Inv := by
    obtain ⟨t, ht, hinv⟩ := purgeEntry_works hs daddr now expired limit dst
    exact Option.some.inj (ht.symm.trans h) ▸ hinv
  have hsome := foldlM_isSome_iff (c := fun _ => True) (l := a.route.rtable.map Prod.fst)
    Purging.Inv h₀ (fun s hs dst => iff_of_true (by
      obtain ⟨t, ht, -⟩ := purgeEntry_works hs daddr now expired limit dst
      rw [ht]
      rfl) trivial) hstep
  obtain ⟨s, hs⟩ := Option.isSome_iff_exists.mp (hsome.mpr fun _ _ => trivial)
  have hinv := foldlM_invariant Purging.Inv hs h₀ fun dst _ => hstep dst
  rw [rtPurge, hs, Option.map_some]
  exact works_finish (.some hinv.sane hinv.genuine) hinv.buffers

/-! ### Runs -/

/-- What an agent can meet: a packet of another agent, or a data packet that is not in its buffer
and has been forwarded no more often than its time to live allows. -/
def Occurs (a : AodvAgent) : AodvEvent → Prop
  | .recvAODV p => p.Genuine
  | .resolve p _ _ => ∀ l, a.rqueue.Rep l → p ∉ l
  | .linkFailed p _ numForwards _ =>
      (∀ l, a.rqueue.Rep l → p ∉ l) ∧ numForwards ≤ networkDiameter
  | .repairTimeout dst => dst ∈ a.route.lrtimer
  | .rtPurge _ _ | .idPurge _ => True

/-- A route that is taken is not as long as `INFINITY2`. -/
def Finite (a : AodvAgent) : AodvEvent → Prop
  | .recvAODV (.rreq _ rq) => ¬ a.Drops rq → Aodv.TakesRequest rq (a.route.rtEntry rq.src) →
      rq.hopCount ≠ infinity2
  | .recvAODV (.rrep _ rp) => Aodv.TakesReply rp (a.route.rtEntry rp.dst) →
      rp.hopCount ≠ infinity2
  | _ => True

/-- The handler comes upon no route under local repair. -/
def Unrepaired (daddr : ℕ → ℕ) (a : AodvAgent) : AodvEvent → Prop
  | .recvAODV (.rrep ipdst rp) => Aodv.TakesReply rp (a.route.rtEntry rp.dst) →
      ipdst ≠ a.route.index → ipdst ≠ rp.dst → a.route.underRepair ipdst = none
  | .recvAODV (.rerr saddr us) => ∀ u ∈ us, Aodv.NoneTaken saddr a.route u
  | .linkFailed p nextHop numForwards _ => a.route.Repairable nextHop (daddr p) numForwards
  | _ => True

/-- The next hop of the route is reported broken, or the route is named in an error. -/
def Broken (daddr : ℕ → ℕ) (a : AodvAgent) (d : ℕ) (rt : AodvRtEntry) : AodvEvent → Prop
  | .recvAODV (.rerr saddr us) => rt.nexthop = saddr ∧ ∃ s, (d, s) ∈ us ∧ rt.seqno ≤ s
  | .linkFailed p nextHop numForwards _ => rt.nexthop = nextHop ∧
      ∃ rt', a.route.rtLookup (daddr p) = some rt' ∧ numForwards ≤ rt'.hops
  | _ => False

/-- The assertions of the handler hold. -/
structure AssertsHold (daddr : ℕ → ℕ) (now : ℚ) (a : AodvAgent) (e : AodvEvent) : Prop where
  ends : (a.handle daddr now e).isSome
  up : ∀ d rt, a.route.rtLookup d = some rt → rt.hops ≠ infinity2 → a.Broken daddr d rt e →
    rt.flags = .up ∧ rt.seqno % 2 = 0

/-- The agents of the runs in which every route that is taken is finite. -/
inductive Reach (daddr : ℕ → ℕ) : AodvAgent → Prop
  | init (id : ℕ) : Reach daddr (init id)
  | next {a : AodvAgent} {r : AodvResult} (now : ℚ) (e : AodvEvent) (h : Reach daddr a)
      (ho : a.Occurs e) (hf : a.Finite e) (hr : a.handle daddr now e = some r) : Reach daddr r.agent

theorem handle_works (ha : a.Inv) (ho : a.Occurs e) (hf : a.Finite e) (daddr : ℕ → ℕ) (now : ℚ) :
    Works (a.Unrepaired daddr e) (a.handle daddr now e) := by
  cases e with
  | recvAODV p =>
      cases p with
      | rreq saddr rq => exact recvRequest_works ha ho hf
      | rrep ipdst rp => exact recvReply_works ha ho hf
      | rerr saddr us => exact works_finish (Aodv.recvError_gives ha.sane) ha.buffers
  | resolve p saddr limit => exact rtResolve_works ha ho
  | linkFailed p nextHop numForwards limit => exact rtLlFailed_works ha ho.1 ho.2
  | repairTimeout dst =>
      exact (works_finish (Aodv.repairTimeout_gives ha.sane) ha.buffers).congr (iff_true_intro ho)
  | rtPurge expired limit => exact rtPurge_works ha
  | idPurge expired => exact works_finish (Aodv.idPurge_gives ha.sane) ha.buffers

theorem inv_init (id : ℕ) : (init id).Inv where
  sane := ⟨Nat.mod_self 2, fun _ _ he => by cases he⟩
  buffers := ⟨[], AodvRqueue.init_rep, Nat.zero_le _⟩

theorem Reach.inv (h : Reach daddr a) : a.Inv := by
  induction h with
  | init id => exact inv_init id
  | next now e _ ho hf hr ih => exact (handle_works ih ho hf daddr now).inv _ hr

/-- The packets an agent sends are such as it expects of others. -/
theorem Reach.sends_genuine {r : AodvResult} (h : Reach daddr a) (ho : a.Occurs e) (hf : a.Finite e)
    (hr : a.handle daddr now e = some r) : ∀ m ∈ r.out, m.2.Genuine :=
  (handle_works h.inv ho hf daddr now).genuine r hr

/-- A request is broadcast further. -/
theorem sends_genuine_request :
    ∃ r, (init 0).handle id 0 (.recvAODV (.rreq 1 ⟨1, 1, 9, 0, 1, 4⟩)) = some r ∧ r.out ≠ [] ∧
      ∀ m ∈ r.out, m.2.Genuine := by
  have hsent : ((init 0).handle id 0 (.recvAODV (.rreq 1 ⟨1, 1, 9, 0, 1, 4⟩))).any
      (fun r => decide (r.out ≠ [])) = true := by decide +kernel
  obtain ⟨r, hr, hout⟩ := (Option.any_eq_true _ _).mp hsent
  have ho : (init 0).Occurs (.recvAODV (.rreq 1 ⟨1, 1, 9, 0, 1, 4⟩)) := rfl
  have hf : (init 0).Finite (.recvAODV (.rreq 1 ⟨1, 1, 9, 0, 1, 4⟩)) := fun _ _ => by decide
  exact ⟨r, hr, of_decide_eq_true hout, Reach.sends_genuine (.init 0) ho hf hr⟩

/-- A route that breaks is up, if it is not under repair. -/
theorem up_of_unrepaired (ha : a.Inv) (hu : a.Unrepaired daddr e) {d : ℕ} {rt : AodvRtEntry}
    (hl : a.route.rtLookup d = some rt) (hh : rt.hops ≠ infinity2) (hb : a.Broken daddr d rt e) :
    rt.flags = .up ∧ rt.seqno % 2 = 0 := by
  refine ((ha.sane.entry d rt hl).up_iff hh).mpr ?_
  rw [AodvRtEntry.repair_eq_none_iff]
  intro hf
  have hrep : a.route.underRepair d = some (rt.nexthop, rt.seqno) :=
    Aodv.underRepair_eq_some_iff.mpr ⟨rt, hl, hf, rfl⟩
  cases e with
  | recvAODV p =>
      cases p with
      | rreq saddr rq => exact hb
      | rrep ipdst rp => exact hb
      | rerr saddr us =>
          obtain ⟨hn, s, hs, hle⟩ := hb
          exact (hu (d, s) hs _ hrep hn).not_ge hle
  | linkFailed p nextHop numForwards limit =>
      obtain ⟨hn, rt', hl', hle⟩ := hb
      rcases hu rt' hl' with hlt | hnone
      · exact hlt.not_ge hle
      · exact hnone d _ hrep hn
  | resolve p saddr limit => exact hb
  | repairTimeout dst => exact hb
  | rtPurge expired limit => exact hb
  | idPurge expired => exact hb

/-- In every run, the assertions hold at an event exactly when its handler comes upon no route under
local repair. -/
theorem agent_asserts_iff (daddr : ℕ → ℕ) (now : ℚ) (a : AodvAgent) (e : AodvEvent)
    (h : Reach daddr a) (ho : a.Occurs e) (hf : a.Finite e) :
    AssertsHold daddr now a e ↔ a.Unrepaired daddr e := by
  have hw := handle_works h.inv ho hf daddr now
  constructor
  · exact fun hc => hw.isSome_iff.mp hc.ends
  · exact fun hu => ⟨hw.isSome_iff.mpr hu, fun _ _ => up_of_unrepaired h.inv hu⟩

/-- The agent after an event. -/
def next (a : AodvAgent) (e : AodvEvent) : AodvAgent := ((a.handle id 0 e).map AodvResult.agent).getD a

theorem Reach.after (h : Reach id a) (ho : a.Occurs e) (hf : a.Finite e)
    (hs : (a.handle id 0 e).isSome) : Reach id (a.next e) := by
  obtain ⟨r, hr⟩ := Option.isSome_iff_exists.mp hs
  rw [AodvAgent.next, hr]
  exact h.next 0 e ho hf hr

/-- An agent with routes to 1 and 2, both through 1. -/
def routed : AodvAgent :=
  ((init 0).next (.recvAODV (.rreq 1 ⟨1, 1, 9, 0, 1, 4⟩))).next (.recvAODV (.rreq 1 ⟨2, 1, 9, 0, 2, 4⟩))

theorem reach_routed : Reach id routed := by
  refine Reach.after (.after (.init 0) rfl ?_ ?_) rfl ?_ ?_
  · exact fun _ _ => by decide
  · decide +kernel
  · exact fun _ _ => by decide
  · decide +kernel

theorem occurs_routed {numForwards : ℕ} {limit : RreqLimit} (h : numForwards ≤ networkDiameter) :
    routed.Occurs (.linkFailed 1 1 numForwards limit) := by
  refine ⟨fun l hl => ?_, h⟩
  have hhead : routed.rqueue.head = none := by decide +kernel
  rw [List.head?_eq_none_iff.mp (hl.links.head_eq.symm.trans hhead)]
  exact List.not_mem_nil

/-- The link to 1 fails for a packet that is not repaired, and both routes through it break. -/
theorem agent_asserts_routed : AssertsHold id 0 routed (.linkFailed 1 1 0 .allow) ∧
    ∀ d ∈ [1, 2], ∃ rt, routed.route.rtLookup d = some rt ∧
      routed.Broken id d rt (.linkFailed 1 1 0 .allow) ∧ rt.flags = .up ∧ rt.seqno % 2 = 0 := by
  have hup : ∀ e ∈ routed.route.rtable, e.2.flags = .up := by decide +kernel
  have hthrough : ∀ d ∈ [1, 2], (routed.route.rtLookup d).any fun rt =>
      rt.nexthop = 1 ∧ rt.hops ≠ infinity2 := by decide +kernel
  have hasserts : AssertsHold id 0 routed (.linkFailed 1 1 0 .allow) := by
    refine (agent_asserts_iff id 0 routed _ reach_routed (occurs_routed (by decide)) trivial).mpr ?_
    refine fun _ _ => .inr fun d u hu => ?_
    obtain ⟨e, hl, hf, -⟩ := Aodv.underRepair_eq_some_iff.mp hu
    obtain ⟨l₁, l₂, hl, -⟩ := List.lookup_eq_some_iff.mp hl
    have he := hup (d, e) (by simp [hl])
    rw [hf] at he
    cases he
  refine ⟨hasserts, fun d hd => ?_⟩
  obtain ⟨rt, hl, hrt⟩ := (Option.any_eq_true _ _).mp (hthrough d hd)
  obtain ⟨hn, hh⟩ := of_decide_eq_true hrt
  obtain ⟨rt₁, hl₁, -⟩ := (Option.any_eq_true _ _).mp (hthrough 1 (by simp))
  have hb : routed.Broken id d rt (.linkFailed 1 1 0 .allow) := ⟨hn, rt₁, hl₁, Nat.zero_le _⟩
  exact ⟨rt, hl, hb, hasserts.up d rt hl hh hb⟩

/-- The link to 1 fails for packet 1, whose route is repaired, and then for packet 2. -/
theorem agent_asserts_fail : ∃ a e, Reach id a ∧ a.Occurs e ∧ a.Finite e ∧ ¬ AssertsHold id 0 a e := by
  have h₂ : Reach id (routed.next (.linkFailed 1 1 2 .allow)) :=
    reach_routed.after (occurs_routed (by decide)) trivial (by decide +kernel)
  refine ⟨_, .linkFailed 2 1 0 .allow, h₂, ⟨fun l hl hm => ?_, by decide⟩, trivial, fun h => ?_⟩
  · have hhead : (routed.next (.linkFailed 1 1 2 .allow)).rqueue.head = some 1 := by decide +kernel
    have hlen : (routed.next (.linkFailed 1 1 2 .allow)).rqueue.len = 1 := by decide +kernel
    obtain ⟨x, rfl⟩ := List.length_eq_one_iff.mp (Int.ofNat.inj (hl.len_eq.symm.trans hlen))
    obtain rfl := Option.some.inj (hl.links.head_eq.symm.trans hhead)
    exact absurd hm (by decide)
  · exact absurd h.ends (by decide +kernel)

end AodvAgent

end Afabric
