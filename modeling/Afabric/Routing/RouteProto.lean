import Mathlib.Data.Int.Notation
import Mathlib.Data.List.Basic

/-!
# Routing — the routing protocols of a node

`rtObject`, `rtPeer`, `Agent/rtProto/Direct` and `Agent/rtProto/DV` (`rtglib/route-proto.tcl`).
A link and the peer at its other end are both named by the neighbour, so that one list stands for
`nextHop_` and for `nextHopPeer_`.  A Tcl array over the nodes is a function; the order in which
`array names` lists an array is given by an `ArrayOrder`.  The link failures of `intf-changed`,
multicast and what `add-routes` installs in the classifier of the node are left out.
-/

namespace Afabric

variable {V : Type*}

/-- `foreach k keys` over an array `t.1`, with what else the body changes in `t.2`. -/
def sweep {κ ρ σ : Type*} [DecidableEq κ] (body : κ → ρ → σ → ρ × σ) (keys : List κ)
    (t : (κ → ρ) × σ) : (κ → ρ) × σ :=
  keys.foldl
    (fun t k => (Function.update t.1 k (body k (t.1 k) t.2).1, (body k (t.1 k) t.2).2)) t

section Sweep

variable {κ ρ σ : Type*} [DecidableEq κ] {body : κ → ρ → σ → ρ × σ}

theorem sweep_cons (k : κ) (keys : List κ) (t : (κ → ρ) × σ) :
    sweep body (k :: keys) t = sweep body keys
      (Function.update t.1 k (body k (t.1 k) t.2).1, (body k (t.1 k) t.2).2) := rfl

theorem sweep_of_notMem {k : κ} {keys : List κ} (hk : k ∉ keys) (t : (κ → ρ) × σ) :
    (sweep body keys t).1 k = t.1 k := by
  induction keys generalizing t with
  | nil => rfl
  | cons j keys ih =>
      rw [List.mem_cons, not_or] at hk
      rw [sweep_cons, ih hk.2]
      exact Function.update_of_ne hk.1 _ _

/-- Each cell is written once, whatever the sweep had gathered by then. -/
theorem sweep_of_mem (body : κ → ρ → σ → ρ × σ) {k : κ} {keys : List κ} (hnd : keys.Nodup)
    (hk : k ∈ keys) (t : (κ → ρ) × σ) : ∃ s, (sweep body keys t).1 k = (body k (t.1 k) s).1 := by
  induction keys generalizing t with
  | nil => cases hk
  | cons j keys ih =>
      rw [List.nodup_cons] at hnd
      rw [sweep_cons]
      cases List.mem_cons.mp hk with
      | inl h =>
          subst h
          refine ⟨t.2, ?_⟩
          rw [sweep_of_notMem hnd.1]
          exact Function.update_self _ _ _
      | inr h =>
          have hne : k ≠ j := by
            rintro rfl
            exact hnd.1 h
          obtain ⟨s, hs⟩ := ih hnd.2 h (Function.update t.1 j _, _)
          dsimp only at hs
          rw [Function.update_of_ne hne] at hs
          exact ⟨s, hs⟩

/-- A sweep that has counted nothing has left the array as it was, when each write that changes a
cell is counted. -/
theorem sweep_unchanged (count : σ → ℕ) {keys : List κ} (hnd : keys.Nodup) (t : (κ → ρ) × σ)
    (h : ∀ k ∈ keys, ∀ s, count s < count (body k (t.1 k) s).2 ∨
      ((body k (t.1 k) s).1 = t.1 k ∧ count (body k (t.1 k) s).2 = count s)) :
    count t.2 < count (sweep body keys t).2 ∨
      ((sweep body keys t).1 = t.1 ∧ count (sweep body keys t).2 = count t.2) := by
  induction keys generalizing t with
  | nil => exact .inr ⟨rfl, rfl⟩
  | cons j keys ih =>
      rw [List.nodup_cons] at hnd
      rw [sweep_cons]
      have hrest := ih hnd.2 (Function.update t.1 j (body j (t.1 j) t.2).1, (body j (t.1 j) t.2).2)
        fun k hk s => by
          have hne : k ≠ j := by
            rintro rfl
            exact hnd.1 hk
          dsimp only
          rw [Function.update_of_ne hne]
          exact h k (List.mem_cons_of_mem _ hk) s
      rcases h j List.mem_cons_self t.2 with hlt | ⟨hcell, hcount⟩
      · rcases hrest with hlt' | ⟨-, heq⟩
        · exact .inl (Nat.lt_trans hlt hlt')
        · exact .inl (heq ▸ hlt)
      · dsimp only at hrest
        rw [hcount] at hrest
        rwa [hcell, Function.update_eq_self] at hrest ⊢

end Sweep

/-- The nodes and links of the simulation, with what the protocols are configured with. -/
structure Topology (V : Type*) where
  /-- `all-nodes-list`. -/
  nodes : List V
  nodes_nodup : nodes.Nodup
  mem_nodes : ∀ u, u ∈ nodes
  /-- The neighbours of a node, as `lsort -dictionary` has them. -/
  nbrs : V → List V
  nbrs_nodup : ∀ u, (nbrs u).Nodup
  nbrs_symm : ∀ u v, v ∈ nbrs u → u ∈ nbrs v
  nbrs_irrefl : ∀ u, u ∉ nbrs u
  up : V → V → Bool
  cost : V → V → ℤ
  multiPath : V → Bool
  /-- `Agent/rtProto/DV set INFINITY`. -/
  infinity : ℤ

inductive Proto where
  | direct
  | dv
deriving DecidableEq, Repr

def Proto.preference : Proto → ℤ
  | .direct => 100
  | .dv => 120

/-- `rtObject set maxpref_`. -/
def maxpref : ℤ := 255

/-- `rtObject set unreach_`. -/
def unreach : ℤ := -1

/-- An entry of the table of a protocol. -/
structure ProtoRoute (V : Type*) where
  nextHop : List V
  rtpref : ℤ
  metric : ℤ
deriving DecidableEq, Repr

/-- `rtVia_`: empty, the string of the node itself, or a protocol. -/
inductive Via where
  | unset
  | self
  | proto (p : Proto)
deriving DecidableEq, Repr

/-- An entry of the table of `rtObject`. -/
structure RtEntry (V : Type*) where
  nextHop : List V
  rtpref : ℤ
  metric : ℤ
  rtVia : Via
deriving DecidableEq, Repr

/-- `rtPeer`: what a neighbour last told. -/
structure Peer (V : Type*) where
  metric : V → ℤ
  rtpref : V → ℤ

def Peer.init (infinity : ℤ) : Peer V where
  metric := fun _ => infinity
  rtpref := fun _ => Proto.dv.preference

/-- The order in which `array names` lists the next hops gathered for a destination, and the
protocols of the node. -/
structure ArrayOrder (V : Type*) where
  names : V → List V → List V
  names_perm : ∀ dst l, (names dst l).Perm l
  protos : List Proto
  protos_perm : protos.Perm [.direct, .dv]

/-- The routing state of a node: the table of `rtObject`, those of its protocols, and the peers
of `DV`. -/
structure RtNode (V : Type*) where
  rt : V → RtEntry V
  tab : Proto → V → ProtoRoute V
  rtsChanged : Proto → ℕ
  peers : V → Peer V

variable [DecidableEq V]

/-! ### `Agent/rtProto/Direct` -/

namespace Direct

def init (T : Topology V) (u : V) : V → ProtoRoute V := fun d =>
  { nextHop := [], metric := -1,
    rtpref := if d ∈ T.nbrs u then Proto.direct.preference else 255 }

/-- The body of the loop of `compute-routes`; the state of the loop is `rtsChanged_`. -/
def route (T : Topology V) (u nbr : V) (r : ProtoRoute V) (rtsChanged : ℕ) : ProtoRoute V × ℕ :=
  if r.nextHop = [] ∧ T.up u nbr = true then
    ({ r with nextHop := [nbr], metric := T.cost u nbr }, rtsChanged + 1)
  else if r.nextHop ≠ [] ∧ T.up u nbr ≠ true then
    ({ r with nextHop := [], metric := -1 }, rtsChanged + 1)
  else
    (r, rtsChanged)

def computeRoutes (T : Topology V) (u : V) (t : V → ProtoRoute V) : (V → ProtoRoute V) × ℕ :=
  sweep (route T u) (T.nbrs u) (t, 0)

end Direct

/-! ### `Agent/rtProto/DV` -/

namespace DV

def init : V → ProtoRoute V := fun _ =>
  { nextHop := [], rtpref := Proto.dv.preference, metric := unreach }

/-- The variables `pf`, `mt` and `nh` of `compute-routes`; `nh` holds the indices of the array in
the order they were set, without the `0` that is there for `unset`. -/
structure Scan (V : Type*) where
  pf : ℤ
  mt : ℤ
  nh : List V

/-- A neighbour in the loop over the peers. -/
def consider (infinity : ℤ) (peers : V → Peer V) (dst : V) (s : Scan V) (nbr : V) : Scan V :=
  let pmt := (peers nbr).metric dst
  let ppf := (peers nbr).rtpref dst
  if pmt < 0 ∨ pmt ≥ infinity ∨ ppf > s.pf ∨ pmt > s.mt then
    s
  else
    let s := if ppf < s.pf ∨ pmt < s.mt then { pf := ppf, mt := pmt, nh := [] } else s
    { s with nh := if nbr ∈ s.nh then s.nh else s.nh ++ [nbr] }

def scan (infinity : ℤ) (peers : V → Peer V) (dst : V) (nbrs nh : List V) : Scan V :=
  nbrs.foldl (consider infinity peers dst) { pf := maxpref, mt := infinity, nh := nh }

/-- `foreach … { … if !$multiPath_ break }`. -/
def taken (multiPath : Bool) (l : List V) : List V := if multiPath then l else l.take 1

/-- The metric and the preference of a route are those of the peer of its first next hop. -/
def heard (peers : V → Peer V) (dst : V) (r : ProtoRoute V) : ProtoRoute V :=
  match r.nextHop with
  | [] => r
  | p :: _ => { r with metric := (peers p).metric dst, rtpref := (peers p).rtpref dst }

/-- The next hops of a list that are in `nh`, and what is left of `nh` without them. -/
def keep : List V → List V → List V × List V
  | [], nh => ([], nh)
  | rt :: l, nh =>
      if rt ∈ nh then (rt :: (keep l (nh.erase rt)).1, (keep l (nh.erase rt)).2) else keep l nh

/-- The body of the loop of `compute-routes`; the state of the loop is the array `nh`, which the
next destination finds as this one leaves it, and `rtsChanged_`. -/
def route (T : Topology V) (u : V) (names : V → List V → List V) (peers : V → Peer V) (dst : V)
    (r : ProtoRoute V) (st : List V × ℕ) : ProtoRoute V × List V × ℕ :=
  let r := heard peers dst r
  let s := scan T.infinity peers dst (T.nbrs u) st.1
  if s.pf = maxpref ∧ s.mt = T.infinity then
    (r, s.nh, st.2)
  else if s.pf > r.rtpref ∨ (r.metric ≥ 0 ∧ s.mt > r.metric) then
    (r, s.nh, st.2)
  else
    let mt := if s.mt ≥ T.infinity then unreach else s.mt
    if s.pf < r.rtpref ∨ mt < r.metric then
      ({ nextHop := taken (T.multiPath u) (names dst s.nh), rtpref := s.pf, metric := mt },
        s.nh, st.2 + 1)
    else
      let k := keep r.nextHop s.nh
      let added :=
        if T.multiPath u = true ∨ k.1 = [] then taken (T.multiPath u) (names dst k.2) else []
      ({ nextHop := k.1 ++ added, rtpref := s.pf, metric := mt }, k.2, st.2 + 1)

def computeRoutes (T : Topology V) (u : V) (names : V → List V → List V) (peers : V → Peer V)
    (t : V → ProtoRoute V) : (V → ProtoRoute V) × ℕ :=
  let r := sweep (route T u names peers) T.nodes (t, [], 0)
  (r.1, r.2.2)

end DV

/-! ### `rtObject` -/

namespace RtObject

def init (u : V) : V → RtEntry V := fun d =>
  if d = u then { nextHop := [], rtpref := 0, metric := 0, rtVia := .self }
  else { nextHop := [], rtpref := maxpref, metric := unreach, rtVia := .unset }

/-- The best route to a destination from all protocols. -/
def best (protos : List Proto) (tab : Proto → V → ProtoRoute V) (dst : V) : RtEntry V :=
  protos.foldl
    (fun b p =>
      let r := tab p dst
      if r.nextHop = [] then b
      else if r.rtpref < b.rtpref ∨ (r.rtpref = b.rtpref ∧ r.metric < b.metric) ∨ b.metric < 0 then
        { nextHop := r.nextHop, rtpref := r.rtpref, metric := r.metric, rtVia := .proto p }
      else b)
    { nextHop := [], rtpref := maxpref, metric := unreach, rtVia := .unset }

/-- The entry with what its protocol has by now. -/
def refreshed (tab : Proto → V → ProtoRoute V) (dst : V) (e : RtEntry V) : RtEntry V :=
  match e.rtVia with
  | .proto p =>
      { e with nextHop := (tab p dst).nextHop, rtpref := (tab p dst).rtpref,
               metric := (tab p dst).metric }
  | _ => e

/-- The body of the loop of `compute-routes`; the state of the loop is `changes`. -/
def route (u : V) (protos : List Proto) (tab : Proto → V → ProtoRoute V) (dst : V)
    (e : RtEntry V) (changes : ℕ) : RtEntry V × ℕ :=
  let b := best protos tab dst
  if dst = u then
    (e, changes)
  else if b.nextHop = [] then
    if e.nextHop ≠ [] then (b, changes + 1) else (e, changes)
  else if b.rtVia = e.rtVia then
    let changes := if b.nextHop ≠ e.nextHop then changes + 1 else changes
    let changes := if b.metric ≠ e.metric then changes + 1 else changes
    (b, changes)
  else
    let e := refreshed tab dst e
    if e.rtpref ≠ b.rtpref ∨ e.metric ≠ b.metric then (b, changes + 1) else (e, changes)

/-- `compute-routes`, with the argument it calls `send-updates` with.  With `0` the protocols send
nothing, since no interface has come up. -/
def computeRoutes (T : Topology V) (u : V) (protos : List Proto) (n : RtNode V) : RtNode V × ℕ :=
  let changes := protos.countP (fun p => n.rtsChanged p ≠ 0)
  let n := { n with rtsChanged := fun p => if p ∈ protos then 0 else n.rtsChanged p }
  if changes = 0 then
    (n, 0)
  else
    let r := sweep (route u protos n.tab) T.nodes (n.rt, 0)
    ({ n with rt := r.1 }, r.2)

end RtObject

/-! ### Nodes -/

namespace RtNode

/-- A node after `Agent/rtProto/DV init-all`: `rtObject` has computed its routes while `Direct`
was its only protocol. -/
def init (T : Topology V) (u : V) : RtNode V :=
  let direct := Direct.computeRoutes T u (Direct.init T u)
  (RtObject.computeRoutes T u [.direct]
    { rt := RtObject.init u
      tab := fun p => if p = .direct then direct.1 else DV.init
      rtsChanged := fun p => if p = .direct then direct.2 else 0
      peers := fun _ => Peer.init T.infinity }).1

/-- `send-to-peer`: the message for a neighbour, with poison reverse. -/
def sendToPeer (T : Topology V) (n : RtNode V) (nbr : V) : V → ℤ := fun dest =>
  if (n.rt dest).metric < 0 then T.infinity
  else if nbr ∈ (n.rt dest).nextHop then T.infinity
  else (n.rt dest).metric

/-- The metric `recv-update` takes from a message. -/
def told (T : Topology V) (u nbr : V) (msg : V → ℤ) : V → ℤ := fun dest =>
  if msg dest + T.cost u nbr > T.infinity then T.infinity else msg dest + T.cost u nbr

/-- `recv-update`, with the argument of `send-updates`.  No result stands for the error of an
update from an unknown peer. -/
def recvUpdate (T : Topology V) (u : V) (ord : ArrayOrder V) (n : RtNode V) (nbr : V)
    (msg : V → ℤ) : Option (RtNode V × ℕ) :=
  if nbr ∈ T.nbrs u then
    let metric := told T u nbr msg
    let metricsChanged := T.nodes.countP (fun dest => metric dest ≠ (n.peers nbr).metric dest)
    if metricsChanged ≠ 0 then
      let peers := Function.update n.peers nbr { n.peers nbr with metric := metric }
      let dv := DV.computeRoutes T u ord.names peers (n.tab .dv)
      some (RtObject.computeRoutes T u ord.protos
        { n with peers := peers
                 tab := Function.update n.tab .dv dv.1
                 rtsChanged := Function.update n.rtsChanged .dv (dv.2 + metricsChanged) })
    else
      some (n, 0)
  else
    none

end RtNode

end Afabric
