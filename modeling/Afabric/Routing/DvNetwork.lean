import Afabric.Routing.RouteTables
import Afabric.Support.HopDistance

/-!
# Routing — a network of distance-vector nodes

Every node runs `DV`.  A link is a queue in each direction, which loses nothing and keeps the order
of the updates.  A node sends its periodic update at any time; a delivery is one `recv-update`, with
the updates it triggers.  `fresh` is a ghost: it says of a node that it has sent an update since its
table last changed.

A node whose `fresh` is set has told each neighbour its table, if not in what the neighbour has
recorded then in the last update under way (`Inv`).  So when no update is under way and all nodes
are fresh, the tables are the fixpoint of one equation for each node, and the only such fixpoint
below infinity is the hop distance (`quiescent_routes`).
-/

namespace Afabric

variable {V : Type*} [DecidableEq V]

def Topology.graph (T : Topology V) : SimpleGraph V where
  Adj u v := v ∈ T.nbrs u
  symm := ⟨T.nbrs_symm⟩
  loopless := ⟨T.nbrs_irrefl⟩

structure RtNet (V : Type*) where
  node : V → RtNode V
  /-- The updates under way from a node to another, the oldest first. -/
  queue : V → V → List (V → ℤ)
  fresh : V → Bool

namespace RtNet

inductive Event (V : Type*) where
  /-- `send-periodic-update`. -/
  | periodic (u : V)
  /-- `recv-update` of the oldest update under way. -/
  | deliver (src dst : V) (ord : ArrayOrder V)

def init (T : Topology V) : RtNet V where
  node := RtNode.init T
  queue := fun _ _ => []
  fresh := fun _ => false

/-- `send-updates`. -/
def sendUpdates (T : Topology V) (u : V) (changes : ℕ) (s : RtNet V) : RtNet V :=
  if changes ≠ 0 then
    { s with
      queue := fun a b =>
        if a = u ∧ b ∈ T.nbrs u ∧ T.up u b = true then
          s.queue a b ++ [RtNode.sendToPeer T (s.node u) b]
        else s.queue a b
      fresh := Function.update s.fresh u true }
  else
    s

/-- The node after a delivery; if its table is another it has sent no update since. -/
def receive (T : Topology V) (src dst : V) (rest : List (V → ℤ)) (n : RtNode V) (s : RtNet V) :
    RtNet V where
  node := Function.update s.node dst n
  queue := fun a b => if a = src ∧ b = dst then rest else s.queue a b
  fresh := Function.update s.fresh dst
    (s.fresh dst && T.nodes.all fun d => n.rt d = (s.node dst).rt d)

/-- One event; nothing can be delivered from an empty queue. -/
def step (T : Topology V) (s : RtNet V) : Event V → Option (RtNet V)
  | .periodic u => some (sendUpdates T u 1 s)
  | .deliver src dst ord =>
      match s.queue src dst with
      | [] => none
      | msg :: rest =>
          (RtNode.recvUpdate T dst ord (s.node dst) src msg).map fun r =>
            sendUpdates T dst r.2 (receive T src dst rest r.1 s)

inductive Reach (T : Topology V) : RtNet V → Prop
  | init : Reach T (init T)
  | next {s s' : RtNet V} (e : Event V) (h : Reach T s) (hs : step T s e = some s') : Reach T s'

/-- No update is under way, and every node has sent one, the last of them after the last change of
its table. -/
structure Quiescent (s : RtNet V) : Prop where
  queue : ∀ u v, s.queue u v = []
  fresh : ∀ u, s.fresh u = true

variable {T : Topology V} {s s' : RtNet V} {u v d : V}

/-- The state after a list of events, none if one of them is not possible. -/
def run (T : Topology V) (s : RtNet V) : List (Event V) → Option (RtNet V)
  | [] => some s
  | e :: es => (step T s e).bind fun s' => run T s' es

theorem Reach.run (h : Reach T s) {es : List (Event V)} (hr : run T s es = some s') :
    Reach T s' := by
  induction es generalizing s with
  | nil => exact Option.some.inj hr ▸ h
  | cons e es ih =>
      obtain ⟨t, ht, hr'⟩ := Option.bind_eq_some_iff.mp hr
      exact ih (h.next e ht) hr'

/-! ### What the neighbours know -/

/-- What `v` has recorded of `u` once all that is under way has arrived. -/
def latest (T : Topology V) (s : RtNet V) (u v : V) : V → ℤ :=
  (s.queue u v).getLast?.elim ((s.node v).peers u).metric (RtNode.told T v u)

structure Inv (T : Topology V) (s : RtNet V) : Prop where
  node : ∀ u, RtNode.Ok T u (s.node u)
  latest : ∀ u v, s.fresh u = true → v ∈ T.nbrs u →
    latest T s u v = RtNode.told T v u (RtNode.sendToPeer T (s.node u) v)

theorem sendToPeer_congr {n n' : RtNode V} (h : ∀ d, n.rt d = n'.rt d) (v : V) :
    RtNode.sendToPeer T n v = RtNode.sendToPeer T n' v := by
  funext d
  simp only [RtNode.sendToPeer, h d]

theorem init_inv (hT : T.UnitUp) : Inv T (init T) where
  node := RtNode.init_ok hT
  latest := fun _ _ hf _ => Bool.noConfusion hf

theorem sendUpdates_inv (hT : T.UnitUp) (h : Inv T s) (u : V) (changes : ℕ) :
    Inv T (sendUpdates T u changes s) := by
  rw [sendUpdates]
  split_ifs
  · refine ⟨h.node, fun a b hf hb => ?_⟩
    by_cases ha : a = u
    · subst ha
      simp only [latest]
      rw [if_pos ⟨trivial, hb, hT.up a b hb⟩, List.getLast?_concat]
      rfl
    · simp only [Function.update_of_ne ha] at hf
      simp only [latest]
      rw [if_neg fun hc => ha hc.1]
      exact h.latest a b hf hb
  · exact h

theorem receive_inv (h : Inv T s) {src dst : V} {msg : V → ℤ} {rest : List (V → ℤ)}
    {n : RtNode V} (hq : s.queue src dst = msg :: rest) (hne : src ≠ dst) (hn : RtNode.Ok T dst n)
    (hsrc : (n.peers src).metric = RtNode.told T dst src msg)
    (hother : ∀ w, w ≠ src → n.peers w = (s.node dst).peers w) :
    Inv T (receive T src dst rest n s) := by
  constructor
  · intro a
    by_cases ha : a = dst
    · rw [ha]
      simpa [receive] using hn
    · simpa [receive, ha] using h.node a
  · intro a b hf hb
    have hab : b ≠ a := by
      rintro rfl
      exact T.nbrs_irrefl b hb
    by_cases ha : a = dst
    · -- the table is the one that was told
      subst ha
      simp only [receive, Function.update_self, Bool.and_eq_true, List.all_eq_true,
        decide_eq_true_eq] at hf
      obtain ⟨hf, hrt⟩ := hf
      have hold := h.latest a b hf hb
      simp only [latest, receive, Function.update_self, Function.update_of_ne hab]
      rw [if_neg fun hc => hne hc.1.symm, sendToPeer_congr fun d => hrt d (T.mem_nodes d)]
      exact hold
    · simp only [receive, Function.update_of_ne ha] at hf
      have hold := h.latest a b hf hb
      simp only [latest, receive, Function.update_of_ne ha] at hold ⊢
      rw [← hold]
      by_cases hb' : b = dst
      · subst hb'
        rw [Function.update_self]
        by_cases hs : a = src
        · subst hs
          rw [if_pos ⟨rfl, rfl⟩, hq]
          cases rest with
          | nil => exact hsrc
          | cons m rest =>
              obtain ⟨x, hx⟩ : ∃ x, (m :: rest).getLast? = some x :=
                ⟨_, List.getLast?_eq_some_getLast (List.cons_ne_nil m rest)⟩
              rw [List.getLast?_cons_cons, hx]
              rfl
        · rw [if_neg fun hc => hs hc.1, hother a hs]
      · rw [if_neg fun hc => hb' hc.2, Function.update_of_ne hb']

theorem step_inv (hT : T.UnitUp) (h : Inv T s) {e : Event V} (hs : step T s e = some s') :
    Inv T s' := by
  cases e with
  | periodic u =>
      rw [step, Option.some.injEq] at hs
      rw [← hs]
      exact sendUpdates_inv hT h u 1
  | deliver src dst ord =>
      rw [step] at hs
      split at hs
      next => cases hs
      next msg rest hq =>
          obtain ⟨⟨n, c⟩, hn, rfl⟩ := Option.map_eq_some_iff.mp hs
          have hne : src ≠ dst := by
            rintro rfl
            rw [RtNode.recvUpdate, if_neg (T.nbrs_irrefl src)] at hn
            cases hn
          obtain ⟨hok, hsrc, hother⟩ := RtNode.recvUpdate_ok (h.node dst) hn
          exact sendUpdates_inv hT (receive_inv h hq hne hok hsrc hother) dst c

theorem Reach.inv (hT : T.UnitUp) (h : Reach T s) : Inv T s := by
  induction h with
  | init => exact init_inv hT
  | next e _ hs ih => exact step_inv hT ih hs

/-- At rest each neighbour has recorded what the table would tell it. -/
theorem Quiescent.heard (hT : T.UnitUp) (h : Inv T s) (hq : Quiescent s) (hv : v ∈ T.nbrs u)
    (d : V) : ((s.node u).peers v).metric d =
      min T.infinity (RtNode.sendToPeer T (s.node v) u d + 1) := by
  have hu := T.nbrs_symm u v hv
  have hl := h.latest v u (hq.fresh v) hu
  rw [latest, hq.queue v u] at hl
  have hd : ((s.node u).peers v).metric d = _ := congrFun hl d
  rw [hd, RtNode.told, hT.cost u v hv]
  split_ifs <;> omega

/-! ### The tables at rest -/

/-- The metric of a node. -/
def metric (s : RtNet V) (u d : V) : ℤ := ((s.node u).rt d).metric

/-- The next hops of a node. -/
def nextHop (s : RtNet V) (u d : V) : List V := ((s.node u).rt d).nextHop

/-- What a table holds for another node: the direct link, the route of `DV`, or nothing. -/
inductive TableCase (T : Topology V) (s : RtNet V) (u d : V) : Prop
  | direct (hd : d ∈ T.nbrs u) (hnh : nextHop s u d = [d]) (hm : metric s u d = 1)
  | dv (hd : d ∉ T.nbrs u) (hne : ((s.node u).tab .dv d).nextHop ≠ [])
      (hnh : nextHop s u d = ((s.node u).tab .dv d).nextHop)
      (hm : metric s u d = ((s.node u).tab .dv d).metric)
  | none (hd : d ∉ T.nbrs u) (hnil : ((s.node u).tab .dv d).nextHop = [])
      (hm : metric s u d = -1)

theorem tableCase (h : Inv T s) (hne : d ≠ u) : TableCase T s u d := by
  have hrt := (h.node u).follows.chosen d hne
  have hdir := (h.node u).direct d
  by_cases hd : d ∈ T.nbrs u
  · rw [Direct.entry, if_pos hd] at hdir
    rw [RtObject.chosen_of_direct (by simp [hdir])] at hrt
    exact .direct hd (by simp [nextHop, hrt, hdir]) (by simp [metric, hrt, hdir, RtObject.via])
  · rw [Direct.entry, if_neg hd] at hdir
    by_cases hdv : ((s.node u).tab .dv d).nextHop = []
    · rw [RtObject.chosen_of_none (by simp [hdir]) hdv] at hrt
      exact .none hd hdv (by simp [metric, hrt, RtObject.none, unreach])
    · rw [RtObject.chosen_of_dv (by simp [hdir]) hdv] at hrt
      exact .dv hd hdv (by simp [nextHop, hrt]) (by simp [metric, hrt, RtObject.via])

theorem metric_self (h : Inv T s) (u : V) : metric s u u = 0 := by
  rw [metric, (h.node u).follows.self, RtObject.init, if_pos rfl]

theorem nextHop_self (h : Inv T s) (u : V) : nextHop s u u = [] := by
  rw [nextHop, (h.node u).follows.self, RtObject.init, if_pos rfl]

/-- A neighbour is reached over the direct link alone. -/
theorem nextHop_of_adj (h : Inv T s) (hadj : T.graph.Adj u d) : nextHop s u d = [d] := by
  cases tableCase h (T.graph.ne_of_adj hadj).symm with
  | direct hd hnh hm => exact hnh
  | none hd => exact absurd hadj hd
  | dv hd => exact absurd hadj hd

/-- A finite metric was told by a neighbour that does not route through this node. -/
theorem Quiescent.of_told (hT : T.UnitUp) (h : Inv T s) (hq : Quiescent s) (hv : v ∈ T.nbrs u)
    (hlt : ((s.node u).peers v).metric d < T.infinity) :
    0 ≤ metric s v d ∧ metric s v d + 1 = ((s.node u).peers v).metric d := by
  have hh := hq.heard hT h hv d
  rw [RtNode.sendToPeer] at hh
  split_ifs at hh with h₁ h₂
  · omega
  · omega
  · exact ⟨not_lt.mp h₁, by rw [metric]; omega⟩

theorem Quiescent.told_of (hT : T.UnitUp) (h : Inv T s) (hq : Quiescent s) (hv : v ∈ T.nbrs u)
    (h₀ : 0 ≤ metric s v d) (hlt : metric s v d + 1 < T.infinity) (hnot : u ∉ nextHop s v d) :
    ((s.node u).peers v).metric d = metric s v d + 1 := by
  have hsend : RtNode.sendToPeer T (s.node v) u d = metric s v d := by
    rw [metric] at h₀
    rw [RtNode.sendToPeer, if_neg (not_lt.mpr h₀)]
    exact if_neg hnot
  rw [hq.heard hT h hv d, hsend, min_eq_right hlt.le]

theorem Quiescent.told_nonneg (hT : T.UnitUp) (h : Inv T s) (hq : Quiescent s)
    (hv : v ∈ T.nbrs u) (hinf : 0 ≤ T.infinity) : 0 ≤ ((s.node u).peers v).metric d := by
  have hh := hq.heard hT h hv d
  rw [RtNode.sendToPeer] at hh
  split_ifs at hh <;> omega

/-- The next hops of a finite route of `DV` have told its metric. -/
theorem dv_nextHop (h : Inv T s) (hd : d ∉ T.nbrs u) (hne : d ≠ u) (h₀ : 0 ≤ metric s u d)
    (hlt : metric s u d < T.infinity) (hv : v ∈ nextHop s u d) :
    v ∈ T.nbrs u ∧ ((s.node u).peers v).metric d = metric s u d := by
  have hcur := (h.node u).dv d
  cases tableCase h hne with
  | direct hd' => exact absurd hd' hd
  | none _ hnil hm => omega
  | dv _ hdv hnh hm =>
      rw [hnh] at hv
      obtain ⟨w, hw, hwm⟩ := hcur.told hdv
      have hval : DV.Valid T.infinity (((s.node u).peers w).metric d) := by
        rw [hwm, ← hm]
        exact ⟨h₀, hlt⟩
      exact ⟨hcur.nbrs v hv, by rw [hm]; exact hcur.equal w (hcur.nbrs w hw) hval v hv⟩

section Rest

variable (hT : T.UnitUp) (hconn : T.graph.Connected)
  (hdiam : ∀ u v, (T.graph.dist u v : ℤ) < T.infinity) (h : Inv T s) (hq : Quiescent s)
include hT h hq

/-- Each finite metric rests on that of a neighbour. -/
theorem metric_supported (d : V) :
    HopDistance.Supported T.graph d T.infinity fun u => metric s u d := by
  intro u hne h₀ hlt
  dsimp only at h₀ hlt ⊢
  cases tableCase h (Ne.symm hne) with
  | direct hd hnh hm => exact ⟨d, hd, (metric_self h d).ge, by rw [metric_self h, hm, zero_add]⟩
  | none hd hnil hm => exact absurd h₀ (by rw [hm]; decide)
  | dv hd hdv hnh hm =>
      obtain ⟨v, hv⟩ := List.exists_mem_of_ne_nil _ hdv
      rw [← hnh] at hv
      obtain ⟨hvn, htold⟩ := dv_nextHop h hd (Ne.symm hne) h₀ hlt hv
      obtain ⟨hv₀, hvm⟩ := hq.of_told hT h hvn (by rw [htold]; exact hlt)
      exact ⟨v, hvn, hv₀, hvm.trans htold⟩

/-- The next hops of a node with the right metric are one hop closer. -/
theorem closer_of_mem {u v d : V} (hne : u ≠ d) (hlt : (T.graph.dist u d : ℤ) < T.infinity)
    (hm : metric s u d = T.graph.dist u d) (hv : v ∈ nextHop s u d) :
    T.graph.Adj u v ∧ metric s v d + 1 = metric s u d := by
  have h₀ : 0 ≤ metric s u d := by rw [hm]; exact Int.natCast_nonneg _
  cases tableCase h (Ne.symm hne) with
  | direct hd hnh hm' =>
      rw [hnh, List.mem_singleton] at hv
      exact ⟨hv ▸ hd, by rw [hv, metric_self h, hm', zero_add]⟩
  | none hd hnil hm' => omega
  | dv hd hdv hnh hm' =>
      obtain ⟨hvn, htold⟩ := dv_nextHop h hd (Ne.symm hne) h₀ (hm ▸ hlt) hv
      exact ⟨hvn, ((hq.of_told hT h hvn (by rw [htold, hm]; exact hlt)).2).trans htold⟩

include hconn

theorem dist_le_metric {u d : V} (h₀ : 0 ≤ metric s u d) (hlt : metric s u d < T.infinity) :
    (T.graph.dist u d : ℤ) ≤ metric s u d :=
  HopDistance.dist_le_estimate hconn (metric_supported hT h hq d) u h₀ hlt

/-- A node with the right metric does not route through one that is farther away. -/
theorem not_mem_of_closer {u v d : V} (hlt : (T.graph.dist v d : ℤ) < T.infinity)
    (hc : HopDistance.Closer T.graph u v d) (hm : metric s v d = T.graph.dist v d) :
    u ∉ nextHop s v d := by
  intro hu
  by_cases hvd : v = d
  · rw [hvd, nextHop_self h] at hu
    cases hu
  · obtain ⟨-, hum⟩ := closer_of_mem hT h hq hvd hlt hm hu
    have hdist := hc.2
    rcases lt_or_ge (metric s u d) 0 with hneg | h₀
    · have hzero : metric s v d = 0 := by omega
      have hpos := hconn.pos_dist_of_ne hvd
      omega
    · have hle := dist_le_metric hT hconn h hq h₀ (by omega)
      omega

include hdiam

/-- A node is told by the neighbours that are closer and have the right metric. -/
theorem told_of_closer {u v d : V} (hc : HopDistance.Closer T.graph u v d)
    (hm : metric s v d = T.graph.dist v d) :
    ((s.node u).peers v).metric d = T.graph.dist u d := by
  have hdist := hc.2
  have hu := hdiam u d
  rw [hq.told_of hT h hc.1 (by omega) (by omega)
    (not_mem_of_closer hT hconn h hq (hdiam v d) hc hm)]
  omega

/-- **At rest every metric is the hop distance.** -/
theorem metric_eq_dist (u d : V) : metric s u d = T.graph.dist u d := by
  refine HopDistance.estimate_eq_dist (m := fun u => metric s u d) hconn (fun u => hdiam u d)
    (metric_self h d) (metric_supported hT h hq d) (fun u v hne hc hm => ?_) u
  have htold := told_of_closer hT hconn hdiam h hq hc hm
  have hval : DV.Valid T.infinity (((s.node u).peers v).metric d) := by
    rw [htold]
    exact ⟨Int.natCast_nonneg _, hdiam u d⟩
  have hdist := hc.2
  have hcur := (h.node u).dv d
  cases tableCase h (Ne.symm hne) with
  | direct hd hnh hm' => omega
  | none hd hnil hm' => exact absurd hnil (hcur.reached v hc.1 hval)
  | dv hd hdv hnh hm' =>
      have hle := hcur.least v hc.1 hval
      obtain ⟨w, hw, hwm⟩ := hcur.told hdv
      have hinf : 0 ≤ T.infinity := (lt_of_le_of_lt (Int.natCast_nonneg _) (hdiam u d)).le
      have h₀ := hq.told_nonneg hT h (hcur.nbrs w hw) (d := d) hinf
      omega

/-- The next hops are one hop closer, and with `multiPath_` they are all neighbours that are. -/
theorem nextHop_closer {u v d : V} (hv : v ∈ nextHop s u d) : HopDistance.Closer T.graph u v d := by
  have hne : u ≠ d := by
    rintro rfl
    rw [nextHop_self h] at hv
    cases hv
  obtain ⟨hadj, hm⟩ := closer_of_mem hT h hq hne (hdiam u d)
    (metric_eq_dist hT hconn hdiam h hq u d) hv
  rw [metric_eq_dist hT hconn hdiam h hq, metric_eq_dist hT hconn hdiam h hq] at hm
  exact ⟨hadj, by exact_mod_cast hm⟩

theorem mem_nextHop {u v d : V} (hmulti : T.multiPath u = true)
    (hc : HopDistance.Closer T.graph u v d) : v ∈ nextHop s u d := by
  have hne : u ≠ d := by
    rintro rfl
    exact HopDistance.not_closer_self hc
  have htold := told_of_closer hT hconn hdiam h hq hc (metric_eq_dist hT hconn hdiam h hq v d)
  have hval : DV.Valid T.infinity (((s.node u).peers v).metric d) := by
    rw [htold]
    exact ⟨Int.natCast_nonneg _, hdiam u d⟩
  cases tableCase h (Ne.symm hne) with
  | direct hd hnh hm =>
      rw [hnh, hc.eq_of_adj hconn hd]
      exact List.mem_singleton_self d
  | none hd hnil hm => exact absurd hnil (((h.node u).dv d).reached v hc.1 hval)
  | dv hd hdv hnh hm =>
      rw [hnh]
      refine ((h.node u).dv d).all hmulti v hc.1 hval ?_
      rw [htold, ← hm, metric_eq_dist hT hconn hdiam h hq u d]

theorem nextHop_ne_nil {u d : V} (hne : u ≠ d) : nextHop s u d ≠ [] := by
  have hm := metric_eq_dist hT hconn hdiam h hq u d
  cases tableCase h (Ne.symm hne) with
  | direct hd hnh hm' => rw [hnh]; exact List.cons_ne_nil _ _
  | none hd hnil hm' => omega
  | dv hd hdv hnh hm' => rwa [hnh]

theorem nextHop_nodup (u d : V) : (nextHop s u d).Nodup := by
  by_cases hne : d = u
  · rw [hne, nextHop_self h]
    exact List.nodup_nil
  · cases tableCase h hne with
    | direct hd hnh hm => rw [hnh]; exact List.nodup_singleton d
    | none hd hnil hm => rw [metric_eq_dist hT hconn hdiam h hq] at hm; omega
    | dv hd hdv hnh hm => rw [hnh]; exact ((h.node u).dv d).nodup

end Rest

/-- A path a packet for `d` can take: each node but `d` hands it to one of its next hops. -/
def Forwards (s : RtNet V) (d : V) (f : ℕ → V) : Prop :=
  ∀ i, f i ≠ d → f (i + 1) ∈ nextHop s (f i) d

/-- **Distance-vector routes at rest**: the metrics are the hop distances, the next hops those one
hop closer, and every way of forwarding is a shortest path. -/
theorem quiescent_routes (hT : T.UnitUp) (hconn : T.graph.Connected)
    (hdiam : ∀ u v, (T.graph.dist u v : ℤ) < T.infinity) (h : Reach T s) (hq : Quiescent s) :
    (∀ u d, metric s u d = T.graph.dist u d) ∧
    (∀ u d, T.multiPath u = true → (nextHop s u d).Nodup ∧
      ∀ v, v ∈ nextHop s u d ↔ T.graph.Adj u v ∧ T.graph.dist v d + 1 = T.graph.dist u d) ∧
    (∀ u d, T.graph.Adj u d → nextHop s u d = [d]) ∧
    (∀ u d, u ≠ d → nextHop s u d ≠ []) ∧
    ∀ d f, Forwards s d f → f (T.graph.dist (f 0) d) = d ∧
      ∀ i j, i < j → j ≤ T.graph.dist (f 0) d → f i ≠ f j := by
  have hinv := h.inv hT
  refine ⟨metric_eq_dist hT hconn hdiam hinv hq, fun u d hm => ⟨?_, fun v => ⟨?_, ?_⟩⟩,
    fun u d => ?_, fun u d => ?_, fun d f hf => ?_⟩
  · exact nextHop_nodup hT hconn hdiam hinv hq u d
  · exact nextHop_closer hT hconn hdiam hinv hq
  · exact mem_nextHop hT hconn hdiam hinv hq hm
  · exact nextHop_of_adj hinv
  · exact nextHop_ne_nil hT hconn hdiam hinv hq
  · have hdesc : HopDistance.Descends T.graph d f := fun i hi =>
      nextHop_closer hT hconn hdiam hinv hq (hf i hi)
    exact ⟨hdesc.reaches hconn, fun i j hij hj => hdesc.no_loop hij hj⟩

/-- Three nodes in a row; the middle one sends first. -/
def row : Topology (Fin 3) where
  nodes := [0, 1, 2]
  nodes_nodup := by decide
  mem_nodes := by decide
  nbrs := fun u => if u = 1 then [0, 2] else [1]
  nbrs_nodup := by decide
  nbrs_symm := by decide
  nbrs_irrefl := by decide
  up := fun _ _ => true
  cost := fun _ _ => 1
  multiPath := fun _ => true
  infinity := 32

def rowOrder : ArrayOrder (Fin 3) where
  names := fun _ l => l
  names_perm := fun _ _ => .refl _
  protos := [.direct, .dv]
  protos_perm := .refl _

def rowEvents : List (Event (Fin 3)) :=
  [.periodic 1, .deliver 1 0 rowOrder, .deliver 1 2 rowOrder, .deliver 0 1 rowOrder,
    .deliver 2 1 rowOrder]

theorem row_run : (run row (init row) rowEvents).isSome = true := by decide +kernel

/-- The row once all five updates have arrived. -/
def rowRest : RtNet (Fin 3) := (run row (init row) rowEvents).get row_run

theorem rowRest_quiescent : Quiescent rowRest where
  queue := by
    have h : ∀ u v, (rowRest.queue u v).isEmpty = true := by decide +kernel
    exact fun u v => List.isEmpty_iff.mp (h u v)
  fresh := by decide +kernel

theorem row_walk (u v : Fin 3) : ∃ w : row.graph.Walk u v, w.length ≤ 2 := by
  have h : ∀ u v : Fin 3, u = v ∨ v ∈ row.nbrs u ∨ ∃ w, w ∈ row.nbrs u ∧ v ∈ row.nbrs w := by
    decide
  rcases h u v with rfl | hadj | ⟨w, h₁, h₂⟩
  · exact ⟨.nil, Nat.zero_le _⟩
  · exact ⟨.cons hadj .nil, Nat.le_succ 1⟩
  · exact ⟨.cons h₁ (.cons h₂ .nil), le_rfl⟩

/-- In the row the ends route through the middle. -/
theorem quiescent_routes_row : metric rowRest 0 2 = row.graph.dist 0 2 ∧
    nextHop rowRest 0 2 ≠ [] ∧ row.graph.Connected := by
  have hreach : Reach row rowRest := Reach.init.run (Option.some_get row_run).symm
  have hconn : row.graph.Connected :=
    { preconnected := fun u v => (row_walk u v).elim fun w _ => ⟨w⟩, nonempty := ⟨0⟩ }
  have hdiam : ∀ u v, (row.graph.dist u v : ℤ) < row.infinity := fun u v => by
    obtain ⟨w, hw⟩ := row_walk u v
    have hle := SimpleGraph.dist_le w
    have hinf : row.infinity = 32 := rfl
    omega
  have hup : row.UnitUp := ⟨fun _ _ _ => rfl, fun _ _ _ => rfl⟩
  obtain ⟨hm, -, -, hne, -⟩ := quiescent_routes hup hconn hdiam hreach rowRest_quiescent
  exact ⟨hm 0 2, hne 0 2 (by decide), hconn⟩

end RtNet

end Afabric
