import Afabric.Routing.AodvRoutes

/-!
# Routing — a network of AODV agents

Every address runs an agent.  A broadcast is heard by the nodes that a step names, so the topology
is any and changes at any time; a packet under way may be delivered at any time, in any order, or be
lost.

Along the routes for a destination the pair of sequence number and hop count gets strictly better
(`Ahead`), so that they have no cycle, as long as no handler takes back what it has told
(`loop_free`).  Two do.  A local repair that times out brings its route down under the sequence
number that other nodes use, and the agent may then take a route from a node whose route leads
through itself (`repair_loops`).  And no agent checks that a reply is not about itself
(`reply_loops`).
-/

namespace Afabric

structure AodvNet where
  node : ℕ → Aodv
  /-- The packets under way, each with its receiver. -/
  flight : List (ℕ × AodvPacket)

namespace AodvNet

/-- `near` are the nodes that hear a broadcast of the step. -/
inductive Event where
  | deliver (i : ℕ) (p : AodvPacket) (near : List ℕ)
  | lose (i : ℕ) (p : AodvPacket)
  /-- A data packet to be routed. -/
  | resolve (i saddr daddr : ℕ) (allowed : Bool) (near : List ℕ)
  /-- The link layer could not send a data packet to `nextHop`. -/
  | linkFailed (i nextHop daddr numForwards : ℕ) (allowed : Bool) (near : List ℕ)
  | repairTimeout (i daddr : ℕ)
  | rtPurge (i : ℕ) (expired waiting : List ℕ) (near : List ℕ)
  | idPurge (i : ℕ) (expired : List (ℕ × ℕ))
deriving DecidableEq, Repr

def init : AodvNet := ⟨Aodv.init, []⟩

/-- The copies of a packet that is sent. -/
def copies (near : List ℕ) (m : Option ℕ × AodvPacket) : List (ℕ × AodvPacket) :=
  match m.1 with
  | none => near.map fun j => (j, m.2)
  | some j => [(j, m.2)]

/-- The network after a handler of `i`. -/
def after (i : ℕ) (near : List ℕ) (s : AodvNet) (r : Aodv × AodvOut) : AodvNet where
  node := Function.update s.node i r.1
  flight := s.flight ++ r.2.flatMap (copies near)

/-- A packet that is under way is taken out. -/
def take (i : ℕ) (p : AodvPacket) (s : AodvNet) : Option AodvNet :=
  if (i, p) ∈ s.flight then some { s with flight := s.flight.erase (i, p) } else none

/-- One event; a data packet has been forwarded no more often than its time to live allows. -/
def step (s : AodvNet) : Event → Option AodvNet
  | .deliver i p near =>
      (take i p s).bind fun s => ((s.node i).recvAODV p).map (after i near s)
  | .lose i p => take i p s
  | .resolve i saddr daddr allowed near =>
      ((s.node i).rtResolve saddr daddr allowed).map (after i near s)
  | .linkFailed i nextHop daddr numForwards allowed near =>
      if numForwards ≤ networkDiameter then
        ((s.node i).rtLlFailed nextHop daddr numForwards allowed).map (after i near s)
      else none
  | .repairTimeout i daddr => ((s.node i).repairTimeout daddr).map (after i [] s)
  | .rtPurge i expired waiting near => ((s.node i).rtPurge expired waiting).map (after i near s)
  | .idPurge i expired => ((s.node i).idPurge expired).map (after i [] s)

/-- The states of the runs in which every event meets `P`. -/
inductive Reach (P : AodvNet → Event → Prop) : AodvNet → Prop
  | init : Reach P init
  | next {s s' : AodvNet} (e : Event) (h : Reach P s) (hP : P s e) (hs : step s e = some s') :
      Reach P s'

variable {P : AodvNet → Event → Prop} {s s' : AodvNet} {e : Event} {i : ℕ}

/-- The state after a list of events that meet `P`. -/
def run (P : AodvNet → Event → Prop) [∀ s e, Decidable (P s e)] (s : AodvNet) :
    List Event → Option AodvNet
  | [] => some s
  | e :: es => if P s e then (step s e).bind fun s' => run P s' es else none

theorem Reach.run [∀ s e, Decidable (P s e)] (h : Reach P s) {es : List Event}
    (hr : run P s es = some s') : Reach P s' := by
  induction es generalizing s with
  | nil => exact Option.some.inj hr ▸ h
  | cons e es ih =>
      rw [AodvNet.run] at hr
      split_ifs at hr with hP
      obtain ⟨t, ht, hr'⟩ := Option.bind_eq_some_iff.mp hr
      exact ih (h.next e hP ht) hr'

/-! ### Cycles -/

/-- The route of `i` for `d` is up and leads to `j`. -/
def Via (s : AodvNet) (d i j : ℕ) : Prop :=
  ∃ rt ∈ (s.node i).rtLookup d, rt.flags = .up ∧ rt.nexthop = j

instance (d i j : ℕ) : Decidable (s.Via d i j) :=
  inferInstanceAs (Decidable (∃ rt ∈ (s.node i).rtLookup d, rt.flags = .up ∧ rt.nexthop = j))

def LoopFree (s : AodvNet) : Prop := ∀ d i, ¬ Relation.TransGen (s.Via d) i i

/-- What is known of the agents of a network. -/
def Kept (s : AodvNet) (j d seq h : ℕ) : Prop := (s.node j).Keeps d seq h

structure Inv (s : AodvNet) : Prop where
  index : ∀ i, (s.node i).index = i
  node : ∀ i, (s.node i).Ok s.Kept
  flight : ∀ m ∈ s.flight, m.2.Ok s.Kept

/-- `j` is the destination, or its entry is better than that of `i`. -/
def Ahead (s : AodvNet) (d i j : ℕ) : Prop :=
  i ≠ d ∧ (j = d ∨ ∃ rt rt', (s.node i).rtLookup d = some rt ∧ (s.node j).rtLookup d = some rt' ∧
    (rt.seqno < rt'.seqno ∨ (rt.seqno = rt'.seqno ∧ rt'.hops < rt.hops)))

theorem ahead_trans {d a b c : ℕ} (h₁ : s.Ahead d a b) (h₂ : s.Ahead d b c) : s.Ahead d a c := by
  obtain ⟨ha, hab⟩ := h₁
  obtain ⟨hb, hbc⟩ := h₂
  refine ⟨ha, ?_⟩
  rcases hbc with rfl | ⟨rb, rc, hlb, hlc, hrc⟩
  · exact .inl rfl
  · rcases hab with rfl | ⟨ra, rb', hla, hlb', hrb⟩
    · exact absurd rfl hb
    · obtain rfl := Option.some.inj (hlb'.symm.trans hlb)
      refine .inr ⟨ra, rc, hla, hlc, ?_⟩
      omega

theorem ahead_irrefl (d a : ℕ) : ¬ s.Ahead d a a := by
  rintro ⟨ha, h | ⟨rt, rt', hl, hl', hlt⟩⟩
  · exact ha h
  · obtain rfl := Option.some.inj (hl.symm.trans hl')
    omega

theorem Inv.ahead_of_via (hs : Inv s) {d i j : ℕ} (h : s.Via d i j) : s.Ahead d i j := by
  obtain ⟨rt, hl, hup, rfl⟩ := h
  obtain ⟨hne, hkeep⟩ := (hs.node i).route d rt hl hup
  rw [hs.index i] at hne
  refine ⟨hne.symm, ?_⟩
  rcases hkeep with hd | ⟨rt', hl', hlt | ⟨heq, -, hlt⟩⟩
  · exact .inl ((hs.index _).symm.trans hd)
  · exact .inr ⟨rt, rt', hl, hl', .inl hlt⟩
  · exact .inr ⟨rt, rt', hl, hl', .inr ⟨heq, hlt⟩⟩

theorem Inv.loopFree (hs : Inv s) : LoopFree s := fun d =>
  acyclic_of_le (fun _ _ => hs.ahead_of_via) (fun _ _ _ => ahead_trans) (ahead_irrefl d)

/-! ### Runs -/

theorem inv_init : Inv init where
  index := fun _ => rfl
  node := fun _ => ⟨fun _ _ he => (by cases he), fun _ _ he => by cases he⟩
  flight := fun _ hm => absurd hm List.not_mem_nil

theorem node_after_self {near : List ℕ} {r : Aodv × AodvOut} :
    (after i near s r).node i = r.1 :=
  Function.update_self _ _ _

theorem node_after_of_ne {near : List ℕ} {r : Aodv × AodvOut} {j : ℕ} (hj : j ≠ i) :
    (after i near s r).node j = s.node j :=
  Function.update_of_ne hj _ _

/-- A handler that takes nothing back keeps the invariant. -/
theorem inv_after (hs : Inv s) {near : List ℕ} {r : Aodv × AodvOut}
    (hr : Aodv.Handled s.Kept (s.node i) r) : Inv (after i near s r) := by
  have hnode (j : ℕ) : (s.node j).Improves ((after i near s r).node j) := by
    by_cases hj : j = i
    · subst hj
      rw [node_after_self]
      exact hr.improves
    · rw [node_after_of_ne hj]
      exact .refl _
  have hkept (j d seq h : ℕ) (hk : s.Kept j d seq h) : (after i near s r).Kept j d seq h :=
    Aodv.Keeps.mono hk (hnode j)
  have hindex (j : ℕ) : ((after i near s r).node j).index = j :=
    (hnode j).index.trans (hs.index j)
  refine ⟨hindex, fun j => ?_, fun m hm => ?_⟩
  · have hok : ((after i near s r).node j).Ok s.Kept := by
      by_cases hj : j = i
      · subst hj
        rw [node_after_self]
        exact hr.ok
      · rw [node_after_of_ne hj]
        exact hs.node j
    exact ⟨hok.entry, fun d e he hf =>
      ⟨(hok.route d e he hf).1, hkept _ _ _ _ (hok.route d e he hf).2⟩⟩
  · rcases List.mem_append.mp hm with hm | hm
    · exact (hs.flight m hm).mono hkept
    · obtain ⟨m', hm', hcopy⟩ := List.mem_flatMap.mp hm
      have hp : m.2 = m'.2 := by
        rw [copies] at hcopy
        cases hto : m'.1 with
        | none =>
            rw [hto] at hcopy
            obtain ⟨j, -, rfl⟩ := List.mem_map.mp hcopy
            rfl
        | some j =>
            rw [hto] at hcopy
            exact congrArg Prod.snd (List.mem_singleton.mp hcopy)
      rw [hp]
      refine (hr.out m' hm').mono fun j d seq h ho => ?_
      have hj : j = i := ho.1.trans (hr.improves.index.trans (hs.index i))
      subst hj
      rw [Kept, node_after_self]
      exact ho.2

theorem inv_take {p : AodvPacket} (hs : Inv s) (ht : take i p s = some s') :
    Inv s' ∧ p.Ok s'.Kept := by
  rw [take] at ht
  split_ifs at ht with hmem
  obtain rfl := Option.some.inj ht
  exact ⟨⟨hs.index, hs.node, fun m hm => hs.flight m (List.mem_of_mem_erase hm)⟩,
    hs.flight (i, p) hmem⟩

/-- No local repair times out while it is under way. -/
def RepairInTime (s : AodvNet) : Event → Prop
  | .repairTimeout i daddr => ∀ rt ∈ (s.node i).rtLookup daddr, rt.flags ≠ .inRepair
  | _ => True

/-- No reply comes to the node it is about. -/
def ReplyElsewhere : Event → Prop
  | .deliver i (.rrep _ rp) _ => rp.dst ≠ i
  | _ => True

def Careful (s : AodvNet) (e : Event) : Prop := RepairInTime s e ∧ ReplyElsewhere e

instance (s : AodvNet) : ∀ e, Decidable (RepairInTime s e)
  | .repairTimeout i daddr =>
      inferInstanceAs (Decidable (∀ rt ∈ (s.node i).rtLookup daddr, rt.flags ≠ .inRepair))
  | .deliver _ _ _ | .lose _ _ | .resolve _ _ _ _ _ | .linkFailed _ _ _ _ _ _ | .rtPurge _ _ _ _
  | .idPurge _ _ => .isTrue trivial

instance : ∀ e, Decidable (ReplyElsewhere e)
  | .deliver i (.rrep _ rp) _ => inferInstanceAs (Decidable (rp.dst ≠ i))
  | .deliver _ (.rreq _ _) _ | .deliver _ (.rerr _ _) _ | .lose _ _ | .resolve _ _ _ _ _
  | .linkFailed _ _ _ _ _ _ | .repairTimeout _ _ | .rtPurge _ _ _ _ | .idPurge _ _ =>
      .isTrue trivial

instance (s : AodvNet) (e : Event) : Decidable (Careful s e) :=
  inferInstanceAs (Decidable (_ ∧ _))

theorem recvAODV_handled {n : Aodv} {G : ℕ → ℕ → ℕ → ℕ → Prop} {p : AodvPacket}
    {r : Aodv × AodvOut} (hok : n.Ok G) (hp : p.Ok G)
    (hself : ∀ daddr rp, p = .rrep daddr rp → rp.dst ≠ n.index) (hr : n.recvAODV p = some r) :
    Aodv.Handled G n r := by
  cases p with
  | rreq saddr rq => exact Aodv.recvRequest_handled hok hp hr
  | rrep daddr rp => exact Aodv.recvReply_handled hok (hself daddr rp rfl) hp hr
  | rerr saddr us => exact Aodv.recvError_handled hok hp hr

theorem inv_step (hs : Inv s) (hc : Careful s e) (hstep : step s e = some s') : Inv s' := by
  cases e with
  | deliver i p near =>
      obtain ⟨t, ht, hstep⟩ := Option.bind_eq_some_iff.mp hstep
      obtain ⟨r, hr, rfl⟩ := Option.map_eq_some_iff.mp hstep
      obtain ⟨hinv, hp⟩ := inv_take hs ht
      refine inv_after hinv (recvAODV_handled (hinv.node i) hp ?_ hr)
      rintro daddr rp rfl
      rw [hinv.index i]
      exact hc.2
  | lose i p => exact (inv_take hs hstep).1
  | resolve i saddr daddr allowed near =>
      obtain ⟨r, hr, rfl⟩ := Option.map_eq_some_iff.mp hstep
      exact inv_after hs (Aodv.rtResolve_handled (hs.node i) hr)
  | linkFailed i nextHop daddr numForwards allowed near =>
      rw [step] at hstep
      split_ifs at hstep with hnum
      obtain ⟨r, hr, rfl⟩ := Option.map_eq_some_iff.mp hstep
      exact inv_after hs (Aodv.rtLlFailed_handled (hs.node i) (hnum.trans (by decide)) hr)
  | repairTimeout i daddr =>
      obtain ⟨r, hr, rfl⟩ := Option.map_eq_some_iff.mp hstep
      exact inv_after hs (Aodv.repairTimeout_handled (hs.node i) hc.1 hr)
  | rtPurge i expired waiting near =>
      obtain ⟨r, hr, rfl⟩ := Option.map_eq_some_iff.mp hstep
      exact inv_after hs (Aodv.rtPurge_handled (hs.node i) hr)
  | idPurge i expired =>
      rw [step] at hstep
      obtain ⟨r, hr, rfl⟩ := Option.map_eq_some_iff.mp hstep
      exact inv_after hs (Aodv.idPurge_handled (hs.node i) hr)

theorem inv_reach (h : Reach Careful s) : Inv s := by
  induction h with
  | init => exact inv_init
  | next e _ hc hs ih => exact inv_step ih hc hs

/-- **No cycle of next hops**, in any state of a run in which no local repair times out while it is
under way and no reply comes to the node it is about. -/
theorem loop_free (h : Reach Careful s) : LoopFree s := (inv_reach h).loopFree

/-- The nodes 4, 3 and 2 find a route to 1; then the link from 2 to 1 breaks. -/
def discovery : List Event :=
  [.resolve 4 4 1 true [3], .deliver 3 (.rreq 4 ⟨1, 1, 1, 0, 4, 4⟩) [2],
    .deliver 2 (.rreq 3 ⟨2, 1, 1, 0, 4, 4⟩) [1], .deliver 1 (.rreq 2 ⟨3, 1, 1, 0, 4, 4⟩) [],
    .deliver 2 (.rrep 4 ⟨1, 1, 4, 1⟩) [], .deliver 3 (.rrep 4 ⟨2, 1, 4, 2⟩) [],
    .deliver 4 (.rrep 4 ⟨3, 1, 4, 3⟩) [], .linkFailed 2 1 1 2 true []]

theorem loop_free_discovery : ∃ s, run Careful init discovery = some s ∧ s.Via 1 4 3 ∧
    s.Via 1 3 2 ∧ LoopFree s := by
  have hrun : (run Careful init discovery).any
      (fun s => decide (s.Via 1 4 3) && decide (s.Via 1 3 2)) = true := by decide +kernel
  obtain ⟨s, hs, hvia⟩ := (Option.any_eq_true _ _).mp hrun
  simp only [Bool.and_eq_true, decide_eq_true_eq] at hvia
  exact ⟨s, hs, hvia.1, hvia.2, loop_free (Reach.init.run hs)⟩

theorem not_loopFree {d i j : ℕ} (h₁ : s.Via d i j) (h₂ : s.Via d j i) : ¬ LoopFree s :=
  fun h => h d i (.tail (.single h₁) h₂)

theorem loops_of_run [∀ s e, Decidable (P s e)] (es : List Event) (d i j : ℕ)
    (h : (run P init es).any (fun s => decide (s.Via d i j) && decide (s.Via d j i)) = true) :
    ∃ s, Reach P s ∧ ¬ LoopFree s := by
  obtain ⟨s, hs, hvia⟩ := (Option.any_eq_true _ _).mp h
  simp only [Bool.and_eq_true, decide_eq_true_eq] at hvia
  exact ⟨s, Reach.init.run hs, not_loopFree hvia.1 hvia.2⟩

/-- The repair at 2 fails and its route goes down under number 4; when 2 then asks for a route
itself, 3 offers the one through 2, also of number 4. -/
theorem repair_loops : ∃ s, Reach (fun _ e => ReplyElsewhere e) s ∧ ¬ LoopFree s :=
  loops_of_run (discovery ++ [.repairTimeout 2 1, .resolve 2 2 1 true [3],
    .deliver 3 (.rreq 2 ⟨1, 2, 1, 4, 2, 6⟩) [], .deliver 2 (.rrep 2 ⟨3, 1, 4, 3⟩) []]) 1 2 3
    (by decide +kernel)

/-- An old request of 3 for 1 reaches 2 after a newer one has come through 1, and so 2 sends its
reply, about 1, to 1. -/
theorem reply_loops : ∃ s, Reach RepairInTime s ∧ ¬ LoopFree s :=
  loops_of_run [.resolve 2 2 1 true [1], .deliver 1 (.rreq 2 ⟨1, 1, 1, 0, 2, 4⟩) [],
    .deliver 2 (.rrep 2 ⟨1, 1, 4, 1⟩) [], .resolve 3 3 1 true [2], .resolve 3 3 9 true [1],
    .deliver 1 (.rreq 3 ⟨1, 2, 9, 0, 3, 6⟩) [2], .deliver 2 (.rreq 1 ⟨2, 2, 9, 0, 3, 6⟩) [],
    .deliver 2 (.rreq 3 ⟨1, 1, 1, 0, 3, 4⟩) [], .deliver 1 (.rrep 3 ⟨2, 1, 4, 2⟩) []] 1 1 2
    (by decide +kernel)

theorem Reach.mono {Q : AodvNet → Event → Prop} (h : Reach P s) (hPQ : ∀ s e, P s e → Q s e) :
    Reach Q s := by
  induction h with
  | init => exact .init
  | next e _ hP hs ih => exact ih.next e (hPQ _ e hP) hs

theorem not_loop_free : ¬ ∀ s, Reach (fun _ _ => True) s → LoopFree s := by
  intro h
  obtain ⟨s, hs, hloop⟩ := repair_loops
  exact hloop (h s (hs.mono fun _ _ _ => trivial))

end AodvNet

end Afabric
