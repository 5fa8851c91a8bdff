import Mathlib.Algebra.Order.BigOperators.Group.Finset
import Afabric.Apps.Arrivals

/-!
# Apps — the workload is the draws

Which connection carries a flow depends on when the flows before it end; when the flow starts and
how many bytes it has does not.  The invariant is kept for each group on its own (`Served`): its
planned starts are the flows `q ≤ k < m` in order, those before `q` have started, and the check
armed before `tnext` is still to come, so that `tnext` cannot pass.  The other groups touch a group
only through `flow_gen`.
-/

namespace Afabric

namespace Arrivals

variable {C : Config}

/-! ### What the helpers leave alone -/

@[simp] theorem Group.onPair_nrPairs (G : Group) (pid : ℕ) (f : TcpPair → TcpPair) :
    (G.onPair pid f).nrPairs = G.nrPairs := rfl

@[simp] theorem Group.onPair_apair (G : Group) (pid : ℕ) (f : TcpPair → TcpPair) (i : ℕ) :
    (G.onPair pid f).apair i = if i = pid then f (G.apair pid) else G.apair i := by
  simp only [Group.onPair, Function.update_apply]

@[simp] theorem State.onGroup_groups (s : State) (g g' : ℕ) (f : Group → Group) :
    (s.onGroup g f).groups g' = if g' = g then f (s.groups g) else s.groups g' := by
  simp only [State.onGroup, Function.update_apply]

/-! ### The planned starts -/

/-- The starts among some events, with their sizes. -/
def plans (ev : List Event) : List (ℚ × ℤ) :=
  ev.filterMap fun e => match e.call with
    | .start _ _ bytes => some (e.time, bytes)
    | _ => none

theorem plans_append (l₁ l₂ : List Event) : plans (l₁ ++ l₂) = plans l₁ ++ plans l₂ :=
  List.filterMap_append

theorem flow_strictMono (h : C.Admissible) {g : ℕ} (hg : g < C.groups) :
    StrictMono fun k => (flow C g k).1 := by
  refine strictMono_nat_of_lt_succ fun k => ?_
  have := h.pos g hg (k + 1)
  simp only [flow, Finset.sum_range_succ _ (k + 1)]
  linarith

theorem flow_succ (g k : ℕ) : (flow C g (k + 1)).1 = (flow C g k).1 + C.rvFlowIntval g (k + 1) := by
  simp only [flow, Finset.sum_range_succ _ (k + 1)]
  ring

/-! ### The invariant of one group -/

/-- The connections of a group, of which there are `n`. -/
structure Pairs (n : ℕ) (G : Group) (ev : List Event) : Prop where
  held_le : ∀ pid, held G ev pid ≤ 1
  held_none : ∀ pid, n ≤ pid → held G ev pid = 0
  pairId : ∀ pid < n, (G.apair pid).pairId = pid

/-- The flows of a group: `p` have started, and `q` have left the schedule. -/
structure Going (C : Config) (g fg : ℕ) (G : Group) (ev : List Event) (p q : ℕ) : Prop where
  started : G.started = (List.range p).map (flow C g)
  plans : plans ev = (List.range' q (G.nbytes - q)).map (flow C g)
  le : p ≤ q
  le' : q ≤ G.nbytes
  all : fg < C.simEnd → p = q
  intvals : G.intvals = G.nbytes + 1
  tnext : G.tnext = (flow C g G.nbytes).1
  init : ∀ e ∈ ev, e.call ≠ .initSchedule g

/-- The check before the next start is still to come. -/
def Guarded (C : Config) (g fg : ℕ) (G : Group) (ev : List Event) : Prop :=
  C.simEnd ≤ fg ∨ ⟨G.tnext - 1 / 10000000, .checkIfBehind g⟩ ∈ ev

/-- A group as `setup` leaves it. -/
structure Waiting (C : Config) (g : ℕ) (G : Group) (ev : List Event) : Prop where
  events : ev = [⟨1, .initSchedule g⟩]
  intvals : G.intvals = 0
  nbytes : G.nbytes = 0
  started : G.started = []
  nrPairs : G.nrPairs = C.connectionsPerPair
  idle : ∀ pid, (G.apair pid).running = false

/-- **The invariant of a group.** -/
structure Served (C : Config) (g fg : ℕ) (G : Group) (ev : List Event) : Prop where
  pairs : Pairs G.nrPairs G ev
  phase : Waiting C g G ev ∨ ∃ p q, Going C g fg G ev p q ∧ Guarded C g fg G ev

theorem Going.mono {g fg fg' p q : ℕ} {G : Group} {ev : List Event} (h : Going C g fg G ev p q)
    (hle : fg ≤ fg') : Going C g fg' G ev p q :=
  { h with all := fun hlt => h.all (Nat.lt_of_le_of_lt hle hlt) }

theorem Guarded.mono {g fg fg' : ℕ} {G : Group} {ev : List Event} (h : Guarded C g fg G ev)
    (hle : fg ≤ fg') : Guarded C g fg' G ev := by
  rcases h with h | h
  · exact Or.inl (h.trans hle)
  · exact Or.inr h

theorem Served.mono {g fg fg' : ℕ} {G : Group} {ev : List Event} (h : Served C g fg G ev)
    (hle : fg ≤ fg') : Served C g fg' G ev := by
  refine ⟨h.pairs, ?_⟩
  rcases h.phase with hw | ⟨p, q, hgo, hgu⟩
  · exact Or.inl hw
  · exact Or.inr ⟨p, q, hgo.mono hle, hgu.mono hle⟩

/-! ### `schedule` on one group -/

/-- The group after `schedule`. -/
def Group.scheduled (C : Config) (g : ℕ) (G : Group) : Group :=
  { G with
    nbytes := G.nbytes + 1
    intvals := G.intvals + 1
    tnext := G.tnext + C.rvFlowIntval g G.intvals }

/-- The events `schedule` adds. -/
def Group.newEvents (C : Config) (g pid : ℕ) (G : Group) : List Event :=
  [⟨G.tnext, .start g pid (⌈C.rvNbytes g G.nbytes⌉ * 1460)⟩,
    ⟨G.tnext + C.rvFlowIntval g G.intvals - 1 / 10000000, .checkIfBehind g⟩]

/-- The next start has not passed, and neither has the check before the one after. -/
def OnTime (C : Config) (g : ℕ) (now : ℚ) (G : Group) : Prop :=
  now ≤ G.tnext ∧ now ≤ G.tnext + C.rvFlowIntval g G.intvals - 1 / 10000000

theorem nsAt_ok {t : ℚ} (c : Call) {s : State} (h : s.now ≤ t) :
    nsAt t c s = .ok { s with pending := s.pending ++ [⟨t, c⟩] } := if_neg (not_lt.mpr h)

theorem schedule_eq {g : ℕ} (pid : ℕ) {s : State} (hfg : s.flowGen < C.simEnd)
    (ht : OnTime C g s.now (s.groups g)) :
    schedule C g pid s = .ok { s.onGroup g (Group.scheduled C g) with
      pending := s.pending ++ (s.groups g).newEvents C g pid } := by
  rw [schedule, if_neg (Nat.not_le.mpr hfg), if_neg (not_lt.mpr ht.1)]
  have h₁ := nsAt_ok (.start g pid (⌈C.rvNbytes g (s.groups g).nbytes⌉ * 1460))
    (s := s.onGroup g fun G => { G with nbytes := G.nbytes + 1 }) ht.1
  simp only [h₁, bind, Except.bind]
  rw [nsAt_ok]
  · simp only [State.onGroup, List.append_assoc, Function.update_self, Function.update_idem,
      Group.newEvents, Group.scheduled, List.cons_append, List.nil_append]
  · exact ht.2

theorem schedule_done {g : ℕ} (pid : ℕ) {s : State} (hfg : C.simEnd ≤ s.flowGen) :
    schedule C g pid s = .ok s := if_pos hfg

theorem Going.schedule {g fg pid p q : ℕ} {G : Group} {ev : List Event}
    (h : Going C g fg G ev p q) :
    Going C g fg (G.scheduled C g) (ev ++ G.newEvents C g pid) p q where
  started := h.started
  plans := by
    have hn : G.nbytes + 1 - q = (G.nbytes - q) + 1 := by have := h.le'; omega
    have hq : q + (G.nbytes - q) = G.nbytes := by have := h.le'; omega
    have hnew : Arrivals.plans (G.newEvents C g pid) = [flow C g G.nbytes] := by
      simp only [Arrivals.plans, Group.newEvents, List.filterMap_cons, List.filterMap_nil,
        h.tnext, flow]
    rw [plans_append, h.plans, hnew]
    show _ = (List.range' q (G.nbytes + 1 - q)).map (flow C g)
    rw [hn, List.range'_concat, List.map_append, Nat.one_mul, hq, List.map_singleton]
  le := h.le
  le' := Nat.le_succ_of_le h.le'
  all := h.all
  intvals := congrArg (· + 1) h.intvals
  tnext := by
    show G.tnext + C.rvFlowIntval g G.intvals = (flow C g (G.nbytes + 1)).1
    rw [flow_succ, h.tnext, h.intvals]
  init := by
    intro e he
    rcases List.mem_append.mp he with he | he
    · exact h.init e he
    · simp only [Group.newEvents, List.mem_cons, List.not_mem_nil, or_false] at he
      rcases he with rfl | rfl <;> simp

theorem guarded_schedule (g fg pid : ℕ) (G : Group) (ev : List Event) :
    Guarded C g fg (G.scheduled C g) (ev ++ G.newEvents C g pid) :=
  Or.inr (List.mem_append_right _ (List.mem_cons_of_mem _ (List.mem_singleton_self _)))

theorem held_schedule (g pid : ℕ) (G : Group) (ev : List Event) (i : ℕ) :
    held (G.scheduled C g) (ev ++ G.newEvents C g pid) i =
      held G ev i + if i = pid then 1 else 0 := by
  have hs : ((G.newEvents C g pid).filter (Event.starts i)).length = if i = pid then 1 else 0 := by
    by_cases hi : i = pid
    · subst hi
      simp [Group.newEvents, Event.starts]
    · simp [Group.newEvents, Event.starts, hi, Ne.symm hi]
  simp only [held, List.filter_append, List.length_append, hs, Group.scheduled]
  omega

theorem Pairs.schedule {n g pid : ℕ} {G : Group} {ev : List Event} (h : Pairs n G ev)
    (hpid : pid < n) (hfree : held G ev pid = 0) :
    Pairs n (G.scheduled C g) (ev ++ G.newEvents C g pid) where
  held_le i := by
    rw [held_schedule]
    by_cases hi : i = pid
    · subst hi
      rw [hfree, if_pos rfl]
    · rw [if_neg hi]
      exact h.held_le i
  held_none i hi := by
    rw [held_schedule, if_neg (by omega)]
    exact h.held_none i hi
  pairId := h.pairId

/-! ### The groups side by side -/

/-- What a call for the group `g` leaves alone. -/
structure Touches (g : ℕ) (s s' : State) : Prop where
  flowGen : s.flowGen ≤ s'.flowGen
  groups : ∀ g', g' ≠ g → s'.groups g' = s.groups g'
  mine : ∀ g', g' ≠ g → s'.mine g' = s.mine g'

/-- The connections, and their ids, are the same. -/
structure SameConns (s s' : State) : Prop where
  initFid : s'.initFid = s.initFid
  nrPairs : ∀ g, (s'.groups g).nrPairs = (s.groups g).nrPairs
  id : ∀ g pid, ((s'.groups g).apair pid).id = ((s.groups g).apair pid).id

/-- The ids handed out are distinct. -/
structure Fids (s : State) : Prop where
  lt : ∀ g pid, pid < (s.groups g).nrPairs → ((s.groups g).apair pid).id < s.initFid
  inj : ∀ g g' pid pid', pid < (s.groups g).nrPairs → pid' < (s.groups g').nrPairs →
    ((s.groups g).apair pid).id = ((s.groups g').apair pid').id → g = g' ∧ pid = pid'

/-- No event has been missed. -/
def InTime (s : State) : Prop := ∀ e ∈ s.pending, s.now ≤ e.time

/-- **The invariant of the runs.** -/
structure Inv (C : Config) (s : State) : Prop where
  inTime : InTime s
  fids : Fids s
  served : ∀ g < C.groups, Served C g s.flowGen (s.groups g) (s.mine g)
  unused : ∀ g, C.groups ≤ g → (s.groups g).nrPairs = 0 ∧ s.mine g = []

theorem Touches.trans {g : ℕ} {s s' s'' : State} (h : Touches g s s') (h' : Touches g s' s'') :
    Touches g s s'' :=
  ⟨h.flowGen.trans h'.flowGen, fun g' hg => (h'.groups g' hg).trans (h.groups g' hg),
    fun g' hg => (h'.mine g' hg).trans (h.mine g' hg)⟩

theorem SameConns.trans {s s' s'' : State} (h : SameConns s s') (h' : SameConns s' s'') :
    SameConns s s'' :=
  ⟨h'.initFid.trans h.initFid, fun g => (h'.nrPairs g).trans (h.nrPairs g),
    fun g pid => (h'.id g pid).trans (h.id g pid)⟩

theorem Fids.same {s s' : State} (h : Fids s) (hs : SameConns s s') : Fids s' where
  lt g pid hpid := by
    rw [hs.id, hs.initFid]
    exact h.lt g pid (hs.nrPairs g ▸ hpid)
  inj g g' pid pid' hpid hpid' heq := by
    rw [hs.id, hs.id] at heq
    exact h.inj g g' pid pid' (hs.nrPairs g ▸ hpid) (hs.nrPairs g' ▸ hpid') heq

/-- A call for `g` keeps the invariant if it serves `g`. -/
theorem Inv.touch {g : ℕ} {s s' : State} (h : Inv C s) (hg : g < C.groups) (ht : Touches g s s')
    (hin : InTime s') (hf : Fids s') (hserved : Served C g s'.flowGen (s'.groups g) (s'.mine g)) :
    Inv C s' where
  inTime := hin
  fids := hf
  served g' hg' := by
    by_cases he : g' = g
    · rw [he]
      exact hserved
    · rw [ht.groups g' he, ht.mine g' he]
      exact (h.served g' hg').mono ht.flowGen
  unused g' hg' := by
    have he : g' ≠ g := by omega
    rw [ht.groups g' he, ht.mine g' he]
    exact h.unused g' hg'

theorem mine_append (s : State) (g : ℕ) (l : List Event) :
    ({ s with pending := s.pending ++ l } : State).mine g =
      s.mine g ++ l.filter fun e => e.call.group = g := List.filter_append ..

theorem mem_of_mine {s : State} {g : ℕ} {e : Event} (h : e ∈ s.mine g) : e ∈ s.pending :=
  List.mem_of_mem_filter h

/-! ### `schedule` in a state -/

/-- What `schedule` does for the pair `pid` of the group `g`, with `n` connections. -/
structure Scheduled (C : Config) (g pid n p q : ℕ) (s s' : State) : Prop where
  now : s'.now = s.now
  touches : Touches g s s'
  conns : SameConns s s'
  inTime : InTime s'
  pairs : Pairs n (s'.groups g) (s'.mine g)
  going : Going C g s'.flowGen (s'.groups g) (s'.mine g) p q
  guarded : Guarded C g s'.flowGen (s'.groups g) (s'.mine g)
  other : ∀ j, j ≠ pid → held (s'.groups g) (s'.mine g) j = held (s.groups g) (s.mine g) j

theorem newEvents_filter (g g' pid : ℕ) (G : Group) :
    (G.newEvents C g pid).filter (fun e => e.call.group = g') =
      if g' = g then G.newEvents C g pid else [] := by
  by_cases h : g' = g
  · subst h
    simp [Group.newEvents, Call.group]
  · simp [Group.newEvents, Call.group, h, Ne.symm h]

/-- **`schedule` does not fail**, and keeps the plan of its group. -/
theorem schedule_scheduled {g pid n p q : ℕ} {s : State} (hin : InTime s)
    (hpairs : Pairs n (s.groups g) (s.mine g)) (hpid : pid < n)
    (hfree : held (s.groups g) (s.mine g) pid = 0)
    (hgo : Going C g s.flowGen (s.groups g) (s.mine g) p q)
    (ht : s.flowGen < C.simEnd → OnTime C g s.now (s.groups g)) :
    ∃ s', schedule C g pid s = .ok s' ∧ Scheduled C g pid n p q s s' := by
  by_cases hfg : s.flowGen < C.simEnd
  · have hmine : ∀ g', ({ s.onGroup g (Group.scheduled C g) with
        pending := s.pending ++ (s.groups g).newEvents C g pid } : State).mine g' =
        s.mine g' ++ if g' = g then (s.groups g).newEvents C g pid else [] := by
      intro g'
      rw [← newEvents_filter, ← mine_append]
      rfl
    have hgroup : (s.onGroup g (Group.scheduled C g)).groups g = (s.groups g).scheduled C g := by
      rw [State.onGroup_groups, if_pos rfl]
    refine ⟨_, schedule_eq pid hfg (ht hfg), rfl, ⟨le_rfl, fun g' hg' => ?_, fun g' hg' => ?_⟩,
      ⟨rfl, fun g' => ?_, fun g' i => ?_⟩, fun e he => ?_, ?_, ?_, ?_, fun j hj => ?_⟩
    · exact (State.onGroup_groups s g g' _).trans (if_neg hg')
    · rw [hmine, if_neg hg', List.append_nil]
    · show ((s.onGroup g _).groups g').nrPairs = _
      rw [State.onGroup_groups]
      split_ifs with hg'
      · rw [hg']
        rfl
      · rfl
    · show (((s.onGroup g _).groups g').apair i).id = _
      rw [State.onGroup_groups]
      split_ifs with hg'
      · rw [hg']
        rfl
      · rfl
    · rcases List.mem_append.mp he with he | he
      · exact hin e he
      · simp only [Group.newEvents, List.mem_cons, List.not_mem_nil, or_false] at he
        rcases he with rfl | rfl
        · exact (ht hfg).1
        · exact (ht hfg).2
    · rw [hmine, if_pos rfl]
      show Pairs n ((s.onGroup g _).groups g) _
      rw [hgroup]
      exact hpairs.schedule hpid hfree
    · rw [hmine, if_pos rfl]
      show Going C g _ ((s.onGroup g _).groups g) _ p q
      rw [hgroup]
      exact hgo.schedule
    · rw [hmine, if_pos rfl]
      show Guarded C g _ ((s.onGroup g _).groups g) _
      rw [hgroup]
      exact guarded_schedule ..
    · rw [hmine, if_pos rfl]
      show held ((s.onGroup g _).groups g) _ j = _
      rw [hgroup, held_schedule, if_neg hj, Nat.add_zero]
  · exact ⟨s, schedule_done pid (not_lt.mp hfg), rfl, ⟨le_rfl, fun _ _ => rfl, fun _ _ => rfl⟩,
      ⟨rfl, fun _ => rfl, fun _ _ => rfl⟩, hin, hpairs, hgo, Or.inl (not_lt.mp hfg),
      fun _ _ => rfl⟩

theorem Guarded.onTime (h : C.Admissible) {g : ℕ} {s : State} (hg : g < C.groups)
    (hin : InTime s) (hgu : Guarded C g s.flowGen (s.groups g) (s.mine g)) (hfg : s.flowGen < C.simEnd) :
    OnTime C g s.now (s.groups g) := by
  have hcheck := hin _ (mem_of_mine (hgu.resolve_left (not_le.mpr hfg)))
  have hpos := h.pos g hg (s.groups g).intvals
  simp only at hcheck
  exact ⟨by linarith, by linarith⟩

/-! ### The calls -/

/-- The events of the group of a dispatched event, before and after. -/
theorem mine_dispatch {s : State} {l₁ l₂ : List Event} {e : Event}
    (hpend : s.pending = l₁ ++ e :: l₂) :
    ∃ k₁ k₂, s.mine e.call.group = k₁ ++ e :: k₂ ∧
      ({ s with now := e.time, pending := l₁ ++ l₂ } : State).mine e.call.group = k₁ ++ k₂ := by
  refine ⟨l₁.filter fun e' => e'.call.group = e.call.group,
    l₂.filter fun e' => e'.call.group = e.call.group, ?_, List.filter_append ..⟩
  rw [State.mine, hpend, List.filter_append, List.filter_cons_of_pos (by simp)]

theorem touches_dispatch {s : State} {l₁ l₂ : List Event} {e : Event}
    (hpend : s.pending = l₁ ++ e :: l₂) :
    Touches e.call.group s { s with now := e.time, pending := l₁ ++ l₂ } := by
  refine ⟨le_rfl, fun _ _ => rfl, fun g' hg' => ?_⟩
  show (l₁ ++ l₂).filter _ = s.pending.filter _
  rw [hpend, List.filter_append, List.filter_append,
    List.filter_cons_of_neg (by simpa using Ne.symm hg')]

theorem inTime_dispatch {s : State} {l₁ l₂ : List Event} {e : Event}
    (hpend : s.pending = l₁ ++ e :: l₂) (hmin : ∀ e' ∈ s.pending, e.time ≤ e'.time) :
    InTime { s with now := e.time, pending := l₁ ++ l₂ } := by
  intro e' he'
  refine hmin e' (hpend ▸ ?_)
  rcases List.mem_append.mp he' with he' | he'
  · exact List.mem_append_left _ he'
  · exact List.mem_append_right _ (List.mem_cons_of_mem _ he')

/-- The calls of the loop of `init_schedule`, after the first `i`. -/
theorem initLoop (h : C.Admissible) {g n : ℕ} (hg : g < C.groups) {s : State} (hin : InTime s)
    (hpairs : Pairs n (s.groups g) (s.mine g)) (hfree : ∀ j, held (s.groups g) (s.mine g) j = 0)
    (hgo : Going C g s.flowGen (s.groups g) (s.mine g) 0 0)
    (ht : OnTime C g s.now (s.groups g)) : ∀ i, 0 < i → i ≤ n →
      ∃ s', (List.range i).foldlM (fun s i => schedule C g i s) s = .ok s' ∧
        Touches g s s' ∧ SameConns s s' ∧ InTime s' ∧ Pairs n (s'.groups g) (s'.mine g) ∧
        Going C g s'.flowGen (s'.groups g) (s'.mine g) 0 0 ∧
        Guarded C g s'.flowGen (s'.groups g) (s'.mine g) ∧
        ∀ j, i ≤ j → held (s'.groups g) (s'.mine g) j = 0 := by
  intro i hi
  induction i, hi using Nat.le_induction with
  | base =>
      intro hn
      obtain ⟨s', hs', hsch⟩ := schedule_scheduled hin hpairs hn (hfree 0) hgo fun _ => ht
      refine ⟨s', ?_, hsch.touches, hsch.conns, hsch.inTime, hsch.pairs, hsch.going, hsch.guarded,
        fun j hj => (hsch.other j (by omega)).trans (hfree j)⟩
      simp [hs', bind, Except.bind, pure, Except.pure]
  | succ i hi ih =>
      intro hn
      obtain ⟨s₁, hs₁, htouch, hconns, hin₁, hpairs₁, hgo₁, hgu₁, hfree₁⟩ := ih (by omega)
      obtain ⟨s', hs', hsch⟩ := schedule_scheduled hin₁ hpairs₁ hn (hfree₁ i le_rfl) hgo₁
        (hgu₁.onTime h hg hin₁)
      refine ⟨s', ?_, htouch.trans hsch.touches, hconns.trans hsch.conns, hsch.inTime, hsch.pairs,
        hsch.going, hsch.guarded, fun j hj => (hsch.other j (by omega)).trans (hfree₁ j (by omega))⟩
      rw [List.range_succ, List.foldlM_append, hs₁]
      simp [hs', bind, Except.bind, pure, Except.pure]

/-- `init_schedule`, when its event is dispatched. -/
theorem initSchedule_served (h : C.Admissible) {g : ℕ} (hg : g < C.groups) {s : State}
    (hnow : s.now = 1) (hin : InTime s) (hev : s.mine g = []) (hf : Fids s)
    (hpairs : Pairs (s.groups g).nrPairs (s.groups g) [])
    (hw : Waiting C g (s.groups g) [⟨1, .initSchedule g⟩]) :
    ∃ s', initSchedule C g s = .ok s' ∧ Touches g s s' ∧ InTime s' ∧ Fids s' ∧
      Served C g s'.flowGen (s'.groups g) (s'.mine g) := by
  obtain ⟨s₁, hs₁⟩ : ∃ s₁, s₁ = s.onGroup g fun G =>
    { G with tnext := s.now + C.rvFlowIntval g G.intvals, intvals := G.intvals + 1 } := ⟨_, rfl⟩
  have hG : s₁.groups g = { s.groups g with
      tnext := s.now + C.rvFlowIntval g (s.groups g).intvals
      intvals := (s.groups g).intvals + 1 } := by
    rw [hs₁, State.onGroup_groups, if_pos rfl]
  have hev₁ : s₁.mine g = [] := by
    rw [hs₁]
    exact hev
  have htouch : Touches g s s₁ := by
    refine ⟨by rw [hs₁]; rfl, fun g' hg' => ?_, fun g' _ => by rw [hs₁]; rfl⟩
    rw [hs₁, State.onGroup_groups, if_neg hg']
  have hconns : SameConns s s₁ := by
    refine ⟨by rw [hs₁]; rfl, fun g' => ?_, fun g' i => ?_⟩ <;>
    · rw [hs₁, State.onGroup_groups]
      split_ifs with hg'
      · rw [hg']
      · rfl
  have hin₁ : InTime s₁ := by
    rw [hs₁]
    exact hin
  have hnow₁ : s₁.now = 1 := by
    rw [hs₁]
    exact hnow
  have hfree : ∀ j, held (s₁.groups g) (s₁.mine g) j = 0 := by
    intro j
    rw [hev₁, hG]
    simp [held, hw.idle]
  have hpairs₁ : Pairs (s.groups g).nrPairs (s₁.groups g) (s₁.mine g) := by
    refine ⟨fun j => (hfree j).trans_le zero_le_one, fun j _ => hfree j, fun j hj => ?_⟩
    rw [hG]
    exact hpairs.pairId j hj
  have hgo : Going C g s₁.flowGen (s₁.groups g) (s₁.mine g) 0 0 := by
    rw [hev₁, hG, hnow]
    refine ⟨by simp [hw.started], by simp [plans, hw.nbytes], le_rfl, Nat.zero_le _, fun _ => rfl,
      by simp [hw.intvals, hw.nbytes], by simp [hw.intvals, hw.nbytes, flow], by simp⟩
  have ht : OnTime C g s₁.now (s₁.groups g) := by
    have h₀ := h.pos g hg 0
    have h₁ := h.first g hg
    rw [hnow₁, hG, hnow]
    simp only [OnTime, hw.intvals]
    constructor
    · linarith
    · linarith
  obtain ⟨s', hs', htouch', hconns', hin', hpairs', hgo', hgu', -⟩ :=
    initLoop h hg hin₁ hpairs₁ hfree hgo ht (s.groups g).nrPairs
      (hw.nrPairs ▸ h.pairs) le_rfl
  refine ⟨s', ?_, htouch.trans htouch', hin', hf.same (hconns.trans hconns'), ?_, ?_⟩
  · rw [initSchedule, ← hs₁]
    exact hs'
  · rw [hconns'.nrPairs, hconns.nrPairs]
    exact hpairs'
  · exact Or.inr ⟨0, 0, hgo', hgu'⟩

theorem newPair_group (g : ℕ) (s : State) : (newPair g s).groups g =
    (s.groups g).onPair (s.groups g).nrPairs fun _ => .new s.initFid (s.groups g).nrPairs := by
  simp only [newPair, State.onGroup, Function.update_self]

theorem newPair_other {g g' : ℕ} (hg : g' ≠ g) (s : State) :
    (newPair g s).groups g' = s.groups g' := by
  simp only [newPair, State.onGroup, Function.update_of_ne hg]

/-- The new connection takes no other event, and is free. -/
theorem newPair_held (g : ℕ) {s : State}
    (hpairs : Pairs (s.groups g).nrPairs (s.groups g) (s.mine g)) (j : ℕ) :
    held ((newPair g s).groups g) ((newPair g s).mine g) j = held (s.groups g) (s.mine g) j := by
  have hmine : (newPair g s).mine g = s.mine g := rfl
  rw [hmine, newPair_group]
  simp only [held, Group.onPair_apair]
  split_ifs with hj
  · have := hpairs.held_none _ le_rfl
    rw [held] at this
    rw [hj]
    simp only [TcpPair.new, Bool.toNat_false]
    omega
  · rfl

theorem newPair_pairs (g : ℕ) {s : State}
    (hpairs : Pairs (s.groups g).nrPairs (s.groups g) (s.mine g)) :
    Pairs ((s.groups g).nrPairs + 1) ((newPair g s).groups g) ((newPair g s).mine g) := by
  refine ⟨fun j => ?_, fun j hj => ?_, fun j hj => ?_⟩
  · rw [newPair_held g hpairs]
    exact hpairs.held_le j
  · rw [newPair_held g hpairs]
    exact hpairs.held_none j (by omega)
  · rw [newPair_group, Group.onPair_apair]
    split_ifs with he
    · exact he.symm
    · exact hpairs.pairId j (by omega)

/-- The ids with the one of a new connection of the group `g`, counted in `nr`. -/
theorem Fids.newPair {g : ℕ} {s s' : State} (hf : Fids s)
    (hconns : SameConns (newPair g s) s') :
    Fids (s'.onGroup g fun G => { G with nrPairs := G.nrPairs + 1 }) := by
  have hnr : ∀ g', ((s'.onGroup g fun G => { G with nrPairs := G.nrPairs + 1 }).groups g').nrPairs =
      if g' = g then (s.groups g).nrPairs + 1 else (s.groups g').nrPairs := by
    intro g'
    rw [State.onGroup_groups]
    split_ifs with hg'
    · show (s'.groups g).nrPairs + 1 = _
      rw [hconns.nrPairs, newPair_group]
      rfl
    · rw [hconns.nrPairs, newPair_other hg']
  have hid : ∀ g' i, (((s'.onGroup g fun G => { G with nrPairs := G.nrPairs + 1 }).groups g').apair
      i).id = if g' = g ∧ i = (s.groups g).nrPairs then s.initFid
        else ((s.groups g').apair i).id := by
    intro g' i
    have : (((s'.onGroup g fun G => { G with nrPairs := G.nrPairs + 1 }).groups g').apair i).id =
        ((s'.groups g').apair i).id := by
      rw [State.onGroup_groups]
      split_ifs with hg'
      · rw [hg']
      · rfl
    rw [this, hconns.id]
    by_cases hg' : g' = g
    · rw [hg', newPair_group, Group.onPair_apair]
      by_cases hi : i = (s.groups g).nrPairs
      · rw [if_pos hi, if_pos ⟨rfl, hi⟩]
        rfl
      · rw [if_neg hi, if_neg fun hc => hi hc.2]
    · rw [newPair_other hg', if_neg fun hc => hg' hc.1]
  have hold : ∀ g' i, i < (if g' = g then (s.groups g).nrPairs + 1 else (s.groups g').nrPairs) →
      ¬ (g' = g ∧ i = (s.groups g).nrPairs) → i < (s.groups g').nrPairs := by
    intro g' i hi hne
    split_ifs at hi with hg'
    · have : i ≠ (s.groups g).nrPairs := fun hi' => hne ⟨hg', hi'⟩
      rw [hg']
      omega
    · exact hi
  have hinit : (s'.onGroup g fun G => { G with nrPairs := G.nrPairs + 1 }).initFid =
      s.initFid + 1 := hconns.initFid
  refine ⟨fun g' i hi => ?_, fun g' g'' i j hi hj heq => ?_⟩
  · rw [hnr] at hi
    rw [hid, hinit]
    split_ifs with hnew
    · exact Nat.lt_succ_self _
    · exact Nat.lt_succ_of_lt (hf.lt g' i (hold g' i hi hnew))
  · rw [hnr] at hi hj
    rw [hid, hid] at heq
    split_ifs at heq with hnew hnew' hnew'
    · exact ⟨hnew.1.trans hnew'.1.symm, hnew.2.trans hnew'.2.symm⟩
    · exact absurd heq.symm (hf.lt g'' j (hold g'' j hj hnew')).ne
    · exact absurd heq (hf.lt g' i (hold g' i hi hnew)).ne
    · exact hf.inj g' g'' i j (hold g' i hi hnew) (hold g'' j hj hnew') heq

/-- **`check_if_behind` opens a connection that is served at once.** -/
theorem checkIfBehind_served (h : C.Admissible) {g p q : ℕ} (hg : g < C.groups) {s : State}
    (hin : InTime s) (hf : Fids s) (hpairs : Pairs (s.groups g).nrPairs (s.groups g) (s.mine g))
    (hgo : Going C g s.flowGen (s.groups g) (s.mine g) p q)
    (hgu : Guarded C g s.flowGen (s.groups g) (s.mine g) ∨
      (s.groups g).tnext - 1 / 10000000 = s.now) :
    ∃ s', checkIfBehind C g s = .ok s' ∧ Touches g s s' ∧ InTime s' ∧ Fids s' ∧
      Served C g s'.flowGen (s'.groups g) (s'.mine g) := by
  by_cases hc : s.flowGen < C.simEnd ∧ (s.groups g).tnext < s.now + 2 / 10000000
  · have hgroup := newPair_group g s
    have ht : (newPair g s).flowGen < C.simEnd → OnTime C g (newPair g s).now
        ((newPair g s).groups g) := by
      intro hfg
      have hon : OnTime C g s.now (s.groups g) := by
        rcases hgu with hgu | hgu
        · exact hgu.onTime h hg hin hfg
        · have hpos := h.pos g hg (s.groups g).intvals
          exact ⟨by linarith, by linarith⟩
      rw [hgroup]
      exact hon
    have hgo₁ : Going C g (newPair g s).flowGen ((newPair g s).groups g) ((newPair g s).mine g)
        p q := by
      rw [hgroup]
      exact ⟨hgo.started, hgo.plans, hgo.le, hgo.le', hgo.all, hgo.intvals, hgo.tnext, hgo.init⟩
    obtain ⟨s', hs', hsch⟩ := schedule_scheduled (s := newPair g s) hin (newPair_pairs g hpairs)
      (Nat.lt_succ_self _) ((newPair_held g hpairs _).trans (hpairs.held_none _ le_rfl)) hgo₁ ht
    have hnr : (s'.groups g).nrPairs = (s.groups g).nrPairs := by
      rw [hsch.conns.nrPairs, hgroup]
      rfl
    have hlast : (s'.onGroup g fun G => { G with nrPairs := G.nrPairs + 1 }).groups g =
        { s'.groups g with nrPairs := (s'.groups g).nrPairs + 1 } := by
      rw [State.onGroup_groups, if_pos rfl]
    refine ⟨s'.onGroup g fun G => { G with nrPairs := G.nrPairs + 1 }, ?_,
      ⟨hsch.touches.flowGen, fun g' hg' => ?_, fun g' hg' => hsch.touches.mine g' hg'⟩,
      hsch.inTime, hf.newPair hsch.conns, ?_⟩
    · rw [checkIfBehind, if_pos hc, hs']
      rfl
    · rw [State.onGroup_groups, if_neg hg', hsch.touches.groups g' hg', newPair_other hg']
    · rw [hlast]
      refine ⟨?_, Or.inr ⟨p, q, ?_, hsch.guarded⟩⟩
      · show Pairs ((s'.groups g).nrPairs + 1) _ _
        rw [hnr]
        exact ⟨hsch.pairs.held_le, hsch.pairs.held_none, hsch.pairs.pairId⟩
      · have := hsch.going
        exact ⟨this.started, this.plans, this.le, this.le', this.all, this.intvals, this.tnext,
          this.init⟩
  · refine ⟨s, if_neg hc, ⟨le_rfl, fun _ _ => rfl, fun _ _ => rfl⟩, hin, hf, hpairs,
      Or.inr ⟨p, q, hgo, ?_⟩⟩
    rcases hgu with hgu | hgu
    · exact hgu
    · -- the check armed for this `tnext` fails only when enough flows have been generated
      refine Or.inl (not_lt.mp fun hfg => hc ⟨hfg, ?_⟩)
      linarith

/-- In a plan in order of time, an element that no earlier one precedes in time is the first. -/
theorem first_of_plan {f : ℕ → ℚ × ℤ} (hf : StrictMono fun k => (f k).1) {q r : ℕ}
    {l₁ l₂ : List (ℚ × ℤ)} {a : ℚ × ℤ} (heq : l₁ ++ a :: l₂ = (List.range' q r).map f)
    (hfirst : ∀ x ∈ l₁, a.1 ≤ x.1) :
    l₁ = [] ∧ a = f q ∧ 0 < r ∧ l₂ = (List.range' (q + 1) (r - 1)).map f := by
  cases r with
  | zero => simp at heq
  | succ r =>
      rw [List.range'_succ, List.map_cons] at heq
      cases l₁ with
      | nil =>
          obtain ⟨rfl, rfl⟩ := List.cons.inj heq
          exact ⟨rfl, rfl, Nat.succ_pos r, rfl⟩
      | cons x l₁ =>
          obtain ⟨rfl, hrest⟩ := List.cons.inj heq
          have ha : a ∈ (List.range' (q + 1) r).map f :=
            hrest ▸ List.mem_append_right _ List.mem_cons_self
          obtain ⟨k, hk, rfl⟩ := List.mem_map.mp ha
          have hlt : (f q).1 < (f k).1 := hf (List.mem_range'_1.mp hk).1
          exact absurd (hfirst _ List.mem_cons_self) (not_le.mpr hlt)

theorem plans_start {l₁ l₂ : List Event} {t : ℚ} {g pid : ℕ} {bytes : ℤ} :
    plans (l₁ ++ ⟨t, .start g pid bytes⟩ :: l₂) = plans l₁ ++ (t, bytes) :: plans l₂ := by
  simp only [plans, List.filterMap_append, List.filterMap_cons]

theorem time_of_mem_plans {l : List Event} {x : ℚ × ℤ} (h : x ∈ plans l) :
    ∃ e ∈ l, e.time = x.1 := by
  obtain ⟨e, he, hx⟩ := List.mem_filterMap.mp h
  split at hx
  · cases hx
    exact ⟨e, he, rfl⟩
  · cases hx

theorem flow_ge_one (h : C.Admissible) {g : ℕ} (hg : g < C.groups) (k : ℕ) :
    1 ≤ (flow C g k).1 := by
  have : 0 ≤ ∑ i ∈ Finset.range (k + 1), C.rvFlowIntval g i :=
    Finset.sum_nonneg fun i _ => (h.pos g hg i).le
  simp only [flow]
  linarith

/-- The group after `start` on its pair `pid`, in a state with `fg` flows generated. -/
theorem start_group (g pid : ℕ) (bytes : ℤ) (s : State) :
    ((start C g pid bytes s).groups g).tnext = (s.groups g).tnext ∧
    ((start C g pid bytes s).groups g).nrPairs = (s.groups g).nrPairs ∧
    ((start C g pid bytes s).groups g).intvals = (s.groups g).intvals ∧
    ((start C g pid bytes s).groups g).nbytes = (s.groups g).nbytes ∧
    ((start C g pid bytes s).groups g).started = (if C.simEnd ≤ s.flowGen then (s.groups g).started
      else (s.groups g).started ++ [(s.now, bytes)]) ∧
    ∀ i, (((start C g pid bytes s).groups g).apair i).id = ((s.groups g).apair i).id ∧
      (((start C g pid bytes s).groups g).apair i).pairId = ((s.groups g).apair i).pairId ∧
      (((start C g pid bytes s).groups g).apair i).running =
        if i = pid ∧ s.flowGen < C.simEnd then true else ((s.groups g).apair i).running := by
  rw [start]
  by_cases hfg : C.simEnd ≤ s.flowGen
  · rw [if_pos hfg, State.onGroup_groups, if_pos rfl]
    refine ⟨rfl, rfl, rfl, rfl, (if_pos hfg).symm, fun i => ?_⟩
    have hc : ¬ (i = pid ∧ s.flowGen < C.simEnd) := fun hc => not_lt.mpr hfg hc.2
    simp only [Group.onPair_apair, if_neg hc]
    by_cases hi : i = pid
    · rw [if_pos hi, hi]
      exact ⟨rfl, rfl, rfl⟩
    · rw [if_neg hi]
      exact ⟨rfl, rfl, rfl⟩
  · rw [if_neg hfg]
    simp only [State.onGroup, Function.update_self]
    refine ⟨rfl, rfl, rfl, rfl, (if_neg hfg).symm, fun i => ?_⟩
    simp only [Group.onPair_apair]
    by_cases hi : i = pid
    · simp [hi, not_le.mp hfg]
    · simp [hi]

theorem start_other (g pid : ℕ) (bytes : ℤ) (s : State) {g' : ℕ} (hg : g' ≠ g) :
    (start C g pid bytes s).groups g' = s.groups g' := by
  rw [start]
  by_cases hfg : C.simEnd ≤ s.flowGen
  · simp only [if_pos hfg, State.onGroup, Function.update_of_ne hg]
  · simp only [if_neg hfg, State.onGroup, Function.update_of_ne hg]

theorem start_globals (g pid : ℕ) (bytes : ℤ) (s : State) :
    (start C g pid bytes s).now = s.now ∧ (start C g pid bytes s).initFid = s.initFid ∧
    (start C g pid bytes s).pending = s.pending ∧
    (start C g pid bytes s).flowGen =
      if s.flowGen < C.simEnd ∧ 1 / 5 ≤ s.now then s.flowGen + 1 else s.flowGen := by
  rw [start]
  by_cases hfg : C.simEnd ≤ s.flowGen
  · rw [if_pos hfg, if_neg fun hc => not_lt.mpr hfg hc.1]
    exact ⟨rfl, rfl, rfl, rfl⟩
  · simp only [if_neg hfg, not_le.mp hfg, true_and]
    exact ⟨rfl, rfl, rfl, trivial⟩

theorem start_touches (g pid : ℕ) (bytes : ℤ) (s : State) :
    Touches g s (start C g pid bytes s) := by
  obtain ⟨-, -, hpend, hgen⟩ := start_globals (C := C) g pid bytes s
  refine ⟨?_, fun g' hg' => start_other g pid bytes s hg', fun g' _ => ?_⟩
  · rw [hgen]
    split_ifs <;> omega
  · rw [State.mine, State.mine, hpend]

theorem start_conns (g pid : ℕ) (bytes : ℤ) (s : State) :
    SameConns s (start C g pid bytes s) := by
  obtain ⟨-, hnr, -, -, -, happ⟩ := start_group (C := C) g pid bytes s
  refine ⟨(start_globals g pid bytes s).2.1, fun g' => ?_, fun g' i => ?_⟩
  · by_cases hg : g' = g
    · rw [hg, hnr]
    · rw [start_other g pid bytes s hg]
  · by_cases hg : g' = g
    · rw [hg, (happ i).1]
    · rw [start_other g pid bytes s hg]

/-- A start moves a flow of its pair from the planned to the running ones, or drops it. -/
theorem start_held {g pid : ℕ} {bytes : ℤ} {s : State} {k₁ k₂ : List Event} {t : ℚ}
    (hpairs : Pairs (s.groups g).nrPairs (s.groups g) (k₁ ++ ⟨t, .start g pid bytes⟩ :: k₂))
    (i : ℕ) : held ((start C g pid bytes s).groups g) (k₁ ++ k₂) i ≤
      held (s.groups g) (k₁ ++ ⟨t, .start g pid bytes⟩ :: k₂) i := by
  obtain ⟨-, -, -, -, -, happ⟩ := start_group (C := C) g pid bytes s
  have hle := hpairs.held_le i
  rw [held, List.filter_append, List.length_append] at hle ⊢
  rw [held, List.filter_append, List.length_append, (happ i).2.2]
  by_cases hi : i = pid
  · have hs : Event.starts i ⟨t, .start g pid bytes⟩ = true := by simp [Event.starts, hi]
    rw [List.filter_cons_of_pos hs, List.length_cons] at hle ⊢
    have := Bool.toNat_le (if i = pid ∧ s.flowGen < C.simEnd then true
      else ((s.groups g).apair i).running)
    omega
  · have hs : ¬ Event.starts i ⟨t, .start g pid bytes⟩ = true := by
      simp [Event.starts, Ne.symm hi]
    rw [List.filter_cons_of_neg hs, if_neg fun hc => hi hc.1]

/-- A flow that is dispatched is the next of the plan. -/
theorem start_next (h : C.Admissible) {g pid p q fg : ℕ} {bytes : ℤ} (hg : g < C.groups) {s : State}
    {k₁ k₂ : List Event} (hin : InTime s) (hmine : s.mine g = k₁ ++ k₂)
    (hgo : Going C g fg (s.groups g) (k₁ ++ ⟨s.now, .start g pid bytes⟩ :: k₂) p q) :
    plans k₁ = [] ∧ (s.now, bytes) = flow C g q ∧ 0 < (s.groups g).nbytes - q ∧
      plans k₂ = (List.range' (q + 1) ((s.groups g).nbytes - q - 1)).map (flow C g) := by
  refine first_of_plan (flow_strictMono h hg) (plans_start.symm.trans hgo.plans) fun x hx => ?_
  obtain ⟨e, he, hex⟩ := time_of_mem_plans hx
  rw [← hex]
  exact hin e (mem_of_mine (hmine ▸ List.mem_append_left _ he))

/-- The flows planned all start at 1 or later, and are counted. -/
theorem start_flowGen (h : C.Admissible) {g pid q : ℕ} {bytes : ℤ} (hg : g < C.groups) {s : State}
    (hflow : (s.now, bytes) = flow C g q) : (start C g pid bytes s).flowGen =
      if s.flowGen < C.simEnd then s.flowGen + 1 else s.flowGen := by
  have hnow : 1 / 5 ≤ s.now := by
    have h₁ := flow_ge_one h hg q
    have h₂ : s.now = (flow C g q).1 := congrArg Prod.fst hflow
    linarith
  rw [(start_globals g pid bytes s).2.2.2]
  simp only [hnow, and_true]

theorem start_pairs {g pid : ℕ} {bytes : ℤ} {s : State} {k₁ k₂ : List Event} {t : ℚ}
    (hpairs : Pairs (s.groups g).nrPairs (s.groups g) (k₁ ++ ⟨t, .start g pid bytes⟩ :: k₂)) :
    Pairs ((start C g pid bytes s).groups g).nrPairs ((start C g pid bytes s).groups g)
      (k₁ ++ k₂) := by
  obtain ⟨-, hnr, -, -, -, happ⟩ := start_group (C := C) g pid bytes s
  rw [hnr]
  refine ⟨fun i => (start_held hpairs i).trans (hpairs.held_le i), fun i hi => ?_, fun i hi => ?_⟩
  · exact Nat.le_zero.mp ((start_held hpairs i).trans_eq (hpairs.held_none i hi))
  · rw [(happ i).2.1]
    exact hpairs.pairId i hi

theorem start_going (h : C.Admissible) {g pid p q : ℕ} {bytes : ℤ} (hg : g < C.groups) {s : State}
    {k₁ k₂ : List Event} (hin : InTime s) (hmine : s.mine g = k₁ ++ k₂)
    (hgo : Going C g s.flowGen (s.groups g) (k₁ ++ ⟨s.now, .start g pid bytes⟩ :: k₂) p q) :
    Going C g (start C g pid bytes s).flowGen ((start C g pid bytes s).groups g) (k₁ ++ k₂)
      (if s.flowGen < C.simEnd then p + 1 else p) (q + 1) := by
  obtain ⟨htnext, -, hint, hnb, hst, -⟩ := start_group (C := C) g pid bytes s
  obtain ⟨hk₁, hflow, hr, hk₂⟩ := start_next h hg hin hmine hgo
  constructor
  case started =>
    -- the flow is started only while flows are still to be generated, and then all of them were
    rw [hst, hgo.started, hflow]
    by_cases hfg : s.flowGen < C.simEnd
    · rw [if_neg (not_le.mpr hfg), if_pos hfg, hgo.all hfg, List.range_succ, List.map_append,
        List.map_singleton]
    · rw [if_pos (not_lt.mp hfg), if_neg hfg]
  case plans =>
    rw [plans_append, hk₁, List.nil_append, hk₂, hnb]
    rfl
  case le =>
    have := hgo.le
    split_ifs <;> omega
  case le' =>
    rw [hnb]
    omega
  case all =>
    intro hlt
    rw [start_flowGen h hg hflow] at hlt
    split_ifs at hlt ⊢ with hfg
    · rw [hgo.all hfg]
    · exact absurd hlt hfg
  case intvals => rw [hint, hnb, hgo.intvals]
  case tnext => rw [htnext, hnb, hgo.tnext]
  case init =>
    intro e he
    refine hgo.init e ?_
    rcases List.mem_append.mp he with he | he
    · exact List.mem_append_left _ he
    · exact List.mem_append_right _ (List.mem_cons_of_mem _ he)

theorem start_guarded {g pid : ℕ} {bytes : ℤ} {s : State} {k₁ k₂ : List Event} {t : ℚ}
    (hgu : Guarded C g s.flowGen (s.groups g) (k₁ ++ ⟨t, .start g pid bytes⟩ :: k₂)) :
    Guarded C g (start C g pid bytes s).flowGen ((start C g pid bytes s).groups g)
      (k₁ ++ k₂) := by
  rw [Guarded, (start_group (C := C) g pid bytes s).1]
  rcases hgu with hgu | hgu
  · exact Or.inl (hgu.trans (start_touches g pid bytes s).flowGen)
  · refine Or.inr ?_
    rcases List.mem_append.mp hgu with hgu | hgu
    · exact List.mem_append_left _ hgu
    · rcases List.mem_cons.mp hgu with hgu | hgu
      · exact absurd (congrArg Event.call hgu) (by simp)
      · exact List.mem_append_right _ hgu

/-- **A start is the next flow of the plan.** -/
theorem start_served (h : C.Admissible) {g pid p q : ℕ} {bytes : ℤ} (hg : g < C.groups) {s : State}
    {k₁ k₂ : List Event} (hin : InTime s) (hf : Fids s) (hmine : s.mine g = k₁ ++ k₂)
    (hpairs : Pairs (s.groups g).nrPairs (s.groups g)
      (k₁ ++ ⟨s.now, .start g pid bytes⟩ :: k₂))
    (hgo : Going C g s.flowGen (s.groups g) (k₁ ++ ⟨s.now, .start g pid bytes⟩ :: k₂) p q)
    (hgu : Guarded C g s.flowGen (s.groups g) (k₁ ++ ⟨s.now, .start g pid bytes⟩ :: k₂)) :
    InTime (start C g pid bytes s) ∧ Fids (start C g pid bytes s) ∧
      Served C g (start C g pid bytes s).flowGen ((start C g pid bytes s).groups g)
        ((start C g pid bytes s).mine g) := by
  obtain ⟨hnow, -, hpend, -⟩ := start_globals (C := C) g pid bytes s
  have hmine' : (start C g pid bytes s).mine g = k₁ ++ k₂ := by
    rw [State.mine, hpend]
    exact hmine
  have hin' : InTime (start C g pid bytes s) := by
    intro e he
    rw [hnow]
    exact hin e (hpend ▸ he)
  refine ⟨hin', hf.same (start_conns g pid bytes s), ?_⟩
  rw [hmine']
  exact ⟨start_pairs hpairs, Or.inr ⟨_, _, start_going h hg hin hmine hgo, start_guarded hgu⟩⟩

/-- The group when the pair `i` has finished its flow. -/
def freedGroup (i : ℕ) (G : Group) : Group :=
  { G.onPair i fun p => { p with running := false } with actfl := G.actfl - 1 }

/-- The pair `i` of the group has finished its flow. -/
def freed (g i : ℕ) (s : State) : State :=
  { s.onGroup g (freedGroup i) with flowFin := s.flowFin + 1 }

theorem freed_groups (g i g' : ℕ) (s : State) :
    (freed g i s).groups g' = if g' = g then freedGroup i (s.groups g) else s.groups g' := by
  simp only [freed, State.onGroup, Function.update_apply]

theorem freed_mine (g i g' : ℕ) (s : State) : (freed g i s).mine g' = s.mine g' := rfl

theorem freed_touches (g i : ℕ) (s : State) : Touches g s (freed g i s) :=
  ⟨le_rfl, fun g' hg' => by rw [freed_groups, if_neg hg'], fun _ _ => rfl⟩

theorem freedGroup_pair (i j : ℕ) (G : Group) :
    ((freedGroup i G).apair j).id = (G.apair j).id ∧
    ((freedGroup i G).apair j).pairId = (G.apair j).pairId ∧
    ((freedGroup i G).apair j).running = if j = i then false else (G.apair j).running := by
  simp only [freedGroup, Group.onPair_apair]
  by_cases hj : j = i
  · rw [if_pos hj, if_pos hj, hj]
    exact ⟨rfl, rfl, rfl⟩
  · rw [if_neg hj, if_neg hj]
    exact ⟨rfl, rfl, rfl⟩

theorem freed_conns (g i : ℕ) (s : State) : SameConns s (freed g i s) := by
  refine ⟨rfl, fun g' => ?_, fun g' j => ?_⟩
  · rw [freed_groups]
    split_ifs with hg'
    · rw [hg']
      rfl
    · rfl
  · rw [freed_groups]
    split_ifs with hg'
    · rw [hg', (freedGroup_pair i j (s.groups g)).1]
    · rfl

/-- The pair loses the one flow it had. -/
theorem freed_held {g i : ℕ} {s : State} (hrun : ((s.groups g).apair i).running = true)
    (hpairs : Pairs (s.groups g).nrPairs (s.groups g) (s.mine g)) (j : ℕ) :
    held ((freed g i s).groups g) ((freed g i s).mine g) j =
      if j = i then 0 else held (s.groups g) (s.mine g) j := by
  rw [freed_mine, freed_groups, if_pos rfl, held, (freedGroup_pair i j (s.groups g)).2.2]
  split_ifs with hj
  · have := hpairs.held_le i
    rw [held, hrun] at this
    simp only [Bool.toNat_true] at this
    rw [hj]
    simp only [Bool.toNat_false]
    omega
  · rfl

theorem freed_pairs {g i : ℕ} {s : State} (hi : i < (s.groups g).nrPairs)
    (hrun : ((s.groups g).apair i).running = true)
    (hpairs : Pairs (s.groups g).nrPairs (s.groups g) (s.mine g)) :
    Pairs (s.groups g).nrPairs ((freed g i s).groups g) ((freed g i s).mine g) := by
  refine ⟨fun j => ?_, fun j hj => ?_, fun j hj => ?_⟩
  · rw [freed_held hrun hpairs]
    split_ifs
    · exact Nat.zero_le _
    · exact hpairs.held_le j
  · rw [freed_held hrun hpairs, if_neg (by omega)]
    exact hpairs.held_none j hj
  · rw [freed_groups, if_pos rfl, (freedGroup_pair i j (s.groups g)).2.1]
    exact hpairs.pairId j hj

theorem finNotify_eq {g i : ℕ} {s : State} (hid : ((s.groups g).apair i).pairId = i) :
    finNotify C g i s =
      if C.simEnd ≤ (freed g i s).flowFin then .ok { freed g i s with finished := true }
      else if (freed g i s).flowGen < C.simEnd then schedule C g i (freed g i s)
      else .ok (freed g i s) := by
  rw [finNotify, aggrFinNotify, hid, freed]
  simp only [State.onGroup, Function.update_self, Function.update_idem]
  rfl

/-- **A finished flow frees its connection for the next one.** -/
theorem finNotify_served (h : C.Admissible) {g i p q : ℕ} (hg : g < C.groups) {s : State}
    (hin : InTime s) (hf : Fids s) (hi : i < (s.groups g).nrPairs)
    (hrun : ((s.groups g).apair i).running = true)
    (hpairs : Pairs (s.groups g).nrPairs (s.groups g) (s.mine g))
    (hgo : Going C g s.flowGen (s.groups g) (s.mine g) p q)
    (hgu : Guarded C g s.flowGen (s.groups g) (s.mine g)) :
    ∃ s', finNotify C g i s = .ok s' ∧ Touches g s s' ∧ InTime s' ∧ Fids s' ∧
      Served C g s'.flowGen (s'.groups g) (s'.mine g) := by
  have hin₁ : InTime (freed g i s) := hin
  have hconns := freed_conns g i s
  have htouch := freed_touches g i s
  have hpairs₁ := freed_pairs hi hrun hpairs
  have hgroup : (freed g i s).groups g = freedGroup i (s.groups g) := by
    rw [freed_groups, if_pos rfl]
  have hgo₁ : Going C g (freed g i s).flowGen ((freed g i s).groups g) ((freed g i s).mine g) p q := by
    rw [hgroup]
    exact ⟨hgo.started, hgo.plans, hgo.le, hgo.le', hgo.all, hgo.intvals, hgo.tnext, hgo.init⟩
  have hgu₁ : Guarded C g (freed g i s).flowGen ((freed g i s).groups g) ((freed g i s).mine g) := by
    rw [hgroup]
    exact hgu
  have hnr := hconns.nrPairs g
  rw [finNotify_eq (hpairs.pairId i hi)]
  split_ifs with hfin hfg
  · refine ⟨_, rfl, ⟨htouch.flowGen, htouch.groups, htouch.mine⟩, hin₁,
      hf.same ⟨hconns.initFid, hconns.nrPairs, hconns.id⟩, ?_, Or.inr ⟨p, q, hgo₁, hgu₁⟩⟩
    show Pairs ((freed g i s).groups g).nrPairs _ _
    rw [hnr]
    exact hpairs₁
  · obtain ⟨s', hs', hsch⟩ := schedule_scheduled hin₁ hpairs₁ hi
      ((freed_held hrun hpairs i).trans (if_pos rfl)) hgo₁ (hgu₁.onTime h hg hin₁)
    refine ⟨s', hs', htouch.trans hsch.touches, hsch.inTime, hf.same (hconns.trans hsch.conns), ?_,
      Or.inr ⟨p, q, hsch.going, hsch.guarded⟩⟩
    rw [hsch.conns.nrPairs, hnr]
    exact hsch.pairs
  · refine ⟨_, rfl, htouch, hin₁, hf.same hconns, ?_, Or.inr ⟨p, q, hgo₁, hgu₁⟩⟩
    rw [hnr]
    exact hpairs₁

/-! ### The runs -/

theorem setUp_now (n : ℕ) : (setUp C n).now = 0 := by
  induction n with
  | zero => rfl
  | succ n ih => exact ih

theorem setUp_group (n g : ℕ) : (setUp C (n + 1)).groups g =
    if g = n then .setup C.connectionsPerPair (setUp C n).initFid else (setUp C n).groups g := by
  simp only [setUp, State.onGroup, Function.update_apply]

theorem setUp_mine (n g : ℕ) : (setUp C (n + 1)).mine g =
    (setUp C n).mine g ++ if g = n then [⟨1, .initSchedule n⟩] else [] := by
  have hpend : (setUp C (n + 1)).pending = (setUp C n).pending ++ [⟨1, .initSchedule n⟩] := rfl
  rw [State.mine, hpend, List.filter_append, State.mine]
  by_cases hg : g = n
  · simp [hg, Call.group]
  · simp [hg, Ne.symm hg, Call.group]

theorem setUp_inTime (n : ℕ) : InTime (setUp C n) := by
  induction n with
  | zero => exact fun e he => absurd he List.not_mem_nil
  | succ n ih =>
      intro e he
      rcases List.mem_append.mp he with he | he
      · exact ih e he
      · rw [List.mem_singleton.mp he, setUp_now]
        exact zero_le_one

theorem setUp_fids (n : ℕ) : Fids (setUp C n) ∧
    ∀ g, n ≤ g → ((setUp C n).groups g).nrPairs = 0 ∧ (setUp C n).mine g = [] := by
  induction n with
  | zero => exact ⟨⟨fun _ pid hpid => absurd hpid (Nat.not_lt_zero pid),
      fun _ _ pid _ hpid => absurd hpid (Nat.not_lt_zero pid)⟩, fun _ _ => ⟨rfl, rfl⟩⟩
  | succ n ih =>
      obtain ⟨hf, hun⟩ := ih
      have hinit : (setUp C (n + 1)).initFid = (setUp C n).initFid + C.connectionsPerPair := rfl
      refine ⟨⟨fun g pid hpid => ?_, fun g g' pid pid' hpid hpid' heq => ?_⟩, fun g hg => ?_⟩
      · rw [setUp_group] at hpid ⊢
        rw [hinit]
        split_ifs at hpid ⊢ with hg
        · exact Nat.add_lt_add_left hpid _
        · exact (hf.lt g pid hpid).trans_le (Nat.le_add_right _ _)
      · rw [setUp_group] at hpid hpid' heq
        rw [setUp_group] at heq
        split_ifs at hpid hpid' heq with hg hg' hg'
        · exact ⟨hg.trans hg'.symm, Nat.add_left_cancel heq⟩
        · have := hf.lt g' pid' hpid'
          simp only [Group.setup, TcpPair.new] at heq
          omega
        · have := hf.lt g pid hpid
          simp only [Group.setup, TcpPair.new] at heq
          omega
        · exact hf.inj g g' pid pid' hpid hpid' heq
      · have hne : g ≠ n := by omega
        rw [setUp_group, setUp_mine, if_neg hne, if_neg hne, List.append_nil]
        exact hun g (by omega)

theorem setUp_served (n : ℕ) : ∀ g < n,
    Served C g (setUp C n).flowGen ((setUp C n).groups g) ((setUp C n).mine g) := by
  induction n with
  | zero => exact fun g hg => absurd hg (Nat.not_lt_zero g)
  | succ n ih =>
      intro g hg
      rw [setUp_group, setUp_mine]
      by_cases hgn : g = n
      · have hmine := ((setUp_fids (C := C) n).2 n le_rfl).2
        rw [hgn, if_pos rfl, if_pos rfl, hmine, List.nil_append]
        have hheld : ∀ i, held (Group.setup C.connectionsPerPair (setUp C n).initFid)
            [⟨1, .initSchedule n⟩] i = 0 := by
          intro i
          simp [held, Event.starts, Group.setup, TcpPair.new]
        exact ⟨⟨fun i => (hheld i).trans_le zero_le_one, fun i _ => hheld i, fun _ _ => rfl⟩,
          Or.inl ⟨rfl, rfl, rfl, rfl, rfl, fun _ => rfl⟩⟩
      · rw [if_neg hgn, if_neg hgn, List.append_nil]
        exact ih g (by omega)

theorem setUp_inv : Inv C (setUp C C.groups) :=
  ⟨setUp_inTime _, (setUp_fids _).1, setUp_served _, (setUp_fids _).2⟩

/-- The check that is dispatched is no part of a plan. -/
theorem served_without_check {g fg n p q : ℕ} {G : Group} {k₁ k₂ : List Event} {t : ℚ}
    (hpairs : Pairs n G (k₁ ++ ⟨t, .checkIfBehind g⟩ :: k₂))
    (hgo : Going C g fg G (k₁ ++ ⟨t, .checkIfBehind g⟩ :: k₂) p q)
    (hgu : Guarded C g fg G (k₁ ++ ⟨t, .checkIfBehind g⟩ :: k₂)) :
    Pairs n G (k₁ ++ k₂) ∧ Going C g fg G (k₁ ++ k₂) p q ∧
      (Guarded C g fg G (k₁ ++ k₂) ∨ G.tnext - 1 / 10000000 = t) := by
  have hheld : ∀ i, held G (k₁ ++ k₂) i = held G (k₁ ++ ⟨t, .checkIfBehind g⟩ :: k₂) i := by
    intro i
    simp only [held, List.filter_append, List.filter_cons, Event.starts, Bool.false_eq_true,
      if_false]
  have hplans : plans (k₁ ++ k₂) = plans (k₁ ++ ⟨t, .checkIfBehind g⟩ :: k₂) := by
    simp only [plans, List.filterMap_append, List.filterMap_cons]
  have hsub : ∀ e ∈ k₁ ++ k₂, e ∈ k₁ ++ ⟨t, .checkIfBehind g⟩ :: k₂ := by
    intro e he
    rcases List.mem_append.mp he with he | he
    · exact List.mem_append_left _ he
    · exact List.mem_append_right _ (List.mem_cons_of_mem _ he)
  refine ⟨⟨fun i => ?_, fun i hi => ?_, hpairs.pairId⟩, ⟨hgo.started, ?_, hgo.le, hgo.le', hgo.all,
    hgo.intvals, hgo.tnext, fun e he => hgo.init e (hsub e he)⟩, ?_⟩
  · rw [hheld]
    exact hpairs.held_le i
  · rw [hheld]
    exact hpairs.held_none i hi
  · rw [hplans]
    exact hgo.plans
  · rcases hgu with hgu | hgu
    · exact Or.inl (Or.inl hgu)
    · rcases List.mem_append.mp hgu with hgu | hgu
      · exact Or.inl (Or.inr (List.mem_append_left _ hgu))
      · rcases List.mem_cons.mp hgu with hgu | hgu
        · exact Or.inr (congrArg Event.time hgu)
        · exact Or.inl (Or.inr (List.mem_append_right _ hgu))

/-- Before `init_schedule`, nothing else is to come. -/
theorem Waiting.event {g : ℕ} {G : Group} {k₁ k₂ : List Event} {e : Event}
    (h : Waiting C g G (k₁ ++ e :: k₂)) : k₁ = [] ∧ e = ⟨1, .initSchedule g⟩ ∧ k₂ = [] := by
  have hev := h.events
  cases k₁ with
  | nil =>
      obtain ⟨h₁, h₂⟩ := List.cons.inj hev
      exact ⟨rfl, h₁, h₂⟩
  | cons x k₁ => simp at hev

/-- **The command of an event does not fail, and serves its group.** -/
theorem run_served (h : C.Admissible) {c : Call} (hg : c.group < C.groups) {s : State}
    {k₁ k₂ : List Event} (hin : InTime s) (hf : Fids s) (hmine : s.mine c.group = k₁ ++ k₂)
    (hserved : Served C c.group s.flowGen (s.groups c.group) (k₁ ++ ⟨s.now, c⟩ :: k₂)) :
    ∃ s', run C c s = .ok s' ∧ Touches c.group s s' ∧ InTime s' ∧ Fids s' ∧
      Served C c.group s'.flowGen (s'.groups c.group) (s'.mine c.group) := by
  cases c with
  | initSchedule g =>
      rcases hserved.phase with hw | ⟨p, q, hgo, -⟩
      · obtain ⟨rfl, he, rfl⟩ := hw.event
        rw [List.nil_append, he] at hw
        exact initSchedule_served h hg (congrArg Event.time he) hin hmine hf
          ⟨fun i => by simp [held, hw.idle], fun i _ => by simp [held, hw.idle],
            hserved.pairs.pairId⟩ hw
      · exact absurd rfl (hgo.init _ (List.mem_append_right _ List.mem_cons_self))
  | start g pid bytes =>
      rcases hserved.phase with hw | ⟨p, q, hgo, hgu⟩
      · exact absurd (congrArg Event.call hw.event.2.1) (by simp)
      · obtain ⟨hin', hf', hsv⟩ := start_served h hg hin hf hmine hserved.pairs hgo hgu
        exact ⟨_, rfl, start_touches g pid bytes s, hin', hf', hsv⟩
  | checkIfBehind g =>
      rcases hserved.phase with hw | ⟨p, q, hgo, hgu⟩
      · exact absurd (congrArg Event.call hw.event.2.1) (by simp)
      · obtain ⟨hpairs, hgo, hgu⟩ := served_without_check hserved.pairs hgo hgu
        rw [← hmine] at hpairs hgo hgu
        exact checkIfBehind_served h hg hin hf hpairs hgo hgu

/-- **Nothing that happens fails, and the invariant is kept.** -/
theorem Inv.happens (h : C.Admissible) {s : State} (hs : Inv C s) {r : Except Failure State}
    (hr : Happens C s r) : ∃ s', r = .ok s' ∧ Inv C s' := by
  cases hr with
  | dispatch l₁ l₂ e _ hpend hmin =>
      obtain ⟨k₁, k₂, hmine, hmine₀⟩ := mine_dispatch hpend
      have hg : e.call.group < C.groups := by
        by_contra hg
        have := (hs.unused _ (not_lt.mp hg)).2
        rw [hmine] at this
        exact List.append_ne_nil_of_right_ne_nil _ (List.cons_ne_nil _ _) this
      have hserved := hs.served _ hg
      rw [hmine] at hserved
      obtain ⟨s', hs', ht', hin', hf', hsv⟩ :=
        run_served (s := { s with now := e.time, pending := l₁ ++ l₂ }) h hg
          (inTime_dispatch hpend hmin) ⟨hs.fids.lt, hs.fids.inj⟩ hmine₀ hserved
      exact ⟨s', hs', hs.touch hg ((touches_dispatch hpend).trans ht') hin' hf' hsv⟩
  | complete g i t _ hi hrun hnow hmin =>
      have hg : g < C.groups := by
        by_contra hg
        have := (hs.unused g (not_lt.mp hg)).1
        omega
      have hserved := hs.served g hg
      rcases hserved.phase with hw | ⟨p, q, hgo, hgu⟩
      · exact absurd hrun (by rw [hw.idle i]; decide)
      · obtain ⟨s', hs', ht', hin', hf', hsv⟩ :=
          finNotify_served (s := { s with now := t }) h hg hmin ⟨hs.fids.lt, hs.fids.inj⟩ hi hrun
            hserved.pairs hgo hgu
        exact ⟨s', hs', hs.touch hg ⟨ht'.flowGen, ht'.groups, ht'.mine⟩ hin' hf' hsv⟩

theorem Reach.inv (h : C.Admissible) {s : State} (hs : Reach C s) : Inv C s := by
  induction hs with
  | init => exact setUp_inv
  | step _ hr ih =>
      obtain ⟨s', hs', hinv⟩ := ih.happens h hr
      cases hs'
      exact hinv

/-- The flows that have started are the first of the plan. -/
theorem Served.started {g fg : ℕ} {G : Group} {ev : List Event} (h : Served C g fg G ev) :
    ∃ p, G.started = (List.range p).map (flow C g) := by
  rcases h.phase with hw | ⟨p, q, hgo, -⟩
  · exact ⟨0, hw.started⟩
  · exact ⟨p, hgo.started⟩

theorem plan_mono (g : ℕ) {p p' : ℕ} (h : p ≤ p') :
    (List.range p).map (flow C g) <+: (List.range p').map (flow C g) := by
  obtain ⟨k, rfl⟩ := Nat.exists_eq_add_of_le h
  rw [List.range_add, List.map_append]
  exact List.prefix_append _ _

/-- **The offered workload is the draws.**  In every run of the script, the `k`-th flow a group
starts is the one its draws plan; a pair holds one flow at most; the ids of the connections are
distinct; no call fails, so that `Not enough flows` is not printed.  In two runs with the same
draws, what a group has started in one is a prefix of what it has started in the other. -/
theorem workload_of_draws (C : Config) (h : C.Admissible) (s : State) (hs : Reach C s) :
    (∀ g < C.groups, ∀ k f, (s.groups g).started[k]? = some f →
      f = (1 + ∑ i ∈ Finset.range (k + 1), C.rvFlowIntval g i, ⌈C.rvNbytes g k⌉ * 1460)) ∧
    (∀ g pid, pid < (s.groups g).nrPairs → held (s.groups g) (s.mine g) pid ≤ 1) ∧
    (∀ g g' pid pid', pid < (s.groups g).nrPairs → pid' < (s.groups g').nrPairs →
      ((s.groups g).apair pid).id = ((s.groups g').apair pid').id → g = g' ∧ pid = pid') ∧
    (∀ e, ¬ Happens C s (.error e)) ∧
    ∀ s', Reach C s' → ∀ g < C.groups, (s.groups g).started <+: (s'.groups g).started ∨
      (s'.groups g).started <+: (s.groups g).started := by
  have hinv := hs.inv h
  refine ⟨fun g hg k f hk => ?_, fun g pid hpid => ?_, hinv.fids.inj, fun e he => ?_,
    fun s' hs' g hg => ?_⟩
  · obtain ⟨p, hp⟩ := (hinv.served g hg).started
    rw [hp, List.getElem?_map] at hk
    obtain ⟨j, hj, rfl⟩ := Option.map_eq_some_iff.mp hk
    obtain ⟨hlt, hjk⟩ := List.getElem?_eq_some_iff.mp hj
    rw [List.getElem_range] at hjk
    rw [← hjk]
    rfl
  · by_cases hg : g < C.groups
    · exact (hinv.served g hg).pairs.held_le pid
    · have := (hinv.unused g (not_lt.mp hg)).1
      omega
  · obtain ⟨s', hs', -⟩ := hinv.happens h he
    cases hs'
  · obtain ⟨p, hp⟩ := (hinv.served g hg).started
    obtain ⟨p', hp'⟩ := ((hs'.inv h).served g hg).started
    rw [hp, hp']
    exact (le_total p p').imp (plan_mono g) (plan_mono g)

theorem Reach.next {s : State} {r : Except Failure State} (hs : Reach C s) (hr : Happens C s r)
    (hok : r.toOption.isSome) : Reach C (r.toOption.get hok) := by
  cases r with
  | error e => cases hok
  | ok s' => exact hs.step hr

/-- One group of one connection, with a flow each unit of time. -/
def oneConnection : Config := ⟨2, 1, 1, fun _ _ => 1, fun _ _ => 1⟩

theorem workload_of_draws_first : ∃ s, Reach oneConnection s ∧
    (s.groups 0).started = [(2, 1460)] ∧ held (s.groups 0) (s.mine 0) 0 ≤ 1 ∧
    ¬ Happens oneConnection s (.error (.notEnoughFlows 0)) := by
  have hadm : oneConnection.Admissible :=
    ⟨by decide, fun _ _ _ => zero_lt_one, fun _ _ => by norm_num [oneConnection]⟩
  have h₁ := (Reach.init (C := oneConnection)).next
    (.dispatch [] [] ⟨1, .initSchedule 0⟩ rfl rfl (by decide +kernel)) (by decide +kernel)
  have h₂ := h₁.next (.dispatch [] [⟨3 - 1 / 10000000, .checkIfBehind 0⟩] ⟨2, .start 0 0 1460⟩
    (by decide +kernel) (by decide +kernel) (by decide +kernel)) (by decide +kernel)
  refine ⟨_, h₂, by decide +kernel, ?_, ?_⟩
  · exact (workload_of_draws _ hadm _ h₂).2.1 0 0 (by decide +kernel)
  · exact (workload_of_draws _ hadm _ h₂).2.2.2.1 _

end Arrivals

end Afabric
