import Mathlib.Algebra.BigOperators.Group.Finset.Basic
import Mathlib.Data.Rat.Floor

/-!
# Apps — the flow arrivals of the simulation scripts

`Agent_Aggr_pair` (`scripts/tcp-common-opt.tcl`) gives the flows between two servers to a group of
connections.  Its `tnext`, the start of the next flow, is moved by three kinds of call: a finished
flow puts its connection on the schedule again, `check_if_behind` runs just before `tnext` and opens
a new connection when the others are busy, and `init_schedule` begins.  The counters `flow_gen`,
`flow_fin` and `init_fid` are shared by all groups (`scripts/spine_empirical.tcl`).

A random variable is the stream of the values its generator yields.  When a running flow ends is up
to the transport and is left open; the statistics written then are left out.
-/

namespace Afabric

namespace Arrivals

/-- One connection of a group.  `running` says that its application has been given a flow for which
`fin_notify` has not come. -/
structure TcpPair where
  id : ℕ
  pairId : ℕ
  startTime : ℚ
  bytes : ℤ
  running : Bool
deriving DecidableEq, Repr

/-- `new TCP_pair`, with the ids set after it. -/
def TcpPair.new (fid pid : ℕ) : TcpPair := ⟨fid, pid, 0, 0, false⟩

/-- An `Agent_Aggr_pair`.  `intvals` and `nbytes` count what has been drawn from the two random
variables, and `started` records the flows handed to the applications. -/
structure Group where
  tnext : ℚ
  actfl : ℤ
  nrPairs : ℕ
  apair : ℕ → TcpPair
  intvals : ℕ
  nbytes : ℕ
  started : List (ℚ × ℤ)

/-- The command of an event. -/
inductive Call where
  | initSchedule (g : ℕ)
  | start (g pid : ℕ) (bytes : ℤ)
  | checkIfBehind (g : ℕ)
deriving DecidableEq, Repr

def Call.group : Call → ℕ
  | .initSchedule g => g
  | .start g _ _ => g
  | .checkIfBehind g => g

structure Event where
  time : ℚ
  call : Call
deriving DecidableEq, Repr

/-- The parameters of the script, and the streams of the random variables of each group. -/
structure Config where
  simEnd : ℕ
  groups : ℕ
  connectionsPerPair : ℕ
  rvFlowIntval : ℕ → ℕ → ℚ
  rvNbytes : ℕ → ℕ → ℚ

structure State where
  now : ℚ
  flowGen : ℕ
  flowFin : ℕ
  initFid : ℕ
  groups : ℕ → Group
  pending : List Event
  finished : Bool

inductive Failure where
  /-- `Error, Not enough flows ! Aborting!`, with the pair. -/
  | notEnoughFlows (pid : ℕ)
  /-- `$ns at` with a time that has passed. -/
  | pastEvent
deriving DecidableEq, Repr

def Group.onPair (G : Group) (pid : ℕ) (f : TcpPair → TcpPair) : Group :=
  { G with apair := Function.update G.apair pid (f (G.apair pid)) }

def State.onGroup (s : State) (g : ℕ) (f : Group → Group) : State :=
  { s with groups := Function.update s.groups g (f (s.groups g)) }

/-- `$ns at`. -/
def nsAt (t : ℚ) (c : Call) (s : State) : Except Failure State :=
  if t < s.now then .error .pastEvent else .ok { s with pending := s.pending ++ [⟨t, c⟩] }

variable (C : Config)

/-- `TCP_pair start`, with the `start_notify` it calls back. -/
def start (g pid : ℕ) (bytes : ℤ) (s : State) : State :=
  let s₁ := s.onGroup g (·.onPair pid fun p => { p with startTime := s.now, bytes := bytes })
  if C.simEnd ≤ s.flowGen then s₁
  else
    { s₁.onGroup g fun G =>
        { G.onPair pid fun p => { p with running := true } with
          actfl := G.actfl + 1
          started := G.started ++ [(s.now, bytes)] } with
      flowGen := if 1 / 5 ≤ s.now then s.flowGen + 1 else s.flowGen }

/-- `schedule`: the next flow of the group goes to the pair `pid`. -/
def schedule (g pid : ℕ) (s : State) : Except Failure State :=
  if C.simEnd ≤ s.flowGen then .ok s
  else if (s.groups g).tnext < s.now then .error (.notEnoughFlows pid)
  else do
    let flowSizeBytes := ⌈C.rvNbytes g (s.groups g).nbytes⌉ * 1460
    let s₁ ← nsAt (s.groups g).tnext (.start g pid flowSizeBytes)
      (s.onGroup g fun G => { G with nbytes := G.nbytes + 1 })
    let tnext := (s.groups g).tnext + C.rvFlowIntval g (s.groups g).intvals
    nsAt (tnext - 1 / 10000000) (.checkIfBehind g)
      (s₁.onGroup g fun G => { G with intvals := G.intvals + 1, tnext := tnext })

/-- `init_schedule`. -/
def initSchedule (g : ℕ) (s : State) : Except Failure State :=
  (List.range (s.groups g).nrPairs).foldlM (fun s i => schedule C g i s)
    (s.onGroup g fun G =>
      { G with tnext := s.now + C.rvFlowIntval g G.intvals, intvals := G.intvals + 1 })

/-- The new connection of `check_if_behind`. -/
def newPair (g : ℕ) (s : State) : State :=
  { s.onGroup g (fun G => G.onPair G.nrPairs fun _ => .new s.initFid G.nrPairs) with
    initFid := s.initFid + 1 }

/-- `check_if_behind`. -/
def checkIfBehind (g : ℕ) (s : State) : Except Failure State :=
  if s.flowGen < C.simEnd ∧ (s.groups g).tnext < s.now + 2 / 10000000 then do
    let s₁ ← schedule C g (s.groups g).nrPairs (newPair g s)
    .ok (s₁.onGroup g fun G => { G with nrPairs := G.nrPairs + 1 })
  else .ok s

/-- `Agent_Aggr_pair fin_notify`; `finish` ends the simulation. -/
def aggrFinNotify (g pid : ℕ) (s : State) : Except Failure State :=
  let s₁ := { s.onGroup g (fun G => { G with actfl := G.actfl - 1 }) with flowFin := s.flowFin + 1 }
  if C.simEnd ≤ s₁.flowFin then .ok { s₁ with finished := true }
  else if s₁.flowGen < C.simEnd then schedule C g pid s₁
  else .ok s₁

/-- `TCP_pair fin_notify`, of the pair `i` of the group. -/
def finNotify (g i : ℕ) (s : State) : Except Failure State :=
  aggrFinNotify C g ((s.groups g).apair i).pairId
    (s.onGroup g (·.onPair i fun p => { p with running := false }))

/-- The command of an event that is dispatched. -/
def run : Call → State → Except Failure State
  | .initSchedule g => initSchedule C g
  | .start g pid bytes => fun s => .ok (start C g pid bytes s)
  | .checkIfBehind g => checkIfBehind C g

/-- `setup` and `resetvars`. -/
def Group.setup (nr initFid : ℕ) : Group :=
  ⟨0, 0, nr, fun i => .new (initFid + i) i, 0, 0, []⟩

/-- The set-up loop of the script, after the first `n` groups. -/
def setUp : ℕ → State
  | 0 => ⟨0, 0, 0, 0, fun _ => .setup 0 0, [], false⟩
  | n + 1 =>
      let s := setUp n
      { s.onGroup n (fun _ => .setup C.connectionsPerPair s.initFid) with
        pending := s.pending ++ [⟨1, .initSchedule n⟩]
        initFid := s.initFid + C.connectionsPerPair }

/-- What can happen in a state, with the outcome.  Events of one time come in any order. -/
inductive Happens (s : State) : Except Failure State → Prop where
  /-- The scheduler dispatches a first event. -/
  | dispatch (l₁ l₂ : List Event) (e : Event) : s.finished = false →
      s.pending = l₁ ++ e :: l₂ → (∀ e' ∈ s.pending, e.time ≤ e'.time) →
      Happens s (run C e.call { s with now := e.time, pending := l₁ ++ l₂ })
  /-- A running flow ends, before or among the first events. -/
  | complete (g i : ℕ) (t : ℚ) : s.finished = false → i < (s.groups g).nrPairs →
      ((s.groups g).apair i).running = true → s.now ≤ t → (∀ e ∈ s.pending, t ≤ e.time) →
      Happens s (finNotify C g i { s with now := t })

/-- The states of the runs of the script. -/
inductive Reach : State → Prop where
  | init : Reach (setUp C C.groups)
  | step {s s' : State} : Reach s → Happens C s (.ok s') → Reach s'

/-! ### What the draws plan -/

/-- The start and the size of the `k`-th flow of a group, from 0. -/
def flow (g k : ℕ) : ℚ × ℤ :=
  (1 + ∑ i ∈ Finset.range (k + 1), C.rvFlowIntval g i, ⌈C.rvNbytes g k⌉ * 1460)

/-- Positive intervals, the first two of which do not come before the first check. -/
structure Config.Admissible : Prop where
  pairs : 0 < C.connectionsPerPair
  pos : ∀ g < C.groups, ∀ k, 0 < C.rvFlowIntval g k
  first : ∀ g < C.groups, 1 / 10000000 ≤ C.rvFlowIntval g 0 + C.rvFlowIntval g 1

/-- The events of one group. -/
def State.mine (s : State) (g : ℕ) : List Event := s.pending.filter fun e => e.call.group = g

/-- Whether an event starts a flow on the pair `pid`. -/
def Event.starts (pid : ℕ) (e : Event) : Bool :=
  match e.call with
  | .start _ p _ => p = pid
  | _ => false

/-- How many flows have been given to the pair `pid` and have not ended: the ones planned in `ev`
and the one that runs. -/
def held (G : Group) (ev : List Event) (pid : ℕ) : ℕ :=
  (ev.filter (Event.starts pid)).length + (G.apair pid).running.toNat

end Arrivals

end Afabric
