import Mathlib.Tactic.NormNum

/-!
# Queue — the classes of class-based queueing

`CBQueue` and `WRR_CBQueue` (`queue/cbq.cc`): classes in a circle for each priority, linked by
`peer_`, and in a list for each level, linked by `level_peer_`.  A class is known by its address.

`insert_class` checks the priority of a class before it links it, and its allotment, the link and
its level after that: a class that it turns away stays in the circle of its priority, and with
weighted round robin its allotment may stay in the sum.  `Untouched` is when nothing is left behind.
-/

namespace Afabric

/-- `CBQClass`: `hasQ` if `q_` is not null, and `pkts` of its monitor. -/
structure CBQClass where
  peer : Option ℕ
  levelPeer : Option ℕ
  lender : Option ℕ
  hasQ : Bool
  pkts : ℕ
  allotment : ℚ
  maxrate : ℚ
  extradelay : ℚ
  undertime : ℚ
  avgidle : ℚ
  pri : ℤ
  level : ℤ
  delayed : Bool
  bytesAlloc : ℤ
  permitBorrowing : Bool

/-- `eligible_type_`. -/
inductive Eligible where
  | none
  | formal
  | ancestors
  | toplevel
deriving DecidableEq, Repr

/-- `CBQueue`, or with `wrr` `WRR_CBQueue`; the `link` is known by its bandwidth. -/
structure CBQueue where
  wrr : Bool
  classes : ℕ → CBQClass
  active : ℤ → Option ℕ
  levels : ℤ → Option ℕ
  maxprio : ℤ
  maxlevel : ℤ
  toplevel : ℤ
  maxpkt : ℤ
  lastLender : Option ℕ
  link : Option ℚ
  eligible : Eligible
  alloc : ℤ → ℚ
  M : ℤ → ℚ
  cnt : ℤ → ℤ

namespace CBQueue

/-- `MAXPRIO`. -/
def maxPrio : ℤ := 10

/-- `MAXLEVEL`. -/
def maxLevel : ℤ := 32

/-- A field of the class `c` is written. -/
def modify (c : ℕ) (f : CBQClass → CBQClass) (q : CBQueue) : CBQueue :=
  { q with classes := Function.update q.classes c (f (q.classes c)) }

/-- `M_` after `setM`. -/
def newM (q : CBQueue) (i : ℤ) : ℚ :=
  if 0 ≤ i ∧ i ≤ q.maxprio then if 0 < q.alloc i then q.cnt i * q.maxpkt / q.alloc i else 0
  else q.M i

/-- `setM`; none if it aborts. -/
def setM (q : CBQueue) : Option CBQueue :=
  if (List.range (q.maxprio + 1).toNat).any fun i => q.newM i < 0 then none
  else some { q with M := q.newM }

def addallot (prio : ℤ) (diff : ℚ) (q : CBQueue) : Option CBQueue :=
  if q.wrr then setM { q with alloc := Function.update q.alloc prio (q.alloc prio + diff) }
  else some q

/-- The class `p`, which has a queue, is put into the circle of its priority. -/
def activate (p : ℕ) (q : CBQueue) : CBQueue :=
  let pri := (q.classes p).pri
  let q := match q.active pri with
    | some a =>
        modify a (fun c => { c with peer := some p })
          (modify p (fun c => { c with peer := (q.classes a).peer }) q)
    | none =>
        modify p (fun c => { c with peer := some p })
          { q with active := Function.update q.active pri (some p) }
  { q with maxprio := if q.maxprio < pri then pri else q.maxprio }

/-- The class `p` is put into the list of its level. -/
def addLevel (p : ℕ) (q : CBQueue) : CBQueue :=
  let level := (q.classes p).level
  let q := modify p (fun c => { c with levelPeer := q.levels level }) q
  { q with
    levels := Function.update q.levels level (some p)
    maxlevel := if q.maxlevel < level then level else q.maxlevel }

/-- A class with a queue is put into the circle of its priority. -/
def entered (p : ℕ) (q : CBQueue) : CBQueue := if (q.classes p).hasQ then activate p q else q

/-- The end of `CBQueue::insert_class`. -/
def leveled (p : ℕ) (q : CBQueue) : ℤ × CBQueue :=
  if (q.classes p).level ≤ 0 ∨ maxLevel < (q.classes p).level then (-1, q) else (0, addLevel p q)

/-- `CBQueue::insert_class`, with what it returns. -/
def insertBase (p : ℕ) (q : CBQueue) : Option (ℤ × CBQueue) :=
  let c := q.classes p
  if c.pri < 0 ∨ maxPrio - 1 < c.pri then some (-1, q)
  else
    let q := entered p q
    if c.allotment < 0 ∨ 1 < c.allotment then some (-1, q)
    else
      match q.link with
      | none => some (-1, q)
      | some bandwidth =>
          if bandwidth ≤ 0 then some (-1, q)
          else
            (addallot c.pri c.allotment
              (modify p (fun c => { c with maxrate := c.allotment * (bandwidth / 8) }) q)).map
              (leveled p)

/-- `insert_class`; none if `setM` aborts. -/
def insertClass (p : ℕ) (q : CBQueue) : Option (ℤ × CBQueue) := do
  let (r, q) ← insertBase p q
  if q.wrr = false then return (r, q)
  else if r < 0 then return (-1, q)
  else
    let pri := (q.classes p).pri
    let q ← setM { q with cnt := Function.update q.cnt pri (q.cnt pri + 1) }
    return (0, q)

/-- A queue as it is constructed. -/
def created (wrr : Bool) (maxpkt : ℤ) (classes : ℕ → CBQClass) : CBQueue where
  wrr := wrr
  classes := classes
  active := fun _ => none
  levels := fun _ => none
  maxprio := -1
  maxlevel := -1
  toplevel := maxLevel
  maxpkt := maxpkt
  lastLender := none
  link := none
  eligible := .none
  alloc := fun _ => 0
  M := fun _ => 0
  cnt := fun _ => 0

/-! ### A class that is turned away -/

variable {p : ℕ} {q q' : CBQueue}

/-- The circles, levels and allocations are as before. -/
structure Unchanged (p : ℕ) (q q' : CBQueue) : Prop where
  active : q'.active = q.active
  maxprio : q'.maxprio = q.maxprio
  levels : q'.levels = q.levels
  maxlevel : q'.maxlevel = q.maxlevel
  alloc : q'.alloc = q.alloc
  cnt : q'.cnt = q.cnt
  peers : ∀ c ≠ p, (q'.classes c).peer = (q.classes c).peer

/-- The class `p` is in a circle, where `deque` finds it. -/
def Linked (q : CBQueue) (p : ℕ) : Prop :=
  ∃ prio a, q.active prio = some a ∧
    Relation.ReflTransGen (fun x y => (q.classes x).peer = some y) a p

theorem Unchanged.linked (h : Unchanged p q q') (hl : Linked q' p) : Linked q p := by
  obtain ⟨prio, a, ha, hpath⟩ := hl
  refine ⟨prio, a, h.active ▸ ha, ?_⟩
  clear ha
  induction hpath using Relation.ReflTransGen.head_induction_on with
  | refl => exact .refl
  | @head x y hxy _ ih =>
      by_cases hx : x = p
      · rw [hx]
      · exact .head (h.peers x hx ▸ hxy) ih

@[simp] theorem modify_self (c : ℕ) (f : CBQClass → CBQClass) (q : CBQueue) :
    (modify c f q).classes c = f (q.classes c) := Function.update_self _ _ _

@[simp] theorem modify_of_ne {c d : ℕ} (f : CBQClass → CBQClass) (h : d ≠ c) :
    (modify c f q).classes d = q.classes d := Function.update_of_ne h _ _

theorem activate_rest (p : ℕ) (q : CBQueue) :
    (activate p q).wrr = q.wrr ∧ (activate p q).link = q.link ∧
      (activate p q).levels = q.levels ∧ (activate p q).maxlevel = q.maxlevel ∧
      (activate p q).alloc = q.alloc ∧ (activate p q).cnt = q.cnt := by
  cases ha : q.active (q.classes p).pri with
  | none =>
      simp only [activate, ha]
      exact ⟨rfl, rfl, rfl, rfl, rfl, rfl⟩
  | some a =>
      simp only [activate, ha]
      exact ⟨rfl, rfl, rfl, rfl, rfl, rfl⟩

theorem setM_eq_some (h : setM q = some q') : q' = { q with M := q.newM } := by
  rw [setM] at h
  split_ifs at h
  exact (Option.some.inj h).symm

/-- A class of half of the link, with or without a queue. -/
def halfClass (hasQ : Bool) : CBQClass where
  peer := none
  levelPeer := none
  lender := none
  hasQ := hasQ
  pkts := 0
  allotment := 1 / 2
  maxrate := 0
  extradelay := 0
  undertime := 0
  avgidle := 0
  pri := 0
  level := 1
  delayed := false
  bytesAlloc := 0
  permitBorrowing := true

end CBQueue

end Afabric
