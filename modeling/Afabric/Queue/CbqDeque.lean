import Afabric.Queue.Cbq
import Afabric.Support.TailCircle
import Mathlib.Data.Rat.Floor

/-!
# Queue — the selection of a class

`WRR_CBQueue::deque` (`queue/cbq.cc`).  The circles of the priorities are walked in order, each up
to twice: in the second pass a class may send without the weight that it lacked in the first.  A
class is permitted to send when its `undertime_` has passed, or when a class that it may borrow
from lends to it, which with formal link-sharing depends on the other classes; and `delayed` moves
the `undertime_` of a class that is not permitted.  `log` is what `send_permitted` has answered.
-/

namespace Afabric

namespace CBQueue

def demand (q : CBQueue) (c : ℕ) : Bool := 0 < (q.classes c).pkts

/-- `ancestor(p)` of the class `this`; none if it has not returned within its fuel. -/
def ancestor (q : CBQueue) (this : ℕ) : ℕ → ℕ → Option Bool
  | 0, _ => none
  | fuel + 1, p =>
      if (q.classes p).permitBorrowing = false then some false
      else
        match (q.classes p).lender with
        | none => some false
        | some l => if l = this then some true else ancestor q this fuel l

/-- `for (; p; p = p->level_peer_) if (f(p)) return 1; return 0`. -/
def anyFrom (q : CBQueue) (f : ℕ → Option Bool) : ℕ → Option ℕ → Option Bool
  | 0, _ => none
  | _ + 1, none => some false
  | fuel + 1, some p =>
      (f p).bind fun b => if b then some true else anyFrom q f fuel (q.classes p).levelPeer

/-- `desc_with_demand`. -/
def descWithDemand (q : CBQueue) (fuel this : ℕ) : Option Bool :=
  anyFrom q (fun p => if q.demand p then ancestor q this fuel p else some false) fuel (q.levels 1)

variable (now : ℚ)

def satisfied (q : CBQueue) (fuel p : ℕ) : Option Bool :=
  if (q.classes p).level = 1 then
    some (!(decide ((q.classes p).undertime < now) && q.demand p))
  else if (q.classes p).undertime < now then (descWithDemand q fuel p).map not
  else some true

/-- The levels, in order, on which a class is not satisfied. -/
def anyUnsatisfied (q : CBQueue) (fuel : ℕ) : List ℤ → Option Bool
  | [] => some false
  | level :: ls =>
      (anyFrom q (fun p => (satisfied now q fuel p).map not) fuel (q.levels level)).bind fun b =>
        if b then some true else anyUnsatisfied q fuel ls

/-- `eligible_formal`. -/
def eligibleFormal (q : CBQueue) (fuel cl : ℕ) : Option Bool :=
  (anyUnsatisfied now q fuel
    ((List.range ((q.classes cl).level - 1).toNat).map fun i : ℕ => (i : ℤ) + 1)).map not

/-- The loop of `find_lender`; none if it aborts. -/
def findLenderFrom (q : CBQueue) (fuel : ℕ) : ℕ → Option ℕ → Option (Option ℕ)
  | 0, _ => none
  | _ + 1, none => some none
  | n + 1, some l =>
      if now < (q.classes l).undertime then
        if q.eligible = .toplevel ∧ q.toplevel < (q.classes l).level then some none
        else findLenderFrom q fuel n (q.classes l).lender
      else
        match q.eligible with
        | .toplevel =>
            if (q.classes l).level ≤ q.toplevel then some (some l)
            else findLenderFrom q fuel n (q.classes l).lender
        | .ancestors => some (some l)
        | .formal =>
            (eligibleFormal now q fuel l).bind fun b =>
              if b then some (some l) else findLenderFrom q fuel n (q.classes l).lender
        | .none => none

/-- `find_lender`. -/
def findLender (q : CBQueue) (fuel cl : ℕ) : Option (Option ℕ) :=
  if (q.classes cl).permitBorrowing = false ∨ (q.classes cl).lender = none then some none
  else findLenderFrom now q fuel fuel (q.classes cl).lender

def sendPermitted (q : CBQueue) (fuel cl : ℕ) : Option (Bool × CBQueue) :=
  if (q.classes cl).undertime < now then
    some (true, { modify cl (fun c => { c with delayed := false }) q with lastLender := some cl })
  else if (q.classes cl).permitBorrowing then
    (findLender now q fuel cl).map fun l =>
      (l.isSome, { q with lastLender := l.or q.lastLender })
  else some (false, q)

/-- `CBQClass::delayed`; `POWEROFTWO` is 16. -/
def afterDelay (c : CBQClass) : CBQClass :=
  if 0 < c.undertime - now + c.extradelay ∧ c.delayed = false then
    { c with
      undertime := c.undertime + c.extradelay - (1 - 16) * c.avgidle
      delayed := true }
  else c

/-- `(int) x`. -/
def toInt (x : ℚ) : ℤ := if 0 ≤ x then ⌊x⌋ else ⌈x⌉

/-- A class gets its weight, if it has none. -/
def topUp (M : ℤ → ℚ) (deficit : ℕ) (c : CBQClass) : CBQClass :=
  if deficit < 2 ∧ c.bytesAlloc ≤ 0 then
    { c with bytesAlloc := c.bytesAlloc + toInt (c.allotment * M c.pri) }
  else c

/-- `deque` in the middle: the queue, `first`, `deficit`, and what `send_permitted` has answered. -/
structure Walk where
  q : CBQueue
  first : Option ℕ
  deficit : ℕ
  log : List (ℕ × Bool)

/-- The body of the inner loop, with whether it has found a class. -/
def visit (fuel cl : ℕ) (w : Walk) : Option (Bool × Walk) :=
  let q := modify cl (topUp w.q.M w.deficit) w.q
  let zero := modify cl fun c => { c with bytesAlloc := 0 }
  if q.demand cl then
    let first := if w.first = none ∧ (q.classes cl).permitBorrowing = true ∧
      (q.classes cl).lender ≠ none then some cl else w.first
    (sendPermitted now q fuel cl).map fun r =>
      if r.1 = false then
        (false, ⟨zero (modify cl (afterDelay now) r.2), first, w.deficit, w.log ++ [(cl, false)]⟩)
      else if 0 < (r.2.classes cl).bytesAlloc ∨ 1 < w.deficit then
        (true, ⟨r.2, first, w.deficit, w.log ++ [(cl, true)]⟩)
      else (false, ⟨zero r.2, first, 1, w.log ++ [(cl, true)]⟩)
  else some (false, { w with q := zero q })

/-- The inner loop, with the class it has found or where it stands. -/
def round (fuel : ℕ) (prio : ℤ) : ℕ → ℕ → Walk → Option (Bool × Option ℕ × Walk)
  | 0, _, _ => none
  | n + 1, cl, w =>
      (visit now fuel cl w).bind fun r =>
        if r.1 then some (true, some cl, r.2)
        else
          match (r.2.q.classes cl).peer with
          | none => some (false, none, r.2)
          | some c =>
              if r.2.q.active prio = some c then some (false, some c, r.2)
              else round fuel prio n c r.2

/-- `while (!done)`; none if a null pointer is followed. -/
def passes (fuel : ℕ) (prio : ℤ) : ℕ → Option ℕ → Walk → Option (Option ℕ × Walk)
  | 0, _, _ => none
  | _ + 1, none, _ => none
  | n + 1, some cl, w =>
      (round now fuel prio fuel cl w).bind fun r =>
        if r.1 then some (r.2.1, r.2.2)
        else if r.2.2.deficit = 1 then passes fuel prio n r.2.1 { r.2.2 with deficit := 2 }
        else some (none, r.2.2)

/-- The loop over the priorities. -/
def prios (fuel : ℕ) : List ℤ → Walk → Option (Option ℕ × Walk)
  | [], w => some (none, w)
  | prio :: ps, w =>
      match w.q.active prio with
      | none => prios fuel ps w
      | some cl =>
          (passes now fuel prio fuel (some cl) { w with deficit := 0 }).bind fun r =>
            if r.1 = none then prios fuel ps r.2 else some r

/-- `eligible`, and the state at the end of the search. -/
def select (fuel : ℕ) (q : CBQueue) : Option (Option ℕ × Walk) :=
  prios now fuel ((List.range (q.maxprio + 1).toNat).map fun i : ℕ => (i : ℤ)) ⟨q, none, 0, []⟩

/-- `CBQClass::update`, up the lenders; `stats` are the new `avgidle_` and `undertime_` of a class
for a packet of the given size. -/
def update (stats : CBQClass → ℤ → ℚ × ℚ) (size : ℤ) : ℕ → ℕ → CBQueue → Option CBQueue
  | 0, _, _ => none
  | fuel + 1, cl, q =>
      let q := modify cl (fun c => { c with
        avgidle := (stats c size).1
        undertime := (stats c size).2 }) q
      match (q.classes cl).lender with
      | none => some q
      | some l => update stats size fuel l q

/-- `toplevel_departure`. -/
def toplevelDeparture (cl : ℕ) (q : CBQueue) : CBQueue :=
  match q.lastLender with
  | none => q
  | some l =>
      if (q.classes l).level ≤ q.toplevel then
        { q with toplevel :=
            if (q.classes cl).pkts ≤ 1 ∨ now < (q.classes l).undertime then maxLevel
            else (q.classes l).level }
      else q

/-- What a call of `deque` has done: the class whose queue it resumed, and the answers of
`send_permitted`. -/
structure Dequeued where
  q : CBQueue
  resumed : Option ℕ
  log : List (ℕ × Bool)

/-- The accounting for the class `e`; `granted` if it was permitted to send.  Resuming its queue
leaves some packets there and passes on one of some size, or none. -/
def account (stats : CBQClass → ℤ → ℚ × ℚ) (resume : ℕ → ℕ × Option ℤ) (fuel : ℕ)
    (granted : Bool) (e : ℕ) (q : CBQueue) : Option CBQueue :=
  let nextEligible := (q.classes e).peer
  let pending := (resume e).2
  let q := modify e (fun c => { c with pkts := (resume e).1 }) q
  match pending with
  | some size =>
      if granted then do
        let q := modify e (fun c => { c with
          bytesAlloc := if 0 < c.bytesAlloc then c.bytesAlloc - size else c.bytesAlloc }) q
        let nextEligible := if 0 < (q.classes e).bytesAlloc then some e else nextEligible
        let q ← update stats size fuel e q
        let q := if q.eligible = .toplevel then toplevelDeparture now e q else q
        return { q with active := Function.update q.active (q.classes e).pri nextEligible }
      else some { q with active := Function.update q.active (q.classes e).pri nextEligible }
  | none => some { q with active := Function.update q.active (q.classes e).pri nextEligible }

/-- `WRR_CBQueue::deque`; none if it has not returned within its fuel. -/
def deque (stats : CBQClass → ℤ → ℚ × ℚ) (resume : ℕ → ℕ × Option ℤ) (fuel : ℕ) (q : CBQueue) :
    Option Dequeued :=
  (select now fuel q).bind fun r =>
    match r.1.or r.2.first with
    | none => some ⟨r.2.q, none, r.2.log⟩
    | some e =>
        (account now stats resume fuel r.1.isSome e r.2.q).map fun q => ⟨q, some e, r.2.log⟩

end CBQueue

end Afabric
