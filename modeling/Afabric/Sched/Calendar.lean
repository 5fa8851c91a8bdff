import Afabric.Sched.EventList
import Mathlib.Data.Rat.Floor

/-!
# Sched — `CalendarScheduler`

The events are hashed by time into the buckets of a calendar (`common/scheduler.cc`), which has
`nbuckets_` days of `width_` in a year.  A bucket is a circular list in order of time, given here
from its head; `count_` is the number of its times, and `stat_qsize_` that of all.  `head` looks
through the days of a year from that of the last event, and falls back to the earliest event it has
seen.  The calendar is rebuilt when it has too many or too few times for its days, and, if
`adjust_new_width_interval_` is set, when the searches in the days and in the buckets are out of
balance.

Counters are numbers without bound, a `double` is a rational, and the square root for a new width is
a parameter.  `none` is an assertion that fails, or a null pointer that is followed.
-/

namespace Afabric

/-- The parameters of a `CalendarScheduler`, and the square root of the mathematical library. -/
structure CalendarParams where
  adjustNewWidthInterval : Nat
  minBinWidth : ℚ
  sqrt : ℚ → ℚ

/-- A `Bucket`: its events from the head on, and the number of their times. -/
structure Bucket where
  list : List Event
  count : Int

/-- `CALENDAR_HASH`, for a time that is not negative. -/
def calendarHash (width : ℚ) (nbuckets : Nat) (t : ℚ) : Nat := ⌊t / width⌋.toNat % nbuckets

/-- A `CalendarScheduler`. -/
structure Calendar where
  buckets : Nat → Bucket
  width : ℚ
  nbuckets : Nat
  lastbucket : Nat
  calClock : ℚ
  qsize : Int
  statQsize : Int
  diff0 : ℚ
  diff1 : ℚ
  diff2 : ℚ
  topThreshold : Int
  botThreshold : Int
  headSearch : Nat
  insertSearch : Nat
  roundNum : Int
  gapNum : Int
  lastTime : ℚ
  avgGap : ℚ
  timeToNewwidth : Nat

/-! ### Buckets -/

namespace Bucket

/-- The bucket after an insertion, and whether the time is new. -/
structure Inserted where
  bucket : Bucket
  unique : Bool
  searches : Nat

/-- What `insert` does to a bucket.  The list is searched from its tail for the event after which
the new one comes. -/
def insert (b : Bucket) (e : Event) : Inserted :=
  match b.list with
  | [] => ⟨⟨[e], b.count + 1⟩, true, 0⟩
  | head :: _ =>
      if e.time < head.time then ⟨⟨e :: b.list, b.count + 1⟩, true, 1⟩
      else
        let r := b.list.reverse.span fun a => e.time < a.time
        let unique := r.2.head?.all fun after => after.time < e.time
        ⟨⟨r.2.reverse ++ e :: r.1.reverse, if unique then b.count + 1 else b.count⟩, unique,
          r.1.length + 1⟩

/-- What `insert2` does to a bucket: the event comes before those of its time. -/
def insert2 (b : Bucket) (e : Event) : Bucket × Bool :=
  match b.list.getLast? with
  | none => (⟨[e], b.count + 1⟩, true)
  | some tail =>
      let r := if tail.time < e.time then (b.list, []) else b.list.span fun x => x.time < e.time
      -- `before`, which is the head of the list when the event comes last
      let before := (r.2 ++ r.1).head?
      let unique := before.all fun x => x.time ≠ e.time
      (⟨r.1 ++ e :: r.2, if unique then b.count + 1 else b.count⟩, unique)

/-- The list from the event after `e` around to the one before it, and the part before `e`. -/
def ring (b : Bucket) (e : Event) : Option (List Event × List Event × List Event) :=
  match b.list.span fun x => x.obj ≠ e.obj with
  | (_, []) => none
  | (before, _ :: after) => some (after ++ before, before, after)

end Bucket

namespace Calendar

def hash (s : Calendar) (t : ℚ) : Nat := calendarHash s.width s.nbuckets t

def setBucket (s : Calendar) (i : Nat) (b : Bucket) : Calendar :=
  { s with buckets := fun k => if k = i then b else s.buckets k }

/-- `reinit`. -/
def reinit (s : Calendar) (nbuck : Nat) (bwidth start : ℚ) : Calendar :=
  { s with
    buckets := fun _ => ⟨[], 0⟩
    width := bwidth
    nbuckets := nbuck
    qsize := 0
    statQsize := 0
    lastbucket := calendarHash bwidth nbuck start
    diff0 := bwidth * nbuck / 2
    diff1 := bwidth * nbuck / 2 + bwidth
    diff2 := bwidth * nbuck
    botThreshold := (nbuck / 2 : Nat) - 2
    topThreshold := nbuck * 2 }

/-- The constructor. -/
def init (P : CalendarParams) : Calendar :=
  reinit
    { buckets := fun _ => ⟨[], 0⟩, width := 0, nbuckets := 0, lastbucket := 0, calClock := 0
      qsize := 0, statQsize := 0, diff0 := 0, diff1 := 0, diff2 := 0, topThreshold := 0
      botThreshold := 0, headSearch := 0, insertSearch := 0, roundNum := 0, gapNum := 0
      lastTime := -2, avgGap := -2, timeToNewwidth := P.adjustNewWidthInterval } 4 1 0

/-- `insert2`. -/
def insert2 (s : Calendar) (e : Event) : Calendar :=
  let i := s.hash e.time
  let r := (s.buckets i).insert2 e
  { s.setBucket i r.1 with
    qsize := s.qsize + 1
    statQsize := if r.2 then s.statQsize + 1 else s.statQsize }

/-- The index of the fullest bucket in `newwidth`. -/
def maxBucket (s : Calendar) : Nat :=
  (List.range s.nbuckets).foldl
    (fun m i => if (s.buckets m).count < (s.buckets i).count then i else m) 0

/-- `newwidth`: the width, and the calendar with the failures counted anew. -/
def newwidth (P : CalendarParams) (s : Calendar) (newsize : Nat) : Option (ℚ × Calendar) :=
  let s' := if P.adjustNewWidthInterval ≠ 0 then
      { s with timeToNewwidth := P.adjustNewWidthInterval } else s
  if P.adjustNewWidthInterval ≠ 0 ∧ 0 < s.avgGap then some (s.avgGap * 4, s')
  else
    let b := s.buckets s.maxBucket
    if b.count ≤ 4 then some (s.width, s')
    else
      match b.list.head?, b.list.getLast? with
      | some first, some last =>
          let nw := last.time - first.time
          if 0 < nw then some (nw / (min (newsize : Int) b.count : Int) * 4, s') else none
      | _, _ => none

/-- The events in the order in which `resize` copies them: each bucket from its tail. -/
def copied (s : Calendar) : List Event :=
  (List.range s.nbuckets).flatMap fun i => (s.buckets i).list.reverse

/-- The end of `resize`, with the size and the width that were chosen. -/
def rebuild (s : Calendar) (newsize : Nat) (bwidth start : ℚ) : Calendar :=
  let s' := s.copied.foldl insert2 (s.reinit newsize bwidth start)
  { s' with headSearch := 0, insertSearch := 0, roundNum := 0 }

/-- `resize`. -/
def resize (P : CalendarParams) (s : Calendar) (newsize : Nat) (start : ℚ) : Option Calendar :=
  if newsize = s.nbuckets then
    let ratio := (if s.headSearch ≠ 0 then (s.headSearch : ℚ) else 1)
      / (if s.insertSearch ≠ 0 then (s.insertSearch : ℚ) else 1)
    let bwidth := P.sqrt ratio * s.width
    if bwidth < P.minBinWidth then
      if 0 < s.timeToNewwidth then
        some { s with
          timeToNewwidth := s.timeToNewwidth - 1, headSearch := 0, insertSearch := 0, roundNum := 0 }
      else do
        let r ← newwidth P s newsize
        some (r.2.rebuild newsize r.1 start)
    else some (s.rebuild newsize bwidth start)
  else do
    let r ← newwidth P s newsize
    some (r.2.rebuild (max newsize 4) r.1 start)

/-- `insert`. -/
def insert (P : CalendarParams) (s : Calendar) (e : Event) : Option Calendar :=
  let s := if e.time < s.calClock then
      { s with calClock := e.time, lastbucket := s.hash e.time } else s
  let i := s.hash e.time
  let r := (s.buckets i).insert e
  let s := { s.setBucket i r.bucket with
    qsize := s.qsize + 1
    statQsize := if r.unique then s.statQsize + 1 else s.statQsize
    insertSearch := s.insertSearch + r.searches }
  if s.topThreshold < s.statQsize then resize P s (s.nbuckets * 2) s.calClock else some s

/-! ### The search for the head -/

/-- The search in `head`: the bucket to look at, the earliest event so far and its bucket, and the
number of buckets looked at. -/
structure Probe where
  i : Nat
  min : Option (Event × Nat)
  searches : Nat

/-- `CAL_DEQUEUE`: the event that is found, with its bucket, or the search for the next bucket. -/
def calDequeue (s : Calendar) (limit : ℚ) (p : Probe) : Event × Nat × Nat ⊕ Probe :=
  let i' := if p.i + 1 = s.nbuckets then 0 else p.i + 1
  match (s.buckets p.i).list.head? with
  | none => .inr ⟨i', p.min, p.searches + 1⟩
  | some e =>
      if e.time - s.calClock < limit then .inl (e, p.i, p.searches + 1)
      else
        let earlier := p.min.all fun m => e.time < m.1.time
        .inr ⟨i', if earlier then some (e, p.i) else p.min, p.searches + 1⟩

/-- The loop of `head` up to the bucket before the last one looked at. -/
def calLoop (s : Calendar) (stop : Nat) : Nat → Probe → Option (Event × Nat × Nat ⊕ Probe)
  | 0, _ => none
  | fuel + 1, p =>
      if p.i = stop then some (.inr p)
      else
        match s.calDequeue s.diff2 p with
        | .inl f => some (.inl f)
        | .inr p' => calLoop s stop fuel p'

/-- The bucket that is left unchecked, against the earliest event. -/
def calLast (s : Calendar) (p : Probe) : Option (Event × Nat × Nat) :=
  match p.min, (s.buckets p.i).list.head? with
  | some m, none => some (m.1, m.2, p.searches)
  | some m, some e =>
      if m.1.time < e.time then some (m.1, m.2, p.searches) else some (e, p.i, p.searches)
  | none, some e => some (e, p.i, p.searches)
  | none, none => none

/-- The search of `head`: the event, its bucket, and the number of buckets looked at. -/
def findHead (s : Calendar) : Option (Event × Nat × Nat) :=
  let dec := if s.lastbucket ≠ 0 then s.lastbucket - 1 else s.nbuckets - 1
  match s.calDequeue s.diff0 ⟨s.lastbucket, none, 0⟩ with
  | .inl f => some f
  | .inr p =>
      match s.calDequeue s.diff1 p with
      | .inl f => some f
      | .inr p => do
          match ← s.calLoop dec s.nbuckets p with
          | .inl f => some f
          | .inr p => s.calLast p

/-- `head`. -/
def head (s : Calendar) : Option (Option Event × Calendar) :=
  if s.qsize = 0 then some (none, s)
  else do
    let f ← s.findHead
    some (some f.1,
      { s with lastbucket := f.2.1, calClock := f.1.time, headSearch := s.headSearch + f.2.2 })

/-! ### Taking events out -/

/-- A window of gaps ends at an event, with their average. -/
def endWindow (s : Calendar) (e : Event) : Calendar :=
  { s with
    avgGap := (e.time - s.lastTime) / (s.gapNum + 1 : Int)
    gapNum := 0
    lastTime := e.time
    roundNum := s.roundNum + 1 }

/-- The adjustment of the width in `deque`. -/
def adjust (P : CalendarParams) (s : Calendar) (e : Event) : Option Calendar :=
  if P.adjustNewWidthInterval = 0 then some s
  else if s.lastTime < 0 then some { s with lastTime := e.time }
  else if s.gapNum + 1 < s.qsize then some { s with gapNum := s.gapNum + 1 }
  else
    let s := s.endWindow e
    if 20 < s.roundNum ∧
        (s.insertSearch * 2 < s.headSearch ∨ s.headSearch * 2 < s.insertSearch) then do
      let s' ← resize P s s.nbuckets s.calClock
      some { s' with roundNum := 0 }
    else if 100 < s.roundNum then some { s with roundNum := 0, headSearch := 0, insertSearch := 0 }
    else some s

/-- The unlinking of `deque`: the list of the bucket begins after the event. -/
def unlink (s : Calendar) (e : Event) : Option Calendar := do
  let b := s.buckets s.lastbucket
  let r ← b.ring e
  let unique := r.1.head?.all fun next => next.time ≠ e.time
  some { s.setBucket s.lastbucket ⟨r.1, if unique then b.count - 1 else b.count⟩ with
    qsize := s.qsize - 1
    statQsize := if unique then s.statQsize - 1 else s.statQsize }

/-- `deque`. -/
def deque (P : CalendarParams) (s : Calendar) : Option (Option Event × Calendar) := do
  let h ← s.head
  match h.1 with
  | none => some (none, h.2)
  | some e =>
      let s ← h.2.adjust P e
      let s ← s.unlink e
      let s ← if s.statQsize < s.botThreshold then resize P s (s.nbuckets / 2) s.calClock else some s
      some (some e, s)

/-- `cancel` of an event with a number, with its assertions. -/
def cancel (s : Calendar) (e : Event) : Option Calendar := do
  let i := s.hash e.time
  let b := s.buckets i
  let r ← b.ring e
  let unique := (r.1.head?.all fun next => next.time ≠ e.time) &&
    r.1.getLast?.all fun prev => prev.time ≠ e.time
  let b' : Bucket := ⟨r.2.1 ++ r.2.2, if unique then b.count - 1 else b.count⟩
  let stat := if unique then s.statQsize - 1 else s.statQsize
  if unique ∧ (stat < 0 ∨ b'.count < 0) ∨ b'.count = 0 ∧ b'.list ≠ [] then none
  else some { s.setBucket i b' with qsize := s.qsize - 1, statQsize := stat }

end Calendar

/-- The operations of a `CalendarScheduler`. -/
def calendarScheduler (P : CalendarParams) : EventQueue Calendar where
  init := .init P
  insert := fun s e => s.insert P e
  cancel := fun s e => s.cancel e
  deque := fun s => s.deque P

end Afabric
