import Mathlib.Algebra.Order.Ring.Rat

/-!
# Mcast — the receive buffer

`mcast/rcvbuf.cc`: a receiver keeps what is missing of a sequence of packets as a list of gaps, in
the order of their numbers, between `gap_` and `tail_`.  A packet that is late closes a gap, moves
one of its ends or splits it.

An `int` is an integer that does not overflow, and a `double` is a rational.  A gap is the number of
its allocation, and `node` holds what has been allocated and not deleted.  `none` is a null or
dangling pointer, or a list without an end.
-/

namespace Afabric

structure Gap where
  start : ℤ
  end_ : ℤ
  time : ℚ
deriving DecidableEq

def Gap.Has (a : Gap) (i : ℤ) : Prop := a.start ≤ i ∧ i ≤ a.end_

instance (a : Gap) (i : ℤ) : Decidable (a.Has i) := inferInstanceAs (Decidable (_ ∧ _))

structure RcvBuffer where
  nextpkt : ℤ
  maxpkt : ℤ
  pktsRecovered : ℤ
  duplicates : ℤ
  delaySum : ℚ
  maxDelay : ℚ
  minDelay : ℚ
  gap : Option ℕ
  tail : Option ℕ
  node : ℕ → Option Gap
  next : ℕ → Option ℕ
  /-- How many gaps have been allocated. -/
  fresh : ℕ

namespace RcvBuffer

def new : RcvBuffer where
  nextpkt := 0
  maxpkt := -1
  pktsRecovered := 0
  duplicates := 0
  delaySum := 0
  maxDelay := 0
  minDelay := 1000000
  gap := none
  tail := none
  node := fun _ => none
  next := fun _ => none
  fresh := 0

/-- The loop of `exists_pkt`, from `g` on. -/
def existsFrom (s : RcvBuffer) (i : ℤ) : ℕ → Option ℕ → Option Bool
  | 0, _ => none
  | _ + 1, none => some true
  | fuel + 1, some g =>
      (s.node g).bind fun a =>
        if a.Has i then some false else existsFrom s i fuel (s.next g)

def existsPkt (i : ℤ) (s : RcvBuffer) : Option Bool :=
  if i ≤ s.maxpkt then some true
  else if s.nextpkt ≤ i then some false
  else existsFrom s i (s.fresh + 1) s.gap

/-- The loop that locates the gap of a packet, with `pg` before it. -/
def locate (s : RcvBuffer) (i : ℤ) : ℕ → ℕ → Option ℕ → Option (ℕ × ℕ)
  | 0, _, _ => none
  | _ + 1, _, none => none
  | fuel + 1, pg, some g =>
      (s.node g).bind fun a =>
        if a.Has i then some (pg, g) else locate s i fuel g (s.next g)

/-- A gap up to the packet `i`. -/
def newGap (i : ℤ) (tnow : ℚ) (s : RcvBuffer) : Option RcvBuffer :=
  let g := s.fresh
  let s := { s with node := Function.update s.node g (some ⟨s.nextpkt, i - 1, tnow⟩)
                    next := Function.update s.next g none
                    fresh := g + 1 }
  if s.gap = none then
    some { s with gap := some g, tail := some g, nextpkt := i + 1 }
  else
    s.tail.map fun t =>
      { s with next := Function.update s.next t (some g), tail := some g, nextpkt := i + 1 }

/-- The time a gap was open. -/
def delayed (d : ℚ) (s : RcvBuffer) : RcvBuffer :=
  { s with maxDelay := if s.maxDelay < d then d else s.maxDelay
           minDelay := if d < s.minDelay then d else s.minDelay
           delaySum := s.delaySum + d }

/-- The first packet of the first gap `x`. -/
def fillFirst (x : ℕ) (a : Gap) (s : RcvBuffer) : Option RcvBuffer :=
  let s := { s with maxpkt := s.maxpkt + 1
                    node := Function.update s.node x (some { a with start := a.start + 1 }) }
  if a.end_ < a.start + 1 then
    match s.next x with
    | none =>
        some { s with gap := none, maxpkt := s.nextpkt - 1, tail := none
                      node := Function.update s.node x none }
    | some y =>
        (s.node y).map fun b =>
          { s with gap := some y, maxpkt := b.start - 1, node := Function.update s.node x none }
  else some s

/-- The first packet of the gap `g` after `pg`. -/
def fillStart (pg g : ℕ) (a : Gap) (s : RcvBuffer) : RcvBuffer :=
  let s := { s with node := Function.update s.node g (some { a with start := a.start + 1 }) }
  if a.end_ < a.start + 1 then
    { s with next := Function.update s.next pg (s.next g)
             tail := if s.tail = some g then some pg else s.tail
             node := Function.update s.node g none }
  else s

/-- A packet of the gap `g` that is not its first. -/
def fillRest (i : ℤ) (g : ℕ) (a : Gap) (s : RcvBuffer) : RcvBuffer :=
  if a.end_ = i then
    { s with node := Function.update s.node g (some { a with end_ := a.end_ - 1 }) }
  else
    let pg := s.fresh
    { s with
      node := Function.update (Function.update s.node pg (some ⟨i + 1, a.end_, a.time⟩)) g
        (some { a with end_ := i - 1 })
      next := Function.update (Function.update s.next pg (s.next g)) g (some pg)
      tail := if s.tail = some g then some pg else s.tail
      fresh := pg + 1 }

/-- A packet below `nextpkt_` that is missing. -/
def recover (i : ℤ) (tnow : ℚ) (s : RcvBuffer) : Option RcvBuffer :=
  let s := { s with pktsRecovered := s.pktsRecovered + 1 }
  s.gap.bind fun x => (s.node x).bind fun a =>
    if a.Has i then
      let s := delayed (tnow - a.time) s
      if i = s.maxpkt + 1 then fillFirst x a s else some (fillRest i x a s)
    else
      (locate s i (s.fresh + 1) x (s.next x)).bind fun r => (s.node r.2).map fun b =>
        let s := delayed (tnow - b.time) s
        if b.start = i then fillStart r.1 r.2 b s else fillRest i r.2 b s

def addPkt (i : ℤ) (tnow : ℚ) (s : RcvBuffer) : Option RcvBuffer :=
  (existsPkt i s).bind fun e =>
    if e = true then some { s with duplicates := s.duplicates + 1 }
    else if i = s.nextpkt then
      some { s with nextpkt := s.nextpkt + 1
                    maxpkt := if i = s.maxpkt + 1 then s.maxpkt + 1 else s.maxpkt }
    else if s.nextpkt < i then newGap i tnow s
    else recover i tnow s

def addAll (s : RcvBuffer) : List (ℤ × ℚ) → Option RcvBuffer
  | [] => some s
  | p :: ps => (addPkt p.1 p.2 s).bind fun s => addAll s ps

end RcvBuffer

end Afabric
