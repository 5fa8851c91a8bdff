import Afabric.Support.Intervals
import Mathlib.Data.List.TakeWhile

/-!
# Tcp — the reassembly queue as a list of blocks

`ReassemblyQueue` (`tcp/rq.h`, `tcp/rq.cc`) keeps the out-of-order segments of a receiver, and
the SACKed segments of a sender, as blocks `[start, stop)` with the TCP flags of what was merged
into them.  This file is its meaning, on the list of blocks in sequence order; the pointer
structure is `ReassemblyQueue.lean`, and `RqRefines.lean` proves that it computes what is
defined here.

A segment `[start, stop)` splits the list into the blocks that end at or before `start`, the
blocks it overlaps, and the blocks that start at or after `stop` (`before`, `overlap`, `after`).
`add` follows `ReassemblyQueue::add` on the three parts: an exact duplicate only merges flags; a
block the segment covers is removed and its flags kept; what is left of the overlapped part is a
block that sticks out on the left, one that sticks out on the right, or both, and the segment is
cut down to the gap, placed, and coalesced with the neighbours it touches.

`add_spec` is the one description of the result: the blocks the segment touches are replaced by
one block that spans them and the segment.  Its flags are the union of theirs and the segment's,
except when the segment joins two blocks neither of which it covers: then the flags of the right
one are not in the union.

Sequence numbers (`TcpSeq` in the source) are integers.
-/

namespace Afabric

/-- The flags of a TCP header. -/
abbrev TcpFlag := BitVec 32

/-- A block of the queue. -/
structure Block where
  start : Int
  stop : Int
  flags : TcpFlag
deriving DecidableEq, Repr

/-- The segment's flags are merged into the block. -/
def Block.orFlag (b : Block) (ti : TcpFlag) : Block := { b with flags := b.flags ||| ti }

@[simp, grind =] theorem Block.orFlag_start (b : Block) (ti : TcpFlag) :
    (b.orFlag ti).start = b.start := rfl

@[simp, grind =] theorem Block.orFlag_stop (b : Block) (ti : TcpFlag) :
    (b.orFlag ti).stop = b.stop := rfl

@[simp, grind =] theorem Block.orFlag_flags (b : Block) (ti : TcpFlag) :
    (b.orFlag ti).flags = b.flags ||| ti := rfl

namespace SegList

/-- The union of the flags of some blocks. -/
def orFlags (l : List Block) : TcpFlag := l.foldr (fun b f => b.flags ||| f) 0

@[simp] theorem orFlags_nil : orFlags [] = 0 := rfl

@[simp] theorem orFlags_cons (b : Block) (l : List Block) :
    orFlags (b :: l) = b.flags ||| orFlags l := rfl

@[simp] theorem orFlags_append (a b : List Block) :
    orFlags (a ++ b) = orFlags a ||| orFlags b := by
  induction a with
  | nil => simp
  | cons x a ih => simp [ih, BitVec.or_assoc]

/-- A queue whose blocks are non-empty, sorted, disjoint and not adjacent. -/
abbrev Wf (l : List Block) : Prop := Normal Block.start Block.stop l

/-- A queue that may also hold blocks without bytes. -/
abbrev Loose (l : List Block) : Prop := Afabric.Loose Block.start Block.stop l

/-- The bytes the queue holds. -/
abbrev bytes (l : List Block) : Set Int := cover Block.start Block.stop l

/-- `total_`, the number of bytes in the queue. -/
abbrev total (l : List Block) : Int := span Block.start Block.stop l

/-! ### `add` -/

/-- The blocks that end at or before `start`. -/
def before (l : List Block) (start : Int) : List Block :=
  l.takeWhile fun b => b.stop ≤ start

/-- The blocks that overlap the segment. -/
def overlap (l : List Block) (start stop : Int) : List Block :=
  (l.dropWhile fun b => b.stop ≤ start).takeWhile fun b => b.start < stop

/-- The blocks that start at or after `stop`. -/
def after (l : List Block) (start stop : Int) : List Block :=
  (l.dropWhile fun b => b.stop ≤ start).dropWhile fun b => b.start < stop

/-- The segment completely overlaps the block. -/
def Covers (start stop : Int) (b : Block) : Prop := start ≤ b.start ∧ b.stop ≤ stop

instance (start stop : Int) (b : Block) : Decidable (Covers start stop b) :=
  inferInstanceAs (Decidable (_ ∧ _))

/-- What a call of `add` leaves behind: the queue, the flags it returns, and `rcv_nxt_`. -/
structure Added where
  blocks : List Block
  flags : TcpFlag
  rcvNxt : Int
deriving DecidableEq, Repr

/-- `rcv_nxt_` moves to the end of a block it has reached. -/
def bump (rcv : Int) (b : Block) : Int := if rcv ≥ b.start then b.stop else rcv

/-- Insertion of a new block between two parts of the queue, and its coalescing with the
neighbours it is adjacent to; the second component is the resulting block. -/
def place (a : List Block) (n : Block) (b : List Block) : List Block × Block :=
  match a.getLast?.filter (fun p => p.stop = n.start),
      b.head?.filter (fun q => q.start = n.stop) with
  | some p, some q =>
      -- `q`'s flags do not enter the joined block
      let m : Block := ⟨p.start, q.stop, p.flags ||| n.flags⟩
      (a.dropLast ++ m :: b.tail, m)
  | some p, none =>
      let m : Block := ⟨p.start, n.stop, p.flags ||| n.flags⟩
      (a.dropLast ++ m :: b, m)
  | none, some q =>
      let m : Block := ⟨n.start, q.stop, q.flags ||| n.flags⟩
      (a ++ m :: b.tail, m)
  | none, none => (a ++ n :: b, n)

/-- The segment is cut down to a gap, which is placed. -/
def placed (rcv : Int) (a : List Block) (n : Block) (b : List Block) : Added :=
  let r := place a n b
  ⟨r.1, r.2.flags, bump rcv r.2⟩

/-- No gap is left: the return before `endfast`, which looks at the head of the list. -/
def settled (rcv : Int) (ti : TcpFlag) (l : List Block) : Added :=
  ⟨l, ti, match l.head? with
    | some h => bump rcv h
    | none => rcv⟩

/-- The left- and right-side merges, once no block is covered. -/
def merge (rcv start stop : Int) (ti : TcpFlag) (a : List Block) :
    List Block → List Block → Added
  | [], b =>
      -- an empty segment is dropped between two blocks
      if stop ≤ start ∧ a ≠ [] ∧ b ≠ [] then settled rcv ti (a ++ b)
      else placed rcv a ⟨start, stop, ti⟩ b
  | [m], b =>
      if m.start < start then
        if stop ≤ m.stop ∨ b = [] then
          settled rcv ti (a ++ ⟨m.start, max m.stop stop, m.flags ||| ti⟩ :: b)
        else placed rcv (a ++ [m.orFlag ti]) ⟨m.stop, stop, ti⟩ b
      else if a = [] ∨ start = m.start then
        settled rcv ti (a ++ ⟨start, m.stop, m.flags ||| ti⟩ :: b)
      else placed rcv a ⟨start, m.start, ti⟩ (m.orFlag ti :: b)
  | l :: r :: _, b =>
      placed rcv (a ++ [l.orFlag ti]) ⟨l.stop, r.start, ti⟩ (r.orFlag ti :: b)

/-- `add` on a queue split around the segment. -/
def addAt (rcv start stop : Int) (ti : TcpFlag) (a m b : List Block) : Added :=
  match m.find? (fun c => c.start = start ∧ c.stop = stop) with
  | some c =>
      -- exact overlap
      ⟨a ++ m.map (fun d => if d.start = start ∧ d.stop = stop then d.orFlag ti else d) ++ b,
        c.flags ||| ti, rcv⟩
  | none =>
      merge rcv start stop (ti ||| orFlags (m.filter (Covers start stop))) a
        (m.filter fun c => ¬ Covers start stop c) b

/-- `ReassemblyQueue::add`. -/
def add (l : List Block) (rcv start stop : Int) (ti : TcpFlag) : Added :=
  addAt rcv start stop ti (before l start) (overlap l start stop) (after l start stop)

/-! ### `clearto`, `nexthole` -/

/-- `ReassemblyQueue::clearto`, with the flags it collects. -/
def clearto : List Block → Int → List Block × TcpFlag
  | [], _ => ([], 0)
  | b :: l, seq =>
      if b.stop ≤ seq then
        let r := clearto l seq
        (r.1, b.flags ||| r.2)
      else if b.start ≤ seq then ({ b with start := seq } :: l, b.flags)
      else (b :: l, 0)

/-- `ReassemblyQueue::cnts`: the number of blocks and of bytes in them. -/
def cnts (l : List Block) : Int × Int := (l.length, total l)

/-- `ReassemblyQueue::nexthole`: the hole, and the count and bytes of the blocks above it. -/
def nexthole : List Block → Int → Int × Int × Int
  | [], _ => (-1, -1, -1)
  | p :: l, seq =>
      if p.start > seq then (seq, cnts (p :: l))
      else if seq ≤ p.stop then (p.stop, if l = [] then (-1, -1) else cnts l)
      else nexthole l seq

end SegList

end Afabric
