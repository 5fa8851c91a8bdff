import Afabric.Tcp.SegList

/-!
# Tcp — `ReassemblyQueue`, the pointer structure

The functions of `tcp/rq.cc`, on a heap that is one map for each field of `seginfo`.  Addresses are
natural numbers; a null pointer is `none`.  The queue threads its blocks on two doubly linked
lists, the FIFO in sequence order (`next`, `prev`, `head`, `tail`) and the LIFO in order of
insertion (`snext`, `sprev`, `top`, `bottom`), and recycles them through `freelist`.

A result of `none` is a call that does not return: `abort()`, a null pointer followed, or a
loop that is still going after as many rounds as there are nodes in the heap.  `RqRefines.lean`
shows that this never happens, and that the functions compute those of `SegList.lean`.
-/

namespace Afabric

/-- The link fields of the heap, the free list, and the ends of the two lists; `brk` is the
address `new` hands out next. -/
structure RqLinks where
  next : Nat → Option Nat
  prev : Nat → Option Nat
  snext : Nat → Option Nat
  sprev : Nat → Option Nat
  brk : Nat
  freelist : Option Nat
  head : Option Nat
  tail : Option Nat
  top : Option Nat
  bottom : Option Nat

/-- The members of a `ReassemblyQueue` and the heap of its nodes; `rcvNxt` is the integer that
`rcv_nxt_` refers to. -/
structure Rq extends RqLinks where
  startseq : Nat → Int
  endseq : Nat → Int
  pflags : Nat → TcpFlag
  rqflags : Nat → Int
  cnt : Nat → Int
  hint : Option Nat
  total : Int
  rcvNxt : Int

namespace Rq

/-! ### Nodes -/

/-- `newseginfo`: a node of the free list, or one fresh from the heap. -/
def newseginfo (s : Rq) : Nat × Rq :=
  match s.freelist with
  | some p => (p, { s with freelist := s.next p })
  | none => (s.brk, { s with brk := s.brk + 1 })

def deleteseginfo (s : Rq) (p : Nat) : Rq :=
  { s with next := Function.update s.next p s.freelist, freelist := some p }

/-- The hint does not survive the removal of its node. -/
def unhint (s : Rq) (p : Nat) : Rq := if s.hint = some p then { s with hint := none } else s

/-- `fremove`: unlink from the FIFO. -/
def fremove (s : Rq) (p : Nat) : Rq :=
  let s := s.unhint p
  let s := match s.prev p with
    | some y => { s with next := Function.update s.next y (s.next p) }
    | none => { s with head := s.next p }
  match s.next p with
  | some z => { s with prev := Function.update s.prev z (s.prev p) }
  | none => { s with tail := s.prev p }

/-- `sremove`: unlink from the LIFO. -/
def sremove (s : Rq) (p : Nat) : Rq :=
  let s := s.unhint p
  let s := match s.sprev p with
    | some y => { s with snext := Function.update s.snext y (s.snext p) }
    | none => { s with top := s.snext p }
  match s.snext p with
  | some z => { s with sprev := Function.update s.sprev z (s.sprev p) }
  | none => { s with bottom := s.sprev p }

/-- `push`: on the LIFO. -/
def push (s : Rq) (p : Nat) : Rq :=
  let s := { s with
    snext := Function.update s.snext p s.top
    sprev := Function.update s.sprev p none
    top := some p }
  match s.snext p with
  | some z => { s with sprev := Function.update s.sprev z (some p) }
  | none => { s with bottom := some p }

/-- `if (p) p->next_ = n; else head_ = n`. -/
def linkPrev (s : Rq) (p : Option Nat) (n : Nat) : Rq :=
  match p with
  | some p => { s with next := Function.update s.next p (some n) }
  | none => { s with head := some n }

/-- `if (q) q->prev_ = n; else tail_ = n`. -/
def linkNext (s : Rq) (q : Option Nat) (n : Nat) : Rq :=
  match q with
  | some q => { s with prev := Function.update s.prev q (some n) }
  | none => { s with tail := some n }

/-! ### `clear`, `clearto`, `nexthole` -/

/-- The loop of `clear`. -/
def clearLoop : Nat → Rq → Option Rq
  | 0, _ => none
  | n + 1, s =>
      match s.head with
      | none => some s
      | some p => clearLoop n (({ s with head := s.next p } : Rq).deleteseginfo p)

def clear (s : Rq) : Option Rq :=
  (clearLoop (s.brk + 1) { s with tail := none, top := none, bottom := none, hint := none }).map
    fun s => { s with tail := none, total := 0 }

/-- The loop of `clearto`, with the block it stops at. -/
def cleartoLoop (seq : Int) : Nat → Rq → Option Nat → TcpFlag → Option (Option Nat × TcpFlag × Rq)
  | 0, _, _, _ => none
  | _ + 1, s, none, flag => some (none, flag, s)
  | n + 1, s, some p, flag =>
      if s.endseq p ≤ seq then
        let q := s.next p
        let flag := flag ||| s.pflags p
        let s := { s with total := s.total - (s.endseq p - s.startseq p) }
        cleartoLoop seq n (((s.sremove p).fremove p).deleteseginfo p) q flag
      else some (some p, flag, s)

def clearto (s : Rq) (seq : Int) : Option (TcpFlag × Rq) := do
  let (p, flag, s) ← cleartoLoop seq (s.brk + 1) s s.head 0
  match p with
  | some p =>
      -- we might be trimming in the middle
      if s.startseq p ≤ seq ∧ s.endseq p > seq then
        some (flag ||| s.pflags p,
          { s with
            total := s.total - (seq - s.startseq p)
            startseq := Function.update s.startseq p seq })
      else some (flag, s)
  | none => some (flag, s)

/-- `cnts`: the number of blocks from a node on, and of bytes in them. -/
def cntsLoop (s : Rq) : Nat → Option Nat → Int → Int → Option (Int × Int)
  | 0, _, _, _ => none
  | _ + 1, none, blks, bytes => some (blks, bytes)
  | n + 1, some p, blks, bytes =>
      cntsLoop s n (s.next p) (blks + 1) (bytes + (s.endseq p - s.startseq p))

def cnts (s : Rq) (p : Option Nat) : Option (Int × Int) := cntsLoop s (s.brk + 1) p 0 0

/-- The loop of `nexthole`. -/
def nextholeLoop (s : Rq) (seq : Int) : Nat → Option Nat → Option (Int × Int × Int)
  | 0, _ => none
  | _ + 1, none => some (-1, -1, -1)
  | n + 1, some p =>
      if s.startseq p > seq then (s.cnts (some p)).map fun c => (seq, c)
      else if s.endseq p ≥ seq then
        match s.next p with
        | some r => (s.cnts (some r)).map fun c => (s.endseq p, c)
        | none => some (s.endseq p, -1, -1)
      else nextholeLoop s seq n (s.next p)

/-- `nexthole`: the hole, and the count and bytes of the blocks above it. -/
def nexthole (s : Rq) (seq : Int) : Option ((Int × Int × Int) × Rq) :=
  let s := { s with hint := s.head }
  (nextholeLoop s seq (s.brk + 1) s.hint).map fun r => (r, s)

/-! ### `coalesce` -/

/-- The new block fills the hole between `p` and `q`: it and the block after are deleted. -/
def fillHole (s : Rq) (p n q : Nat) : Rq :=
  let s := (((s.sremove n).fremove n).sremove q).fremove q
  let s := { s with endseq := Function.update s.endseq p (s.endseq q) }
  let s := { s with cnt := Function.update s.cnt p (s.cnt p + (s.cnt n + s.cnt q)) }
  let s := { s with pflags := Function.update s.pflags p (s.pflags p ||| s.pflags n) }
  (s.deleteseginfo n).deleteseginfo q

/-- The new block joins `p`, but not `q`. -/
def joinPrev (s : Rq) (p n : Nat) : Rq :=
  let s := (s.sremove n).fremove n
  let s := { s with endseq := Function.update s.endseq p (s.endseq n) }
  let s := { s with pflags := Function.update s.pflags p (s.pflags p ||| s.pflags n) }
  let s := { s with cnt := Function.update s.cnt p (s.cnt p + s.cnt n) }
  s.deleteseginfo n

/-- The new block joins `q`, but not `p`. -/
def joinNext (s : Rq) (n q : Nat) : Rq :=
  let s := (s.sremove n).fremove n
  let s := { s with startseq := Function.update s.startseq q (s.startseq n) }
  let s := { s with pflags := Function.update s.pflags q (s.pflags q ||| s.pflags n) }
  let s := { s with cnt := Function.update s.cnt q (s.cnt q + s.cnt n) }
  s.deleteseginfo n

/-- If the block `p` advances the highest in-sequence value, `rcv_nxt_` moves to its end. -/
def advance (s : Rq) (flags : TcpFlag) (p : Nat) : TcpFlag × Rq :=
  (flags, if s.rcvNxt ≥ s.startseq p then { s with rcvNxt := s.endseq p } else s)

def coalesce (s : Rq) (p : Option Nat) (n : Nat) (q : Option Nat) : Option (TcpFlag × Rq) :=
  match p.filter (fun p => s.endseq p = s.startseq n),
      q.filter (fun q => s.endseq n = s.startseq q) with
  | some p, some q =>
      let s := s.fillHole p n q
      some (s.advance (s.pflags p) p)
  | some p, none =>
      let s := s.joinPrev p n
      some (s.advance (s.pflags p) p)
  | none, some q =>
      let s := s.joinNext n q
      some (s.advance (s.pflags q) q)
  | none, none => p.map (s.advance 0)

/-! ### `add` -/

/-- `while (q && q->startseq_ < end) q = q->next_`. -/
def searchAfter (s : Rq) (stop : Int) : Nat → Option Nat → Option (Option Nat)
  | 0, _ => none
  | _ + 1, none => some none
  | n + 1, some q => if s.startseq q < stop then searchAfter s stop n (s.next q) else some (some q)

/-- `while (p && p->endseq_ > start) p = p->prev_`. -/
def searchBefore (s : Rq) (start : Int) : Nat → Option Nat → Option (Option Nat)
  | 0, _ => none
  | _ + 1, none => some none
  | n + 1, some p => if s.endseq p > start then searchBefore s start n (s.prev p) else some (some p)

/-- How the loop over the overlapped blocks ends: at an exact duplicate, or with all completely
overlapped blocks removed. -/
inductive Killed where
  | dup (flags : TcpFlag) (s : Rq)
  | rest (s : Rq) (tiflags : TcpFlag) (initcnt : Int) (altered : Bool)

/-- The loop that kills anything completely overlapped, from `r` up to `q`. -/
def kill (start stop : Int) (q : Option Nat) :
    Nat → Rq → Option Nat → TcpFlag → Int → Bool → Option Killed
  | 0, _, _, _, _, _ => none
  | _ + 1, s, none, tiflags, initcnt, altered => some (.rest s tiflags initcnt altered)
  | fuel + 1, s, some r, tiflags, initcnt, altered =>
      if some r = q then some (.rest s tiflags initcnt altered)
      else if start = s.startseq r ∧ stop = s.endseq r then
        -- exact overlap
        let s := { s with pflags := Function.update s.pflags r (s.pflags r ||| tiflags) }
        some (.dup (s.pflags r) s)
      else if start ≤ s.startseq r ∧ stop ≥ s.endseq r then
        -- complete overlap, not exact
        let s := { s with total := s.total - (s.endseq r - s.startseq r) }
        kill start stop q fuel (((s.fremove r).sremove r).deleteseginfo r) (s.next r)
          (tiflags ||| s.pflags r) (initcnt + s.cnt r) true
      else kill start stop q fuel s (s.next r) tiflags initcnt altered

/-- The local variables of `add` while it merges. -/
structure Cut where
  s : Rq
  start : Int
  stop : Int
  p : Option Nat
  q : Option Nat
  needmerge : Bool
  initcnt : Int

/-- The left-side merge with the block `p`: its start may move down, and the segment now starts
at its end. -/
def Cut.joinLeft (c : Cut) (tiflags : TcpFlag) (p : Nat) : Cut :=
  let s := c.s
  let s := if c.start < s.startseq p then
      { s with
        total := s.total + (s.startseq p - c.start)
        startseq := Function.update s.startseq p c.start }
    else s
  let s := { s with
    pflags := Function.update s.pflags p (s.pflags p ||| tiflags)
    cnt := Function.update s.cnt p (s.cnt p + 1) }
  { c with s, start := s.endseq p, p := some p, needmerge := true, initcnt := c.initcnt - 1 }

/-- The right-side merge with the block `q`: its end may move up, and the segment now ends at
its start.  `q->cnt_` stays, for `needmerge` is set before it is tested. -/
def Cut.joinRight (c : Cut) (tiflags : TcpFlag) (q : Nat) : Cut :=
  let s := c.s
  let s := if c.stop > s.endseq q then
      { s with
        total := s.total + (c.stop - s.endseq q)
        endseq := Function.update s.endseq q c.stop }
    else s
  let s := { s with pflags := Function.update s.pflags q (s.pflags q ||| tiflags) }
  { c with s, stop := s.startseq q, q := some q, needmerge := true }

def Cut.leftMerge (c : Cut) (tiflags : TcpFlag) : Option Cut :=
  match c.p with
  | none => c.s.head.map (c.joinLeft tiflags)
  | some p => do
      let y ← c.s.next p
      if c.s.startseq y < c.start then some (c.joinLeft tiflags y) else some c

def Cut.rightMerge (c : Cut) (tiflags : TcpFlag) : Option Cut :=
  match c.q with
  | none => c.s.tail.map (c.joinRight tiflags)
  | some q => do
      let z ← c.s.prev q
      if c.s.endseq z > c.stop then some (c.joinRight tiflags z) else some c

/-- A new block between `p` and `q`, at the top of the LIFO. -/
def Cut.insertSeg (c : Cut) (tiflags : TcpFlag) (rqflags : Int) : Nat × Rq :=
  let (n, s) := c.s.newseginfo
  let s := { s with
    startseq := Function.update s.startseq n c.start
    endseq := Function.update s.endseq n c.stop
    pflags := Function.update s.pflags n tiflags
    rqflags := Function.update s.rqflags n rqflags
    cnt := Function.update s.cnt n c.initcnt
    prev := Function.update s.prev n c.p
    next := Function.update s.next n c.q }
  let s := ((s.push n).linkPrev c.p n).linkNext c.q n
  (n, { s with total := s.total + (c.stop - c.start) })

/-- What follows the label `endfast`. -/
def endfast (c : Cut) (tiflags : TcpFlag) (rqflags : Int) : Option (TcpFlag × Rq) :=
  let (n, s) := c.insertSeg tiflags rqflags
  if c.needmerge then s.coalesce c.p n c.q
  else some (tiflags, if s.rcvNxt ≥ c.start then { s with rcvNxt := c.stop } else s)

/-- The merges, once nothing is completely overlapped. -/
def mergeSides (c : Cut) (tiflags : TcpFlag) (rqflags : Int) : Option (TcpFlag × Rq) := do
  let c ← c.leftMerge tiflags
  let c ← c.rightMerge tiflags
  if c.stop ≤ c.start then c.s.head.map (c.s.advance tiflags)
  else if c.needmerge then endfast c tiflags rqflags
  else
    -- the segment fits between two adjacent blocks
    let p ← c.p
    let q ← c.q
    endfast { c with
      needmerge := c.s.next p = some q ∧ c.s.endseq p ≤ c.start ∧ c.s.startseq q ≥ c.stop ∧
        (c.s.endseq p = c.start ∨ c.s.startseq q = c.stop) } tiflags rqflags

/-- What follows the label `again2`, on a queue that is not empty. -/
def again2 (start stop : Int) (rqflags : Int) :
    Nat → Rq → TcpFlag → Int → Option (TcpFlag × Rq)
  | 0, _, _, _ => none
  | fuel + 1, s, tiflags, initcnt => do
      let h ← s.head
      let t ← s.tail
      if start ≥ s.endseq t then
        -- at tail, no overlap
        endfast ⟨s, start, stop, some t, none, start = s.endseq t, initcnt⟩ tiflags rqflags
      else if stop ≤ s.startseq h then
        -- at head, no overlap
        endfast ⟨s, start, stop, none, some h, stop = s.startseq h, initcnt⟩ tiflags rqflags
      else
        let q ← s.searchAfter stop (s.brk + 1) s.head
        let p ← s.searchBefore start (s.brk + 1) s.tail
        match ← kill start stop q (s.brk + 1) s (p.or s.head) tiflags initcnt false with
        | .dup flags s => some (flags, s)
        | .rest s tiflags initcnt altered =>
            if s.head = none then endfast ⟨s, start, stop, p, q, false, initcnt⟩ tiflags rqflags
            else if altered then again2 start stop rqflags fuel s tiflags initcnt
            else mergeSides ⟨s, start, stop, p, q, false, initcnt⟩ tiflags rqflags

def add (s : Rq) (start stop : Int) (tiflags : TcpFlag) (rqflags : Int) :
    Option (TcpFlag × Rq) :=
  if stop < start then none
  else if s.head = none then
    if s.top ≠ none then none
    else
      -- nobody there, just insert this one
      let (n, s) := s.newseginfo
      let s := { s with
        tail := some n, head := some n, top := some n, bottom := some n
        prev := Function.update s.prev n none
        next := Function.update s.next n none
        snext := Function.update s.snext n none
        sprev := Function.update s.sprev n none
        startseq := Function.update s.startseq n start
        endseq := Function.update s.endseq n stop
        pflags := Function.update s.pflags n tiflags
        rqflags := Function.update s.rqflags n rqflags
        cnt := Function.update s.cnt n 1
        total := stop - start }
      some (tiflags, if s.rcvNxt ≥ start then { s with rcvNxt := stop } else s)
  else again2 start stop rqflags (s.brk + 2) s tiflags 1

end Rq

end Afabric
