import Afabric.Support.Links
import Afabric.Tcp.ReassemblyQueue
import Afabric.Tcp.SegListSpec

/-!
# Tcp — the representation of the reassembly queue

`Rep k L S F` reads the links: `L` is the FIFO, `S` the LIFO with the same nodes, and `F` the
free list, apart from both.  `Holds s L` adds that `total_` counts the bytes.  Here are the
primitive operations that keep it: a block is removed (`Holds.remove`), one is inserted and
pushed (`insertSeg_spec`), neighbours are coalesced (`coalesce_spec`), the two searches and the
loop that kills overlapped blocks (`kill_spec`).  `RqRefines.lean` puts them together.
-/

namespace Afabric

/-- The nodes of the two lists and of the free list. -/
structure Rep (k : RqLinks) (L S F : List Nat) : Prop where
  fifo : DLL k.next k.prev k.head k.tail L
  lifo : DLL k.snext k.sprev k.top k.bottom S
  perm : S.Perm L
  free : SLL k.next k.freelist F
  free_nodup : F.Nodup
  apart : ∀ x ∈ L, x ∉ F
  bound : ∀ x, x ∈ L ∨ x ∈ F → x < k.brk

namespace Rq

variable {s : Rq} {A B L S F : List Nat} {p : Nat}

/-! ### Removal -/

/-- `s` with the node `p` unlinked from both lists. -/
def detach (s : Rq) (p : Nat) : Rq :=
  { s with
    hint := if s.hint = some p then none else s.hint
    next := setLink s.next (s.prev p) (s.next p)
    prev := setLink s.prev (s.next p) (s.prev p)
    head := if s.prev p = none then s.next p else s.head
    tail := if s.next p = none then s.prev p else s.tail
    snext := setLink s.snext (s.sprev p) (s.snext p)
    sprev := setLink s.sprev (s.snext p) (s.sprev p)
    top := if s.sprev p = none then s.snext p else s.top
    bottom := if s.snext p = none then s.sprev p else s.bottom }

theorem fremove_eq (h : s.prev p ≠ some p) : s.fremove p =
    { s with
      hint := if s.hint = some p then none else s.hint
      next := setLink s.next (s.prev p) (s.next p)
      prev := setLink s.prev (s.next p) (s.prev p)
      head := if s.prev p = none then s.next p else s.head
      tail := if s.next p = none then s.prev p else s.tail } := by
  have hu : s.unhint p = { s with hint := if s.hint = some p then none else s.hint } := by
    unfold unhint; split <;> rfl
  simp only [fremove, hu]
  cases hp : s.prev p with
  | none => cases hn : s.next p <;> simp [hp]
  | some y =>
      have hy : p ≠ y := fun e => h (by rw [hp, e])
      cases hn : s.next p <;> simp [Function.update_of_ne hy, hn, hp]

theorem sremove_eq (h : s.sprev p ≠ some p) : s.sremove p =
    { s with
      hint := if s.hint = some p then none else s.hint
      snext := setLink s.snext (s.sprev p) (s.snext p)
      sprev := setLink s.sprev (s.snext p) (s.sprev p)
      top := if s.sprev p = none then s.snext p else s.top
      bottom := if s.snext p = none then s.sprev p else s.bottom } := by
  have hu : s.unhint p = { s with hint := if s.hint = some p then none else s.hint } := by
    unfold unhint; split <;> rfl
  simp only [sremove, hu]
  cases hp : s.sprev p with
  | none => cases hn : s.snext p <;> simp [hp]
  | some y =>
      have hy : p ≠ y := fun e => h (by rw [hp, e])
      cases hn : s.snext p <;> simp [Function.update_of_ne hy, hn, hp]

theorem fremove_sremove (h : s.prev p ≠ some p) (hs : s.sprev p ≠ some p) :
    (s.sremove p).fremove p = s.detach p := by
  rw [sremove_eq hs, fremove_eq]
  · simp only [detach]
    split <;> simp_all
  · exact h

theorem sremove_fremove (h : s.prev p ≠ some p) (hs : s.sprev p ≠ some p) :
    (s.fremove p).sremove p = s.detach p := by
  rw [fremove_eq h, sremove_eq]
  · simp only [detach]
    split <;> simp_all
  · exact hs

end Rq

open Rq

section Rep

variable {s : Rq} {k : RqLinks} {A B L S F : List Nat} {p n : Nat}

theorem DLL.prev_ne {nxt prv : Nat → Option Nat} {hd tl : Option Nat}
    (h : DLL nxt prv hd tl (A ++ p :: B)) : prv p ≠ some p := by
  rw [h.links.2]
  exact fun e => h.not_mem.1 (List.mem_of_mem_getLast? e)

/-- Changing the link of a node of `L` does not disturb the free list. -/
theorem Rep.free_setLink (h : Rep k L S F) {q v : Option Nat} (hq : ∀ y, q = some y → y ∈ L) :
    SLL (setLink k.next q v) k.freelist F :=
  h.free.congr fun x hx => setLink_of_ne fun e => h.apart x (hq x e) hx

theorem Rep.detach (h : Rep s.toRqLinks (A ++ p :: B) S F) :
    ∃ S', Rep (s.detach p).toRqLinks (A ++ B) S' F := by
  have hp : p ∈ S := h.perm.mem_iff.mpr (by simp)
  obtain ⟨S₁, S₂, rfl⟩ := List.append_of_mem hp
  refine ⟨S₁ ++ S₂, h.fifo.unlink, h.lifo.unlink, ?_, ?_, h.free_nodup, ?_, ?_⟩
  · have := List.perm_middle.symm.trans (h.perm.trans List.perm_middle)
    exact this.cons_inv
  · refine h.free_setLink fun y hy => ?_
    rw [h.fifo.links.2] at hy
    exact List.mem_append_left _ (List.mem_of_mem_getLast? hy)
  · exact fun x hx => h.apart x (by simp at hx ⊢; tauto)
  · exact fun x hx => h.bound x (by simp at hx ⊢; tauto)

theorem Rep.delete (h : Rep s.toRqLinks L S F) (hL : p ∉ L) (hF : p ∉ F) (hb : p < s.brk) :
    Rep (s.deleteseginfo p).toRqLinks L S (p :: F) := by
  have hne : ∀ x ∈ L, x ≠ p := fun x hx e => hL (e ▸ hx)
  have hneF : ∀ x ∈ F, x ≠ p := fun x hx e => hF (e ▸ hx)
  refine ⟨?_, h.lifo, h.perm, ⟨rfl, ?_⟩, List.nodup_cons.mpr ⟨hF, h.free_nodup⟩, ?_, ?_⟩
  · exact h.fifo.congr (fun x hx => Function.update_of_ne (hne x hx) _ _) fun _ _ => rfl
  · have : (s.deleteseginfo p).next p = s.freelist := Function.update_self ..
    rw [this]
    exact h.free.congr fun x hx => Function.update_of_ne (hneF x hx) _ _
  · intro x hx
    rw [List.mem_cons, not_or]
    exact ⟨hne x hx, h.apart x hx⟩
  · rintro x (hx | hx)
    · exact h.bound x (.inl hx)
    · rcases List.mem_cons.mp hx with rfl | hx
      · exact hb
      · exact h.bound x (.inr hx)

/-- A node that has been unlinked and recycled. -/
theorem Rep.remove (h : Rep s.toRqLinks (A ++ p :: B) S F) :
    ∃ S', Rep ((s.detach p).deleteseginfo p).toRqLinks (A ++ B) S' (p :: F) := by
  obtain ⟨S', h'⟩ := h.detach
  refine ⟨S', h'.delete ?_ ?_ ?_⟩
  · have := h.fifo.not_mem
    simpa using this
  · exact h.apart p (by simp)
  · exact h.bound p (by simp)

theorem Rep.prev_ne (h : Rep s.toRqLinks (A ++ p :: B) S F) :
    s.prev p ≠ some p ∧ s.sprev p ≠ some p := by
  have hp : p ∈ S := h.perm.mem_iff.mpr (by simp)
  obtain ⟨S₁, S₂, rfl⟩ := List.append_of_mem hp
  exact ⟨h.fifo.prev_ne, h.lifo.prev_ne⟩

theorem Rep.length_le (h : Rep k L S F) : L.length ≤ k.brk := by
  have hsub : L ⊆ List.range k.brk := fun x hx => List.mem_range.mpr (h.bound x (.inl hx))
  simpa using (h.fifo.nodup.subperm hsub).length_le

/-! ### Insertion -/

/-- `newseginfo` gives a node that is in neither list. -/
theorem Rep.newseginfo (h : Rep s.toRqLinks L S F) :
    ∃ n f b F', s.newseginfo = (n, { s with freelist := f, brk := b }) ∧
      Rep { s.toRqLinks with freelist := f, brk := b } L S F' ∧ n ∉ L ∧ n ∉ F' ∧ n < b := by
  cases hf : s.freelist with
  | none =>
      refine ⟨s.brk, none, s.brk + 1, F, by rw [Rq.newseginfo, hf], ?_, ?_, ?_, by omega⟩
      · refine ⟨h.fifo, h.lifo, h.perm, hf ▸ h.free, h.free_nodup, h.apart, fun x hx => ?_⟩
        exact Nat.lt_succ_of_lt (h.bound x hx)
      · exact fun hx => absurd (h.bound _ (.inl hx)) (Nat.lt_irrefl _)
      · exact fun hx => absurd (h.bound _ (.inr hx)) (Nat.lt_irrefl _)
  | some p =>
      have hfree := h.free
      cases F with
      | nil =>
          have : s.freelist = none := hfree
          simp [this] at hf
      | cons q F =>
          obtain ⟨hq, hF⟩ := hfree
          obtain rfl : p = q := by simpa [hf] using hq
          have hnd := List.nodup_cons.mp h.free_nodup
          refine ⟨p, s.next p, s.brk, F, by rw [Rq.newseginfo, hf], ?_, ?_, hnd.1, ?_⟩
          · refine ⟨h.fifo, h.lifo, h.perm, hF, hnd.2, fun x hx => ?_, fun x hx => ?_⟩
            · exact fun hxF => h.apart x hx (by simp [hxF])
            · exact h.bound x (by simp; tauto)
          · exact fun hx => h.apart p hx (by simp)
          · exact h.bound p (by simp)

/-- The links after a node has been placed between `A` and `B` and pushed on the LIFO. -/
theorem Rep.insert (h : Rep k (A ++ B) S F) (hL : n ∉ A ++ B) (hF : n ∉ F) (hb : n < k.brk) :
    Rep { k with
      next := setLink (Function.update k.next n B.head?) A.getLast? (some n)
      prev := setLink (Function.update k.prev n A.getLast?) B.head? (some n)
      head := if A.getLast? = none then some n else k.head
      tail := if B.head? = none then some n else k.tail
      snext := Function.update k.snext n k.top
      sprev := setLink (Function.update k.sprev n none) k.top (some n)
      top := some n
      bottom := if k.top = none then some n else k.bottom } (A ++ n :: B) (n :: S) F := by
  have hne : ∀ x ∈ A ++ B, x ≠ n := fun x hx e => hL (e ▸ hx)
  have hneF : ∀ x ∈ F, x ≠ n := fun x hx e => hF (e ▸ hx)
  have hnS : n ∉ S := fun hx => hL (h.perm.mem_iff.mp hx)
  have hneS : ∀ x ∈ S, x ≠ n := fun x hx e => hnS (e ▸ hx)
  refine ⟨?_, ?_, ?_, ?_, h.free_nodup, ?_, ?_⟩
  · have hfifo : DLL (Function.update k.next n B.head?) (Function.update k.prev n A.getLast?)
        k.head k.tail (A ++ B) :=
      h.fifo.congr (fun x hx => Function.update_of_ne (hne x hx) _ _)
        fun x hx => Function.update_of_ne (hne x hx) _ _
    exact hfifo.insert hL (by simp) (by simp)
  · have htop := h.lifo.head_eq
    have hlifo : DLL (Function.update k.snext n k.top) (Function.update k.sprev n none)
        k.top k.bottom ([] ++ S) :=
      h.lifo.congr (fun x hx => Function.update_of_ne (hneS x hx) _ _)
        fun x hx => Function.update_of_ne (hneS x hx) _ _
    have hins := hlifo.insert hnS (by simpa using htop) (by simp)
    simpa [← htop] using hins
  · exact (h.perm.cons n).trans List.perm_middle.symm
  · refine SLL.congr (fun x hx => ?_) h.free
    have hx' : A.getLast? ≠ some x := fun e =>
      h.apart x (List.mem_append_left _ (List.mem_of_mem_getLast? e)) hx
    exact (setLink_of_ne hx').trans (Function.update_of_ne (hneF x hx) _ _)
  · intro x hx
    rcases List.mem_append.mp hx with hx | hx
    · exact h.apart x (by simp [hx])
    · rcases List.mem_cons.mp hx with rfl | hx
      · exact hF
      · exact h.apart x (by simp [hx])
  · intro x hx
    by_cases hxn : x = n
    · exact hxn ▸ hb
    · exact h.bound x (by simp at hx ⊢; tauto)

end Rep

/-! ### Queues that hold a list of nodes -/

/-- A node as a block. -/
def Rq.blk (s : Rq) (p : Nat) : Block := ⟨s.startseq p, s.endseq p, s.pflags p⟩

/-- The FIFO is `L`, the links are in order, and `total_` counts the bytes. -/
structure Holds (s : Rq) (L : List Nat) : Prop where
  rep : ∃ S F, Rep s.toRqLinks L S F
  total : s.total = SegList.total (L.map s.blk)

namespace Holds

variable {s : Rq} {A B L : List Nat} {p n : Nat}

theorem fifo (h : Holds s L) : DLL s.next s.prev s.head s.tail L := by
  obtain ⟨S, F, h⟩ := h.rep
  exact h.fifo

theorem length_lt (h : Holds s L) : L.length < s.brk + 1 := by
  obtain ⟨S, F, h⟩ := h.rep
  exact Nat.lt_succ_of_le h.length_le

end Holds

/-- A block is unlinked and recycled, and its bytes are taken off the total. -/
def Rq.remove (s : Rq) (p : Nat) : Rq :=
  (({ s with total := s.total - (s.endseq p - s.startseq p) } : Rq).detach p).deleteseginfo p

/-- `clearto` unlinks in one order. -/
theorem Holds.remove_eq {s : Rq} {A B : List Nat} {p : Nat} (h : Holds s (A ++ p :: B)) :
    ((({ s with total := s.total - (s.endseq p - s.startseq p) } : Rq).sremove p).fremove
      p).deleteseginfo p = s.remove p := by
  obtain ⟨S, F, hr⟩ := h.rep
  obtain ⟨h₁, h₂⟩ := hr.prev_ne
  rw [fremove_sremove]
  · rfl
  · exact h₁
  · exact h₂

/-- `add` unlinks in the other. -/
theorem Holds.remove_eq' {s : Rq} {A B : List Nat} {p : Nat} (h : Holds s (A ++ p :: B)) :
    ((({ s with total := s.total - (s.endseq p - s.startseq p) } : Rq).fremove p).sremove
      p).deleteseginfo p = s.remove p := by
  obtain ⟨S, F, hr⟩ := h.rep
  obtain ⟨h₁, h₂⟩ := hr.prev_ne
  rw [sremove_fremove]
  · rfl
  · exact h₁
  · exact h₂

theorem Holds.remove {s : Rq} {A B : List Nat} {p : Nat} (h : Holds s (A ++ p :: B)) :
    Holds (s.remove p) (A ++ B) := by
  obtain ⟨S, F, hr⟩ := h.rep
  obtain ⟨S', hr'⟩ := hr.remove
  refine ⟨⟨S', _, hr'⟩, ?_⟩
  have ht := h.total
  have hb : (s.remove p).blk = s.blk := rfl
  have htot : (s.remove p).total = s.total - ((s.blk p).stop - (s.blk p).start) := rfl
  rw [hb, htot]
  simp only [List.map_append, List.map_cons, SegList.total, span_append, span_cons] at ht ⊢
  omega

/-! ### Searching -/

theorem searchAfter_spec {s : Rq} {hd tl : Option Nat} {stop : Int} {P X Y : List Nat}
    (h : DLL s.next s.prev hd tl (P ++ (X ++ Y))) (hX : ∀ x ∈ X, s.startseq x < stop)
    (hY : ∀ y ∈ Y, stop ≤ s.startseq y) {fuel : Nat} (hf : X.length < fuel) :
    s.searchAfter stop fuel (X ++ Y).head? = some Y.head? := by
  induction X generalizing P fuel with
  | nil =>
      obtain ⟨fuel, rfl⟩ := Nat.exists_eq_add_of_lt hf
      cases Y with
      | nil => simp [searchAfter]
      | cons y Y =>
          have := hY y (by simp)
          simp [searchAfter, not_lt.mpr this]
  | cons x X ih =>
      rw [List.cons_append] at h
      obtain ⟨fuel, rfl⟩ := exists_fuel hf
      have hx := hX x (by simp)
      have hnext := h.links.1
      rw [List.cons_append, List.head?_cons, searchAfter, if_pos hx, hnext]
      refine ih (P := P ++ [x]) (by simpa using h) (fun y hy => hX y (by simp [hy])) ?_
      simpa using hf

theorem searchBefore_spec {s : Rq} {hd tl : Option Nat} {start : Int} {X Y P : List Nat}
    (h : DLL s.next s.prev hd tl (X ++ Y ++ P)) (hX : ∀ x ∈ X, s.endseq x ≤ start)
    (hY : ∀ y ∈ Y, start < s.endseq y) {fuel : Nat} (hf : Y.length < fuel) :
    s.searchBefore start fuel (X ++ Y).getLast? = some X.getLast? := by
  induction Y using List.reverseRecOn generalizing P fuel with
  | nil =>
      obtain ⟨fuel, rfl⟩ := exists_fuel hf
      rw [List.append_nil]
      cases hl : X.getLast? with
      | none => rfl
      | some x =>
          have := hX x (List.mem_of_mem_getLast? hl)
          rw [searchBefore, if_neg (by omega)]
  | append_singleton Y y ih =>
      obtain ⟨fuel, rfl⟩ := exists_fuel hf
      have he : X ++ (Y ++ [y]) ++ P = X ++ Y ++ y :: P := by simp
      rw [he] at h
      have hy := hY y (by simp)
      have hprev := h.links.2
      rw [← List.append_assoc, List.getLast?_concat, searchBefore, if_pos hy, hprev]
      exact ih h (fun z hz => hY z (by simp [hz])) (by simpa using hf)

/-! ### Killing what is overlapped -/

section Kill

variable {s : Rq} {start stop : Int} {P W B : List Nat} {r : Nat} {q : Option Nat} {fuel : Nat}

/-- The loop stops at an exact duplicate, whatever it passes before. -/
theorem kill_dup (h : DLL s.next s.prev s.head s.tail (P ++ (W ++ r :: B)))
    (hW : ∀ w ∈ W, ¬ SegList.Covers start stop (s.blk w)) (hr : start = s.startseq r)
    (hr' : stop = s.endseq r) (hq : ∀ w ∈ W ++ [r], q ≠ some w) (hf : W.length < fuel)
    (ti : TcpFlag) (c : Int) (alt : Bool) :
    kill start stop q fuel s (W ++ r :: B).head? ti c alt =
      some (.dup (s.pflags r ||| ti)
        { s with pflags := Function.update s.pflags r (s.pflags r ||| ti) }) := by
  induction W generalizing P fuel with
  | nil =>
      obtain ⟨fuel, rfl⟩ := exists_fuel hf
      have hqr := hq r (by simp)
      simp only [List.nil_append, List.head?_cons, kill]
      rw [if_neg hqr.symm, if_pos ⟨hr, hr'⟩, Function.update_self]
  | cons w W ih =>
      obtain ⟨fuel, rfl⟩ := exists_fuel hf
      rw [List.cons_append] at h
      have hqw := hq w (by simp)
      have hnc : ¬ (start ≤ s.startseq w ∧ stop ≥ s.endseq w) := hW w (by simp)
      have hnext := h.links.1
      rw [List.cons_append, List.head?_cons, kill, if_neg hqw.symm,
        if_neg fun e => hnc ⟨e.1.le, e.2.ge⟩, if_neg hnc, hnext]
      refine ih (P := P ++ [w]) (by simpa using h) (fun x hx => hW x (by simp [hx]))
        (fun x hx => hq x (by simp at hx ⊢; tauto)) (by simpa using hf)

variable (start stop fuel) in
/-- Without an exact duplicate the loop removes the covered blocks and collects their flags. -/
theorem kill_spec (h : Holds s (P ++ (W ++ B)))
    (hW : ∀ w ∈ W, ¬ (start = s.startseq w ∧ stop = s.endseq w)) (hf : W.length < fuel)
    (ti : TcpFlag) (c : Int) (alt : Bool) :
    ∃ s' c', kill start stop B.head? fuel s (W ++ B).head? ti c alt =
        some (.rest s' (ti ||| SegList.orFlags ((W.map s.blk).filter (SegList.Covers start stop)))
          c' (alt || W.any fun w => SegList.Covers start stop (s.blk w))) ∧
      Holds s' (P ++ (W.filter (fun w => ¬ SegList.Covers start stop (s.blk w)) ++ B)) ∧
      s'.blk = s.blk ∧ s'.rcvNxt = s.rcvNxt := by
  induction W generalizing s P fuel ti c alt with
  | nil =>
      obtain ⟨fuel, rfl⟩ := exists_fuel hf
      refine ⟨s, c, ?_, by simpa using h, rfl, rfl⟩
      cases B with
      | nil => simp [kill]
      | cons b B => simp [kill]
  | cons w W ih =>
      obtain ⟨fuel, rfl⟩ := exists_fuel hf
      rw [List.cons_append] at h
      have hlen : W.length < fuel := by simpa using hf
      have hW' : ∀ x ∈ W, ¬ (start = s.startseq x ∧ stop = s.endseq x) :=
        fun x hx => hW x (by simp [hx])
      -- `q` is behind every node of `W`
      have hqw : some w ≠ B.head? := fun e =>
        h.fifo.not_mem.2 (List.mem_append_right _ (List.mem_of_mem_head? e.symm))
      have hnext := h.fifo.links.1
      rw [List.cons_append, List.head?_cons, kill, if_neg hqw, if_neg (hW w (by simp))]
      by_cases hc : start ≤ s.startseq w ∧ stop ≥ s.endseq w
      · have hcov : SegList.Covers start stop (s.blk w) := hc
        rw [if_pos hc]
        dsimp only
        rw [h.remove_eq', hnext]
        obtain ⟨s', c', h₁, h₂, h₃⟩ :=
          ih _ h.remove hW' hlen (ti ||| s.pflags w) (c + s.cnt w) true
        refine ⟨s', c', ?_, ?_, h₃⟩
        · have hf : (s.blk w).flags = s.pflags w := rfl
          have hb : (s.remove w).blk = s.blk := rfl
          simpa [hcov, hf, hb, BitVec.or_assoc] using h₁
        · have hb : (s.remove w).blk = s.blk := rfl
          simpa [hcov, hb] using h₂
      · have hcov : ¬ SegList.Covers start stop (s.blk w) := hc
        rw [if_neg hc, hnext]
        obtain ⟨s', c', h₁, h₂, h₃⟩ :=
          ih _ (P := P ++ [w]) (by simpa using h) hW' hlen ti c alt
        refine ⟨s', c', ?_, ?_, h₃⟩
        · simpa [hcov] using h₁
        · simpa [hcov] using h₂

end Kill

/-! ### Insertion and coalescing -/

theorem Rq.blk_update_of_notMem {s : Rq} {n : Nat} {L : List Nat} (h : n ∉ L) (a b : Int)
    (f : TcpFlag) :
    L.map (fun x => (⟨Function.update s.startseq n a x, Function.update s.endseq n b x,
      Function.update s.pflags n f x⟩ : Block)) = L.map s.blk := by
  refine List.map_congr_left fun x hx => ?_
  have hne : x ≠ n := fun e => h (e ▸ hx)
  simp [Function.update_of_ne hne, blk]

theorem push_eq (s : Rq) (n : Nat) : s.push n =
    { s with
      snext := Function.update s.snext n s.top
      sprev := setLink (Function.update s.sprev n none) s.top (some n)
      top := some n
      bottom := if s.top = none then some n else s.bottom } := by
  simp only [push, Function.update_self]
  cases s.top <;> rfl

theorem linkPrev_eq (s : Rq) (p : Option Nat) (n : Nat) : s.linkPrev p n =
    { s with
      next := setLink s.next p (some n)
      head := if p = none then some n else s.head } := by
  cases p <;> rfl

theorem linkNext_eq (s : Rq) (q : Option Nat) (n : Nat) : s.linkNext q n =
    { s with
      prev := setLink s.prev q (some n)
      tail := if q = none then some n else s.tail } := by
  cases q <;> rfl

theorem insertSeg_spec {c : Cut} {A B : List Nat} (h : Holds c.s (A ++ B)) (hp : c.p = A.getLast?)
    (hq : c.q = B.head?) (ti : TcpFlag) (rqf : Int) :
    ∃ n s, c.insertSeg ti rqf = (n, s) ∧ Holds s (A ++ n :: B) ∧
      A.map s.blk = A.map c.s.blk ∧ B.map s.blk = B.map c.s.blk ∧
      s.blk n = ⟨c.start, c.stop, ti⟩ ∧ s.rcvNxt = c.s.rcvNxt := by
  obtain ⟨s, start, stop, p, q, nm, ic⟩ := c
  obtain rfl : p = A.getLast? := hp
  obtain rfl : q = B.head? := hq
  dsimp only at *
  obtain ⟨S, F, hr⟩ := h.rep
  obtain ⟨n, f, b, F', hn, hrep, hnL, hnF, hnb⟩ := hr.newseginfo
  have hins := hrep.insert hnL hnF hnb
  dsimp only at hins
  have hA : n ∉ A := fun hx => hnL (by simp [hx])
  have hB : n ∉ B := fun hx => hnL (by simp [hx])
  let s' : Rq := { s with
    next := setLink (Function.update s.next n B.head?) A.getLast? (some n)
    prev := setLink (Function.update s.prev n A.getLast?) B.head? (some n)
    head := if A.getLast? = none then some n else s.head
    tail := if B.head? = none then some n else s.tail
    snext := Function.update s.snext n s.top
    sprev := setLink (Function.update s.sprev n none) s.top (some n)
    top := some n
    bottom := if s.top = none then some n else s.bottom
    freelist := f
    brk := b
    startseq := Function.update s.startseq n start
    endseq := Function.update s.endseq n stop
    pflags := Function.update s.pflags n ti
    rqflags := Function.update s.rqflags n rqf
    cnt := Function.update s.cnt n ic
    total := s.total + (stop - start) }
  have he : Cut.insertSeg ⟨s, start, stop, A.getLast?, B.head?, nm, ic⟩ ti rqf = (n, s') := by
    simp only [Cut.insertSeg, hn, push_eq, linkPrev_eq, linkNext_eq]
    rfl
  have hblkA : A.map s'.blk = A.map s.blk := Rq.blk_update_of_notMem hA _ _ _
  have hblkB : B.map s'.blk = B.map s.blk := Rq.blk_update_of_notMem hB _ _ _
  have hblkn : s'.blk n = ⟨start, stop, ti⟩ := by simp [blk, s']
  refine ⟨n, s', he, ⟨⟨_, _, hins⟩, ?_⟩, hblkA, hblkB, hblkn, rfl⟩
  have ht := h.total
  have hst : s'.total = s.total + (stop - start) := rfl
  rw [List.map_append, List.map_cons, hblkA, hblkB, hblkn, hst]
  simp only [List.map_append, SegList.total, span_append, span_cons] at ht ⊢
  omega

/-- A call returns the flags, and leaves a queue with the blocks and the `rcv_nxt_`, of `x`. -/
def Gives (r : Option (TcpFlag × Rq)) (x : SegList.Added) : Prop :=
  ∃ s L, r = some (x.flags, s) ∧ Holds s L ∧ L.map s.blk = x.blocks ∧ s.rcvNxt = x.rcvNxt

/-- `rcv_nxt_` is no part of the structure. -/
theorem gives_rcvNxt {s : Rq} {L : List Nat} (h : Holds s L) (f : TcpFlag) (c : Prop) [Decidable c]
    (v : Int) : Gives (some (f, if c then { s with rcvNxt := v } else s))
      ⟨L.map s.blk, f, if c then v else s.rcvNxt⟩ := by
  by_cases hc : c
  · exact ⟨{ s with rcvNxt := v }, L, by rw [if_pos hc], ⟨h.rep, h.total⟩, rfl, (if_pos hc).symm⟩
  · exact ⟨s, L, by rw [if_neg hc], h, rfl, (if_neg hc).symm⟩

theorem gives_advance {s : Rq} {L : List Nat} (h : Holds s L) (f : TcpFlag) (p : Nat) :
    Gives (some (s.advance f p)) ⟨L.map s.blk, f, SegList.bump s.rcvNxt (s.blk p)⟩ :=
  gives_rcvNxt h f _ _

section Coalesce

variable {s : Rq} {A B : List Nat} {p n q : Nat}

theorem map_update_of_notMem {α β : Type*} [DecidableEq α] {f : α → β} {a : α} {l : List α}
    (h : a ∉ l) (v : β) : l.map (Function.update f a v) = l.map f :=
  List.map_congr_left fun x hx => Function.update_of_ne (fun e : x = a => h (e ▸ hx)) _ _

theorem Rep.unlink_eq {S F : List Nat} (h : Rep s.toRqLinks (A ++ p :: B) S F) :
    (s.sremove p).fremove p = s.detach p :=
  fremove_sremove h.prev_ne.1 h.prev_ne.2

/-- The end of each branch of `coalesce`, when only the block `p` has changed. -/
theorem gives_joined {s' : Rq} {m : Block} (h : Holds s' (A ++ p :: B))
    (hblk : s'.blk = Function.update s.blk p m) (hrcv : s'.rcvNxt = s.rcvNxt) :
    Gives (some (s'.advance (s'.pflags p) p))
      ⟨A.map s.blk ++ m :: B.map s.blk, m.flags, SegList.bump s.rcvNxt m⟩ := by
  have hx := h.fifo.not_mem
  have hf : s'.pflags p = m.flags := by
    have := congrArg Block.flags (congrFun hblk p)
    simpa [blk] using this
  have hg := gives_advance h (s'.pflags p) p
  rw [← hf]
  rwa [hblk, hrcv, List.map_append, List.map_cons, map_update_of_notMem hx.1,
    map_update_of_notMem hx.2, Function.update_self] at hg

theorem joinPrev_spec (h : Holds s (A ++ p :: n :: B)) (hp : s.endseq p = s.startseq n) :
    Holds (s.joinPrev p n) (A ++ p :: B) ∧
      (s.joinPrev p n).blk = Function.update s.blk p
        ⟨s.startseq p, s.endseq n, s.pflags p ||| s.pflags n⟩ ∧
      (s.joinPrev p n).rcvNxt = s.rcvNxt := by
  obtain ⟨S, F, hr⟩ := h.rep
  have hr' : Rep s.toRqLinks (A ++ [p] ++ n :: B) S F := by simpa using hr
  obtain ⟨S', hrem⟩ := hr'.remove
  rw [List.append_assoc, List.singleton_append] at hrem
  obtain ⟨hpA, hpB⟩ := hr.fifo.not_mem
  have hblk : (s.joinPrev p n).blk = Function.update s.blk p
      ⟨s.startseq p, s.endseq n, s.pflags p ||| s.pflags n⟩ := by
    funext x
    simp only [joinPrev, hr'.unlink_eq, blk, deleteseginfo, Rq.detach]
    by_cases hx : x = p
    · subst hx; simp
    · simp [hx, blk]
  refine ⟨⟨⟨S', n :: F, ?_⟩, ?_⟩, hblk, ?_⟩
  · rw [joinPrev, hr'.unlink_eq]
    exact hrem
  · have ht := h.total
    have htot : (s.joinPrev p n).total = s.total := by rw [joinPrev, hr'.unlink_eq]; rfl
    rw [htot, hblk, List.map_append, List.map_cons, map_update_of_notMem hpA,
      map_update_of_notMem (fun hx => hpB (by simp [hx])), Function.update_self]
    simp only [List.map_append, List.map_cons, SegList.total, span_append, span_cons, blk] at ht ⊢
    omega
  · rw [joinPrev, hr'.unlink_eq]
    rfl

theorem joinNext_spec (h : Holds s (A ++ n :: q :: B)) (hq : s.endseq n = s.startseq q) :
    Holds (s.joinNext n q) (A ++ q :: B) ∧
      (s.joinNext n q).blk = Function.update s.blk q
        ⟨s.startseq n, s.endseq q, s.pflags q ||| s.pflags n⟩ ∧
      (s.joinNext n q).rcvNxt = s.rcvNxt := by
  obtain ⟨S, F, hr⟩ := h.rep
  have hr' : Rep s.toRqLinks (A ++ [n] ++ q :: B) S F := by simpa using hr
  obtain ⟨S', hrem⟩ := hr.remove
  obtain ⟨hqA, hqB⟩ := hr'.fifo.not_mem
  have hblk : (s.joinNext n q).blk = Function.update s.blk q
      ⟨s.startseq n, s.endseq q, s.pflags q ||| s.pflags n⟩ := by
    funext x
    simp only [joinNext, hr.unlink_eq, blk, deleteseginfo, Rq.detach]
    by_cases hx : x = q
    · subst hx; simp
    · simp [hx, blk]
  refine ⟨⟨⟨S', n :: F, ?_⟩, ?_⟩, hblk, ?_⟩
  · rw [joinNext, hr.unlink_eq]
    exact hrem
  · have ht := h.total
    have htot : (s.joinNext n q).total = s.total := by rw [joinNext, hr.unlink_eq]; rfl
    rw [htot, hblk, List.map_append, List.map_cons,
      map_update_of_notMem (fun hx => hqA (by simp [hx])), map_update_of_notMem hqB,
      Function.update_self]
    simp only [List.map_append, List.map_cons, SegList.total, span_append, span_cons, blk] at ht ⊢
    omega
  · rw [joinNext, hr.unlink_eq]
    rfl

theorem fillHole_spec (h : Holds s (A ++ p :: n :: q :: B)) (hp : s.endseq p = s.startseq n)
    (hq : s.endseq n = s.startseq q) :
    Holds (s.fillHole p n q) (A ++ p :: B) ∧
      (s.fillHole p n q).blk = Function.update s.blk p
        ⟨s.startseq p, s.endseq q, s.pflags p ||| s.pflags n⟩ ∧
      (s.fillHole p n q).rcvNxt = s.rcvNxt := by
  obtain ⟨S, F, hr⟩ := h.rep
  have hn : Rep s.toRqLinks (A ++ [p] ++ n :: (q :: B)) S F := by simpa using hr
  obtain ⟨S₁, hr₁⟩ := hn.detach
  obtain ⟨S₂, hr₂⟩ := hr₁.detach
  rw [List.append_assoc, List.singleton_append] at hr₂
  have heq : (((s.sremove n).fremove n).sremove q).fremove q = (s.detach n).detach q := by
    rw [hn.unlink_eq, hr₁.unlink_eq]
  obtain ⟨hpA, hpB⟩ := hr.fifo.not_mem
  obtain ⟨hnA, hnB⟩ := hn.fifo.not_mem
  obtain ⟨hqA, hqB⟩ := hr₁.fifo.not_mem
  have hblk : (s.fillHole p n q).blk = Function.update s.blk p
      ⟨s.startseq p, s.endseq q, s.pflags p ||| s.pflags n⟩ := by
    funext x
    simp only [fillHole, heq, blk, deleteseginfo, Rq.detach]
    by_cases hx : x = p
    · subst hx; simp
    · simp [hx, blk]
  refine ⟨⟨⟨S₂, q :: n :: F, ?_⟩, ?_⟩, hblk, ?_⟩
  · -- both nodes are recycled after the changes to `p`
    have hd := (hr₂.delete (p := n) (by grind) (hr.apart n (by simp)) (hr.bound n (by simp))).delete
      (p := q) (by grind) (by have := hr.apart q (by simp); grind) (hr.bound q (by simp))
    rw [fillHole, heq]
    exact hd
  · have ht := h.total
    have htot : (s.fillHole p n q).total = s.total := by rw [fillHole, heq]; rfl
    rw [htot, hblk, List.map_append, List.map_cons, map_update_of_notMem hpA,
      map_update_of_notMem (fun hx => hpB (by simp [hx])), Function.update_self]
    simp only [List.map_append, List.map_cons, SegList.total, span_append, span_cons, blk] at ht ⊢
    omega
  · rw [fillHole, heq]
    rfl

end Coalesce

section Endfast

variable {c : Cut} {A B : List Nat} {start stop : Int} {ti : TcpFlag} {rqf : Int}

/-- The block before the gap is adjacent to it. -/
def AdjLeft (s : Rq) (A : List Nat) (start : Int) : Prop :=
  ∃ p, A.getLast? = some p ∧ s.endseq p = start

/-- The block after the gap is adjacent to it. -/
def AdjRight (s : Rq) (B : List Nat) (stop : Int) : Prop :=
  ∃ q, B.head? = some q ∧ s.startseq q = stop

theorem filter_left_none {s : Rq} {start : Int} (h : ¬ AdjLeft s A start) :
    A.getLast?.filter (fun p => decide (s.endseq p = start)) = none := by
  rw [Option.filter_eq_none_iff]
  intro p hp e
  exact h ⟨p, hp, by simpa using e⟩

theorem filter_right_none {s : Rq} {stop : Int} (h : ¬ AdjRight s B stop) :
    B.head?.filter (fun q => decide (s.startseq q = stop)) = none := by
  rw [Option.filter_eq_none_iff]
  intro q hq e
  exact h ⟨q, hq, by simpa using e⟩

theorem map_filter_left (s : Rq) (A : List Nat) (start : Int) :
    (A.map s.blk).getLast?.filter (fun p => decide (p.stop = start)) =
      (A.getLast?.filter fun p => decide (s.endseq p = start)).map s.blk := by
  rw [List.getLast?_map, Option.filter_map]
  rfl

theorem map_filter_right (s : Rq) (B : List Nat) (stop : Int) :
    (B.map s.blk).head?.filter (fun q => decide (q.start = stop)) =
      (B.head?.filter fun q => decide (s.startseq q = stop)).map s.blk := by
  rw [List.head?_map, Option.filter_map]
  rfl

/-- `coalesce` on a block just inserted, in the terms of the queue before the insertion. -/
theorem coalesce_spec {s t : Rq} {n : Nat} (hs : Holds s (A ++ n :: B))
    (hA : A.map s.blk = A.map t.blk) (hB : B.map s.blk = B.map t.blk)
    (hn : s.blk n = ⟨start, stop, ti⟩) (hrcv : s.rcvNxt = t.rcvNxt)
    (hadj : AdjLeft t A start ∨ AdjRight t B stop) :
    Gives (s.coalesce A.getLast? n B.head?)
      (SegList.placed t.rcvNxt (A.map t.blk) ⟨start, stop, ti⟩ (B.map t.blk)) := by
  have hAx : ∀ p ∈ A, s.endseq p = t.endseq p := fun p hp =>
    congrArg Block.stop (List.map_inj_left.mp hA p hp)
  have hBx : ∀ q ∈ B, s.startseq q = t.startseq q := fun q hq =>
    congrArg Block.start (List.map_inj_left.mp hB q hq)
  obtain ⟨hns, hne, hnf⟩ : s.startseq n = start ∧ s.endseq n = stop ∧ s.pflags n = ti := by
    simpa [blk] using hn
  simp only [SegList.placed, SegList.place, map_filter_left, map_filter_right, coalesce, hns, hne,
    eq_comm (a := stop)]
  have hl' : ¬ AdjLeft t A start → ¬ AdjLeft s A start := by
    rintro hl ⟨p, hp, e⟩
    exact hl ⟨p, hp, by rw [← hAx p (List.mem_of_mem_getLast? hp), e]⟩
  have hr' : ¬ AdjRight t B stop → ¬ AdjRight s B stop := by
    rintro hr ⟨q, hq, e⟩
    exact hr ⟨q, hq, by rw [← hBx q (List.mem_of_mem_head? hq), e]⟩
  -- both neighbours join, or the one on the left, or the one on the right
  by_cases hl : AdjLeft t A start <;> by_cases hr : AdjRight t B stop
  · obtain ⟨p, hp, hpe⟩ := hl
    obtain ⟨q, hq, hqs⟩ := hr
    obtain ⟨A, rfl⟩ := List.getLast?_eq_some_iff.mp hp
    obtain ⟨B, rfl⟩ := List.head?_eq_some_iff.mp hq
    have hpe' : s.endseq p = start := (hAx p (by simp)).trans hpe
    have hqs' : s.startseq q = stop := (hBx q (by simp)).trans hqs
    obtain ⟨h₁, h₂, h₃⟩ := fillHole_spec (A := A) (p := p) (q := q) (by simpa using hs)
      (hpe'.trans hns.symm) (hne.trans hqs'.symm)
    have hg := gives_joined h₁ h₂ h₃
    simp only [List.map_append, List.map_cons, List.map_nil, List.cons.injEq] at hA hB
    obtain ⟨hA', hpb⟩ := List.append_inj' hA rfl
    simp only [List.cons.injEq, blk, Block.mk.injEq] at hpb hB
    simp only [hA', hB.2, hrcv, hnf, hpb.1, hB.1] at hg
    simpa [hp, hq, Option.filter_some, hpe, hpe', hqs, hqs', blk] using hg
  · obtain ⟨p, hp, hpe⟩ := hl
    obtain ⟨A, rfl⟩ := List.getLast?_eq_some_iff.mp hp
    have hpe' : s.endseq p = start := (hAx p (by simp)).trans hpe
    obtain ⟨h₁, h₂, h₃⟩ := joinPrev_spec (A := A) (p := p) (by simpa using hs) (hpe'.trans hns.symm)
    rw [filter_right_none hr, filter_right_none (hr' hr)]
    have hg := gives_joined h₁ h₂ h₃
    simp only [List.map_append, List.map_cons, List.map_nil] at hA
    obtain ⟨hA', hpb⟩ := List.append_inj' hA rfl
    simp only [List.cons.injEq, blk, Block.mk.injEq] at hpb
    simp only [hA', hB, hrcv, hnf, hne, hpb.1] at hg
    simpa [hp, Option.filter_some, hpe, hpe', blk] using hg
  · obtain ⟨q, hq, hqs⟩ := hr
    obtain ⟨B, rfl⟩ := List.head?_eq_some_iff.mp hq
    have hqs' : s.startseq q = stop := (hBx q (by simp)).trans hqs
    obtain ⟨h₁, h₂, h₃⟩ := joinNext_spec (q := q) hs (hne.trans hqs'.symm)
    rw [filter_left_none hl, filter_left_none (hl' hl)]
    have hg := gives_joined h₁ h₂ h₃
    simp only [List.map_cons, List.cons.injEq, blk, Block.mk.injEq] at hB
    simp only [hA, hB.2, hrcv, hnf, hns, hB.1] at hg
    simpa [hq, Option.filter_some, hqs, hqs', blk] using hg
  · exact absurd hadj (not_or.mpr ⟨hl, hr⟩)

variable (ti rqf) in
/-- **Insertion of a gap.**  `needmerge` has to tell whether a neighbour is adjacent. -/
theorem endfast_spec (h : Holds c.s (A ++ B)) (hp : c.p = A.getLast?) (hq : c.q = B.head?)
    (hm : c.needmerge = true ↔ AdjLeft c.s A c.start ∨ AdjRight c.s B c.stop) :
    Gives (endfast c ti rqf)
      (SegList.placed c.s.rcvNxt (A.map c.s.blk) ⟨c.start, c.stop, ti⟩ (B.map c.s.blk)) := by
  obtain ⟨n, s, hn, hs, hA, hB, hblk, hrcv⟩ := insertSeg_spec h hp hq ti rqf
  simp only [endfast, hn]
  by_cases hadj : AdjLeft c.s A c.start ∨ AdjRight c.s B c.stop
  · rw [if_pos (hm.mpr hadj), hp, hq]
    exact coalesce_spec hs hA hB hblk hrcv hadj
  · rw [if_neg fun e => hadj (hm.mp e)]
    obtain ⟨hl, hr⟩ := not_or.mp hadj
    have := gives_rcvNxt hs ti (s.rcvNxt ≥ c.start) c.stop
    simp only [SegList.placed, SegList.place, map_filter_left, map_filter_right,
      filter_left_none hl, filter_right_none hr]
    simpa [hA, hB, hblk, hrcv, SegList.bump] using this

end Endfast

end Afabric
