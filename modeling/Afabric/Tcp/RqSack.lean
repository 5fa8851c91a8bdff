import Afabric.Tcp.RqRuns

/-!
# Tcp — the SACK blocks of a reassembly queue

`gensack` writes the blocks from the top of the LIFO on.  Here the LIFO is followed through `add`:
a node is pushed when a segment is inserted, and it is taken off again when the segment is joined
to a block that is there already.  `Settles` says what comes of it: of the blocks that the segment
touches and does not cover, the first in sequence order stays where it is on the LIFO and the
others leave it; if there is none, the new block is on top.
-/

namespace Afabric

namespace Rq

/-- The loop of `gensack`. -/
def gensackLoop (s : Rq) : Nat → Option Nat → Int → Option (List (Int × Int))
  | 0, _, _ => none
  | _ + 1, none, _ => some []
  | n + 1, some p, maxsblock =>
      if maxsblock = 0 then some []
      else (gensackLoop s n (s.snext p) (maxsblock - 1)).map fun l =>
        (s.startseq p, s.endseq p) :: l

/-- `gensack`: the blocks it writes. -/
def gensack (s : Rq) (maxsblock : Int) : Option (List (Int × Int)) :=
  gensackLoop s (s.brk + 1) s.top maxsblock

end Rq

open Rq

/-- The LIFO is `S`. -/
abbrev Lifo (s : Rq) (S : List Nat) : Prop := DLL s.snext s.sprev s.top s.bottom S

section Lifo

variable {s : Rq} {A B L S : List Nat} {n p q : Nat}

theorem Holds.rep_of_lifo (h : Holds s L) (hS : Lifo s S) : ∃ F, Rep s.toRqLinks L S F := by
  obtain ⟨S', F, hr⟩ := h.rep
  obtain rfl : S' = S := hr.lifo.unique hS
  exact ⟨F, hr⟩

theorem Holds.perm (h : Holds s L) (hS : Lifo s S) : S.Perm L := by
  obtain ⟨F, hr⟩ := h.rep_of_lifo hS
  exact hr.perm

/-- The other nodes keep their places. -/
theorem Lifo.detach (h : Lifo s S) (hp : p ∈ S) : Lifo (s.detach p) (S.filter (· ≠ p)) := by
  obtain ⟨S₁, S₂, rfl⟩ := List.append_of_mem hp
  have hx := h.not_mem
  have hf : ∀ l : List Nat, p ∉ l → l.filter (· ≠ p) = l := by
    intro l hl
    rw [List.filter_eq_self]
    intro x hxl
    have hne : x ≠ p := fun e => hl (e ▸ hxl)
    simpa using hne
  have heq : (S₁ ++ p :: S₂).filter (· ≠ p) = S₁ ++ S₂ := by
    rw [List.filter_append, List.filter_cons_of_neg (by simp), hf S₁ hx.1, hf S₂ hx.2]
  rw [heq]
  exact h.unlink

theorem Lifo.remove (h : Lifo s S) (hp : p ∈ S) : Lifo (s.remove p) (S.filter (· ≠ p)) :=
  Lifo.detach (s := { s with total := s.total - (s.endseq p - s.startseq p) }) h hp

theorem insertSeg_links (c : Cut) (ti : TcpFlag) (rqf : Int) :
    (c.insertSeg ti rqf).2.snext = Function.update c.s.snext (c.insertSeg ti rqf).1 c.s.top ∧
      (c.insertSeg ti rqf).2.sprev =
        setLink (Function.update c.s.sprev (c.insertSeg ti rqf).1 none) c.s.top
          (some (c.insertSeg ti rqf).1) ∧
      (c.insertSeg ti rqf).2.top = some (c.insertSeg ti rqf).1 ∧
      (c.insertSeg ti rqf).2.bottom =
        if c.s.top = none then some (c.insertSeg ti rqf).1 else c.s.bottom := by
  simp only [Cut.insertSeg, push_eq, linkPrev_eq, linkNext_eq, newseginfo]
  cases c.s.freelist <;> simp

/-- The new block is on top. -/
theorem insertSeg_lifo {c : Cut} {ti : TcpFlag} {rqf : Int} (he : c.insertSeg ti rqf = (n, s))
    (h : Lifo c.s S) (hn : n ∉ S) : Lifo s (n :: S) := by
  obtain ⟨h₁, h₂, h₃, h₄⟩ := insertSeg_links c ti rqf
  rw [he] at h₁ h₂ h₃ h₄
  dsimp only at h₁ h₂ h₃ h₄
  have hne : ∀ x ∈ S, x ≠ n := fun x hx e => hn (e ▸ hx)
  have htop := h.head_eq
  have hlifo : DLL (Function.update c.s.snext n c.s.top) (Function.update c.s.sprev n none)
      c.s.top c.s.bottom ([] ++ S) :=
    h.congr (fun x hx => Function.update_of_ne (hne x hx) _ _)
      fun x hx => Function.update_of_ne (hne x hx) _ _
  have hins := hlifo.insert hn (by simpa using htop) (by simp)
  rw [Lifo, h₁, h₂, h₃, h₄]
  simpa [← htop] using hins

theorem joinPrev_lifo (h : Holds s (A ++ p :: n :: B)) (hS : Lifo s (n :: S)) :
    Lifo (s.joinPrev p n) S := by
  obtain ⟨F, hr⟩ := h.rep_of_lifo hS
  have hr' : Rep s.toRqLinks (A ++ [p] ++ n :: B) (n :: S) F := by simpa using hr
  have hd := DLL.unlink (a := []) hS
  rw [joinPrev, hr'.unlink_eq]
  exact hd

theorem joinNext_lifo (h : Holds s (A ++ n :: q :: B)) (hS : Lifo s (n :: S)) :
    Lifo (s.joinNext n q) S := by
  obtain ⟨F, hr⟩ := h.rep_of_lifo hS
  have hd := DLL.unlink (a := []) hS
  rw [joinNext, hr.unlink_eq]
  exact hd

theorem fillHole_lifo (h : Holds s (A ++ p :: n :: q :: B)) (hS : Lifo s (n :: S)) :
    Lifo (s.fillHole p n q) (S.filter (· ≠ q)) := by
  obtain ⟨F, hr⟩ := h.rep_of_lifo hS
  have hn : Rep s.toRqLinks (A ++ [p] ++ n :: (q :: B)) (n :: S) F := by simpa using hr
  obtain ⟨S₁, hr₁⟩ := hn.detach
  have hd : Lifo (s.detach n) S := DLL.unlink (a := []) hS
  have hq : q ∈ S := by
    have hmem : q ∈ n :: S := hr.perm.mem_iff.mpr (by simp)
    have hne : q ≠ n := fun e => hn.fifo.not_mem.2 (by simp [e])
    exact (List.mem_cons.mp hmem).resolve_left hne
  have heq : (((s.sremove n).fremove n).sremove q).fremove q = (s.detach n).detach q := by
    rw [hn.unlink_eq, hr₁.unlink_eq]
  have hdd := hd.detach hq
  rw [fillHole, heq]
  exact hdd

variable {start stop : Int} {P W : List Nat} {fuel : Nat}

/-- The loop over the overlapped blocks takes the covered ones off the LIFO. -/
theorem kill_lifo (h : Holds s (P ++ (W ++ B))) (hS : Lifo s S)
    (hW : ∀ w ∈ W, ¬ (start = s.startseq w ∧ stop = s.endseq w)) (hf : W.length < fuel)
    {ti ti' : TcpFlag} {c c' : Int} {alt alt' : Bool} {s' : Rq}
    (he : kill start stop B.head? fuel s (W ++ B).head? ti c alt = some (.rest s' ti' c' alt')) :
    Lifo s' (S.filter fun x => x ∉ W.filter fun w => SegList.Covers start stop (s.blk w)) := by
  induction W generalizing s P S fuel ti c alt with
  | nil =>
      obtain ⟨fuel, rfl⟩ := exists_fuel hf
      have hs' : s' = s := by
        cases B with
        | nil => exact (by simpa [kill, eq_comm] using he : s' = s ∧ _).1
        | cons b B => exact (by simpa [kill, eq_comm] using he : s' = s ∧ _).1
      rw [hs']
      simpa using hS
  | cons w W ih =>
      obtain ⟨fuel, rfl⟩ := exists_fuel hf
      rw [List.cons_append] at h
      have hlen : W.length < fuel := by simpa using hf
      have hW' : ∀ x ∈ W, ¬ (start = s.startseq x ∧ stop = s.endseq x) :=
        fun x hx => hW x (by simp [hx])
      have hqw : some w ≠ B.head? := fun e =>
        h.fifo.not_mem.2 (List.mem_append_right _ (List.mem_of_mem_head? e.symm))
      have hnext := h.fifo.links.1
      rw [List.cons_append, List.head?_cons, kill, if_neg hqw, if_neg (hW w (by simp))] at he
      by_cases hc : start ≤ s.startseq w ∧ stop ≥ s.endseq w
      · have hcov : SegList.Covers start stop (s.blk w) := hc
        rw [if_pos hc] at he
        dsimp only at he
        rw [h.remove_eq', hnext] at he
        have hwS : w ∈ S := (h.perm hS).mem_iff.mpr (by simp)
        have hrec := ih h.remove (hS.remove hwS) hW' hlen he
        have hb : (s.remove w).blk = s.blk := rfl
        rw [hb, List.filter_filter] at hrec
        rw [List.filter_cons_of_pos (by simpa using hcov)]
        have hpred : S.filter (fun x => decide (x ∉ w :: W.filter fun w =>
            decide (SegList.Covers start stop (s.blk w)))) = S.filter (fun a =>
              decide (a ∉ W.filter fun w => decide (SegList.Covers start stop (s.blk w))) &&
                decide (a ≠ w)) := by
          refine List.filter_congr fun x _ => ?_
          simp only [List.mem_cons, not_or, ← Bool.decide_and, and_comm]
        rw [hpred]
        exact hrec
      · have hcov : ¬ SegList.Covers start stop (s.blk w) := hc
        rw [if_neg hc, hnext] at he
        rw [List.filter_cons_of_neg (by simpa using hcov)]
        exact ih (P := P ++ [w]) (by simpa using h) hS hW' hlen he

end Lifo

/-- A call returns and leaves `S'` on the LIFO, and the blocks of `K` as they were in `s`. -/
def Ends (r : Option (TcpFlag × Rq)) (s : Rq) (K S' : List Nat) : Prop :=
  ∃ f s', r = some (f, s') ∧ Lifo s' S' ∧ ∀ x ∈ K, s'.blk x = s.blk x

/-- A segment has been put in the place of the blocks `U`: the first of them keeps its place on the
LIFO `S` and the others leave it, or the new block is on top. -/
def Settles (r : Option (TcpFlag × Rq)) (s : Rq) (U K S : List Nat) : Prop :=
  match U with
  | [] => ∃ n, Ends r s K (n :: S)
  | _ :: R => Ends r s K (S.filter (· ∉ R))

theorem Ends.congr {r : Option (TcpFlag × Rq)} {s t : Rq} {K S' : List Nat} (h : Ends r t K S')
    (hb : ∀ x ∈ K, t.blk x = s.blk x) : Ends r s K S' := by
  obtain ⟨f, s', he, hl, hK⟩ := h
  exact ⟨f, s', he, hl, fun x hx => (hK x hx).trans (hb x hx)⟩

theorem Settles.congr {r : Option (TcpFlag × Rq)} {s t : Rq} {U K S : List Nat}
    (h : Settles r t U K S) (hb : ∀ x ∈ K, t.blk x = s.blk x) : Settles r s U K S := by
  cases U with
  | nil =>
      obtain ⟨n, he⟩ := h
      exact ⟨n, he.congr hb⟩
  | cons u R => exact Ends.congr h hb

theorem ends_advance {s t : Rq} {K S' : List Nat} (h : Lifo t S')
    (hK : ∀ x ∈ K, t.blk x = s.blk x) (f : TcpFlag) (p : Nat) :
    Ends (some (t.advance f p)) s K S' := by
  refine ⟨f, (t.advance f p).2, rfl, ?_, ?_⟩
  · rw [advance]
    split_ifs <;> exact h
  · rw [advance]
    split_ifs <;> exact hK

/-- The neighbours of a gap that it is adjacent to: `P` on the left and `Q` on the right. -/
structure Beside (s : Rq) (start stop : Int) (A P Q B : List Nat) : Prop where
  left : P = [] ∧ ¬ AdjLeft s A start ∨ ∃ p, P = [p] ∧ s.endseq p = start
  right : Q = [] ∧ ¬ AdjRight s B stop ∨ ∃ q, Q = [q] ∧ s.startseq q = stop

section Endfast

variable {c : Cut} {A P Q B S : List Nat} {ti : TcpFlag} {rqf : Int}

theorem filter_ne_nil (S : List Nat) : S.filter (· ∉ ([] : List Nat)) = S := by
  rw [List.filter_eq_self]
  simp

theorem filter_ne_singleton (S : List Nat) (q : Nat) :
    S.filter (· ∉ [q]) = S.filter (· ≠ q) :=
  List.filter_congr fun x _ => by simp

/-- What `coalesce` finds on the left of the gap, in a queue that has the blocks there. -/
theorem Beside.left_find {s s' : Rq} {start stop : Int} (hb : Beside s start stop A P Q B)
    (hend : ∀ x ∈ A ++ P, s'.endseq x = s.endseq x) :
    ((A ++ P).getLast?.filter fun p => decide (s'.endseq p = start)) = P.head? := by
  rcases hb.left with ⟨rfl, hl⟩ | ⟨p, rfl, hpe⟩
  · rw [List.append_nil]
    refine filter_left_none ?_
    rintro ⟨p, hpA, e⟩
    refine hl ⟨p, hpA, ?_⟩
    rwa [← hend p (by simp [List.mem_of_mem_getLast? hpA])]
  · have he : s'.endseq p = start := by rw [hend p (by simp), hpe]
    rw [List.getLast?_concat, Option.filter_some, if_pos (by simpa using he), List.head?_cons]

/-- And on the right. -/
theorem Beside.right_find {s s' : Rq} {start stop : Int} (hb : Beside s start stop A P Q B)
    (hstart : ∀ x ∈ Q ++ B, s'.startseq x = s.startseq x) :
    ((Q ++ B).head?.filter fun q => decide (stop = s'.startseq q)) = Q.head? := by
  simp only [eq_comm (a := stop)]
  rcases hb.right with ⟨rfl, hr⟩ | ⟨q, rfl, hqs⟩
  · rw [List.nil_append]
    refine filter_right_none ?_
    rintro ⟨q, hqB, e⟩
    refine hr ⟨q, hqB, ?_⟩
    rwa [← hstart q (by simp [List.mem_of_mem_head? hqB])]
  · have he : s'.startseq q = stop := by rw [hstart q (by simp), hqs]
    rw [List.singleton_append, List.head?_cons, Option.filter_some, if_pos (by simpa using he),
      List.head?_cons]

variable (ti rqf) in
/-- **Insertion of a gap**, and what its neighbours do to the LIFO. -/
theorem endfast_settles (h : Holds c.s (A ++ P ++ (Q ++ B))) (hS : Lifo c.s S)
    (hb : Beside c.s c.start c.stop A P Q B) (hp : c.p = (A ++ P).getLast?)
    (hq : c.q = (Q ++ B).head?) (hm : c.needmerge = true ↔ P ++ Q ≠ []) :
    Settles (endfast c ti rqf) c.s (P ++ Q) (A ++ B) S := by
  obtain ⟨n, s, hn, hs, hA, hB, hblk, -⟩ := insertSeg_spec h hp hq ti rqf
  have hnL : n ∉ A ++ P ++ (Q ++ B) := by
    obtain ⟨h₁, h₂⟩ := hs.fifo.not_mem
    rw [List.mem_append, not_or]
    exact ⟨h₁, h₂⟩
  have hnS : n ∉ S := fun hx => hnL ((h.perm hS).mem_iff.mp hx)
  have hlifo := insertSeg_lifo hn hS hnS
  have hAx : ∀ x ∈ A ++ P, s.blk x = c.s.blk x := List.map_inj_left.mp hA
  have hBx : ∀ x ∈ Q ++ B, s.blk x = c.s.blk x := List.map_inj_left.mp hB
  have hK : ∀ x ∈ A ++ B, s.blk x = c.s.blk x := by
    intro x hx
    rcases List.mem_append.mp hx with hx | hx
    · exact hAx x (by simp [hx])
    · exact hBx x (by simp [hx])
  obtain ⟨hns, hne, -⟩ : s.startseq n = c.start ∧ s.endseq n = c.stop ∧ s.pflags n = ti := by
    simpa [blk] using hblk
  have hend : ∀ x ∈ A ++ P, s.endseq x = c.s.endseq x := fun x hx =>
    congrArg Block.stop (hAx x hx)
  have hstart : ∀ x ∈ Q ++ B, s.startseq x = c.s.startseq x := fun x hx =>
    congrArg Block.start (hBx x hx)
  have hleft : (c.p.filter fun p => decide (s.endseq p = s.startseq n)) = P.head? := by
    rw [hp, hns]
    exact hb.left_find hend
  have hright : (c.q.filter fun q => decide (s.endseq n = s.startseq q)) = Q.head? := by
    rw [hq, hne]
    exact hb.right_find hstart
  simp only [endfast, hn]
  rcases hb.left with ⟨rfl, hl⟩ | ⟨p, rfl, hpe⟩ <;> rcases hb.right with ⟨rfl, hr⟩ | ⟨q, rfl, hqs⟩
  · -- no neighbour: the new block stays
    rw [if_neg fun e => hm.mp e rfl]
    refine ⟨n, ti, _, rfl, ?_, ?_⟩
    · split_ifs <;> exact hlifo
    · split_ifs <;> exact hK
  · -- the block on the right takes the new one in
    have hj : Holds s (A ++ n :: q :: B) := by simpa using hs
    have hbq := (joinNext_spec hj (by rw [hne, hstart q (by simp), hqs])).2.1
    have hqn : q ∉ A ++ B := by
      have hx := (joinNext_spec hj (by rw [hne, hstart q (by simp), hqs])).1.fifo.not_mem
      simpa using hx
    rw [if_pos (hm.mpr (by simp)), coalesce, hleft, hright]
    show Ends _ _ _ (S.filter (· ∉ []))
    rw [filter_ne_nil]
    refine ends_advance (joinNext_lifo hj hlifo) (fun x hx => ?_) _ _
    have hxq : x ≠ q := fun e => hqn (e ▸ hx)
    rw [hbq, Function.update_of_ne hxq, hK x hx]
  · -- the block on the left takes the new one in
    have hj : Holds s (A ++ p :: n :: B) := by simpa using hs
    have hbp := (joinPrev_spec hj (by rw [hns, hend p (by simp), hpe])).2.1
    have hpn : p ∉ A ++ B := by
      have hx := (joinPrev_spec hj (by rw [hns, hend p (by simp), hpe])).1.fifo.not_mem
      simpa using hx
    rw [if_pos (hm.mpr (by simp)), coalesce, hleft, hright]
    show Ends _ _ _ (S.filter (· ∉ []))
    rw [filter_ne_nil]
    refine ends_advance (joinPrev_lifo hj hlifo) (fun x hx => ?_) _ _
    have hxp : x ≠ p := fun e => hpn (e ▸ hx)
    rw [hbp, Function.update_of_ne hxp, hK x hx]
  · -- the hole is filled: the block on the right goes
    have hj : Holds s (A ++ p :: n :: q :: B) := by simpa using hs
    have hspec := fillHole_spec hj (by rw [hns, hend p (by simp), hpe])
      (by rw [hne, hstart q (by simp), hqs])
    have hpn : p ∉ A ++ B := by
      have hx := hspec.1.fifo.not_mem
      simpa using hx
    rw [if_pos (hm.mpr (by simp)), coalesce, hleft, hright]
    show Ends _ _ _ (S.filter (· ∉ [q]))
    rw [filter_ne_singleton]
    refine ends_advance (fillHole_lifo hj hlifo) (fun x hx => ?_) _ _
    have hxp : x ≠ p := fun e => hpn (e ▸ hx)
    rw [hspec.2.1, Function.update_of_ne hxp, hK x hx]

end Endfast

section Merge

variable {s : Rq} {A P M Q B S : List Nat} {m : Nat} {start stop ic : Int} {ti : TcpFlag} {rqf : Int}

theorem Beside.left_iff (hb : Beside s start stop A P Q B) :
    AdjLeft s (A ++ P) start ↔ P ≠ [] := by
  rcases hb.left with ⟨rfl, hl⟩ | ⟨p, rfl, hpe⟩
  · rw [List.append_nil]
    exact ⟨fun h => absurd h hl, fun h => absurd rfl h⟩
  · exact ⟨fun _ => by simp, fun _ => ⟨p, by simp, hpe⟩⟩

theorem Beside.right_iff (hb : Beside s start stop A P Q B) :
    AdjRight s (Q ++ B) stop ↔ Q ≠ [] := by
  rcases hb.right with ⟨rfl, hr⟩ | ⟨q, rfl, hqs⟩
  · rw [List.nil_append]
    exact ⟨fun h => absurd h hr, fun h => absurd rfl h⟩
  · exact ⟨fun _ => by simp, fun _ => ⟨q, by simp, hqs⟩⟩

/-- No gap was left. -/
theorem ends_settled {t : Rq} {L K S' : List Nat} (h : Holds t L) (hL : L ≠ []) (hl : Lifo t S')
    (hK : ∀ x ∈ K, t.blk x = s.blk x) (ti : TcpFlag) :
    Ends (t.head.map (t.advance ti)) s K S' := by
  cases L with
  | nil => exact absurd rfl hL
  | cons x L =>
      have hh : t.head = some x := h.fifo.head_eq
      rw [hh]
      exact ends_advance hl hK ti x

/-- Nothing is overlapped, and the segment lies between two blocks. -/
theorem mergeSides_gap_settles (h : Holds s (A ++ P ++ (Q ++ B))) (hS : Lifo s S)
    (hb : Beside s start stop A P Q B) (hlt : start < stop) (hA : A ++ P ≠ []) (hB : Q ++ B ≠ [])
    (hbelow : ∀ x ∈ A ++ P, s.endseq x ≤ start) (habove : ∀ x ∈ Q ++ B, stop ≤ s.startseq x) :
    Settles (mergeSides ⟨s, start, stop, (A ++ P).getLast?, (Q ++ B).head?, false, ic⟩ ti rqf) s
      (P ++ Q) (A ++ B) S := by
  obtain ⟨A', p, hAp⟩ : ∃ A' p, A ++ P = A' ++ [p] :=
    ⟨_, _, (List.dropLast_append_getLast hA).symm⟩
  obtain ⟨q, B', hBq⟩ := List.exists_cons_of_ne_nil hB
  have hL : Holds s (A' ++ p :: q :: B') := by
    rw [hAp, hBq] at h
    simpa using h
  have hp := hbelow p (by simp [hAp])
  have hq := habove q (by simp [hBq])
  have hlast : (A ++ P).getLast? = some p := by rw [hAp]; simp
  have hhead : (Q ++ B).head? = some q := by rw [hBq]; rfl
  have hlm : Cut.leftMerge ⟨s, start, stop, some p, some q, false, ic⟩ ti =
      some ⟨s, start, stop, some p, some q, false, ic⟩ :=
    leftMerge_skip (A := A' ++ [p]) (B := B') (m := q) (by simpa using hL) (by simp) (by simp)
      (by dsimp only; omega)
  have hrm : Cut.rightMerge ⟨s, start, stop, some p, some q, false, ic⟩ ti =
      some ⟨s, start, stop, some p, some q, false, ic⟩ :=
    rightMerge_skip (A := A') (B := q :: B') (m := p) hL (by simp) (by simp) (by dsimp only; omega)
  have hn : s.next p = some q := hL.fifo.links.1
  have hleft := hb.left_iff
  have hright := hb.right_iff
  simp only [AdjLeft, hlast, Option.some_inj, exists_eq_left'] at hleft
  simp only [AdjRight, hhead, Option.some_inj, exists_eq_left'] at hright
  rw [hlast, hhead]
  simp only [mergeSides, hlm, hrm, Option.bind_eq_bind, Option.bind_some, if_neg (not_le.mpr hlt),
    Bool.false_eq_true, if_false]
  refine endfast_settles ti rqf (c := ⟨s, start, stop, some p, some q, _, ic⟩) h hS hb hlast.symm
    hhead.symm ?_
  have hPQ : P ++ Q ≠ [] ↔ P ≠ [] ∨ Q ≠ [] := by
    rw [ne_eq, List.append_eq_nil_iff, not_and_or]
  rw [hPQ, ← hleft, ← hright]
  simp [hn, hp, hq]

/-- What the blocks apart from `m` are when `m` has been changed. -/
theorem apart_blk {s' : Rq} {L K : List Nat} {v : Block} (h : Holds s (L ++ m :: K))
    (hb : s'.blk = Function.update s.blk m v) : ∀ x ∈ L ++ K, s'.blk x = s.blk x := by
  intro x hx
  obtain ⟨h₁, h₂⟩ := h.fifo.not_mem
  rw [hb]
  refine Function.update_of_ne (fun e => ?_) _ _
  rw [e] at hx
  exact (List.mem_append.mp hx).elim h₁ h₂

theorem Beside.right_nil (hb : Beside s start stop A P Q B)
    (hno : ∀ q ∈ Q, s.startseq q ≠ stop) : Q = [] := by
  rcases hb.right with ⟨hQ, -⟩ | ⟨q, rfl, hq⟩
  · exact hQ
  · exact absurd hq (hno q (by simp))

theorem Beside.left_nil (hb : Beside s start stop A P Q B)
    (hno : ∀ p ∈ P, s.endseq p ≠ start) : P = [] := by
  rcases hb.left with ⟨hP, -⟩ | ⟨p, rfl, hp⟩
  · exact hP
  · exact absurd hp (hno p (by simp))

/-- The neighbours on one side do not depend on the other side of the gap. -/
theorem Beside.of_right {s' : Rq} {start' : Int} {P' : List Nat} (hb : Beside s start stop A P Q B)
    (hK : ∀ x ∈ Q ++ B, s'.blk x = s.blk x) (hP : ∃ p, P' = [p] ∧ s'.endseq p = start') :
    Beside s' start' stop A P' Q B := by
  have hst : ∀ x ∈ Q ++ B, s'.startseq x = s.startseq x := fun x hx =>
    congrArg Block.start (hK x hx)
  refine ⟨.inr hP, ?_⟩
  rcases hb.right with ⟨hQ, hr⟩ | ⟨q, rfl, hq⟩
  · refine .inl ⟨hQ, fun ⟨q, hq, e⟩ => hr ⟨q, hq, ?_⟩⟩
    rwa [← hst q (by simp [List.mem_of_mem_head? hq])]
  · exact .inr ⟨q, rfl, by rw [hst q (by simp), hq]⟩

theorem Beside.of_left {s' : Rq} {stop' : Int} {Q' : List Nat} (hb : Beside s start stop A P Q B)
    (hK : ∀ x ∈ A ++ P, s'.blk x = s.blk x) (hQ : ∃ q, Q' = [q] ∧ s'.startseq q = stop') :
    Beside s' start stop' A P Q' B := by
  have hen : ∀ x ∈ A ++ P, s'.endseq x = s.endseq x := fun x hx =>
    congrArg Block.stop (hK x hx)
  refine ⟨?_, .inr hQ⟩
  rcases hb.left with ⟨hP, hl⟩ | ⟨p, rfl, hp⟩
  · refine .inl ⟨hP, fun ⟨p, hp, e⟩ => hl ⟨p, hp, ?_⟩⟩
    rwa [← hen p (by simp [List.mem_of_mem_getLast? hp])]
  · exact .inr ⟨p, rfl, by rw [hen p (by simp), hp]⟩

theorem Beside.congr {s' : Rq} (hb : Beside s start stop A P Q B) (he : s'.blk = s.blk) :
    Beside s' start stop A P Q B := by
  have hen : s'.endseq = s.endseq := by
    ext x
    exact congrArg Block.stop (congrFun he x)
  have hst : s'.startseq = s.startseq := by
    ext x
    exact congrArg Block.start (congrFun he x)
  constructor
  · rw [AdjLeft, hen]
    exact hb.left
  · rw [AdjRight, hst]
    exact hb.right

theorem Lifo.of_links {s' : Rq} (h : Lifo s S) (hl : s'.toRqLinks = s.toRqLinks) : Lifo s' S := by
  rw [Lifo, hl]
  exact h

/-- A block sticks out on the left. -/
theorem mergeSides_left_settles (h : Holds s (A ++ m :: (Q ++ B))) (hS : Lifo s S)
    (hb : Beside s start stop A [] Q B) (hm : s.startseq m < start) (hme : start < s.endseq m)
    (habove : ∀ x ∈ Q ++ B, s.endseq m < s.startseq x) :
    Settles (mergeSides ⟨s, start, stop, A.getLast?, (Q ++ B).head?, false, ic⟩ ti rqf) s
      (m :: Q) (A ++ B) S := by
  have hQ : stop ≤ s.endseq m ∨ Q ++ B = [] → Q = [] := by
    rintro (hle | hnil)
    · exact hb.right_nil fun q hq e => by
        have hlt := habove q (by simp [hq])
        omega
    · exact (List.append_eq_nil_iff.mp hnil).1
  have hlm : Cut.leftMerge ⟨s, start, stop, A.getLast?, (Q ++ B).head?, false, ic⟩ ti = _ :=
    leftMerge_join h rfl (.inr hm)
  obtain ⟨s₁, he₁, h₁, hk₁, -, hb₁⟩ := joinLeft_spec
    (c := ⟨s, start, stop, A.getLast?, (Q ++ B).head?, false, ic⟩) h ti
  dsimp only at he₁ hb₁ hk₁
  have hK₁ := apart_blk h hb₁
  have hKs : ∀ x ∈ A ++ B, s₁.blk x = s.blk x := fun x hx => hK₁ x (by simp at hx ⊢; tauto)
  obtain ⟨hs₁, hend₁⟩ : s₁.startseq m = s.startseq m ∧ s₁.endseq m = s.endseq m := by
    have hmm := congrFun hb₁ m
    rw [min_eq_right hm.le, Function.update_self] at hmm
    exact ⟨congrArg Block.start hmm, congrArg Block.stop hmm⟩
  have hS₁ := hS.of_links hk₁
  simp only [mergeSides, hlm, he₁, Option.bind_eq_bind, Option.bind_some]
  by_cases hjoin : Q ++ B = [] ∨ stop < s.endseq m
  · obtain rfl := hQ (hjoin.symm.imp_left le_of_lt)
    rw [rightMerge_join h₁ rfl (by simpa [hend₁] using hjoin)]
    obtain ⟨s₂, he₂, h₂, hk₂, -, hb₂⟩ := joinRight_spec
      (c := ⟨s₁, s.endseq m, stop, some m, ([] ++ B).head?, true, ic - 1⟩) h₁ ti
    dsimp only at he₂ hb₂ hk₂
    rw [he₂, Option.bind_some, if_pos (by dsimp only; omega)]
    show Ends _ _ _ (S.filter (· ∉ []))
    rw [filter_ne_nil]
    refine ends_settled h₂ (by simp) (hS₁.of_links hk₂) (fun x hx => ?_) ti
    rw [apart_blk h₁ hb₂ x (by simpa using hx), hKs x hx]
  · obtain ⟨hB, hle⟩ := not_or.mp hjoin
    rw [rightMerge_skip h₁ rfl hB (by dsimp only; omega), Option.bind_some]
    dsimp only
    by_cases hend : stop ≤ s.endseq m
    · obtain rfl := hQ (.inl hend)
      rw [if_pos hend]
      show Ends _ _ _ (S.filter (· ∉ []))
      rw [filter_ne_nil]
      exact ends_settled h₁ (by simp) hS₁ hKs ti
    · rw [if_neg hend, if_pos rfl]
      have hset : Settles _ s₁ ([m] ++ Q) (A ++ B) S :=
        endfast_settles ti rqf (c := ⟨s₁, s.endseq m, stop, some m, (Q ++ B).head?, true, ic - 1⟩)
          (by simpa using h₁) hS₁
          (hb.of_right (fun x hx => hK₁ x (by simp at hx ⊢; tauto)) ⟨m, rfl, hend₁⟩) (by simp) rfl
          (by simp)
      exact hset.congr hKs

/-- A block sticks out on the right only. -/
theorem mergeSides_right_settles (h : Holds s (A ++ P ++ m :: B)) (hS : Lifo s S)
    (hb : Beside s start stop A P [] B) (hm : start ≤ s.startseq m) (hms : s.startseq m < s.endseq m)
    (hme : stop < s.endseq m) (hbelow : ∀ x ∈ A ++ P, s.endseq x < s.startseq m) :
    Settles (mergeSides ⟨s, start, stop, (A ++ P).getLast?, B.head?, false, ic⟩ ti rqf) s
      (P ++ [m]) (A ++ B) S := by
  have hP : start = s.startseq m ∨ A ++ P = [] → P = [] := by
    rintro (heq | hnil)
    · exact hb.left_nil fun p hp e => by
        have hlt := hbelow p (by simp [hp])
        omega
    · exact (List.append_eq_nil_iff.mp hnil).2
  by_cases hA : A ++ P = []
  · obtain ⟨rfl, rfl⟩ := List.append_eq_nil_iff.mp hA
    -- the block is the first: its start moves down to the segment's
    have hlm : Cut.leftMerge ⟨s, start, stop, none, B.head?, false, ic⟩ ti = _ :=
      leftMerge_join (A := []) h rfl (.inl rfl)
    obtain ⟨s₁, he₁, h₁, hk₁, -, hb₁⟩ := joinLeft_spec
      (c := ⟨s, start, stop, none, B.head?, false, ic⟩) (A := []) h ti
    dsimp only at he₁ hb₁ hk₁
    obtain ⟨hs₁, hend₁⟩ : s₁.startseq m = start ∧ s₁.endseq m = s.endseq m := by
      have hmm := congrFun hb₁ m
      rw [min_eq_left hm, Function.update_self] at hmm
      exact ⟨congrArg Block.start hmm, congrArg Block.stop hmm⟩
    simp only [mergeSides, List.append_nil, List.getLast?_nil, hlm, he₁, Option.bind_eq_bind,
      Option.bind_some]
    rw [rightMerge_join h₁ rfl (.inr (by dsimp only; omega))]
    obtain ⟨s₂, he₂, h₂, hk₂, -, hb₂⟩ := joinRight_spec
      (c := ⟨s₁, s.endseq m, stop, some m, B.head?, true, ic - 1⟩) (A := []) h₁ ti
    dsimp only at he₂ hb₂ hk₂
    rw [he₂, Option.bind_some, if_pos (by dsimp only; omega)]
    show Ends _ _ _ (S.filter (· ∉ []))
    rw [filter_ne_nil]
    refine ends_settled h₂ (by simp) ((hS.of_links hk₁).of_links hk₂) (fun x hx => ?_) ti
    rw [apart_blk (L := []) h₁ hb₂ x (by simpa using hx),
      apart_blk (L := []) (K := B) h hb₁ x (by simpa using hx)]
  · have hlm : Cut.leftMerge ⟨s, start, stop, (A ++ P).getLast?, B.head?, false, ic⟩ ti = _ :=
      leftMerge_skip h rfl hA hm
    have hrm : Cut.rightMerge ⟨s, start, stop, (A ++ P).getLast?, B.head?, false, ic⟩ ti = _ :=
      rightMerge_join h rfl (.inr hme)
    obtain ⟨s₁, he₁, h₁, hk₁, -, hb₁⟩ := joinRight_spec
      (c := ⟨s, start, stop, (A ++ P).getLast?, B.head?, false, ic⟩) h ti
    dsimp only at he₁ hb₁ hk₁
    have hK₁ := apart_blk h hb₁
    have hKs : ∀ x ∈ A ++ B, s₁.blk x = s.blk x := fun x hx => hK₁ x (by simp at hx ⊢; tauto)
    have hs₁ : s₁.startseq m = s.startseq m := by
      have hmm := congrFun hb₁ m
      rw [Function.update_self] at hmm
      exact congrArg Block.start hmm
    have hS₁ := hS.of_links hk₁
    simp only [mergeSides, hlm, hrm, he₁, Option.bind_eq_bind, Option.bind_some]
    by_cases hset : start = s.startseq m
    · obtain rfl := hP (.inl hset)
      rw [if_pos hset.ge]
      show Ends _ _ _ (S.filter (· ∉ []))
      rw [filter_ne_nil]
      exact ends_settled h₁ (by simp) hS₁ hKs ti
    · rw [if_neg (by omega), if_pos trivial]
      have hset : Settles _ s₁ (P ++ [m]) (A ++ B) S :=
        endfast_settles ti rqf
          (c := ⟨s₁, start, s.startseq m, (A ++ P).getLast?, some m, true, ic⟩) h₁ hS₁
          (hb.of_left (fun x hx => hK₁ x (by simp at hx ⊢; tauto)) ⟨m, rfl, hs₁⟩) rfl rfl (by simp)
      exact hset.congr hKs

/-- A block sticks out on either side. -/
theorem mergeSides_both_settles {l r : Nat} (h : Holds s (A ++ l :: r :: B)) (hS : Lifo s S)
    (hl : s.startseq l < start) (hlr : s.endseq l < s.startseq r) (hr : stop < s.endseq r) :
    Settles (mergeSides ⟨s, start, stop, A.getLast?, B.head?, false, ic⟩ ti rqf) s [l, r] (A ++ B)
      S := by
  have hlm : Cut.leftMerge ⟨s, start, stop, A.getLast?, B.head?, false, ic⟩ ti = _ :=
    leftMerge_join h rfl (.inr hl)
  obtain ⟨s₁, he₁, h₁, hk₁, -, hb₁⟩ := joinLeft_spec
    (c := ⟨s, start, stop, A.getLast?, B.head?, false, ic⟩) h ti
  dsimp only at he₁ hb₁ hk₁
  have hK₁ := apart_blk h hb₁
  have hr₁ := hK₁ r (by simp)
  have hl₁ : s₁.endseq l = s.endseq l := by
    have hmm := congrFun hb₁ l
    rw [Function.update_self] at hmm
    exact congrArg Block.stop hmm
  have hrs : s₁.startseq r = s.startseq r ∧ s₁.endseq r = s.endseq r :=
    ⟨congrArg Block.start hr₁, congrArg Block.stop hr₁⟩
  have h₁' : Holds s₁ (A ++ [l] ++ r :: B) := by simpa using h₁
  simp only [mergeSides, hlm, he₁, Option.bind_eq_bind, Option.bind_some]
  rw [rightMerge_join h₁' rfl (.inr (by dsimp only; omega))]
  obtain ⟨s₂, he₂, h₂, hk₂, -, hb₂⟩ := joinRight_spec
    (c := ⟨s₁, s.endseq l, stop, some l, B.head?, true, ic - 1⟩) h₁' ti
  dsimp only at he₂ hb₂ hk₂
  have hK₂ := apart_blk h₁' hb₂
  have hl₂ : s₂.endseq l = s.endseq l := by
    rw [← hl₁]
    exact congrArg Block.stop (hK₂ l (by simp))
  have hr₂ : s₂.startseq r = s₁.startseq r := by
    have hmm := congrFun hb₂ r
    rw [Function.update_self] at hmm
    exact congrArg Block.start hmm
  rw [he₂, Option.bind_some, if_neg (by dsimp only; omega), if_pos rfl]
  have hset : Settles _ s₂ ([l] ++ [r]) (A ++ B) S :=
    endfast_settles ti rqf (c := ⟨s₂, s.endseq l, s₁.startseq r, some l, some r, true, ic - 1⟩) h₂
      ((hS.of_links hk₁).of_links hk₂)
      ⟨.inr ⟨l, rfl, hl₂⟩, .inr ⟨r, rfl, hr₂⟩⟩ (by simp) rfl (by simp)
  refine hset.congr fun x hx => ?_
  rw [hK₂ x (by simp at hx ⊢; tauto), hK₁ x (by simp at hx ⊢; tauto)]

theorem Around.apart_left (h : Around s start stop A M B) {x y : Nat} (hx : x ∈ A) (hy : y ∈ M) :
    s.endseq x < s.startseq y := by
  have hwf := h.wf
  rw [List.map_append] at hwf
  exact (Normal.append_iff.mp hwf).2.2 (s.blk x) (List.mem_map_of_mem hx) (s.blk y)
    (List.mem_map_of_mem (List.mem_append_left _ hy))

theorem Around.apart_right (h : Around s start stop A M B) {x y : Nat} (hx : x ∈ M) (hy : y ∈ B) :
    s.endseq x < s.startseq y := by
  have hwf := h.wf
  rw [List.map_append, List.map_append] at hwf
  exact (Normal.append_iff.mp (Normal.append_iff.mp hwf).2.1).2.2 (s.blk x)
    (List.mem_map_of_mem hx) (s.blk y) (List.mem_map_of_mem hy)

variable (ic ti rqf) in
/-- **The merges**, once no overlapped block is covered. -/
theorem mergeSides_settles (h : Around s start stop (A ++ P) M (Q ++ B)) (hS : Lifo s S)
    (hb : Beside s start stop A P Q B) (hunc : ∀ x ∈ M, ¬ SegList.Covers start stop (s.blk x))
    (hA : A ++ P ++ M ≠ []) (hB : M ++ (Q ++ B) ≠ []) :
    Settles (mergeSides ⟨s, start, stop, (A ++ P).getLast?, (Q ++ B).head?, false, ic⟩ ti rqf) s
      (P ++ M ++ Q) (A ++ B) S := by
  have hH := h.holds
  have hlt := h.lt
  have hwm : SegList.Wf (M.map s.blk) :=
    Normal.sublist h.wf (((List.sublist_append_left M _).trans
      (List.sublist_append_right _ _)).map s.blk)
  have hunc' : ∀ x ∈ M.map s.blk, ¬ SegList.Covers start stop x := by simpa using hunc
  have hov := h.split.meets
  generalize hMe : M.map s.blk = mb at *
  cases SegList.shape_of_overlap hwm hov with
  | within _ hk =>
      obtain rfl : mb = [] := List.eq_nil_iff_forall_not_mem.mpr fun x hx => hunc' x hx (hk x hx)
      obtain rfl : M = [] := by simpa using hMe
      rw [List.append_nil] at hA ⊢
      rw [List.nil_append] at hB hH
      exact mergeSides_gap_settles hH hS hb hlt hA hB (fun x hx => h.below hx)
        fun x hx => h.above hx
  | left l k hl hk =>
      obtain rfl : k = [] := List.eq_nil_iff_forall_not_mem.mpr fun x hx =>
        hunc' x (by simp [hx]) (hk x hx)
      obtain ⟨m, rfl, rfl⟩ : ∃ m, M = [m] ∧ s.blk m = l := by
        simpa [List.map_eq_singleton_iff] using hMe
      have hms : s.startseq m < start := hl
      obtain rfl : P = [] := hb.left_nil fun p hp e => by
        have hpm := h.apart_left (x := p) (y := m) (by simp [hp]) (by simp)
        omega
      rw [List.append_nil] at hH ⊢
      exact mergeSides_left_settles hH hS hb hms (h.meets (x := m) (by simp)).1
        fun x hx => h.apart_right (by simp) hx
  | right k r hrs hre hk =>
      obtain rfl : k = [] := List.eq_nil_iff_forall_not_mem.mpr fun x hx =>
        hunc' x (by simp [hx]) (hk x hx)
      obtain ⟨m, rfl, rfl⟩ : ∃ m, M = [m] ∧ s.blk m = r := by
        simpa [List.map_eq_singleton_iff] using hMe
      have hme : stop < s.endseq m := hre
      obtain rfl : Q = [] := hb.right_nil fun q hq e => by
        have hmq := h.apart_right (x := m) (y := q) (by simp) (by simp [hq])
        omega
      rw [List.append_nil]
      exact mergeSides_right_settles hH hS hb hrs (h.nonempty (x := m) (by simp)) hme
        fun x hx => h.apart_left hx (by simp)
  | both l k r hl hr hk =>
      obtain rfl : k = [] := List.eq_nil_iff_forall_not_mem.mpr fun x hx =>
        hunc' x (by simp [hx]) (hk x hx)
      obtain ⟨x, M, rfl, rfl, hM⟩ := List.map_eq_cons_iff.mp hMe
      obtain ⟨y, rfl, rfl⟩ : ∃ m, M = [m] ∧ s.blk m = r := by
        simpa [List.map_eq_singleton_iff] using hM
      have hxs : s.startseq x < start := hl
      have hye : stop < s.endseq y := hr
      obtain rfl : P = [] := hb.left_nil fun p hp e => by
        have hpx := h.apart_left (x := p) (y := x) (by simp [hp]) (by simp)
        omega
      obtain rfl : Q = [] := hb.right_nil fun q hq e => by
        have hyq := h.apart_right (x := y) (y := q) (by simp) (by simp [hq])
        omega
      rw [List.append_nil] at hH ⊢
      exact mergeSides_both_settles hH hS hxs ((Normal.cons_iff.mp hwm).2.1 (s.blk y) (by simp)) hye

end Merge

section Add

variable {s : Rq} {A P M Q B S : List Nat} {start stop ic : Int} {ti : TcpFlag} {rqf : Int}
  {fuel : Nat}

theorem Around.kill_lifo (h : Around s start stop (A ++ P) M (Q ++ B)) (hS : Lifo s S)
    (hne : ∀ x ∈ M, ¬ (start = s.startseq x ∧ stop = s.endseq x)) {s' : Rq} {ti' : TcpFlag}
    {c' : Int} {alt : Bool}
    (he : kill start stop (Q ++ B).head? (s.brk + 1) s ((A ++ P).getLast?.or s.head) ti ic false =
      some (.rest s' ti' c' alt)) : Lifo s' (S.filter (· ∉ covered s start stop M)) := by
  obtain ⟨L, X, hAP, hst, -⟩ := h.bracket.start_kill
  have hX : ∀ x ∈ X, ¬ SegList.Covers start stop (s.blk x) := fun x hx =>
    h.not_covers (by simp [hAP, hx])
  have hlen := h.holds.length_lt
  have hXf : X.filter (fun w => decide (SegList.Covers start stop (s.blk w))) = [] :=
    covered_eq_nil hX
  have hH := h.holds
  rw [hAP] at hH hlen
  rw [hst] at he
  have hl := Afabric.kill_lifo (P := L) (W := X ++ M) (B := Q ++ B) (by simpa using hH) hS
    (fun w hw => by
      rcases List.mem_append.mp hw with hw | hw
      · exact fun e => hX w hw ⟨e.1.le, e.2.ge⟩
      · exact hne w hw) (by simp at hlen ⊢; omega) he
  rwa [List.filter_append, hXf, List.nil_append] at hl

/-- The segment comes after every block. -/
theorem again2_tail_settles (h : Around s start stop (A ++ P) [] []) (hS : Lifo s S)
    (hb : Beside s start stop A P [] []) (hL : A ++ P ≠ []) :
    Settles (again2 start stop rqf (fuel + 1) s ti ic) s P A S := by
  obtain ⟨t, ht⟩ : ∃ t, (A ++ P).getLast? = some t := ⟨_, List.getLast?_eq_some_getLast hL⟩
  have hleft := hb.left_iff
  simp only [AdjLeft, ht, Option.some_inj, exists_eq_left'] at hleft
  rw [h.bracket.again2_tail ht]
  have hset : Settles _ s (P ++ []) (A ++ []) S :=
    endfast_settles ti rqf
      (c := ⟨s, start, stop, some t, none, decide (start = s.endseq t), ic⟩)
      (by simpa using h.holds) hS hb ht.symm rfl (by rw [List.append_nil, ← hleft]; simp [eq_comm])
  simpa using hset

/-- The segment comes before every block. -/
theorem again2_head_settles (h : Around s start stop [] [] (Q ++ B)) (hS : Lifo s S)
    (hb : Beside s start stop [] [] Q B) (hL : Q ++ B ≠ []) :
    Settles (again2 start stop rqf (fuel + 1) s ti ic) s Q B S := by
  obtain ⟨x, hx⟩ : ∃ x, (Q ++ B).head? = some x := ⟨_, List.head?_eq_some_head hL⟩
  have hright := hb.right_iff
  simp only [AdjRight, hx, Option.some_inj, exists_eq_left'] at hright
  rw [h.bracket.again2_head hx]
  have hset : Settles _ s ([] ++ Q) ([] ++ B) S :=
    endfast_settles ti rqf
      (c := ⟨s, start, stop, none, some x, decide (stop = s.startseq x), ic⟩)
      (by simpa using h.holds) hS hb rfl hx.symm (by rw [List.nil_append, ← hright]; simp [eq_comm])
  simpa using hset

variable (ic ti rqf fuel) in
/-- One pass of `again2`, without an exact duplicate; `hrec` is what the next pass does when blocks
have been killed. -/
theorem again2_settles_pass (h : Around s start stop (A ++ P) M (Q ++ B)) (hS : Lifo s S)
    (hb : Beside s start stop A P Q B) (hL : A ++ P ++ (M ++ (Q ++ B)) ≠ [])
    (hne : ∀ x ∈ M, ¬ (start = s.startseq x ∧ stop = s.endseq x))
    (hrec : (∃ x ∈ M, SegList.Covers start stop (s.blk x)) → ∀ s' ti' c',
      Around s' start stop (A ++ P) (uncovered s start stop M) (Q ++ B) → s'.blk = s.blk →
      Lifo s' (S.filter (· ∉ covered s start stop M)) →
      A ++ P ++ (uncovered s start stop M ++ (Q ++ B)) ≠ [] →
      Settles (again2 start stop rqf fuel s' ti' c') s (P ++ uncovered s start stop M ++ Q) (A ++ B)
        (S.filter (· ∉ covered s start stop M))) :
    Settles (again2 start stop rqf (fuel + 1) s ti ic) s (P ++ uncovered s start stop M ++ Q)
      (A ++ B) (S.filter (· ∉ covered s start stop M)) := by
  by_cases hend : M ++ (Q ++ B) = []
  · obtain ⟨rfl, hQB⟩ := List.append_eq_nil_iff.mp hend
    obtain ⟨rfl, rfl⟩ := List.append_eq_nil_iff.mp hQB
    rw [covered_nil, filter_ne_nil, uncovered_nil, List.append_nil, List.append_nil, List.append_nil]
    exact again2_tail_settles h hS hb (by simpa using hL)
  by_cases hst : A ++ P ++ M = []
  · obtain ⟨hAP, rfl⟩ := List.append_eq_nil_iff.mp hst
    obtain ⟨rfl, rfl⟩ := List.append_eq_nil_iff.mp hAP
    rw [covered_nil, filter_ne_nil, uncovered_nil]
    exact again2_head_settles h hS hb (by simpa using hL)
  obtain ⟨s', c', hk, hs', hb', -⟩ := h.bracket.kill_rest hne ti ic
  have hS' := h.kill_lifo hS hne hk
  rw [h.bracket.again2_kill hst hend, hk, Option.bind_some]
  rw [h.uncovered_eq] at hs'
  dsimp only
  generalize ti ||| SegList.orFlags _ = ti'
  have har := h.filter hs' hb'
  have hbs := hb.congr hb'
  by_cases hnil : A ++ P ++ (uncovered s start stop M ++ (Q ++ B)) = []
  · -- everything was completely overlapped
    rw [if_pos (hs'.fifo.eq_nil_iff.mpr hnil)]
    obtain ⟨hAP, hMQB⟩ := List.append_eq_nil_iff.mp hnil
    obtain ⟨rfl, rfl⟩ := List.append_eq_nil_iff.mp hAP
    obtain ⟨hM, hQB⟩ := List.append_eq_nil_iff.mp hMQB
    obtain ⟨rfl, rfl⟩ := List.append_eq_nil_iff.mp hQB
    rw [hM] at hs' ⊢
    have hset : Settles _ s' ([] ++ []) ([] ++ []) _ :=
      endfast_settles ti' rqf (c := ⟨s', start, stop, none, none, false, c'⟩) hs'
        hS' hbs rfl rfl (by simp)
    exact hset.congr fun x _ => congrFun hb' x
  rw [if_neg (hs'.fifo.eq_nil_iff.not.mpr hnil)]
  have halt_iff : ((A ++ P ++ M).any fun w => SegList.Covers start stop (s.blk w)) = true ↔
      ∃ w ∈ M, SegList.Covers start stop (s.blk w) := by
    rw [List.any_append, Bool.or_eq_true, List.any_eq_true, List.any_eq_true]
    simp only [decide_eq_true_eq]
    refine or_iff_right ?_
    rintro ⟨x, hx, hc⟩
    exact h.not_covers hx hc
  by_cases halt : ∃ w ∈ M, SegList.Covers start stop (s.blk w)
  · rw [if_pos (halt_iff.mpr halt)]
    exact hrec halt s' ti' c' har hb' hS' hnil
  · rw [if_neg (halt_iff.not.mpr halt)]
    push Not at halt
    have hM : uncovered s start stop M = M := uncovered_eq_self halt
    rw [← uncovered, hM] at har
    rw [hM]
    have hset : Settles _ s' (P ++ M ++ Q) (A ++ B) _ :=
      mergeSides_settles c' ti' rqf har hS' hbs (by rw [hb']; exact halt)
        hst hend
    exact hset.congr fun x _ => congrFun hb' x

/-- A pass that finds nothing to kill. -/
theorem again2_settles_clean (h : Around s start stop (A ++ P) M (Q ++ B)) (hS : Lifo s S)
    (hb : Beside s start stop A P Q B) (hL : A ++ P ++ (M ++ (Q ++ B)) ≠ [])
    (hunc : ∀ x ∈ M, ¬ SegList.Covers start stop (s.blk x)) :
    Settles (again2 start stop rqf (fuel + 1) s ti ic) s (P ++ M ++ Q) (A ++ B) S := by
  have hu : uncovered s start stop M = M := uncovered_eq_self hunc
  have hc : covered s start stop M = [] := covered_eq_nil hunc
  have hset := again2_settles_pass ic ti rqf fuel h hS hb hL
    (fun x hx e => hunc x hx ⟨e.1.le, e.2.ge⟩) fun ⟨x, hx, hcov⟩ => absurd hcov (hunc x hx)
  rwa [hu, hc, filter_ne_nil] at hset

/-- **`add` on a queue that is not empty**, without an exact duplicate. -/
theorem again2_settles (h : Around s start stop (A ++ P) M (Q ++ B)) (hS : Lifo s S)
    (hb : Beside s start stop A P Q B) (hL : A ++ P ++ (M ++ (Q ++ B)) ≠ [])
    (hne : ∀ x ∈ M, ¬ (start = s.startseq x ∧ stop = s.endseq x)) :
    Settles (again2 start stop rqf (fuel + 2) s ti ic) s (P ++ uncovered s start stop M ++ Q)
      (A ++ B) (S.filter (· ∉ covered s start stop M)) := by
  refine again2_settles_pass _ _ _ _ h hS hb hL hne fun _ s' ti' c' h' he hS' hne' => ?_
  have hunc : ∀ x ∈ uncovered s start stop M, ¬ SegList.Covers start stop (s'.blk x) := by
    intro x hx
    rw [he]
    exact not_covers_of_mem_uncovered hx
  exact (again2_settles_clean h' hS' (hb.congr he) hne' hunc).congr fun x _ => congrFun he x

/-- At an exact duplicate the LIFO stays as it is. -/
theorem again2_exact {c : Nat} (h : Around s start stop A [c] B) (hS : Lifo s S)
    (hs : start = s.startseq c) (he : stop = s.endseq c) :
    Ends (again2 start stop rqf (fuel + 1) s ti ic) s (A ++ B) S := by
  rw [h.bracket.again2_kill (by simp) (by simp), h.bracket.kill_exact hs he, Option.bind_some]
  have hupd : ({ s with pflags := Function.update s.pflags c (s.pflags c ||| ti) } : Rq).blk =
      Function.update s.blk c ((s.blk c).orFlag ti) := by
    ext1 y
    by_cases hy : y = c
    · subst hy
      simp [blk, Block.orFlag]
    · simp [blk, hy]
  exact ⟨_, _, rfl, hS, apart_blk h.holds hupd⟩

end Add

end Afabric
