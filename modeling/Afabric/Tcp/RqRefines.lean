import Afabric.Tcp.RqRep

/-!
# Tcp — the pointer structure refines the list of blocks

Every function of `ReassemblyQueue.lean` returns on a queue that holds a well-formed list, and
leaves a queue that holds what the function of the same name in `SegList.lean` computes
(`add_refines`, `clearto_refines`, `clear_refines`, `nexthole_refines`).
-/

namespace Afabric

open Rq

/-! ### The merges -/

section Merge

variable {c : Cut} {A B : List Nat} {m : Nat} {start stop ic : Int} {ti : TcpFlag} {rqf : Int}

/-- A block may be changed in place if `total_` follows. -/
theorem Holds.update {s s' : Rq} {v : Block} (h : Holds s (A ++ m :: B))
    (hl : s'.toRqLinks = s.toRqLinks) (hb : s'.blk = Function.update s.blk m v)
    (ht : s'.total = s.total + (v.stop - v.start - (s.endseq m - s.startseq m))) :
    Holds s' (A ++ m :: B) := by
  refine ⟨by rw [hl]; exact h.rep, ?_⟩
  have hx := h.fifo.not_mem
  have htot := h.total
  rw [ht, hb, List.map_append, List.map_cons, map_update_of_notMem hx.1, map_update_of_notMem hx.2,
    Function.update_self]
  simp only [List.map_append, List.map_cons, SegList.total, span_append, span_cons, blk] at htot ⊢
  omega

/-- `joinLeft` changes the block it merges with, and nothing else of the queue. -/
theorem joinLeft_spec (h : Holds c.s (A ++ m :: B)) (ti : TcpFlag) :
    ∃ s', c.joinLeft ti m = ⟨s', c.s.endseq m, c.stop, some m, c.q, true, c.initcnt - 1⟩ ∧
      Holds s' (A ++ m :: B) ∧ s'.toRqLinks = c.s.toRqLinks ∧ s'.rcvNxt = c.s.rcvNxt ∧
      s'.blk = Function.update c.s.blk m
        ⟨min c.start (c.s.startseq m), c.s.endseq m, c.s.pflags m ||| ti⟩ := by
  have hupd : (c.joinLeft ti m).s.blk = Function.update c.s.blk m
      ⟨min c.start (c.s.startseq m), c.s.endseq m, c.s.pflags m ||| ti⟩ := by
    funext x
    by_cases hlt : c.start < c.s.startseq m <;> by_cases hxm : x = m
    · subst hxm; simp [Cut.joinLeft, blk, hlt, hlt.le]
    · simp [Cut.joinLeft, blk, hlt, hxm]
    · subst hxm; simp [Cut.joinLeft, blk, hlt, not_lt.mp hlt]
    · simp [Cut.joinLeft, blk, hlt, hxm]
  by_cases hlt : c.start < c.s.startseq m
  · refine ⟨(c.joinLeft ti m).s, ?_, h.update ?_ hupd ?_, ?_, ?_, hupd⟩
    all_goals simp [Cut.joinLeft, hlt]
    omega
  · refine ⟨(c.joinLeft ti m).s, ?_, h.update ?_ hupd ?_, ?_, ?_, hupd⟩
    all_goals simp [Cut.joinLeft, hlt]
    omega

/-- `joinRight` changes the block it merges with, and nothing else of the queue. -/
theorem joinRight_spec (h : Holds c.s (A ++ m :: B)) (ti : TcpFlag) :
    ∃ s', c.joinRight ti m = ⟨s', c.start, c.s.startseq m, c.p, some m, true, c.initcnt⟩ ∧
      Holds s' (A ++ m :: B) ∧ s'.toRqLinks = c.s.toRqLinks ∧ s'.rcvNxt = c.s.rcvNxt ∧
      s'.blk = Function.update c.s.blk m
        ⟨c.s.startseq m, max (c.s.endseq m) c.stop, c.s.pflags m ||| ti⟩ := by
  have hupd : (c.joinRight ti m).s.blk = Function.update c.s.blk m
      ⟨c.s.startseq m, max (c.s.endseq m) c.stop, c.s.pflags m ||| ti⟩ := by
    funext x
    by_cases hlt : c.s.endseq m < c.stop <;> by_cases hxm : x = m
    · subst hxm; simp [Cut.joinRight, blk, hlt, hlt.le]
    · simp [Cut.joinRight, blk, hlt, hxm]
    · subst hxm; simp [Cut.joinRight, blk, hlt, not_lt.mp hlt]
    · simp [Cut.joinRight, blk, hlt, hxm]
  by_cases hlt : c.s.endseq m < c.stop
  · refine ⟨(c.joinRight ti m).s, ?_, h.update ?_ hupd ?_, ?_, ?_, hupd⟩
    all_goals simp [Cut.joinRight, hlt]
    omega
  · refine ⟨(c.joinRight ti m).s, ?_, h.update ?_ hupd ?_, ?_, ?_, hupd⟩
    all_goals simp [Cut.joinRight, hlt]
    omega

theorem leftMerge_join (h : Holds c.s (A ++ m :: B)) (hp : c.p = A.getLast?)
    (hm : A = [] ∨ c.s.startseq m < c.start) : c.leftMerge ti = some (c.joinLeft ti m) := by
  rcases List.eq_nil_or_concat A with rfl | ⟨A, p, rfl⟩
  · have hh : c.s.head = some m := h.fifo.head_eq
    simp [Cut.leftMerge, hp, hh]
  · rw [List.concat_eq_append] at *
    have hn : c.s.next p = some m := by
      have h' : Holds c.s (A ++ p :: (m :: B)) := by simpa using h
      exact h'.fifo.links.1
    have hlt := hm.resolve_left (by simp)
    simp [Cut.leftMerge, hp, hn, hlt]

theorem leftMerge_skip (h : Holds c.s (A ++ m :: B)) (hp : c.p = A.getLast?) (hA : A ≠ [])
    (hm : c.start ≤ c.s.startseq m) : c.leftMerge ti = some c := by
  rcases List.eq_nil_or_concat A with rfl | ⟨A, p, rfl⟩
  · exact absurd rfl hA
  · rw [List.concat_eq_append] at *
    have hn : c.s.next p = some m := by
      have h' : Holds c.s (A ++ p :: (m :: B)) := by simpa using h
      exact h'.fifo.links.1
    simp [Cut.leftMerge, hp, hn, not_lt.mpr hm]

theorem rightMerge_join (h : Holds c.s (A ++ m :: B)) (hq : c.q = B.head?)
    (hm : B = [] ∨ c.stop < c.s.endseq m) : c.rightMerge ti = some (c.joinRight ti m) := by
  cases B with
  | nil =>
      have ht : c.s.tail = some m := by rw [h.fifo.tail_eq]; simp
      simp [Cut.rightMerge, hq, ht]
  | cons q B =>
      have hn : c.s.prev q = some m := by
        have h' : Holds c.s (A ++ [m] ++ q :: B) := by simpa using h
        rw [h'.fifo.links.2]; simp
      have hlt := hm.resolve_left (by simp)
      simp [Cut.rightMerge, hq, hn, hlt]

theorem rightMerge_skip (h : Holds c.s (A ++ m :: B)) (hq : c.q = B.head?) (hB : B ≠ [])
    (hm : c.s.endseq m ≤ c.stop) : c.rightMerge ti = some c := by
  cases B with
  | nil => exact absurd rfl hB
  | cons q B =>
      have hn : c.s.prev q = some m := by
        have h' : Holds c.s (A ++ [m] ++ q :: B) := by simpa using h
        rw [h'.fifo.links.2]; simp
      simp [Cut.rightMerge, hq, hn, not_lt.mpr hm]

theorem gives_settled {s : Rq} {L : List Nat} (h : Holds s L) (hL : L ≠ []) (ti : TcpFlag) :
    Gives (s.head.map (s.advance ti)) (SegList.settled s.rcvNxt ti (L.map s.blk)) := by
  cases L with
  | nil => exact absurd rfl hL
  | cons x L =>
      have hh : s.head = some x := h.fifo.head_eq
      rw [hh]
      exact gives_advance h ti x

/-- Nothing is overlapped, and the segment lies between two blocks. -/
theorem mergeSides_gap {s : Rq} {p q : Nat} (h : Holds s (A ++ p :: q :: B)) (hlt : start < stop)
    (hp : s.endseq p ≤ start) (hq : stop ≤ s.startseq q) :
    Gives (mergeSides ⟨s, start, stop, some p, some q, false, ic⟩ ti rqf)
      (SegList.placed s.rcvNxt ((A ++ [p]).map s.blk) ⟨start, stop, ti⟩ ((q :: B).map s.blk)) := by
  have h₁ : Holds s (A ++ [p] ++ q :: B) := by simpa using h
  have hlm : Cut.leftMerge ⟨s, start, stop, some p, some q, false, ic⟩ ti =
      some ⟨s, start, stop, some p, some q, false, ic⟩ :=
    leftMerge_skip h₁ (by simp) (by simp) (by dsimp only; omega)
  have hrm : Cut.rightMerge ⟨s, start, stop, some p, some q, false, ic⟩ ti =
      some ⟨s, start, stop, some p, some q, false, ic⟩ :=
    rightMerge_skip h (by simp) (by simp) (by dsimp only; omega)
  have hn : s.next p = some q := h.fifo.links.1
  simp only [mergeSides, hlm, hrm, Option.bind_eq_bind, Option.bind_some, if_neg (not_le.mpr hlt),
    Bool.false_eq_true, if_false]
  refine endfast_spec ti rqf (c := ⟨s, start, stop, some p, some q, _, ic⟩) h₁ (by simp) (by simp) ?_
  simp [AdjLeft, AdjRight, hn, hp, hq]

theorem map_update_middle {α β : Type*} [DecidableEq α] {f : α → β} {a : α} {l k : List α}
    (h : a ∉ l ∧ a ∉ k) (v : β) :
    (l ++ a :: k).map (Function.update f a v) = l.map f ++ v :: k.map f := by
  rw [List.map_append, List.map_cons, map_update_of_notMem h.1, map_update_of_notMem h.2,
    Function.update_self]

theorem blk_update {s s₁ : Rq} {i j : ℤ} {f : TcpFlag}
    (h : s₁.blk = Function.update s.blk m ⟨i, j, f⟩) :
    s₁.startseq m = i ∧ s₁.endseq m = j ∧ s₁.pflags m = f := by
  simpa [blk] using congrFun h m

/-- A block sticks out on the left. -/
theorem mergeSides_left {s : Rq} (h : Holds s (A ++ m :: B)) (hm : s.startseq m < start)
    (hme : start < s.endseq m) :
    Gives (mergeSides ⟨s, start, stop, A.getLast?, B.head?, false, ic⟩ ti rqf)
      (SegList.merge s.rcvNxt start stop ti (A.map s.blk) [s.blk m] (B.map s.blk)) := by
  have hx := h.fifo.not_mem
  have hmerge : SegList.merge s.rcvNxt start stop ti (A.map s.blk) [s.blk m] (B.map s.blk) =
      if stop ≤ s.endseq m ∨ B = [] then
        SegList.settled s.rcvNxt ti (A.map s.blk ++
          ⟨s.startseq m, max (s.endseq m) stop, s.pflags m ||| ti⟩ :: B.map s.blk)
      else SegList.placed s.rcvNxt (A.map s.blk ++ [(s.blk m).orFlag ti]) ⟨s.endseq m, stop, ti⟩
        (B.map s.blk) := by
    simp [SegList.merge, blk, hm]
  rw [hmerge]
  have hlm : Cut.leftMerge ⟨s, start, stop, A.getLast?, B.head?, false, ic⟩ ti = _ :=
    leftMerge_join h rfl (.inr hm)
  obtain ⟨s₁, he₁, h₁, -, hr₁, hb₁⟩ := joinLeft_spec
    (c := ⟨s, start, stop, A.getLast?, B.head?, false, ic⟩) h ti
  dsimp only at he₁ hb₁ hr₁
  rw [min_eq_right hm.le] at hb₁
  obtain ⟨hs₁, hend₁, hf₁⟩ := blk_update hb₁
  simp only [mergeSides, hlm, he₁, Option.bind_eq_bind, Option.bind_some]
  by_cases hjoin : B = [] ∨ stop < s.endseq m
  · rw [rightMerge_join h₁ rfl (by simpa [hend₁] using hjoin)]
    obtain ⟨s₂, he₂, h₂, -, hr₂, hb₂⟩ := joinRight_spec
      (c := ⟨s₁, s.endseq m, stop, some m, B.head?, true, ic - 1⟩) h₁ ti
    dsimp only at he₂ hb₂ hr₂
    rw [he₂, Option.bind_some, if_pos (by dsimp only; omega), if_pos (hjoin.symm.imp_left le_of_lt)]
    have hg := gives_settled h₂ (by simp) ti
    rw [hb₂, hb₁, Function.update_idem, map_update_middle hx, hr₂, hr₁, hs₁, hend₁, hf₁,
      BitVec.or_assoc, BitVec.or_self] at hg
    exact hg
  · obtain ⟨hB, hle⟩ := not_or.mp hjoin
    rw [rightMerge_skip h₁ rfl hB (by dsimp only; omega), Option.bind_some]
    dsimp only
    by_cases hend : stop ≤ s.endseq m
    · rw [if_pos hend, if_pos (.inl hend), max_eq_left hend]
      have hg := gives_settled h₁ (by simp) ti
      rwa [hb₁, map_update_middle hx, hr₁] at hg
    · rw [if_neg hend, if_pos rfl, if_neg (not_or.mpr ⟨hend, hB⟩)]
      have h₂ : Holds s₁ (A ++ [m] ++ B) := by simpa using h₁
      have hg := endfast_spec ti rqf (c := ⟨s₁, s.endseq m, stop, some m, B.head?, true, ic - 1⟩)
        h₂ (by simp) rfl (by simp [AdjLeft, hend₁])
      dsimp only at hg
      rw [List.map_append, List.map_singleton, hb₁, map_update_of_notMem hx.1,
        map_update_of_notMem hx.2, Function.update_self, hr₁] at hg
      exact hg

/-- A block sticks out on the right only. -/
theorem mergeSides_right {s : Rq} (h : Holds s (A ++ m :: B)) (hm : start ≤ s.startseq m)
    (hms : s.startseq m < s.endseq m) (hme : stop < s.endseq m) :
    Gives (mergeSides ⟨s, start, stop, A.getLast?, B.head?, false, ic⟩ ti rqf)
      (SegList.merge s.rcvNxt start stop ti (A.map s.blk) [s.blk m] (B.map s.blk)) := by
  have hx := h.fifo.not_mem
  have hmerge : SegList.merge s.rcvNxt start stop ti (A.map s.blk) [s.blk m] (B.map s.blk) =
      if A = [] ∨ start = s.startseq m then
        SegList.settled s.rcvNxt ti (A.map s.blk ++
          ⟨start, s.endseq m, s.pflags m ||| ti⟩ :: B.map s.blk)
      else SegList.placed s.rcvNxt (A.map s.blk) ⟨start, s.startseq m, ti⟩
        ((s.blk m).orFlag ti :: B.map s.blk) := by
    simp [SegList.merge, blk, not_lt.mpr hm]
  rw [hmerge]
  by_cases hA : A = []
  · subst hA
    -- the block is the first: its start moves down to the segment's
    have hlm : Cut.leftMerge ⟨s, start, stop, none, B.head?, false, ic⟩ ti = _ :=
      leftMerge_join h rfl (.inl rfl)
    obtain ⟨s₁, he₁, h₁, -, hr₁, hb₁⟩ := joinLeft_spec
      (c := ⟨s, start, stop, none, B.head?, false, ic⟩) h ti
    dsimp only at he₁ hb₁ hr₁
    rw [min_eq_left hm] at hb₁
    obtain ⟨hs₁, hend₁, hf₁⟩ := blk_update hb₁
    simp only [mergeSides, List.getLast?_nil, hlm, he₁, Option.bind_eq_bind, Option.bind_some]
    rw [rightMerge_join h₁ rfl (.inr (by dsimp only; omega))]
    obtain ⟨s₂, he₂, h₂, -, hr₂, hb₂⟩ := joinRight_spec
      (c := ⟨s₁, s.endseq m, stop, some m, B.head?, true, ic - 1⟩) h₁ ti
    dsimp only at he₂ hb₂ hr₂
    rw [he₂, Option.bind_some, if_pos (by dsimp only; omega), if_pos (.inl trivial)]
    have hg := gives_settled h₂ (by simp) ti
    rw [hb₂, hb₁, Function.update_idem, map_update_middle hx, hr₂, hr₁, hs₁, hend₁, hf₁,
      BitVec.or_assoc, BitVec.or_self, max_eq_left hme.le] at hg
    exact hg
  · have hlm : Cut.leftMerge ⟨s, start, stop, A.getLast?, B.head?, false, ic⟩ ti = _ :=
      leftMerge_skip h rfl hA hm
    have hrm : Cut.rightMerge ⟨s, start, stop, A.getLast?, B.head?, false, ic⟩ ti = _ :=
      rightMerge_join h rfl (.inr hme)
    obtain ⟨s₁, he₁, h₁, -, hr₁, hb₁⟩ := joinRight_spec
      (c := ⟨s, start, stop, A.getLast?, B.head?, false, ic⟩) h ti
    dsimp only at he₁ hb₁ hr₁
    rw [max_eq_left hme.le] at hb₁
    obtain ⟨hs₁, hend₁, hf₁⟩ := blk_update hb₁
    simp only [mergeSides, hlm, hrm, he₁, Option.bind_eq_bind, Option.bind_some]
    by_cases hset : start = s.startseq m
    · rw [if_pos hset.ge, if_pos (.inr hset)]
      have hg := gives_settled h₁ (by simp) ti
      rwa [hb₁, map_update_middle hx, hr₁, ← hset] at hg
    · rw [if_neg (by omega), if_pos trivial, if_neg (not_or.mpr ⟨hA, hset⟩)]
      have hg := endfast_spec ti rqf (c := ⟨s₁, start, s.startseq m, A.getLast?, some m, true, ic⟩)
        h₁ rfl (by simp) (by simp [AdjRight, hs₁])
      dsimp only at hg
      rw [List.map_cons, hb₁, map_update_of_notMem hx.1, map_update_of_notMem hx.2,
        Function.update_self, hr₁] at hg
      exact hg

/-- A block sticks out on either side. -/
theorem mergeSides_both {s : Rq} {l r : Nat} (h : Holds s (A ++ l :: r :: B))
    (hl : s.startseq l < start) (hlr : s.endseq l < s.startseq r) (hr : stop < s.endseq r) :
    Gives (mergeSides ⟨s, start, stop, A.getLast?, B.head?, false, ic⟩ ti rqf)
      (SegList.merge s.rcvNxt start stop ti (A.map s.blk) [s.blk l, s.blk r] (B.map s.blk)) := by
  have hx := h.fifo.not_mem
  have h' : Holds s (A ++ [l] ++ r :: B) := by simpa using h
  have hy := h'.fifo.not_mem
  have hlm : Cut.leftMerge ⟨s, start, stop, A.getLast?, B.head?, false, ic⟩ ti = _ :=
    leftMerge_join h rfl (.inr hl)
  obtain ⟨s₁, he₁, h₁, -, hr₁, hb₁⟩ := joinLeft_spec
    (c := ⟨s, start, stop, A.getLast?, B.head?, false, ic⟩) h ti
  dsimp only at he₁ hb₁ hr₁
  rw [min_eq_right hl.le] at hb₁
  have hrl : r ≠ l := fun e => hx.2 (by simp [e])
  obtain ⟨hs₁, hend₁, hf₁⟩ : s₁.startseq r = s.startseq r ∧ s₁.endseq r = s.endseq r ∧
      s₁.pflags r = s.pflags r := by
    have := congrFun hb₁ r
    simpa [blk, hrl] using this
  have h₁' : Holds s₁ (A ++ [l] ++ r :: B) := by simpa using h₁
  simp only [mergeSides, hlm, he₁, Option.bind_eq_bind, Option.bind_some]
  rw [rightMerge_join h₁' rfl (.inr (by dsimp only; omega))]
  obtain ⟨s₂, he₂, h₂, -, hr₂, hb₂⟩ := joinRight_spec
    (c := ⟨s₁, s.endseq l, stop, some l, B.head?, true, ic - 1⟩) h₁' ti
  dsimp only at he₂ hb₂ hr₂
  rw [hs₁, hend₁, hf₁, max_eq_left hr.le, hb₁] at hb₂
  rw [he₂, Option.bind_some, if_neg (by dsimp only; omega), if_pos rfl]
  have hg := endfast_spec ti rqf (c := ⟨s₂, s.endseq l, s₁.startseq r, some l, some r, true, ic - 1⟩)
    h₂ (by simp) (by simp) (by
      have := congrFun hb₂ l
      simp only [Function.update_of_ne hrl.symm, Function.update_self, blk, Block.mk.injEq] at this
      simp [AdjLeft, this])
  dsimp only at hg
  rw [hb₂, List.map_append, List.map_singleton, List.map_cons,
    map_update_of_notMem (a := r) (l := A) (fun e => hy.1 (by simp [e])),
    map_update_of_notMem hx.1, map_update_of_notMem hy.2,
    map_update_of_notMem (fun e => hx.2 (by simp [e])), Function.update_self,
    Function.update_of_ne hrl.symm, Function.update_self, hr₂, hr₁, hs₁] at hg
  rw [hs₁]
  exact hg

/-- **The merges.**  Once no overlapped block is covered. -/
theorem mergeSides_spec {s : Rq} {M : List Nat} (h : Holds s (A ++ (M ++ B)))
    (hwm : SegList.Wf (M.map s.blk))
    (hsp : SegList.Split start stop ((A ++ (M ++ B)).map s.blk) (A.map s.blk) (M.map s.blk)
      (B.map s.blk)) (hunc : ∀ x ∈ M, ¬ SegList.Covers start stop (s.blk x)) (hlt : start < stop)
    (hA : A ++ M ≠ []) (hB : M ++ B ≠ []) :
    Gives (mergeSides ⟨s, start, stop, A.getLast?, B.head?, false, ic⟩ ti rqf)
      (SegList.merge s.rcvNxt start stop ti (A.map s.blk) (M.map s.blk) (B.map s.blk)) := by
  have hunc' : ∀ x ∈ M.map s.blk, ¬ SegList.Covers start stop x := by simpa using hunc
  have hov := hsp.meets
  generalize hMe : M.map s.blk = mb at *
  cases SegList.shape_of_overlap hwm hov with
  | within _ hk =>
      obtain rfl : mb = [] := List.eq_nil_iff_forall_not_mem.mpr fun x hx => hunc' x hx (hk x hx)
      obtain rfl : M = [] := by simpa using hMe
      rw [List.append_nil] at hA
      rw [List.nil_append] at hB
      rcases List.eq_nil_or_concat A with rfl | ⟨A, p, rfl⟩
      · exact absurd rfl hA
      cases B with
      | nil => exact absurd rfl hB
      | cons q B =>
          rw [List.concat_eq_append] at *
          have hp := hsp.below (s.blk p) (by simp)
          have hq := hsp.above (s.blk q) (by simp)
          have hg : Gives (mergeSides ⟨s, start, stop, some p, some q, false, ic⟩ ti rqf) _ :=
            mergeSides_gap (A := A) (B := B) (by simpa using h) hlt hp hq
          rw [SegList.merge, if_neg (by omega)]
          simpa using hg
  | left l k hl hk =>
      obtain rfl : k = [] := List.eq_nil_iff_forall_not_mem.mpr fun x hx =>
        hunc' x (by simp [hx]) (hk x hx)
      obtain ⟨m, rfl, rfl⟩ : ∃ m, M = [m] ∧ s.blk m = l := by
        simpa [List.map_eq_singleton_iff] using hMe
      exact mergeSides_left h hl (hov (s.blk m) (by simp)).1
  | right k r hrs hre hk =>
      obtain rfl : k = [] := List.eq_nil_iff_forall_not_mem.mpr fun x hx =>
        hunc' x (by simp [hx]) (hk x hx)
      obtain ⟨m, rfl, rfl⟩ : ∃ m, M = [m] ∧ s.blk m = r := by
        simpa [List.map_eq_singleton_iff] using hMe
      exact mergeSides_right h hrs (hwm.nonempty (s.blk m) (by simp)) hre
  | both l k r hl hr hk =>
      obtain rfl : k = [] := List.eq_nil_iff_forall_not_mem.mpr fun x hx =>
        hunc' x (by simp [hx]) (hk x hx)
      obtain ⟨x, M, rfl, rfl, hM⟩ := List.map_eq_cons_iff.mp hMe
      obtain ⟨y, rfl, rfl⟩ : ∃ m, M = [m] ∧ s.blk m = r := by
        simpa [List.map_eq_singleton_iff] using hM
      refine mergeSides_both h hl ?_ hr
      exact (Normal.cons_iff.mp hwm).2.1 (s.blk y) (by simp)

end Merge

/-! ### `add` -/

section Add

variable {s : Rq} {A M B : List Nat} {start stop ic : Int} {ti : TcpFlag} {rqf : Int} {fuel : Nat}

/-! #### One pass of `again2` -/

/-- A segment that starts where the last block ends or after. -/
theorem again2_of_tail {x t : Nat} (hh : s.head = some x) (ht : s.tail = some t)
    (hge : start ≥ s.endseq t) : again2 start stop rqf (fuel + 1) s ti ic =
      endfast ⟨s, start, stop, some t, none, start = s.endseq t, ic⟩ ti rqf := by
  simp only [again2, hh, ht, Option.bind_eq_bind, Option.bind_some]
  rw [if_pos hge]

/-- A segment that ends where the first block starts or before. -/
theorem again2_of_head {x t : Nat} (hh : s.head = some x) (ht : s.tail = some t)
    (hlt : ¬ start ≥ s.endseq t) (hle : stop ≤ s.startseq x) :
    again2 start stop rqf (fuel + 1) s ti ic =
      endfast ⟨s, start, stop, none, some x, stop = s.startseq x, ic⟩ ti rqf := by
  simp only [again2, hh, ht, Option.bind_eq_bind, Option.bind_some]
  rw [if_neg hlt, if_pos hle]

/-- Otherwise the pass goes on as the kill loop ends. -/
theorem again2_of_search {x t : Nat} {p q : Option Nat} (hh : s.head = some x)
    (ht : s.tail = some t) (hlt : ¬ start ≥ s.endseq t) (hgt : ¬ stop ≤ s.startseq x)
    (hq : s.searchAfter stop (s.brk + 1) s.head = some q)
    (hp : s.searchBefore start (s.brk + 1) s.tail = some p) :
    again2 start stop rqf (fuel + 1) s ti ic =
      (kill start stop q (s.brk + 1) s (p.or s.head) ti ic false).bind fun
        | .dup flags s' => some (flags, s')
        | .rest s' ti' ic' altered =>
            if s'.head = none then endfast ⟨s', start, stop, p, q, false, ic'⟩ ti' rqf
            else if altered then again2 start stop rqf fuel s' ti' ic'
            else mergeSides ⟨s', start, stop, p, q, false, ic'⟩ ti' rqf := by
  rw [hh] at hq
  rw [ht] at hp
  simp only [again2, hh, ht, Option.bind_eq_bind, Option.bind_some]
  rw [if_neg hlt, if_neg hgt, hq, Option.bind_some, hp]
  rfl

/-! #### The queue around a segment -/

/-- The overlapped blocks that the segment covers. -/
def covered (s : Rq) (start stop : Int) (M : List Nat) : List Nat :=
  M.filter fun w => SegList.Covers start stop (s.blk w)

/-- Those it does not cover. -/
def uncovered (s : Rq) (start stop : Int) (M : List Nat) : List Nat :=
  M.filter fun w => ¬ SegList.Covers start stop (s.blk w)

theorem covered_nil (s : Rq) (start stop : Int) : covered s start stop [] = [] := rfl

theorem uncovered_nil (s : Rq) (start stop : Int) : uncovered s start stop [] = [] := rfl

theorem covered_append (s : Rq) (start stop : Int) (A M : List Nat) :
    covered s start stop (A ++ M) = covered s start stop A ++ covered s start stop M :=
  List.filter_append ..

theorem covered_eq_nil (h : ∀ x ∈ M, ¬ SegList.Covers start stop (s.blk x)) :
    covered s start stop M = [] := by
  rw [covered, List.filter_eq_nil_iff]
  simpa using h

theorem uncovered_eq_self (h : ∀ x ∈ M, ¬ SegList.Covers start stop (s.blk x)) :
    uncovered s start stop M = M := by
  rw [uncovered, List.filter_eq_self]
  simpa using h

theorem not_covers_of_mem_uncovered {x : Nat} (hx : x ∈ uncovered s start stop M) :
    ¬ SegList.Covers start stop (s.blk x) := by
  simpa using (List.mem_filter.mp hx).2

theorem map_filter_blk (s : Rq) (M : List Nat) (f : Block → Bool) :
    (M.filter fun w => f (s.blk w)).map s.blk = (M.map s.blk).filter f := by
  rw [List.filter_map]; rfl

/-- The kill loop starts at the block before the segment, if there is one. -/
theorem Holds.start_kill (h : Holds s (A ++ (M ++ B))) :
    ∃ P X, A = P ++ X ∧ (P = [] ∨ ∃ p, X = [p]) ∧
      A.getLast?.or s.head = (X ++ M ++ B).head? := by
  rcases List.eq_nil_or_concat A with rfl | ⟨P, p, rfl⟩
  · exact ⟨[], [], rfl, .inl rfl, by simpa using h.fifo.head_eq⟩
  · exact ⟨P, [p], by simp, .inr ⟨p, rfl⟩, by simp⟩

/-- The FIFO split around a segment; the queue may hold blocks without bytes. -/
structure Bracket (s : Rq) (start stop : Int) (A M B : List Nat) : Prop where
  holds : Holds s (A ++ (M ++ B))
  loose : SegList.Loose ((A ++ (M ++ B)).map s.blk)
  split : SegList.Split start stop ((A ++ (M ++ B)).map s.blk) (A.map s.blk) (M.map s.blk)
    (B.map s.blk)
  lt : start < stop

namespace Bracket

theorem ordered (h : Bracket s start stop A M B) {x : Nat} (hx : x ∈ A ++ (M ++ B)) :
    s.startseq x ≤ s.endseq x :=
  h.loose.ordered (s.blk x) (List.mem_map_of_mem hx)

theorem below (h : Bracket s start stop A M B) {x : Nat} (hx : x ∈ A) : s.endseq x ≤ start :=
  h.split.below (s.blk x) (List.mem_map_of_mem hx)

theorem meets (h : Bracket s start stop A M B) {x : Nat} (hx : x ∈ M) :
    start < s.endseq x ∧ s.startseq x < stop :=
  h.split.meets (s.blk x) (List.mem_map_of_mem hx)

theorem above (h : Bracket s start stop A M B) {x : Nat} (hx : x ∈ B) : stop ≤ s.startseq x :=
  h.split.above (s.blk x) (List.mem_map_of_mem hx)

theorem start_lt (h : Bracket s start stop A M B) {x : Nat} (hx : x ∈ A ++ M) :
    s.startseq x < stop := by
  rcases List.mem_append.mp hx with ha | hm
  · have h₁ := h.below ha
    have h₂ := h.ordered (x := x) (by simp [ha])
    have h₃ := h.lt
    omega
  · exact (h.meets hm).2

theorem lt_end (h : Bracket s start stop A M B) {x : Nat} (hx : x ∈ M ++ B) :
    start < s.endseq x := by
  rcases List.mem_append.mp hx with hm | hb
  · exact (h.meets hm).1
  · have h₁ := h.above hb
    have h₂ := h.ordered (x := x) (by simp [hb])
    have h₃ := h.lt
    omega

/-- The fast path at the tail is taken when nothing lies over or after the segment. -/
theorem tail_iff (h : Bracket s start stop A M B) {t : Nat}
    (ht : (A ++ (M ++ B)).getLast? = some t) : start ≥ s.endseq t ↔ M ++ B = [] := by
  constructor
  · intro hge
    by_contra hne
    rw [List.getLast?_append_of_ne_nil _ hne] at ht
    exact absurd (h.lt_end (List.mem_of_mem_getLast? ht)) (not_lt.mpr hge)
  · intro he
    rw [he, List.append_nil] at ht
    exact h.below (List.mem_of_mem_getLast? ht)

/-- The fast path at the head is taken when nothing lies before or over the segment. -/
theorem head_iff (h : Bracket s start stop A M B) {x : Nat}
    (hx : (A ++ (M ++ B)).head? = some x) : stop ≤ s.startseq x ↔ A ++ M = [] := by
  rw [← List.append_assoc] at hx
  constructor
  · intro hge
    by_contra hne
    rw [List.head?_append_of_ne_nil _ hne] at hx
    exact absurd (h.start_lt (List.mem_of_mem_head? hx)) (not_lt.mpr hge)
  · intro he
    rw [he, List.nil_append] at hx
    exact h.above (List.mem_of_mem_head? hx)

theorem searches (h : Bracket s start stop A M B) :
    s.searchAfter stop (s.brk + 1) s.head = some B.head? ∧
      s.searchBefore start (s.brk + 1) s.tail = some A.getLast? := by
  have hd := h.holds.fifo
  have hlen := h.holds.length_lt
  rw [hd.head_eq, hd.tail_eq]
  constructor
  · rw [← List.append_assoc]
    exact searchAfter_spec (P := []) (X := A ++ M) (Y := B) (by simpa using hd)
      (fun x hx => h.start_lt hx) (fun y hy => h.above hy) (by simp at hlen ⊢; omega)
  · exact searchBefore_spec (P := []) (X := A) (Y := M ++ B) (by simpa using hd)
      (fun x hx => h.below hx) (fun y hy => h.lt_end hy) (by simp at hlen ⊢; omega)

/-- Of the blocks before the segment only the one the kill loop starts at can be covered, when it is
empty. -/
theorem start_kill (h : Bracket s start stop A M B) :
    ∃ P X, A = P ++ X ∧ A.getLast?.or s.head = (X ++ M ++ B).head? ∧
      ∀ x ∈ P, ¬ SegList.Covers start stop (s.blk x) := by
  obtain ⟨P, X, rfl, hPX, hst⟩ := h.holds.start_kill
  refine ⟨P, X, rfl, hst, fun x hx hc => ?_⟩
  rcases hPX with rfl | ⟨p, rfl⟩
  · simp at hx
  · have hl : SegList.Loose (P.map s.blk ++ s.blk p :: (M ++ B).map s.blk) := by
      simpa using h.loose
    have h₁ : s.endseq x < s.startseq p := (Loose.split_at hl).1 _ (List.mem_map_of_mem hx)
    have h₂ := h.below (x := p) (by simp)
    have h₃ := h.ordered (x := p) (by simp)
    have h₄ := h.ordered (x := x) (by simp [hx])
    have h₅ : start ≤ s.startseq x := hc.1
    omega

/-- The kill loop, without an exact duplicate. -/
theorem kill_rest (h : Bracket s start stop A M B)
    (hne : ∀ x ∈ M, ¬ (start = s.startseq x ∧ stop = s.endseq x)) (ti : TcpFlag) (ic : Int) :
    ∃ s' c', kill start stop B.head? (s.brk + 1) s (A.getLast?.or s.head) ti ic false =
        some (.rest s' (ti ||| SegList.orFlags ((covered s start stop (A ++ M)).map s.blk)) c'
          ((A ++ M).any fun w => SegList.Covers start stop (s.blk w))) ∧
      Holds s' (uncovered s start stop A ++ (uncovered s start stop M ++ B)) ∧
      s'.blk = s.blk ∧ s'.rcvNxt = s.rcvNxt := by
  have hlt := h.lt
  have hbelow : ∀ x ∈ A, ¬ (start = s.startseq x ∧ stop = s.endseq x) := fun x hx e => by
    have hx' := h.below hx
    omega
  obtain ⟨P, X, rfl, hst, hP⟩ := h.start_kill
  have hlen := h.holds.length_lt
  obtain ⟨s', c', h₁, h₂, h₃⟩ := kill_spec start stop (s.brk + 1) (P := P) (W := X ++ M)
    (B := B) (by simpa using h.holds) (fun w hw => by
      rcases List.mem_append.mp hw with hw | hw
      · exact hbelow w (by simp [hw])
      · exact hne w hw) (by simp at hlen ⊢; omega) ti ic false
  have hPf : uncovered s start stop P = P := uncovered_eq_self hP
  have hPc : covered s start stop P = [] := covered_eq_nil hP
  have hPa : P.any (fun w => decide (SegList.Covers start stop (s.blk w))) = false := by
    rw [List.any_eq_false]; simpa using hP
  have hany : (P ++ (X ++ M)).any (fun w => decide (SegList.Covers start stop (s.blk w))) =
      (X ++ M).any fun w => decide (SegList.Covers start stop (s.blk w)) := by
    rw [List.any_append, hPa, Bool.false_or]
  rw [hst]
  refine ⟨s', c', ?_, ?_, h₃⟩
  · rw [h₁, ← map_filter_blk, List.append_assoc P, covered_append, hPc, hany]
    simp [covered]
  · rw [List.filter_append, List.append_assoc] at h₂
    have hPX : uncovered s start stop (P ++ X) = P ++ uncovered s start stop X := by
      rw [uncovered, List.filter_append]
      exact congrArg (· ++ _) hPf
    rw [hPX, List.append_assoc]
    exact h₂

/-- An overlapped block with the bounds of the segment is the only one. -/
theorem exact_alone (h : Bracket s start stop A M B) {c : Nat} (hc : c ∈ M)
    (hs : start = s.startseq c) (he : stop = s.endseq c) : M = [c] := by
  have hlm : SegList.Loose (M.map s.blk) := h.loose.sublist (by simp)
  have hm := SegList.eq_singleton_of_exact hlm h.split.meets (List.mem_map_of_mem (f := s.blk) hc)
    hs.symm he.symm
  obtain ⟨c', rfl, -⟩ := List.map_eq_singleton_iff.mp hm
  rw [List.mem_singleton.mp hc]

/-- The kill loop, at an exact duplicate. -/
theorem kill_exact {c : Nat} (h : Bracket s start stop A [c] B) (hs : start = s.startseq c)
    (he : stop = s.endseq c) (ti : TcpFlag) (ic : Int) :
    kill start stop B.head? (s.brk + 1) s (A.getLast?.or s.head) ti ic false =
      some (.dup (s.pflags c ||| ti)
        { s with pflags := Function.update s.pflags c (s.pflags c ||| ti) }) := by
  have hA : ∀ x ∈ A, ¬ SegList.Covers start stop (s.blk x) := fun x hx hc => by
    have hl : SegList.Loose (A.map s.blk ++ s.blk c :: B.map s.blk) := by simpa using h.loose
    have h₁ : s.endseq x < s.startseq c := (Loose.split_at hl).1 _ (List.mem_map_of_mem hx)
    have h₂ := h.ordered (x := x) (by simp [hx])
    have h₃ : start ≤ s.startseq x := hc.1
    omega
  obtain ⟨P, X, rfl, hst, -⟩ := h.start_kill
  have hlen := h.holds.length_lt
  have hd : DLL s.next s.prev s.head s.tail (P ++ (X ++ c :: B)) := by simpa using h.holds.fifo
  rw [hst, List.append_assoc, List.singleton_append]
  refine kill_dup hd (fun w hw => hA w (by simp [hw])) hs he ?_ (by simp at hlen ⊢; omega)
    ti ic false
  intro w hw e
  have hwB := List.mem_of_mem_head? e
  have hnd := List.nodup_append.mp (show (P ++ (X ++ [c]) ++ B).Nodup by simpa using hd.nodup)
  exact hnd.2.2 w (by simp at hw ⊢; tauto) w hwB rfl

/-- Removing blocks before and over the segment leaves the queue split. -/
theorem sublist {s' : Rq} {A' M' : List Nat} (h : Bracket s start stop A M B) (hA : A'.Sublist A)
    (hM : M'.Sublist M) (hs : Holds s' (A' ++ (M' ++ B))) (hb : s'.blk = s.blk) :
    Bracket s' start stop A' M' B := by
  have hsub : (A' ++ (M' ++ B)).Sublist (A ++ (M ++ B)) := hA.append (hM.append_right B)
  refine ⟨hs, ?_, ?_, h.lt⟩
  · rw [hb]; exact h.loose.sublist (hsub.map s.blk)
  · rw [hb]; simpa using h.split.sublist (hA.map s.blk) (hM.map s.blk)

theorem ends (h : Bracket s start stop A M B) (hL : A ++ (M ++ B) ≠ []) :
    ∃ x t, (A ++ (M ++ B)).head? = some x ∧ (A ++ (M ++ B)).getLast? = some t ∧
      s.head = some x ∧ s.tail = some t := by
  have hd := h.holds.fifo
  have hx := List.head?_eq_some_head hL
  have ht := List.getLast?_eq_some_getLast hL
  exact ⟨_, _, hx, ht, hd.head_eq.trans hx, hd.tail_eq.trans ht⟩

/-- A segment after every block. -/
theorem again2_tail (h : Bracket s start stop A [] []) {t : Nat} (ht : A.getLast? = some t) :
    again2 start stop rqf (fuel + 1) s ti ic =
      endfast ⟨s, start, stop, some t, none, start = s.endseq t, ic⟩ ti rqf := by
  obtain ⟨x, t', -, ht', hh, htl⟩ := h.ends fun e => by
    obtain ⟨rfl, -⟩ := List.append_eq_nil_iff.mp e
    simp at ht
  obtain rfl : t = t' := by simpa [ht] using ht'
  exact again2_of_tail hh htl ((h.tail_iff ht').mpr rfl)

/-- A segment before every block. -/
theorem again2_head (h : Bracket s start stop [] [] B) {x : Nat} (hx : B.head? = some x) :
    again2 start stop rqf (fuel + 1) s ti ic =
      endfast ⟨s, start, stop, none, some x, stop = s.startseq x, ic⟩ ti rqf := by
  have hB : B ≠ [] := by rintro rfl; simp at hx
  obtain ⟨x', t, hx', ht, hh, htl⟩ := h.ends hB
  obtain rfl : x = x' := by simpa [hx] using hx'
  exact again2_of_head hh htl (fun hge => hB ((h.tail_iff ht).mp hge)) ((h.head_iff hx').mpr rfl)

/-- A segment between. -/
theorem again2_kill (h : Bracket s start stop A M B) (hA : A ++ M ≠ []) (hB : M ++ B ≠ []) :
    again2 start stop rqf (fuel + 1) s ti ic =
      (kill start stop B.head? (s.brk + 1) s (A.getLast?.or s.head) ti ic false).bind fun
        | .dup flags s' => some (flags, s')
        | .rest s' ti' ic' altered =>
            if s'.head = none then
              endfast ⟨s', start, stop, A.getLast?, B.head?, false, ic'⟩ ti' rqf
            else if altered then again2 start stop rqf fuel s' ti' ic'
            else mergeSides ⟨s', start, stop, A.getLast?, B.head?, false, ic'⟩ ti' rqf := by
  obtain ⟨x, t, hx, ht, hh, htl⟩ := h.ends fun e => hB (List.append_eq_nil_iff.mp e).2
  exact again2_of_search hh htl (fun hge => hB ((h.tail_iff ht).mp hge))
    (fun hge => hA ((h.head_iff hx).mp hge)) h.searches.1 h.searches.2

/-- A segment after or before every block is placed there. -/
theorem again2_edge (h : Bracket s start stop A M B) (hL : A ++ (M ++ B) ≠ [])
    (hedge : M ++ B = [] ∨ A ++ M = []) :
    Gives (again2 start stop rqf (fuel + 1) s ti ic)
      (SegList.placed s.rcvNxt (A.map s.blk) ⟨start, stop, ti⟩ (B.map s.blk)) := by
  rcases hedge with he | he <;> obtain ⟨rfl, rfl⟩ := List.append_eq_nil_iff.mp he
  · obtain ⟨t, ht⟩ : ∃ t, A.getLast? = some t :=
      ⟨_, List.getLast?_eq_some_getLast (by simpa using hL)⟩
    rw [h.again2_tail ht]
    refine endfast_spec _ _ (c := ⟨s, start, stop, some t, none, _, ic⟩) (B := []) h.holds ht.symm rfl
      ?_
    simp [AdjLeft, AdjRight, ht, eq_comm]
  · obtain ⟨x, hx⟩ : ∃ x, B.head? = some x := ⟨_, List.head?_eq_some_head (by simpa using hL)⟩
    rw [h.again2_head hx]
    refine endfast_spec _ _ (c := ⟨s, start, stop, none, some x, _, ic⟩) (A := []) h.holds rfl hx.symm
      ?_
    simp [AdjLeft, AdjRight, hx, eq_comm]

/-- At an exact duplicate only flags change. -/
theorem again2_dup {c : Nat} (h : Bracket s start stop A [c] B) (hs : start = s.startseq c)
    (he : stop = s.endseq c) :
    Gives (again2 start stop rqf (fuel + 1) s ti ic)
      ⟨A.map s.blk ++ (s.blk c).orFlag ti :: B.map s.blk, s.pflags c ||| ti, s.rcvNxt⟩ := by
  rw [h.again2_kill (by simp) (by simp), h.kill_exact hs he, Option.bind_some]
  have hupd : ({ s with pflags := Function.update s.pflags c (s.pflags c ||| ti) } : Rq).blk =
      Function.update s.blk c ((s.blk c).orFlag ti) := by
    funext y
    by_cases hy : y = c
    · subst hy; simp [blk, Block.orFlag]
    · simp [blk, hy]
  have hH : Holds s (A ++ c :: B) := h.holds
  refine ⟨_, A ++ c :: B, rfl, hH.update (v := (s.blk c).orFlag ti) rfl hupd ?_, ?_, rfl⟩
  · simp [blk]
  · rw [hupd, map_update_middle hH.fifo.not_mem]

/-- An overlapped block without bytes is covered. -/
theorem uncovered_wf (h : Bracket s start stop A M B) :
    SegList.Wf ((uncovered s start stop M).map s.blk) := by
  have hl : SegList.Loose ((uncovered s start stop M).map s.blk) :=
    h.loose.sublist ((List.filter_sublist.trans (by simp)).map s.blk)
  refine hl.normal fun b hb e => ?_
  obtain ⟨x, hx, rfl⟩ := List.mem_map.mp hb
  obtain ⟨h₁, h₂⟩ := h.meets (List.mem_filter.mp hx).1
  have he : s.startseq x = s.endseq x := e
  exact not_covers_of_mem_uncovered hx ⟨by simp only [blk]; omega, by simp only [blk]; omega⟩

/-- A pass that goes through the kill loop; `hrec` is what the next pass does when blocks have been
killed.  When all have been killed, there must have been none before the segment. -/
theorem again2_mid (h : Bracket s start stop A M B) (hA : A ++ M ≠ []) (hB : M ++ B ≠ [])
    (hne : ∀ x ∈ M, ¬ (start = s.startseq x ∧ stop = s.endseq x))
    (hall : uncovered s start stop A ++ (uncovered s start stop M ++ B) = [] → A = [])
    (hrec : ∀ s' ti' c', Bracket s' start stop (uncovered s start stop A)
      (uncovered s start stop M) B → s'.blk = s.blk → s'.rcvNxt = s.rcvNxt →
      uncovered s start stop A ++ (uncovered s start stop M ++ B) ≠ [] →
      (∃ x ∈ A ++ M, SegList.Covers start stop (s.blk x)) →
      Gives (again2 start stop rqf fuel s' ti' c')
        (SegList.merge s.rcvNxt start stop ti' ((uncovered s start stop A).map s.blk)
          ((uncovered s start stop M).map s.blk) (B.map s.blk))) :
    Gives (again2 start stop rqf (fuel + 1) s ti ic)
      (SegList.merge s.rcvNxt start stop
        (ti ||| SegList.orFlags ((covered s start stop (A ++ M)).map s.blk))
        ((uncovered s start stop A).map s.blk) ((uncovered s start stop M).map s.blk)
        (B.map s.blk)) := by
  obtain ⟨s', c', hk, hs', hb', hr'⟩ := h.kill_rest hne ti ic
  rw [h.again2_kill hA hB, hk, Option.bind_some]
  dsimp only
  generalize ti ||| SegList.orFlags _ = ti'
  have hbr : Bracket s' start stop (uncovered s start stop A) (uncovered s start stop M) B :=
    h.sublist List.filter_sublist List.filter_sublist hs' hb'
  by_cases hnil : uncovered s start stop A ++ (uncovered s start stop M ++ B) = []
  · -- everything was completely overlapped
    rw [if_pos (hs'.fifo.eq_nil_iff.mpr hnil)]
    obtain rfl := hall hnil
    obtain ⟨hM, rfl⟩ := List.append_eq_nil_iff.mp (List.append_eq_nil_iff.mp hnil).2
    rw [hM, uncovered_nil, List.map_nil, SegList.merge, if_neg (by simp), ← hr']
    have hs'' : Holds s' ([] ++ []) := by rw [hM] at hs'; exact hs'
    exact endfast_spec _ _ (c := ⟨s', start, stop, none, none, false, c'⟩) (A := []) (B := []) hs''
      rfl rfl (by simp [AdjLeft, AdjRight])
  rw [if_neg (hs'.fifo.eq_nil_iff.not.mpr hnil)]
  by_cases halt : ∃ w ∈ A ++ M, SegList.Covers start stop (s.blk w)
  · rw [if_pos (by simpa only [List.any_eq_true, decide_eq_true_eq] using halt)]
    exact hrec s' ti' c' hbr hb' hr' hnil halt
  · rw [if_neg (by simpa only [List.any_eq_true, decide_eq_true_eq] using halt)]
    push Not at halt
    have hAu : uncovered s start stop A = A := uncovered_eq_self fun x hx => halt x (by simp [hx])
    have hMu : uncovered s start stop M = M := uncovered_eq_self fun x hx => halt x (by simp [hx])
    have hwm := h.uncovered_wf
    rw [hAu, hMu] at hbr
    rw [hMu] at hwm
    rw [hAu, hMu]
    have hg : Gives (mergeSides ⟨s', start, stop, A.getLast?, B.head?, false, c'⟩ ti' rqf) _ :=
      mergeSides_spec hbr.holds (by rw [hb']; exact hwm) hbr.split
        (by rw [hb']; exact fun x hx => halt x (by simp [hx])) h.lt hA hB
    rwa [hb', hr'] at hg

/-- A pass that finds nothing to kill. -/
theorem again2_clean (h : Bracket s start stop A M B) (hL : A ++ (M ++ B) ≠ [])
    (hunc : ∀ x ∈ A ++ M, ¬ SegList.Covers start stop (s.blk x)) :
    Gives (again2 start stop rqf (fuel + 1) s ti ic)
      (SegList.merge s.rcvNxt start stop ti (A.map s.blk) (M.map s.blk) (B.map s.blk)) := by
  by_cases hedge : M ++ B = [] ∨ A ++ M = []
  · obtain rfl : M = [] := by simp at hedge; tauto
    have hlt := h.lt
    rw [List.map_nil, SegList.merge, if_neg (by omega)]
    exact h.again2_edge hL hedge
  · obtain ⟨hB, hA⟩ := not_or.mp hedge
    have hAu : uncovered s start stop A = A := uncovered_eq_self fun x hx => hunc x (by simp [hx])
    have hMu : uncovered s start stop M = M := uncovered_eq_self fun x hx => hunc x (by simp [hx])
    have hno : ¬ ∃ x ∈ A ++ M, SegList.Covers start stop (s.blk x) := by
      rintro ⟨x, hx, hc⟩
      exact hunc x hx hc
    have hg : Gives (again2 start stop rqf (fuel + 1) s ti ic) _ :=
      h.again2_mid hA hB (fun x hx e => hunc x (by simp [hx]) ⟨e.1.le, e.2.ge⟩)
        (fun e => absurd (by rwa [hAu, hMu] at e) hL) fun _ _ _ _ _ _ _ hc => absurd hc hno
    rw [hAu, hMu, covered_eq_nil hunc] at hg
    simpa using hg

/-- The pass after one that has killed what is covered. -/
theorem again2_uncovered {s' : Rq} (h : Bracket s' start stop (uncovered s start stop A)
      (uncovered s start stop M) B) (hb : s'.blk = s.blk) (hr : s'.rcvNxt = s.rcvNxt)
    (hL : uncovered s start stop A ++ (uncovered s start stop M ++ B) ≠ []) :
    Gives (again2 start stop rqf (fuel + 1) s' ti ic)
      (SegList.merge s.rcvNxt start stop ti ((uncovered s start stop A).map s.blk)
        ((uncovered s start stop M).map s.blk) (B.map s.blk)) := by
  have hunc : ∀ x ∈ uncovered s start stop A ++ uncovered s start stop M,
      ¬ SegList.Covers start stop (s'.blk x) := fun x hx => by
    rw [hb]
    rcases List.mem_append.mp hx with hx | hx
    · exact not_covers_of_mem_uncovered hx
    · exact not_covers_of_mem_uncovered hx
  have hg : Gives (again2 start stop rqf (fuel + 1) s' ti ic) _ := h.again2_clean hL hunc
  rwa [hb, hr] at hg

/-- The nodes of a queue, split around a segment. -/
theorem of_holds {L : List Nat} (h : Holds s L) (hl : SegList.Loose (L.map s.blk))
    (hlt : start < stop) : ∃ A M B, L = A ++ (M ++ B) ∧ Bracket s start stop A M B := by
  obtain ⟨he, hb, hm, ha⟩ := SegList.split_of_loose start stop hl
  obtain ⟨A, R, rfl, hA, hR⟩ := List.map_eq_append_iff.mp he
  obtain ⟨M, B, rfl, hM, hB⟩ := List.map_eq_append_iff.mp hR
  exact ⟨A, M, B, rfl, h, hl, ⟨by simp, hA ▸ hb, hM ▸ hm, hB ▸ ha⟩, hlt⟩

end Bracket

/-- The FIFO split around a segment. -/
structure Around (s : Rq) (start stop : Int) (A M B : List Nat) : Prop where
  holds : Holds s (A ++ (M ++ B))
  wf : SegList.Wf ((A ++ (M ++ B)).map s.blk)
  split : SegList.Split start stop ((A ++ (M ++ B)).map s.blk) (A.map s.blk) (M.map s.blk)
    (B.map s.blk)
  lt : start < stop

namespace Around

theorem bracket (h : Around s start stop A M B) : Bracket s start stop A M B :=
  ⟨h.holds, h.wf.loose, h.split, h.lt⟩

theorem nonempty (h : Around s start stop A M B) {x : Nat} (hx : x ∈ A ++ (M ++ B)) :
    s.startseq x < s.endseq x :=
  h.wf.nonempty (s.blk x) (List.mem_map_of_mem hx)

theorem below (h : Around s start stop A M B) {x : Nat} (hx : x ∈ A) : s.endseq x ≤ start :=
  h.bracket.below hx

theorem meets (h : Around s start stop A M B) {x : Nat} (hx : x ∈ M) :
    start < s.endseq x ∧ s.startseq x < stop :=
  h.bracket.meets hx

theorem above (h : Around s start stop A M B) {x : Nat} (hx : x ∈ B) : stop ≤ s.startseq x :=
  h.bracket.above hx

theorem not_covers (h : Around s start stop A M B) {x : Nat} (hx : x ∈ A) :
    ¬ SegList.Covers start stop (s.blk x) := fun hc => by
  have h₁ := h.below hx
  have h₂ := h.nonempty (x := x) (by simp [hx])
  have h₃ : start ≤ s.startseq x := hc.1
  omega

theorem uncovered_eq (h : Around s start stop A M B) : uncovered s start stop A = A :=
  uncovered_eq_self fun _ hx => h.not_covers hx

theorem covered_eq (h : Around s start stop A M B) :
    covered s start stop (A ++ M) = covered s start stop M := by
  rw [covered_append, covered_eq_nil fun _ hx => h.not_covers hx, List.nil_append]

/-- Removing blocks from the middle leaves the queue split. -/
theorem filter {s' : Rq} {f : Nat → Bool} (h : Around s start stop A M B)
    (hs : Holds s' (A ++ (M.filter f ++ B))) (hb : s'.blk = s.blk) :
    Around s' start stop A (M.filter f) B := by
  have hbr := h.bracket.sublist (List.Sublist.refl A) List.filter_sublist hs hb
  refine ⟨hs, ?_, hbr.split, h.lt⟩
  have hsub : (A ++ (M.filter f ++ B)).Sublist (A ++ (M ++ B)) :=
    (List.filter_sublist.append_right B).append_left A
  rw [hb]
  exact h.wf.sublist (hsub.map s.blk)

end Around

theorem addAt_nil (rcv : Int) (a b : List Block) (hlt : start < stop) :
    SegList.addAt rcv start stop ti a [] b = SegList.placed rcv a ⟨start, stop, ti⟩ b := by
  have hnle : ¬ stop ≤ start := not_le.mpr hlt
  simp [SegList.addAt, SegList.merge, hnle]

/-- Without an exact duplicate `addAt` is a merge with what is not covered. -/
theorem addAt_eq_merge {m : List Block} (rcv : Int) (a b : List Block)
    (h : ∀ c ∈ m, ¬ (start = c.start ∧ stop = c.stop)) :
    SegList.addAt rcv start stop ti a m b =
      SegList.merge rcv start stop (ti ||| SegList.orFlags (m.filter (SegList.Covers start stop))) a
        (m.filter fun c => ¬ SegList.Covers start stop c) b := by
  have hfind : m.find? (fun c => decide (c.start = start ∧ c.stop = stop)) = none := by
    rw [List.find?_eq_none]
    intro c hc e
    have he : c.start = start ∧ c.stop = stop := by simpa using e
    exact h c hc ⟨he.1.symm, he.2.symm⟩
  rw [SegList.addAt, hfind]

theorem addAt_exact {c : Block} (rcv : Int) (a b : List Block) (hs : start = c.start)
    (he : stop = c.stop) :
    SegList.addAt rcv start stop ti a [c] b = ⟨a ++ c.orFlag ti :: b, c.flags ||| ti, rcv⟩ := by
  simp [SegList.addAt, hs, he]

/-- **`add` on a queue that is not empty.** -/
theorem again2_spec (h : Around s start stop A M B) (hL : A ++ (M ++ B) ≠ []) :
    Gives (again2 start stop rqf (fuel + 2) s ti ic)
      (SegList.addAt s.rcvNxt start stop ti (A.map s.blk) (M.map s.blk) (B.map s.blk)) := by
  by_cases hedge : M ++ B = [] ∨ A ++ M = []
  · obtain rfl : M = [] := by simp at hedge; tauto
    rw [List.map_nil, addAt_nil _ _ _ h.lt]
    exact h.bracket.again2_edge hL hedge
  obtain ⟨hB, hA⟩ := not_or.mp hedge
  by_cases hex : ∃ c ∈ M, start = s.startseq c ∧ stop = s.endseq c
  · obtain ⟨c, hcM, hcs, hce⟩ := hex
    obtain rfl := h.bracket.exact_alone hcM hcs hce
    rw [List.map_singleton, addAt_exact _ _ _ hcs hce]
    exact h.bracket.again2_dup hcs hce
  · push Not at hex
    have hne : ∀ y ∈ M, ¬ (start = s.startseq y ∧ stop = s.endseq y) :=
      fun y hy e => hex y hy e.1 e.2
    rw [addAt_eq_merge _ _ _ (by simpa [blk] using hne)]
    have hall : uncovered s start stop A ++ (uncovered s start stop M ++ B) = [] → A = [] := by
      rw [h.uncovered_eq]
      exact fun e => (List.append_eq_nil_iff.mp e).1
    have hg : Gives (again2 start stop rqf (fuel + 2) s ti ic) _ :=
      h.bracket.again2_mid hA hB hne hall fun s' ti' c' hbr hb hr hnil _ =>
        hbr.again2_uncovered hb hr hnil
    rwa [h.uncovered_eq, h.covered_eq, covered, uncovered,
      map_filter_blk s M fun c => ¬ SegList.Covers start stop c,
      map_filter_blk s M fun c => SegList.Covers start stop c] at hg

/-- The nodes of a well-formed queue, split around a segment. -/
theorem Around.of_holds {L : List Nat} (h : Holds s L) (hwf : SegList.Wf (L.map s.blk))
    (hlt : start < stop) : ∃ A M B, L = A ++ (M ++ B) ∧ Around s start stop A M B := by
  obtain ⟨A, M, B, rfl, hb⟩ := Bracket.of_holds h hwf.loose hlt
  exact ⟨A, M, B, rfl, h, hwf, hb.split, hlt⟩

/-- `add` on an empty queue. -/
theorem add_empty (h : Holds s []) (hle : start ≤ stop) (ti : TcpFlag) (rqf : Int) :
    Gives (s.add start stop ti rqf) ⟨[⟨start, stop, ti⟩], ti, if s.rcvNxt ≥ start then stop
      else s.rcvNxt⟩ := by
  obtain ⟨S, F, hr⟩ := h.rep
  obtain rfl : S = [] := hr.perm.eq_nil
  have hhead : s.head = none := hr.fifo.head_eq
  have htop : s.top = none := hr.lifo.head_eq
  obtain ⟨n, f, b, F', hn, hrep, hnL, hnF, hnb⟩ := hr.newseginfo
  have hins := Rep.insert (A := []) (B := []) hrep hnL hnF hnb
  simp only [List.getLast?_nil, List.head?_nil, setLink_none, if_true, htop, List.nil_append]
    at hins
  rw [Rq.add, if_neg (not_lt.mpr hle), if_pos hhead, if_neg (by simp [htop])]
  simp only [hn]
  let s' : Rq := { s with
    tail := some n, head := some n, top := some n, bottom := some n
    freelist := f, brk := b
    prev := Function.update s.prev n none
    next := Function.update s.next n none
    snext := Function.update s.snext n none
    sprev := Function.update s.sprev n none
    startseq := Function.update s.startseq n start
    endseq := Function.update s.endseq n stop
    pflags := Function.update s.pflags n ti
    rqflags := Function.update s.rqflags n rqf
    cnt := Function.update s.cnt n 1
    total := stop - start }
  have hblk : [n].map s'.blk = [⟨start, stop, ti⟩] := by simp [s', blk]
  have hg := gives_rcvNxt (s := s') ⟨⟨[n], F', hins⟩, by rw [hblk]; simp [s']⟩ ti
    (s.rcvNxt ≥ start) stop
  rw [hblk] at hg
  exact hg

/-- **`add` refines its meaning on the list of blocks.** -/
theorem add_refines {L : List Nat} (h : Holds s L) (hwf : SegList.Wf (L.map s.blk))
    (hlt : start < stop) (ti : TcpFlag) (rqf : Int) :
    Gives (s.add start stop ti rqf) (SegList.add (L.map s.blk) s.rcvNxt start stop ti) := by
  by_cases hL : L = []
  · subst hL
    have he : SegList.add [] s.rcvNxt start stop ti =
        ⟨[⟨start, stop, ti⟩], ti, if s.rcvNxt ≥ start then stop else s.rcvNxt⟩ := addAt_nil _ _ _ hlt
    rw [List.map_nil, he]
    exact add_empty h hlt.le ti rqf
  · obtain ⟨A, M, B, rfl, ha⟩ := Around.of_holds h hwf hlt
    rw [Rq.add, if_neg (not_lt.mpr hlt.le), if_neg (h.fifo.eq_nil_iff.not.mpr hL),
      ha.split.add_eq hwf hlt]
    exact again2_spec ha hL

end Add

/-! ### `clear` and `clearto` -/

section Clear

variable {s : Rq} {P L : List Nat} {seq : Int} {fuel : Nat} {flag : TcpFlag}

/-- The loop of `clear` recycles the whole FIFO. -/
theorem clearLoop_spec {F : List Nat} (hL : SLL s.next s.head L) (hF : SLL s.next s.freelist F)
    (hnd : (L ++ F).Nodup) (hb : ∀ x ∈ L ++ F, x < s.brk) (hf : L.length < fuel) :
    ∃ nx fl F', clearLoop fuel s = some { s with head := none, next := nx, freelist := fl } ∧
      SLL nx fl F' ∧ F'.Nodup ∧ ∀ x ∈ F', x < s.brk := by
  induction L generalizing s F fuel with
  | nil =>
      obtain ⟨fuel, rfl⟩ := exists_fuel hf
      have hh : s.head = none := hL
      refine ⟨s.next, s.freelist, F, ?_, hF, by simpa using hnd, by simpa using hb⟩
      obtain ⟨⟨⟩⟩ := s
      simp only at hh
      subst hh
      rfl
  | cons x L ih =>
      obtain ⟨fuel, rfl⟩ := exists_fuel hf
      obtain ⟨hh, hL⟩ := hL
      obtain ⟨hxn, hnd'⟩ := List.nodup_cons.mp hnd
      have hne : ∀ y ∈ L ++ F, y ≠ x := fun y hy e => hxn (e ▸ hy)
      have hperm : (L ++ x :: F).Perm (x :: (L ++ F)) := List.perm_middle
      obtain ⟨nx, fl, F', h₁, h₂, h₃, h₄⟩ := ih
        (s := ({ s with head := s.next x } : Rq).deleteseginfo x) (F := x :: F)
        (hL.congr fun y hy => Function.update_of_ne (hne y (by simp [hy])) _ _)
        ⟨rfl, by
          have : (({ s with head := s.next x } : Rq).deleteseginfo x).next x = s.freelist :=
            Function.update_self ..
          rw [this]
          exact hF.congr fun y hy => Function.update_of_ne (hne y (by simp [hy])) _ _⟩
        (hperm.nodup_iff.mpr hnd) (fun y hy => hb y (hperm.mem_iff.mp hy))
        (Nat.lt_of_succ_lt_succ hf)
      refine ⟨nx, fl, F', ?_, h₂, h₃, h₄⟩
      rw [clearLoop, hh]
      exact h₁

/-- **`clear` empties the queue.** -/
theorem clear_refines (h : Holds s L) :
    ∃ s', s.clear = some s' ∧ Holds s' [] ∧ s'.rcvNxt = s.rcvNxt := by
  obtain ⟨S, F, hr⟩ := h.rep
  have hlen := h.length_lt
  have hnd : (L ++ F).Nodup := List.nodup_append.mpr
    ⟨hr.fifo.nodup, hr.free_nodup, fun x hx y hy e => hr.apart x hx (e ▸ hy)⟩
  obtain ⟨nx, fl, F', h₁, h₂, h₃, h₄⟩ := clearLoop_spec
    (s := { s with tail := none, top := none, bottom := none, hint := none })
    (by simpa [hr.fifo.head_eq] using hr.fifo.linked.sll) hr.free hnd
    (fun x hx => hr.bound x (List.mem_append.mp hx)) hlen
  have hc := congrArg (Option.map fun s : Rq => { s with tail := none, total := 0 }) h₁
  refine ⟨_, hc, ⟨⟨[], F', ?_⟩, rfl⟩, rfl⟩
  exact ⟨.nil, .nil, List.Perm.nil, h₂, h₃, by simp, by simpa using h₄⟩

variable (seq flag) in
/-- The loop of `clearto` removes the blocks below `seq` and stops at the first other one. -/
theorem cleartoLoop_spec (h : Holds s L) (hwf : SegList.Wf (L.map s.blk)) (hf : L.length < fuel) :
    ∃ s' K L', L = K ++ L' ∧ cleartoLoop seq fuel s s.head flag =
        some (L'.head?, flag ||| SegList.orFlags (K.map s.blk), s') ∧
      Holds s' L' ∧ s'.blk = s.blk ∧ s'.rcvNxt = s.rcvNxt ∧
      (∀ x ∈ K, s.endseq x ≤ seq) ∧ ∀ x, L'.head? = some x → seq < s.endseq x := by
  induction L generalizing s fuel flag with
  | nil =>
      obtain ⟨fuel, rfl⟩ := exists_fuel hf
      have hh : s.head = none := h.fifo.head_eq
      exact ⟨s, [], [], rfl, by simp [hh, cleartoLoop], h, rfl, rfl, by simp, by simp⟩
  | cons x L ih =>
      obtain ⟨fuel, rfl⟩ := exists_fuel hf
      have hh : s.head = some x := h.fifo.head_eq
      have h' : Holds s ([] ++ x :: L) := h
      by_cases hx : s.endseq x ≤ seq
      · have hrem := h'.remove
        have hnext : s.next x = L.head? := h'.fifo.links.1
        have hhr : (s.remove x).head = s.next x := by
          rw [hnext]; exact hrem.fifo.head_eq
        obtain ⟨s', K, L', he, hc, h₁, h₂, h₃, h₄, h₅⟩ := ih (flag ||| s.pflags x) hrem
          (hwf.sublist (List.sublist_cons_self ..)) (Nat.lt_of_succ_lt_succ hf)
        refine ⟨s', x :: K, L', by rw [he]; rfl, ?_, h₁, h₂, h₃, ?_, h₅⟩
        · rw [hh, cleartoLoop, if_pos hx]
          dsimp only
          rw [h'.remove_eq, ← hhr, hc]
          have hb : (s.remove x).blk = s.blk := rfl
          have hfx : (s.blk x).flags = s.pflags x := rfl
          simp [hb, hfx, BitVec.or_assoc]
        · intro y hy
          rcases List.mem_cons.mp hy with rfl | hy
          · exact hx
          · exact h₄ y hy
      · refine ⟨s, [], x :: L, rfl, ?_, h, rfl, rfl, by simp, ?_⟩
        · rw [hh, cleartoLoop, if_neg hx]
          simp
        · intro y hy
          obtain rfl : x = y := by simpa using hy
          omega

theorem clearto_append {K l : List Block} (hK : ∀ b ∈ K, b.stop ≤ seq) :
    SegList.clearto (K ++ l) seq =
      ((SegList.clearto l seq).1, SegList.orFlags K ||| (SegList.clearto l seq).2) := by
  induction K with
  | nil => simp
  | cons b K ih =>
      rw [List.cons_append, SegList.clearto, if_pos (hK b (by simp)),
        ih fun c hc => hK c (by simp [hc])]
      simp [BitVec.or_assoc]

/-- **`clearto` refines its meaning on the list of blocks.** -/
theorem clearto_refines (h : Holds s L) (hwf : SegList.Wf (L.map s.blk)) (seq : Int) :
    ∃ s' L', s.clearto seq = some ((SegList.clearto (L.map s.blk) seq).2, s') ∧ Holds s' L' ∧
      L'.map s'.blk = (SegList.clearto (L.map s.blk) seq).1 ∧ s'.rcvNxt = s.rcvNxt := by
  obtain ⟨s', K, L', rfl, hc, h₁, h₂, h₃, h₄, h₅⟩ :=
    cleartoLoop_spec seq 0 h hwf h.length_lt
  rw [List.map_append, clearto_append (by simpa [blk] using h₄)]
  simp only [clearto, hc, Option.bind_eq_bind, Option.bind_some]
  cases L' with
  | nil => exact ⟨s', [], by simp [SegList.clearto], h₁, by simp [SegList.clearto], h₃⟩
  | cons x L' =>
      have hx := h₅ x (by simp)
      obtain ⟨hxs, hxe, hxf⟩ : s'.startseq x = s.startseq x ∧ s'.endseq x = s.endseq x ∧
          s'.pflags x = s.pflags x := by
        have := congrFun h₂ x
        simpa [blk] using this
      have hgt : ¬ (s.blk x).stop ≤ seq := not_le.mpr hx
      rw [List.map_cons, SegList.clearto, if_neg hgt]
      by_cases htrim : s.startseq x ≤ seq
      · have htrim' : (s.blk x).start ≤ seq := htrim
        simp only [List.head?_cons, hxs, hxe, hxf, if_pos htrim', if_pos (And.intro htrim hx)]
        let t : Rq := { s' with
          total := s'.total - (seq - s.startseq x)
          startseq := Function.update s'.startseq x seq }
        have hupd : t.blk = Function.update s'.blk x ⟨seq, s.endseq x, s.pflags x⟩ := by
          funext y
          by_cases hy : y = x
          · subst hy; simp [t, blk, hxe, hxf]
          · simp [t, blk, hy]
        have h₁' : Holds s' ([] ++ x :: L') := h₁
        have ht : Holds t ([] ++ x :: L') := h₁'.update rfl hupd (by simp only [t, hxs, hxe]; omega)
        refine ⟨t, x :: L', by simp [t, blk], ht, ?_, h₃⟩
        rw [hupd, List.map_cons, Function.update_self, map_update_of_notMem h₁'.fifo.not_mem.2, h₂]
        rfl
      · have htrim' : ¬ (s.blk x).start ≤ seq := htrim
        simp only [List.head?_cons, hxs, hxe, if_neg htrim', if_neg fun e => htrim (And.left e)]
        exact ⟨s', x :: L', by simp, h₁, by rw [h₂, List.map_cons], h₃⟩

end Clear

/-! ### `nexthole` -/

section Nexthole

variable {s : Rq} {P Q : List Nat} {hd tl : Option Nat} {fuel : Nat} {seq : Int}

theorem cntsLoop_spec (h : DLL s.next s.prev hd tl (P ++ Q)) (hf : Q.length < fuel)
    (blks bytes : Int) :
    cntsLoop s fuel Q.head? blks bytes =
      some (blks + Q.length, bytes + SegList.total (Q.map s.blk)) := by
  induction Q generalizing P fuel blks bytes with
  | nil =>
      obtain ⟨fuel, rfl⟩ := exists_fuel hf
      simp [cntsLoop]
  | cons x Q ih =>
      obtain ⟨fuel, rfl⟩ := exists_fuel hf
      rw [List.head?_cons, cntsLoop, h.links.1,
        ih (P := P ++ [x]) (by simpa using h) (by simpa using hf)]
      simp only [List.length_cons, List.map_cons, SegList.total, span_cons, blk, Nat.cast_add,
        Nat.cast_one, Option.some.injEq, Prod.mk.injEq]
      omega

theorem cnts_spec (h : Holds s (P ++ Q)) :
    s.cnts Q.head? = some (SegList.cnts (Q.map s.blk)) := by
  have hlen := h.length_lt
  rw [cnts, cntsLoop_spec h.fifo (by simp at hlen; omega)]
  simp [SegList.cnts]

variable (seq) in
theorem nextholeLoop_spec (h : Holds s (P ++ Q)) (hf : Q.length < fuel) :
    nextholeLoop s seq fuel Q.head? = some (SegList.nexthole (Q.map s.blk) seq) := by
  induction Q generalizing P fuel with
  | nil =>
      obtain ⟨fuel, rfl⟩ := exists_fuel hf
      rfl
  | cons x Q ih =>
      obtain ⟨fuel, rfl⟩ := exists_fuel hf
      have hcx := cnts_spec h
      have h' : Holds s (P ++ [x] ++ Q) := by simpa using h
      have hcq := cnts_spec h'
      have hnext := h.fifo.links.1
      rw [List.head?_cons, nextholeLoop, List.map_cons, SegList.nexthole]
      by_cases h₁ : s.startseq x > seq
      · rw [if_pos h₁, if_pos (show (s.blk x).start > seq from h₁)]
        rw [List.head?_cons] at hcx
        rw [hcx]
        rfl
      rw [if_neg h₁, if_neg (show ¬ (s.blk x).start > seq from h₁)]
      by_cases h₂ : s.endseq x ≥ seq
      · rw [if_pos h₂, if_pos (show seq ≤ (s.blk x).stop from h₂), hnext]
        cases Q with
        | nil => rfl
        | cons y Q =>
            rw [List.head?_cons] at hcq ⊢
            simp only [hcq]
            rfl
      · rw [if_neg h₂, if_neg (show ¬ seq ≤ (s.blk x).stop from h₂), hnext]
        exact ih h' (by simpa using hf)

/-- **`nexthole` refines its meaning on the list of blocks**, and changes only the hint. -/
theorem nexthole_refines {L : List Nat} (h : Holds s L) (seq : Int) :
    s.nexthole seq = some (SegList.nexthole (L.map s.blk) seq, { s with hint := s.head }) := by
  have h' : Holds { s with hint := s.head } ([] ++ L) := ⟨h.rep, h.total⟩
  have hl := nextholeLoop_spec seq h' h.length_lt
  rw [← h.fifo.head_eq] at hl
  simp only [nexthole, hl, Option.map_some]
  rfl

end Nexthole

end Afabric
