import Afabric.Tcp.SegList

/-!
# Tcp — what the queue operations do

The specification of `SegList.add`, `clearto` and `nexthole` on well-formed queues.  The parts of
the queue around a segment are described by `Split`, the part it overlaps by `Shape`, and the
insertion of the remaining gap by the four cases of `place_cases`.  Everything else is read off
`add_spec` and `clearto_spec`: the queue stays well formed, its bytes are those it held and those
added, and less those cleared.
-/

namespace Afabric.SegList

/-! ### The queue around a segment -/

/-- `a`, `m` and `b` are the blocks before, over and after the segment. -/
structure Split (start stop : Int) (l a m b : List Block) : Prop where
  eq : l = a ++ (m ++ b)
  below : ∀ x ∈ a, x.stop ≤ start
  meets : ∀ x ∈ m, start < x.stop ∧ x.start < stop
  above : ∀ x ∈ b, stop ≤ x.start

theorem Split.sublist {start stop : Int} {l a m b a' m' : List Block}
    (h : Split start stop l a m b) (ha : a'.Sublist a) (hm : m'.Sublist m) :
    Split start stop (a' ++ (m' ++ b)) a' m' b :=
  ⟨rfl, fun x hx => h.below x (ha.mem hx), fun x hx => h.meets x (hm.mem hx), h.above⟩

theorem split_of_loose {l : List Block} (start stop : Int) (h : Loose l) :
    Split start stop l (before l start) (overlap l start stop) (after l start stop) := by
  have heq : l = before l start ++ (overlap l start stop ++ after l start stop) := by
    simp only [before, overlap, after, List.takeWhile_append_dropWhile]
  have hwf : Loose (overlap l start stop ++ after l start stop) := by
    rw [heq] at h; exact (Loose.append_iff.mp h).2.1
  -- past the first block that ends above `start`, every block does
  have hov : ∀ x ∈ overlap l start stop ++ after l start stop, start < x.stop := by
    have he : overlap l start stop ++ after l start stop =
        l.dropWhile fun b => b.stop ≤ start := List.takeWhile_append_dropWhile
    rw [he] at hwf ⊢
    cases hd : l.dropWhile fun b => b.stop ≤ start with
    | nil => simp
    | cons y r =>
        have hy : ¬ y.stop ≤ start := by
          have := List.head?_dropWhile_not (fun b : Block => decide (b.stop ≤ start)) l
          simpa [hd] using this
        rw [hd] at hwf
        obtain ⟨-, h₂, h₃⟩ := Loose.cons_iff.mp hwf
        intro x hx
        rcases List.mem_cons.mp hx with rfl | hx
        · omega
        · have := h₂ x hx
          have := h₃.ordered x hx
          omega
  refine ⟨heq, fun x hx => ?_, fun x hx => ⟨hov x (by simp [hx]), ?_⟩, fun x hx => ?_⟩
  · simpa using List.mem_takeWhile_imp hx
  · simpa using List.mem_takeWhile_imp hx
  · have hwb : Loose (after l start stop) := (Loose.append_iff.mp hwf).2.1
    cases hd : after l start stop with
    | nil => simp [hd] at hx
    | cons y r =>
        have hy : ¬ y.start < stop := by
          have := List.head?_dropWhile_not (fun b : Block => decide (b.start < stop))
            (l.dropWhile fun b => b.stop ≤ start)
          rw [after] at hd
          simpa [hd] using this
        rw [hd] at hx hwb
        rcases List.mem_cons.mp hx with rfl | hx
        · omega
        · have := (Loose.cons_iff.mp hwb).2.1 x hx
          have := (Loose.cons_iff.mp hwb).1
          omega

theorem split_of_wf {l : List Block} (start stop : Int) (h : Wf l) :
    Split start stop l (before l start) (overlap l start stop) (after l start stop) :=
  split_of_loose start stop h.loose

/-- The three parts are determined by what they satisfy. -/
theorem Split.add_eq {l a m b : List Block} {start stop : Int} (h : Split start stop l a m b)
    (hwf : Wf l) (hlt : start < stop) (rcv : Int) (ti : TcpFlag) :
    add l rcv start stop ti = addAt rcv start stop ti a m b := by
  obtain ⟨rfl, ha, hm, hb⟩ := h
  have hb' : ∀ x ∈ b, start < x.stop := fun x hx => by
    have := hb x hx
    have := hwf.nonempty x (by simp [hx])
    omega
  have hdrop : (a ++ (m ++ b)).dropWhile (fun x => decide (x.stop ≤ start)) = m ++ b := by
    rw [List.dropWhile_append_of_pos (by simpa using ha)]
    cases hmb : m ++ b with
    | nil => rfl
    | cons y r =>
        have hy : start < y.stop := by
          rcases List.mem_append.mp (hmb ▸ List.mem_cons_self : y ∈ m ++ b) with h | h
          · exact (hm y h).1
          · exact hb' y h
        rw [List.dropWhile_cons_of_neg]
        simpa using hy
  have hbefore : before (a ++ (m ++ b)) start = a := by
    have := List.takeWhile_append_dropWhile (p := fun x : Block => decide (x.stop ≤ start))
      (l := a ++ (m ++ b))
    rw [hdrop] at this
    exact List.append_cancel_right this
  have hstop : b.dropWhile (fun x => decide (x.start < stop)) = b := by
    cases b with
    | nil => rfl
    | cons y r =>
        rw [List.dropWhile_cons_of_neg]
        simpa using hb y (by simp)
  have hafter : after (a ++ (m ++ b)) start stop = b := by
    rw [after, hdrop, List.dropWhile_append_of_pos (fun x hx => by simpa using (hm x hx).2), hstop]
  have hoverlap : overlap (a ++ (m ++ b)) start stop = m := by
    have := List.takeWhile_append_dropWhile (p := fun x : Block => decide (x.start < stop))
      (l := m ++ b)
    rw [List.dropWhile_append_of_pos (fun x hx => by simpa using (hm x hx).2), hstop] at this
    rw [overlap, hdrop]
    exact List.append_cancel_right this
  rw [add, hbefore, hoverlap, hafter]

/-- The blocks a segment overlaps: those it covers, with at most one block that sticks out on
the left and one that sticks out on the right. -/
inductive Shape (start stop : Int) : List Block → Prop where
  | within (k : List Block) : (∀ c ∈ k, Covers start stop c) → Shape start stop k
  | left (l : Block) (k : List Block) : l.start < start → (∀ c ∈ k, Covers start stop c) →
      Shape start stop (l :: k)
  | right (k : List Block) (r : Block) : start ≤ r.start → stop < r.stop →
      (∀ c ∈ k, Covers start stop c) → Shape start stop (k ++ [r])
  | both (l : Block) (k : List Block) (r : Block) : l.start < start → stop < r.stop →
      (∀ c ∈ k, Covers start stop c) → Shape start stop (l :: (k ++ [r]))

/-- Of sorted blocks that start inside the segment, all but the last are covered. -/
theorem covers_init {start stop : Int} {k : List Block} {r : Block} (h : Wf (k ++ [r]))
    (hs : ∀ x ∈ k, start ≤ x.start) (hr : r.start < stop) : ∀ c ∈ k, Covers start stop c := by
  intro c hc
  have := (Normal.append_iff.mp h).2.2 c hc r (by simp)
  exact ⟨hs c hc, by omega⟩

theorem shape_of_overlap {start stop : Int} {m : List Block} (h : Wf m)
    (hov : ∀ x ∈ m, start < x.stop ∧ x.start < stop) : Shape start stop m := by
  rcases List.eq_nil_or_concat m with rfl | ⟨k, r, rfl⟩
  · exact .within [] (by simp)
  rw [List.concat_eq_append] at *
  by_cases hall : ∀ x ∈ k ++ [r], start ≤ x.start
  · have hk := covers_init h (fun x hx => hall x (by simp [hx])) (hov r (by simp)).2
    by_cases hr : r.stop ≤ stop
    · refine .within _ fun c hc => ?_
      rcases List.mem_append.mp hc with hc | hc
      · exact hk c hc
      · obtain rfl := List.mem_singleton.mp hc
        exact ⟨hall c (by simp), hr⟩
    · exact .right k r (hall r (by simp)) (by omega) hk
  -- the first block starts before the segment; the others start after it ends
  cases k with
  | nil => exact .left r [] (by simpa using hall) (by simp)
  | cons l k =>
      obtain ⟨-, h₂, h₃⟩ := Normal.cons_iff.mp h
      have hin : ∀ x ∈ k ++ [r], start ≤ x.start := fun x hx => by
        have := h₂ x hx
        have := (hov l (by simp)).1
        omega
      have hl : l.start < start := by
        by_contra hge
        refine hall fun x hx => ?_
        rcases List.mem_cons.mp hx with rfl | hx
        · omega
        · exact hin x hx
      have hk := covers_init h₃ (fun x hx => hin x (by simp [hx])) (hov r (by simp)).2
      by_cases hr : r.stop ≤ stop
      · refine .left l (k ++ [r]) hl fun c hc => ?_
        rcases List.mem_append.mp hc with hc | hc
        · exact hk c hc
        · obtain rfl := List.mem_singleton.mp hc
          exact ⟨hin c (by simp), hr⟩
      · exact .both l k r hl (by omega) hk

/-- The blocks `t` are replaced by one that also covers `S`. -/
theorem bytes_replace {a t b : List Block} {m : Block} {S : Set Int}
    (h : Set.Ico m.start m.stop = bytes t ∪ S) :
    bytes (a ++ m :: b) = bytes (a ++ (t ++ b)) ∪ S := by
  simp only [bytes, cover_append, cover_cons] at h ⊢
  rw [h, Set.union_right_comm, ← Set.union_assoc]

/-! ### Placing a gap -/

theorem stop_lt_of_getLast {a : List Block} {v : Int} (h : Loose a) (hle : ∀ x ∈ a, x.stop ≤ v)
    (hne : ∀ p, a.getLast? = some p → p.stop ≠ v) : ∀ x ∈ a, x.stop < v := by
  rcases List.eq_nil_or_concat a with rfl | ⟨a, p, rfl⟩
  · simp
  rw [List.concat_eq_append] at *
  have hp := hne p (by simp)
  have hpv := hle p (by simp)
  intro x hx
  rcases List.mem_append.mp hx with hx | hx
  · have := (Loose.split_at h).1 x hx
    have := h.ordered p (by simp)
    omega
  · obtain rfl := List.mem_singleton.mp hx
    omega

theorem lt_start_of_head {b : List Block} {v : Int} (h : Loose b) (hle : ∀ x ∈ b, v ≤ x.start)
    (hne : ∀ q, b.head? = some q → q.start ≠ v) : ∀ x ∈ b, v < x.start := by
  cases b with
  | nil => simp
  | cons q b =>
      have hq := hne q (by simp)
      have hqv := hle q (by simp)
      obtain ⟨h₁, h₂, -⟩ := Loose.cons_iff.mp h
      intro x hx
      rcases List.mem_cons.mp hx with rfl | hx
      · omega
      · have := h₂ x hx
        omega

/-- The blocks a new block is adjacent to, `x` on the left and `y` on the right, with the block
it becomes. -/
structure Placed (n : Block) (a x y b : List Block) (m : Block) : Prop where
  below : ∀ z ∈ a, z.stop < n.start
  above : ∀ z ∈ b, n.stop < z.start
  left : (x = [] ∧ m.start = n.start) ∨ ∃ p, x = [p] ∧ p.stop = n.start ∧ m.start = p.start
  right : (y = [] ∧ m.stop = n.stop) ∨ ∃ q, y = [q] ∧ q.start = n.stop ∧ m.stop = q.stop
  flags : m.flags = n.flags ||| orFlags ((x ++ y).take 1)

/-- A gap that starts where a block ends is joined to that block. -/
theorem Placed.left_joined {n p m : Block} {a a' x y b : List Block} (h : Placed n a' x y b m)
    (he : a ++ [p] = a' ++ x) (hp : p.stop = n.start) : a = a' ∧ x = [p] ∧ m.start = p.start := by
  rcases h.left with ⟨rfl, -⟩ | ⟨p', rfl, -, hms⟩
  · have := h.below p (by rw [← List.append_nil a', ← he]; simp)
    omega
  · obtain ⟨h₁, h₂⟩ := List.append_inj' he rfl
    obtain rfl : p = p' := by simpa using h₂
    exact ⟨h₁, rfl, hms⟩

/-- A gap that ends where a block starts is joined to that block. -/
theorem Placed.right_joined {n q m : Block} {a x y b b' : List Block} (h : Placed n a x y b' m)
    (he : q :: b = y ++ b') (hq : q.start = n.stop) : b = b' ∧ y = [q] ∧ m.stop = q.stop := by
  rcases h.right with ⟨rfl, -⟩ | ⟨q', rfl, -, hme⟩
  · have := h.above q (by rw [← List.nil_append b', ← he]; simp)
    omega
  · obtain ⟨rfl, rfl⟩ : q = q' ∧ b = b' := by simpa using he
    exact ⟨rfl, rfl, hme⟩

theorem place_spec {a b : List Block} {n : Block} (ha : Loose a) (hb : Loose b)
    (han : ∀ x ∈ a, x.stop ≤ n.start) (hnb : ∀ x ∈ b, n.stop ≤ x.start) :
    ∃ a' x y b' m, a = a' ++ x ∧ b = y ++ b' ∧ Placed n a' x y b' m ∧
      place a n b = (a' ++ m :: b', m) := by
  have hleft : (∀ z ∈ a, z.stop < n.start) ∨ ∃ a' p, a = a' ++ [p] ∧ p.stop = n.start := by
    by_cases h : ∀ p, a.getLast? = some p → p.stop ≠ n.start
    · exact .inl (stop_lt_of_getLast ha han h)
    · push Not at h
      obtain ⟨p, hp, hpn⟩ := h
      obtain ⟨a', rfl⟩ := List.getLast?_eq_some_iff.mp hp
      exact .inr ⟨a', p, rfl, hpn⟩
  have hright : (∀ z ∈ b, n.stop < z.start) ∨ ∃ q b', b = q :: b' ∧ q.start = n.stop := by
    by_cases h : ∀ q, b.head? = some q → q.start ≠ n.stop
    · exact .inl (lt_start_of_head hb hnb h)
    · push Not at h
      obtain ⟨q, hq, hqn⟩ := h
      obtain ⟨b', rfl⟩ := List.head?_eq_some_iff.mp hq
      exact .inr ⟨q, b', rfl, hqn⟩
  have hlast : (∀ z ∈ a, z.stop < n.start) →
      a.getLast?.filter (fun p => decide (p.stop = n.start)) = none := fun h => by
    rw [Option.filter_eq_none_iff]
    intro p hp
    have := h p (List.mem_of_mem_getLast? hp)
    simp; omega
  have hhead : (∀ z ∈ b, n.stop < z.start) →
      b.head?.filter (fun q => decide (q.start = n.stop)) = none := fun h => by
    rw [Option.filter_eq_none_iff]
    intro q hq
    have := h q (List.mem_of_mem_head? hq)
    simp; omega
  rcases hleft with hl | ⟨a', p, rfl, hp⟩ <;> rcases hright with hr | ⟨q, b', rfl, hq⟩
  · refine ⟨a, [], [], b, n, by simp, rfl, ⟨hl, hr, .inl ⟨rfl, rfl⟩, .inl ⟨rfl, rfl⟩, by simp⟩, ?_⟩
    simp only [place, hlast hl, hhead hr]
  · refine ⟨a, [], [q], b', ⟨n.start, q.stop, q.flags ||| n.flags⟩, by simp, rfl,
      ⟨hl, fun z hz => ?_, .inl ⟨rfl, rfl⟩, .inr ⟨q, rfl, hq, rfl⟩, ?_⟩, ?_⟩
    · have := (Loose.cons_iff.mp hb).2.1 z hz
      have := (Loose.cons_iff.mp hb).1
      omega
    · simp [BitVec.or_comm]
    · simp [place, hlast hl, Option.filter_some, hq]
  · refine ⟨a', [p], [], b, ⟨p.start, n.stop, p.flags ||| n.flags⟩, rfl, rfl,
      ⟨fun z hz => ?_, hr, .inr ⟨p, rfl, hp, rfl⟩, .inl ⟨rfl, rfl⟩, ?_⟩, ?_⟩
    · have := (Loose.split_at ha).1 z hz
      have := ha.ordered p (by simp)
      omega
    · simp [BitVec.or_comm]
    · simp [place, hhead hr, Option.filter_some, hp]
  · refine ⟨a', [p], [q], b', ⟨p.start, q.stop, p.flags ||| n.flags⟩, rfl, rfl,
      ⟨fun z hz => ?_, fun z hz => ?_, .inr ⟨p, rfl, hp, rfl⟩, .inr ⟨q, rfl, hq, rfl⟩, ?_⟩, ?_⟩
    · have := (Loose.split_at ha).1 z hz
      have := ha.ordered p (by simp)
      omega
    · have := (Loose.cons_iff.mp hb).2.1 z hz
      have := (Loose.cons_iff.mp hb).1
      omega
    · simp [BitVec.or_comm]
    · simp [place, Option.filter_some, hp, hq]

/-! ### The result of `add` -/

/-- The blocks whose flags enter the joined block: all of those the segment touches, less the
last one when the first and the last both stick out. -/
def kept (start stop : Int) : List Block → List Block
  | [] => []
  | l :: t =>
      match t.getLast? with
      | some r => if l.start < start ∧ stop < r.stop then l :: t.dropLast else l :: t
      | none => [l]

theorem kept_concat (start stop : Int) (l : Block) (k : List Block) (r : Block) :
    kept start stop (l :: (k ++ [r])) =
      if l.start < start ∧ stop < r.stop then l :: k else l :: (k ++ [r]) := by
  simp [kept]

theorem kept_eq_self {start stop : Int} {t : List Block}
    (h : ∀ l k r, t = l :: (k ++ [r]) → l.start < start → ¬ stop < r.stop) :
    kept start stop t = t := by
  cases t with
  | nil => rfl
  | cons l t =>
      rcases List.eq_nil_or_concat t with rfl | ⟨k, r, rfl⟩
      · rfl
      · rw [List.concat_eq_append] at *
        rw [kept_concat, if_neg fun hlr => h l k r rfl hlr.1 hlr.2]

theorem kept_of_le {start stop : Int} {t : List Block} (h : ∀ x ∈ t, start ≤ x.start) :
    kept start stop t = t :=
  kept_eq_self fun l k r e hl => by
    have := h l (by simp [e])
    omega

theorem kept_of_ge {start stop : Int} {t : List Block} (h : ∀ x ∈ t, x.stop ≤ stop) :
    kept start stop t = t :=
  kept_eq_self fun l k r e _ => by
    have := h r (by simp [e])
    omega

theorem mem_of_mem_kept {start stop : Int} {t : List Block} {x : Block}
    (hx : x ∈ kept start stop t) : x ∈ t := by
  cases t with
  | nil => exact hx
  | cons l t =>
      rw [kept] at hx
      split at hx
      · split_ifs at hx
        · rcases List.mem_cons.mp hx with rfl | hx
          · simp
          · exact List.mem_cons_of_mem _ (List.dropLast_subset t hx)
        · exact hx
      · rcases List.mem_singleton.mp hx with rfl
        simp

/-- The blocks `t` of `l` that the segment touches are replaced by `m`. -/
structure Joined (start stop : Int) (ti : TcpFlag) (l a t b : List Block) (m : Block) : Prop where
  eq : l = a ++ (t ++ b)
  below : ∀ x ∈ a, x.stop < start
  above : ∀ x ∈ b, stop < x.start
  touch : ∀ x ∈ t, start ≤ x.stop ∧ x.start ≤ stop
  start_le : m.start ≤ start
  le_stop : stop ≤ m.stop
  spans : ∀ x ∈ t, m.start ≤ x.start ∧ x.stop ≤ m.stop
  start_eq : m.start = start ∨ ∃ x ∈ t, x.start = m.start
  stop_eq : m.stop = stop ∨ ∃ x ∈ t, x.stop = m.stop
  flags : m.flags = ti ||| orFlags (kept start stop t)

/-- The flags returned are flags of the joined block, and `rcv_nxt_` moves as `bump` says, to the
end of that block or of the first one. -/
structure Returned (start rcv : Int) (a t b : List Block) (m : Block) (r : Added) : Prop where
  blocks : r.blocks = a ++ m :: b
  flags : r.flags ||| m.flags = m.flags
  rcvNxt : r.rcvNxt = bump rcv m ∨ (∃ x ∈ t, x.start = start ∧ r.rcvNxt = rcv) ∨
    ∃ h, (a ++ m :: b).head? = some h ∧ r.rcvNxt = bump rcv h

theorem returned_settled {start rcv : Int} {ti : TcpFlag} {a t b : List Block} {m : Block}
    (h : ti ||| m.flags = m.flags) :
    Returned start rcv a t b m (settled rcv ti (a ++ m :: b)) := by
  refine ⟨rfl, h, .inr (.inr ?_)⟩
  cases a with
  | nil => exact ⟨m, rfl, rfl⟩
  | cons x a => exact ⟨x, rfl, rfl⟩

theorem returned_placed {start rcv : Int} {a b a' t b' : List Block} {n m : Block}
    (h : place a n b = (a' ++ m :: b', m)) :
    Returned start rcv a' t b' m (placed rcv a n b) := by
  simp only [placed, h]
  exact ⟨rfl, BitVec.or_self, .inl rfl⟩

/-- Flags do not matter to the shape of a queue. -/
theorem wf_orFlag {a b : List Block} {l : Block} {f : TcpFlag} (h : Wf (a ++ l :: b)) :
    Wf (a ++ l.orFlag f :: b) := by
  obtain ⟨h₁, h₂, h₃⟩ := Normal.append_iff.mp h
  obtain ⟨h₄, h₅, h₆⟩ := Normal.cons_iff.mp h₂
  refine Normal.append_iff.mpr ⟨h₁, Normal.cons_iff.mpr ⟨h₄, h₅, h₆⟩, fun x hx y hy => ?_⟩
  rcases List.mem_cons.mp hy with rfl | hy
  · exact h₃ x hx l (by simp)
  · exact h₃ x hx y (by simp [hy])

section Shapes

variable {start stop rcv : Int} {ti : TcpFlag} {s a k b x y : List Block} {l r m : Block}

/-- The joined block when at most one block sticks out, or only touches, on either side. -/
theorem joined_of_sides (hs : s = a ++ (x ++ (k ++ y) ++ b)) (hlt : start < stop)
    (hk : ∀ c ∈ k, Covers start stop c ∧ c.start < c.stop)
    (hbelow : ∀ z ∈ a, z.stop < start) (habove : ∀ z ∈ b, stop < z.start)
    (hx : (x = [] ∧ m.start = start) ∨
      ∃ p, x = [p] ∧ p.start < start ∧ start ≤ p.stop ∧ p.stop ≤ m.stop ∧ m.start = p.start)
    (hy : (y = [] ∧ m.stop = stop) ∨
      ∃ q, y = [q] ∧ stop < q.stop ∧ q.start ≤ stop ∧ m.start ≤ q.start ∧ m.stop = q.stop)
    (hf : m.flags = ti ||| orFlags k ||| orFlags ((x ++ y).take 1)) :
    Joined start stop ti s a (x ++ (k ++ y)) b m := by
  have hleft : m.start ≤ start ∧ (m.start = start ∨ ∃ z ∈ x, z.start = m.start) ∧
      ∀ z ∈ x, start ≤ z.stop ∧ z.start ≤ stop ∧ m.start ≤ z.start ∧ z.stop ≤ m.stop := by
    rcases hx with ⟨rfl, hms⟩ | ⟨p, rfl, hp, hps, hpm, hms⟩
    · exact ⟨hms.le, .inl hms, by simp⟩
    · refine ⟨by omega, .inr ⟨p, by simp, hms.symm⟩, ?_⟩
      intro z hz
      obtain rfl := List.mem_singleton.mp hz
      omega
  have hright : stop ≤ m.stop ∧ (m.stop = stop ∨ ∃ z ∈ y, z.stop = m.stop) ∧
      ∀ z ∈ y, start ≤ z.stop ∧ z.start ≤ stop ∧ m.start ≤ z.start ∧ z.stop ≤ m.stop := by
    rcases hy with ⟨rfl, hme⟩ | ⟨q, rfl, hq, hqs, hqm, hme⟩
    · exact ⟨hme.ge, .inl hme, by simp⟩
    · refine ⟨by omega, .inr ⟨q, by simp, hme.symm⟩, ?_⟩
      intro z hz
      obtain rfl := List.mem_singleton.mp hz
      omega
  have hall : ∀ z ∈ x ++ (k ++ y),
      start ≤ z.stop ∧ z.start ≤ stop ∧ m.start ≤ z.start ∧ z.stop ≤ m.stop := by
    intro z hz
    rcases List.mem_append.mp hz with hz | hz
    · exact hleft.2.2 z hz
    · rcases List.mem_append.mp hz with hz | hz
      · obtain ⟨⟨h₁, h₂⟩, h₃⟩ := hk z hz
        have := hleft.1
        have := hright.1
        omega
      · exact hright.2.2 z hz
  have hstart : m.start = start ∨ ∃ z ∈ x ++ (k ++ y), z.start = m.start := by
    refine hleft.2.1.imp_right ?_
    rintro ⟨z, hz, he⟩
    exact ⟨z, List.mem_append_left _ hz, he⟩
  have hstop : m.stop = stop ∨ ∃ z ∈ x ++ (k ++ y), z.stop = m.stop := by
    refine hright.2.1.imp_right ?_
    rintro ⟨z, hz, he⟩
    exact ⟨z, List.mem_append_right _ (List.mem_append_right _ hz), he⟩
  refine ⟨hs, hbelow, habove, fun z hz => ⟨(hall z hz).1, (hall z hz).2.1⟩, hleft.1, hright.1,
    fun z hz => (hall z hz).2.2, hstart, hstop, ?_⟩
  rw [hf]
  rcases hx with ⟨rfl, hms⟩ | ⟨p, rfl, hp, hps, hpm, hms⟩
  · have hle : ∀ z ∈ k ++ y, start ≤ z.start := by
      intro z hz
      rcases List.mem_append.mp hz with hz | hz
      · exact (hk z hz).1.1
      · have := (hall z (by simp [hz])).2.2.1
        omega
    simp only [List.nil_append, kept_of_le hle]
    rcases hy with ⟨rfl, -⟩ | ⟨q, rfl, -⟩
    · simp
    · simp [BitVec.or_assoc]
  · rcases hy with ⟨rfl, hme⟩ | ⟨q, rfl, hq, hqs, hqm, hme⟩
    · have hge : ∀ z ∈ [p] ++ (k ++ []), z.stop ≤ stop := fun z hz => hme ▸ (hall z hz).2.2.2
      rw [kept_of_ge hge]
      simp
      ac_rfl
    · have he : [p] ++ (k ++ [q]) = p :: (k ++ [q]) := rfl
      rw [he, kept_concat, if_pos ⟨hp, hq⟩]
      simp
      ac_rfl

/-- A segment that no block sticks out of. -/
theorem spec_within (hlt : start < stop) (hwf : Wf (a ++ (k ++ b)))
    (ha : ∀ x ∈ a, x.stop ≤ start) (hk : ∀ c ∈ k, Covers start stop c)
    (hb : ∀ x ∈ b, stop ≤ x.start) :
    ∃ a' t b' m, Joined start stop ti (a ++ (k ++ b)) a' t b' m ∧
      Returned start rcv a' t b' m (merge rcv start stop (ti ||| orFlags k) a [] b) := by
  have hne := hwf.nonempty
  obtain ⟨hwa, hwkb, -⟩ := Normal.append_iff.mp hwf
  obtain ⟨-, hwb, -⟩ := Normal.append_iff.mp hwkb
  obtain ⟨a', x, y, b', m, rfl, rfl, hp, he⟩ :=
    place_spec (n := ⟨start, stop, ti ||| orFlags k⟩) hwa.loose hwb.loose ha hb
  obtain ⟨hbelow, habove, hx, hy, hf⟩ := hp
  rw [merge, if_neg fun h => absurd hlt (not_lt.mpr h.1)]
  refine ⟨a', x ++ (k ++ y), b', m, ?_, returned_placed he⟩
  refine joined_of_sides (by simp) hlt (fun c hc => ⟨hk c hc, hne c (by simp [hc])⟩)
    hbelow habove ?_ ?_ hf
  · grind
  · grind

/-- A segment that lies inside a block. -/
theorem spec_inside {f : TcpFlag} (hlt : start < stop) (hwf : Wf (a ++ l :: b))
    (hl : l.start ≤ start ∧ stop ≤ l.stop) (hf : f = ti ||| l.flags) :
    Joined start stop ti (a ++ l :: b) a [l] b ⟨l.start, l.stop, f⟩ := by
  obtain ⟨h₁, h₂⟩ := Normal.split_at hwf
  have hf' : f = ti ||| orFlags (kept start stop [l]) := by simpa [kept] using hf
  exact ⟨rfl, by grind, by grind, by grind, hl.1, hl.2, by grind, by grind, by grind, hf'⟩

/-- A block that sticks out on the left. -/
theorem spec_left (hlt : start < stop) (hwf : Wf (a ++ (l :: k ++ b)))
    (hl : l.start < start ∧ start < l.stop) (hk : ∀ c ∈ k, Covers start stop c)
    (hb : ∀ x ∈ b, stop ≤ x.start) :
    ∃ a' t b' m, Joined start stop ti (a ++ (l :: k ++ b)) a' t b' m ∧
      Returned start rcv a' t b' m (merge rcv start stop (ti ||| orFlags k) a [l] b) := by
  obtain ⟨hwa, hwkb, hak⟩ := Normal.append_iff.mp hwf
  obtain ⟨hwlk, hwb, hlb⟩ := Normal.append_iff.mp hwkb
  have hal : ∀ x ∈ a, x.stop < l.start := fun x hx => hak x hx l (by simp)
  have hbelow : ∀ x ∈ a, x.stop < start := fun x hx => lt_trans (hal x hx) hl.1
  have hlk := (Normal.cons_iff.mp hwlk).2.1
  have hne := hwlk.nonempty
  have hkn : ∀ c ∈ k, Covers start stop c ∧ c.start < c.stop :=
    fun c hc => ⟨hk c hc, hne c (by simp [hc])⟩
  simp only [merge, if_pos hl.1]
  by_cases hin : stop ≤ l.stop
  · obtain rfl : k = [] := by
      rcases k with - | ⟨c, k⟩
      · rfl
      · have := hlk c (by simp)
        have := hkn c (by simp)
        simp only [Covers] at this
        omega
    rw [if_pos (.inl hin), max_eq_left hin]
    refine ⟨a, [l], b, _, spec_inside hlt hwf ⟨by omega, hin⟩ ?_, returned_settled ?_⟩
    · simp [BitVec.or_comm]
    · simp; grind
  rcases b with - | ⟨c, b⟩
  · rw [if_pos (.inr rfl)]
    refine ⟨a, [l] ++ (k ++ []), [], ⟨l.start, max l.stop stop, l.flags ||| (ti ||| orFlags k)⟩, ?_,
      returned_settled (by simp; grind)⟩
    refine joined_of_sides (by simp) hlt hkn hbelow (by simp) (.inr ⟨l, rfl, ?_⟩)
      (.inl ⟨rfl, ?_⟩) ?_
    · grind
    · grind
    · simp [BitVec.or_comm]
  · rw [if_neg (by simpa using hin)]
    have hwal : Wf (a ++ [l.orFlag (ti ||| orFlags k)]) :=
      wf_orFlag (a := a) (b := []) (Normal.sublist hwf (by simp))
    obtain ⟨a', x, y, b', m, ha', hb', hp, he⟩ :=
      place_spec (n := ⟨l.stop, stop, ti ||| orFlags k⟩) hwal.loose hwb.loose (by grind) hb
    obtain ⟨rfl, rfl, hms⟩ := hp.left_joined ha' rfl
    have hqs : ∀ q ∈ y, q.start < q.stop := fun q hq => hwb.nonempty q (by simp [hb', hq])
    obtain ⟨-, habove, -, hy, hf⟩ := hp
    refine ⟨a, [l] ++ (k ++ y), b', m, ?_, returned_placed he⟩
    refine joined_of_sides (by simp [hb']) hlt hkn hbelow habove (.inr ⟨l, rfl, ?_⟩) ?_ ?_
    · refine ⟨hl.1, hl.2.le, ?_, hms⟩
      grind
    · grind
    · rw [hf]; simp; grind

/-- A block that sticks out on the right only. -/
theorem spec_right (hlt : start < stop) (hwf : Wf (a ++ (k ++ r :: b)))
    (ha : ∀ x ∈ a, x.stop ≤ start) (hk : ∀ c ∈ k, Covers start stop c)
    (hr : start ≤ r.start ∧ r.start < stop ∧ stop < r.stop) :
    ∃ a' t b' m, Joined start stop ti (a ++ (k ++ r :: b)) a' t b' m ∧
      Returned start rcv a' t b' m (merge rcv start stop (ti ||| orFlags k) a [r] b) := by
  obtain ⟨hwa, hwkb, hak⟩ := Normal.append_iff.mp hwf
  obtain ⟨hwk, hwrb, hkr⟩ := Normal.append_iff.mp hwkb
  have hrb := (Normal.cons_iff.mp hwrb).2.1
  have habove : ∀ x ∈ b, stop < x.start := fun x hx => lt_trans hr.2.2 (hrb x hx)
  have hkn : ∀ c ∈ k, Covers start stop c ∧ c.start < c.stop :=
    fun c hc => ⟨hk c hc, hwk.nonempty c hc⟩
  simp only [merge, if_neg (not_lt.mpr hr.1)]
  by_cases hset : a = [] ∨ start = r.start
  · rw [if_pos hset]
    refine ⟨a, [] ++ (k ++ [r]), b, ⟨start, r.stop, r.flags ||| (ti ||| orFlags k)⟩, ?_,
      returned_settled (by simp; grind)⟩
    refine joined_of_sides (by simp) hlt hkn ?_ habove (.inl ⟨rfl, rfl⟩) (.inr ⟨r, rfl, ?_⟩) ?_
    · intro x hx
      rcases hset with rfl | rfl
      · simp at hx
      · exact hak x hx r (by simp)
    · grind
    · simp [BitVec.or_comm]
  · rw [if_neg hset]
    push Not at hset
    have hwr : Wf (r.orFlag (ti ||| orFlags k) :: b) := wf_orFlag (a := []) hwrb
    obtain ⟨a', x, y, b', m, ha', hb', hp, he⟩ :=
      place_spec (n := ⟨start, r.start, ti ||| orFlags k⟩) hwa.loose hwr.loose ha (by grind)
    obtain ⟨rfl, rfl, hme⟩ := hp.right_joined hb' rfl
    have hqs : ∀ q ∈ x, q.start < q.stop := fun q hq => hwa.nonempty q (by simp [ha', hq])
    obtain ⟨hbelow, -, hx, -, hf⟩ := hp
    refine ⟨a', x ++ (k ++ [r]), b, m, ?_, returned_placed he⟩
    refine joined_of_sides (by simp [ha']) hlt hkn hbelow habove ?_ (.inr ⟨r, rfl, ?_⟩) ?_
    · grind
    · refine ⟨hr.2.2, hr.2.1.le, ?_, hme⟩
      grind
    · rw [hf]
      cases x with
      | nil => simp; grind
      | cons c x => rfl

/-- A block that sticks out on either side. -/
theorem spec_both (hlt : start < stop) (hwf : Wf (a ++ (l :: (k ++ [r]) ++ b)))
    (hl : l.start < start ∧ start < l.stop) (hk : ∀ c ∈ k, Covers start stop c)
    (hr : r.start < stop ∧ stop < r.stop) :
    ∃ a' t b' m, Joined start stop ti (a ++ (l :: (k ++ [r]) ++ b)) a' t b' m ∧
      Returned start rcv a' t b' m (merge rcv start stop (ti ||| orFlags k) a [l, r] b) := by
  obtain ⟨hwa, hwlkrb, hak⟩ := Normal.append_iff.mp hwf
  obtain ⟨hwlkr, hwb, hrb⟩ := Normal.append_iff.mp hwlkrb
  obtain ⟨-, hlk, hwkr⟩ := Normal.cons_iff.mp hwlkr
  have hne := hwlkr.nonempty
  have hlr : l.stop < r.start := hlk r (by simp)
  have hkn : ∀ c ∈ k, Covers start stop c ∧ c.start < c.stop :=
    fun c hc => ⟨hk c hc, hne c (by simp [hc])⟩
  have hbelow : ∀ x ∈ a, x.stop < start := fun x hx => lt_trans (hak x hx l (by simp)) hl.1
  have habove : ∀ x ∈ b, stop < x.start := fun x hx => lt_trans hr.2 (hrb r (by simp) x hx)
  have hwal : Wf (a ++ [l.orFlag (ti ||| orFlags k)]) :=
    wf_orFlag (a := a) (b := []) (Normal.sublist hwf (by simp))
  have hwr : Wf (r.orFlag (ti ||| orFlags k) :: b) :=
    wf_orFlag (a := []) (Normal.sublist hwlkrb (by simp))
  obtain ⟨a', x, y, b', m, ha', hb', hp, he⟩ :=
    place_spec (n := ⟨l.stop, r.start, ti ||| orFlags k⟩) hwal.loose hwr.loose (by grind) (by grind)
  obtain ⟨rfl, rfl, hms⟩ := hp.left_joined ha' rfl
  obtain ⟨rfl, rfl, hme⟩ := hp.right_joined hb' rfl
  have hf := hp.flags
  refine ⟨a, [l] ++ (k ++ [r]), b, m, ?_, returned_placed he⟩
  refine joined_of_sides (by simp) hlt hkn hbelow habove (.inr ⟨l, rfl, ?_⟩) (.inr ⟨r, rfl, ?_⟩) ?_
  · grind
  · grind
  · rw [hf]; simp; grind

end Shapes

/-- An overlapped block with the bounds of the segment is the only one. -/
theorem eq_singleton_of_exact {start stop : Int} {m : List Block} {c : Block} (h : Loose m)
    (hov : ∀ x ∈ m, start < x.stop ∧ x.start < stop) (hc : c ∈ m) (hs : c.start = start)
    (he : c.stop = stop) : m = [c] := by
  obtain ⟨m₁, m₂, rfl⟩ := List.append_of_mem hc
  obtain ⟨h₁, h₂⟩ := Loose.split_at h
  obtain rfl : m₁ = [] := List.eq_nil_iff_forall_not_mem.mpr fun x hx => by
    have := h₁ x hx
    have := hov x (by simp [hx])
    omega
  obtain rfl : m₂ = [] := List.eq_nil_iff_forall_not_mem.mpr fun x hx => by
    have := h₂ x hx
    have := hov x (by simp [hx])
    omega
  rfl

/-- **The blocks a segment touches become one.** -/
theorem add_spec {l : List Block} {start stop : Int} (hwf : Wf l) (hlt : start < stop) (rcv : Int)
    (ti : TcpFlag) :
    ∃ a t b m, Joined start stop ti l a t b m ∧
      Returned start rcv a t b m (add l rcv start stop ti) := by
  obtain ⟨heq, ha, hm, hb⟩ := split_of_wf start stop hwf
  rw [add]
  generalize before l start = a at *
  generalize overlap l start stop = m at *
  generalize after l start stop = b at *
  subst heq
  have hwm : Wf m := (Normal.append_iff.mp (Normal.append_iff.mp hwf).2.1).1
  unfold addAt
  split
  case h_1 c hc =>
    have hcm := List.mem_of_find?_eq_some hc
    obtain ⟨hs, he⟩ : c.start = start ∧ c.stop = stop := by simpa using List.find?_some hc
    obtain rfl := eq_singleton_of_exact hwm.loose hm hcm hs he
    refine ⟨a, [c], b, c.orFlag ti, spec_inside hlt hwf ⟨hs.le, he.ge⟩ (BitVec.or_comm _ _), ?_⟩
    refine ⟨by simp [hs, he], by simp, .inr (.inl ⟨c, by simp, hs, rfl⟩)⟩
  case h_2 hnone =>
    -- no block is an exact duplicate, so an uncovered one sticks out
    have hcov : ∀ k : List Block, (∀ c ∈ k, Covers start stop c) →
        k.filter (fun c => decide (Covers start stop c)) = k ∧
        k.filter (fun c => decide (¬ Covers start stop c)) = [] := fun k hk => by
      simp only [List.filter_eq_self, List.filter_eq_nil_iff]
      exact ⟨by simpa using hk, by simpa using hk⟩
    cases shape_of_overlap hwm hm with
    | within _ hk =>
        rw [(hcov m hk).1, (hcov m hk).2]
        exact spec_within hlt hwf ha hk hb
    | left l k hl hk =>
        have hlc : ¬ Covers start stop l := fun h => by have := h.1; omega
        rw [List.filter_cons_of_neg (by simpa using hlc), List.filter_cons_of_pos (by simpa using hlc),
          (hcov k hk).1, (hcov k hk).2]
        exact spec_left hlt hwf ⟨hl, (hm l (by simp)).1⟩ hk hb
    | right k r hrs hre hk =>
        have hrc : ¬ Covers start stop r := fun h => by have := h.2; omega
        have hr := (hm r (by simp)).2
        simp only [List.append_assoc, List.singleton_append, List.filter_append, (hcov k hk).1,
          (hcov k hk).2] at hwf ⊢
        rw [List.filter_cons_of_neg (by simpa using hrc), List.filter_cons_of_pos (by simpa using hrc)]
        simpa using spec_right hlt hwf ha hk ⟨hrs, hr, hre⟩
    | both l k r hl hr hk =>
        have hlc : ¬ Covers start stop l := fun h => by have := h.1; omega
        have hrc : ¬ Covers start stop r := fun h => by have := h.2; omega
        rw [List.filter_cons_of_neg (by simpa using hlc), List.filter_cons_of_pos (by simpa using hlc),
          List.filter_append, List.filter_append, (hcov k hk).1, (hcov k hk).2,
          List.filter_cons_of_neg (by simpa using hrc), List.filter_cons_of_pos (by simpa using hrc)]
        simpa using spec_both hlt hwf ⟨hl, (hm l (by simp)).1⟩ hk
          ⟨(hm r (by simp)).2, hr⟩

/-! ### Consequences -/

section Joined

variable {start stop rcv : Int} {ti : TcpFlag} {l a t b : List Block} {m : Block} {r : Added}

theorem Joined.wf (h : Joined start stop ti l a t b m) (hwf : Wf l) (hlt : start < stop) :
    Wf (a ++ m :: b) := by
  obtain ⟨hwa, hwtb, hatb⟩ := Normal.append_iff.mp (h.eq ▸ hwf)
  obtain ⟨-, hwb, htb⟩ := Normal.append_iff.mp hwtb
  have ham : ∀ x ∈ a, x.stop < m.start := fun x hx => by
    rcases h.start_eq with e | ⟨y, hy, e⟩
    · rw [e]; exact h.below x hx
    · rw [← e]; exact hatb x hx y (by simp [hy])
  have hmb : ∀ y ∈ b, m.stop < y.start := fun y hy => by
    rcases h.stop_eq with e | ⟨x, hx, e⟩
    · rw [e]; exact h.above y hy
    · rw [← e]; exact htb x hx y hy
  have hm : m.start < m.stop := lt_of_le_of_lt h.start_le (lt_of_lt_of_le hlt h.le_stop)
  refine Normal.append_iff.mpr ⟨hwa, Normal.cons_iff.mpr ⟨hm, hmb, hwb⟩, fun x hx y hy => ?_⟩
  rcases List.mem_cons.mp hy with rfl | hy
  · exact ham x hx
  · exact hatb x hx y (by simp [hy])

/-- The joined block covers the segment and the blocks it replaces, and nothing else. -/
theorem Joined.cover_eq (h : Joined start stop ti l a t b m) :
    Set.Ico m.start m.stop = bytes t ∪ Set.Ico start stop := by
  ext v
  constructor
  · rintro ⟨hv₁, hv₂⟩
    by_cases hs : v < start
    · rcases h.start_eq with e | ⟨x, hx, e⟩
      · omega
      · exact .inl ⟨x, hx, by omega, by have := (h.touch x hx).1; omega⟩
    by_cases he : v < stop
    · exact .inr ⟨by omega, he⟩
    · rcases h.stop_eq with e | ⟨x, hx, e⟩
      · omega
      · exact .inl ⟨x, hx, by have := (h.touch x hx).2; omega, by omega⟩
  · rintro (⟨x, hx, hv₁, hv₂⟩ | ⟨hv₁, hv₂⟩)
    · obtain ⟨h₁, h₂⟩ := h.spans x hx
      exact ⟨by omega, by omega⟩
    · have := h.start_le
      have := h.le_stop
      exact ⟨by omega, by omega⟩

theorem Joined.bytes_eq (h : Joined start stop ti l a t b m) :
    bytes (a ++ m :: b) = bytes l ∪ Set.Ico start stop := by
  rw [h.eq]
  exact bytes_replace h.cover_eq

/-- `rcv_nxt_` stays put below the first block. -/
theorem Joined.rcvNxt_eq (h : Joined start stop ti l a t b m)
    (hr : Returned start rcv a t b m r) (hlt : rcv < start) (hl : ∀ x ∈ l, rcv < x.start) :
    r.rcvNxt = rcv := by
  have hm : rcv < m.start := by
    rcases h.start_eq with e | ⟨x, hx, e⟩
    · omega
    · have := hl x (by simp [h.eq, hx])
      omega
  have hb : bump rcv m = rcv := by rw [bump, if_neg (by omega)]
  rcases hr.rcvNxt with e | ⟨-, -, -, e⟩ | ⟨x, hx, e⟩
  · rw [e, hb]
  · exact e
  · rw [e]
    rcases a with - | ⟨y, a⟩
    · obtain rfl : m = x := by simpa using hx
      exact hb
    · obtain rfl : y = x := by simpa using hx
      have := hl y (by simp [h.eq])
      rw [bump, if_neg (by omega)]

/-- A segment at `rcv_nxt_`, below every block, moves it to the end of the joined block, which
is then the first. -/
theorem Joined.rcvNxt_fill (h : Joined rcv stop ti l a t b m)
    (hr : Returned rcv rcv a t b m r) (hwf : Wf l) (hl : ∀ x ∈ l, rcv < x.start) :
    a = [] ∧ m.start = rcv ∧ r.rcvNxt = m.stop := by
  obtain rfl : a = [] := List.eq_nil_iff_forall_not_mem.mpr fun x hx => by
    have := h.below x hx
    have := hl x (by simp [h.eq, hx])
    have := hwf.nonempty x (by simp [h.eq, hx])
    omega
  have hm : m.start = rcv := by
    rcases h.start_eq with e | ⟨x, hx, e⟩
    · exact e
    · have := h.start_le
      have := hl x (by simp [h.eq, hx])
      omega
  have hb : bump rcv m = m.stop := by rw [bump, if_pos (by omega)]
  refine ⟨rfl, hm, ?_⟩
  rcases hr.rcvNxt with e | ⟨x, hx, e, -⟩ | ⟨x, hx, e⟩
  · rw [e, hb]
  · have := hl x (by simp [h.eq, hx])
    omega
  · obtain rfl : m = x := by simpa using hx
    rw [e, hb]

end Joined

section Add

variable {l : List Block} {start stop rcv : Int} {ti : TcpFlag}

theorem add_wf (hwf : Wf l) (hlt : start < stop) : Wf (add l rcv start stop ti).blocks := by
  obtain ⟨a, t, b, m, hj, hr⟩ := add_spec hwf hlt rcv ti
  rw [hr.blocks]
  exact hj.wf hwf hlt

theorem add_bytes (hwf : Wf l) (hlt : start < stop) :
    bytes (add l rcv start stop ti).blocks = bytes l ∪ Set.Ico start stop := by
  obtain ⟨a, t, b, m, hj, hr⟩ := add_spec hwf hlt rcv ti
  rw [hr.blocks]
  exact hj.bytes_eq

end Add

/-! ### `clearto` -/

theorem clearto_eq {l : List Block} (hwf : Wf l) {seq : Int} (h : ∀ x ∈ l, seq < x.start) :
    clearto l seq = (l, 0) := by
  cases l with
  | nil => rfl
  | cons b l =>
      have h₁ := h b (by simp)
      have h₂ := hwf.nonempty b (by simp)
      rw [clearto, if_neg (by omega), if_neg (by omega)]

theorem clearto_wf {l : List Block} (hwf : Wf l) (seq : Int) : Wf (clearto l seq).1 := by
  induction l with
  | nil => exact .nil
  | cons b l ih =>
      obtain ⟨h₁, h₂, h₃⟩ := Normal.cons_iff.mp hwf
      rw [clearto]
      split
      · exact ih h₃
      · split
        · exact Normal.cons_iff.mpr ⟨by dsimp only; omega, h₂, h₃⟩
        · exact hwf

theorem clearto_bytes {l : List Block} (hwf : Wf l) (seq : Int) :
    bytes (clearto l seq).1 = bytes l \ Set.Iio seq := by
  induction l with
  | nil => simp [clearto]
  | cons b l ih =>
      obtain ⟨h₁, h₂, h₃⟩ := Normal.cons_iff.mp hwf
      have hl : ∀ v ∈ cover Block.start Block.stop l, b.stop < v := fun v hv => by
        obtain ⟨x, hx, hxv, -⟩ := hv
        exact lt_of_lt_of_le (h₂ x hx) hxv
      ext v
      rw [Set.mem_sdiff, Set.mem_Iio, not_lt, clearto]
      split
      · rw [ih h₃]
        simp only [bytes, cover_cons, Set.mem_sdiff, Set.mem_union, Set.mem_Ico, Set.mem_Iio]
        constructor
        · exact fun h => ⟨.inr h.1, not_lt.mp h.2⟩
        · rintro ⟨h | h, hv⟩
          · omega
          · exact ⟨h, not_lt.mpr hv⟩
      · have := hl v
        split <;> simp only [bytes, cover_cons, Set.mem_union, Set.mem_Ico]
        · constructor
          · rintro (h | h)
            · exact ⟨.inl ⟨by omega, h.2⟩, h.1⟩
            · exact ⟨.inr h, by have := this h; omega⟩
          · rintro ⟨h | h, hv⟩
            · exact .inl ⟨hv, h.2⟩
            · exact .inr h
        · constructor
          · rintro (h | h)
            · exact ⟨.inl h, by omega⟩
            · exact ⟨.inr h, by have := this h; omega⟩
          · exact fun h => h.1

/-- After a cut nothing is left below `seq`. -/
theorem clearto_le {l : List Block} (hwf : Wf l) {seq : Int} :
    ∀ x ∈ (clearto l seq).1, seq ≤ x.start := by
  induction l with
  | nil => simp [clearto]
  | cons b l ih =>
      obtain ⟨h₁, h₂, h₃⟩ := Normal.cons_iff.mp hwf
      intro x hx
      rw [clearto] at hx
      split at hx
      · exact ih h₃ x hx
      · split at hx
        · rcases List.mem_cons.mp hx with rfl | hx
          · exact le_rfl
          · have := h₂ x hx
            omega
        · rcases List.mem_cons.mp hx with rfl | hx
          · omega
          · have := h₂ x hx
            omega

end Afabric.SegList
