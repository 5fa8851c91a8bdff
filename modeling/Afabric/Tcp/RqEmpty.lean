import Afabric.Tcp.RqRuns

/-!
# Tcp — segments without bytes

`reass` gives a FIN that carries no data to the queue as a segment `[start, start)`, and `add`
accepts it.  A queue may then hold blocks without bytes, and one step of `add` is wrong on such a
queue: the kill loop starts at the block `p` before the segment, and removes `p` when it is empty
and stands at the start of the segment.  A second pass looks for `p` again, but there is none when
nothing is left on the queue; the segment's block is then linked to the deleted one, and `head_`
stays null.

This happens when the first block is empty and stands at the start of the segment, and the segment
covers the last block, another one (`Swallows`).  On every other call `add` keeps the lists in order
and the bytes exact (`Orderly.add`); a run of calls is consistent throughout if and only if none of
them swallows the first block (`addAll_consistent_iff`).
-/

namespace Afabric

namespace SegList

/-! ### Blocks without bytes -/

variable {a b m : List Block} {n : Block} {start stop rcv : Int} {ti f : TcpFlag}

theorem loose_orFlag (h : Loose (a ++ n :: b)) : Loose (a ++ n.orFlag f :: b) := by
  have hab : Loose (a ++ b) := h.sublist (by simp)
  have hn := h.ordered n (by simp)
  obtain ⟨ha, hb⟩ := Loose.split_at h
  exact hab.insert hn ha hb

theorem bytes_orFlag : bytes (a ++ n.orFlag f :: b) = bytes (a ++ n :: b) := by
  simp [bytes]

theorem stop_le_last (h : Loose (a ++ n :: b)) : ∀ x ∈ a ++ [n], x.stop ≤ n.stop := by
  intro x hx
  rcases List.mem_append.mp hx with hx | hx
  · have hxn := (Loose.split_at h).1 x hx
    have hn := h.ordered n (by simp)
    omega
  · obtain rfl := List.mem_singleton.mp hx
    exact le_rfl

theorem first_le_start (h : Loose (a ++ n :: b)) : ∀ x ∈ n :: b, n.start ≤ x.start := by
  intro x hx
  rcases List.mem_cons.mp hx with rfl | hx
  · exact le_rfl
  · have hnx := (Loose.split_at h).2 x hx
    have hn := h.ordered n (by simp)
    omega

/-- A gap adds the bytes of the segment when the queue has the rest of them. -/
theorem union_gap {l : List Block} {u v : Int} (hu : start ≤ u) (hv : v ≤ stop)
    (h : ∀ w ∈ Set.Ico start stop, w ∉ Set.Ico u v → w ∈ bytes l) :
    bytes l ∪ Set.Ico u v = bytes l ∪ Set.Ico start stop := by
  ext w
  constructor
  · rintro (hw | hw)
    · exact .inl hw
    · exact .inr ⟨hu.trans hw.1, lt_of_lt_of_le hw.2 hv⟩
  · rintro (hw | hw)
    · exact .inl hw
    · by_cases hgap : w ∈ Set.Ico u v
      · exact .inr hgap
      · exact .inl (h w hw hgap)

theorem Placed.start_le {x y : List Block} {m : Block} (h : Placed n a x y b m)
    (hx : ∀ p ∈ x, p.start ≤ p.stop) : m.start ≤ n.start := by
  rcases h.left with ⟨-, e⟩ | ⟨p, rfl, hp, e⟩
  · exact e.le
  · have hps := hx p (by simp)
    omega

theorem Placed.le_stop {x y : List Block} {m : Block} (h : Placed n a x y b m)
    (hy : ∀ q ∈ y, q.start ≤ q.stop) : n.stop ≤ m.stop := by
  rcases h.right with ⟨-, e⟩ | ⟨q, rfl, hq, e⟩
  · exact e.ge
  · have hqs := hy q (by simp)
    omega

/-- The block a gap becomes covers the gap and the neighbours it joins. -/
theorem Placed.ico {x y : List Block} {m : Block} (h : Placed n a x y b m)
    (hn : n.start ≤ n.stop) (hx : ∀ p ∈ x, p.start ≤ p.stop) (hy : ∀ q ∈ y, q.start ≤ q.stop) :
    Set.Ico m.start m.stop = bytes (x ++ y) ∪ Set.Ico n.start n.stop := by
  have hms := h.start_le hx
  have hl : bytes x ∪ Set.Ico n.start n.stop = Set.Ico m.start n.stop := by
    rcases h.left with ⟨rfl, e⟩ | ⟨p, rfl, hp, e⟩
    · simp [bytes, e]
    · have hpn : Set.Ico p.start p.stop ∪ Set.Ico p.stop n.stop = Set.Ico p.start n.stop :=
        Set.Ico_union_Ico_eq_Ico (hx p (by simp)) (by omega)
      simp [bytes, e, ← hp, hpn]
  rw [bytes, cover_append, Set.union_right_comm, hl]
  rcases h.right with ⟨rfl, e⟩ | ⟨q, rfl, hq, e⟩
  · simp [e]
  · have hnq : Set.Ico m.start q.start ∪ Set.Ico q.start q.stop = Set.Ico m.start q.stop :=
      Set.Ico_union_Ico_eq_Ico (by omega) (hy q (by simp))
    simp [e, ← hq, hnq]

/-- A gap, or an empty segment, is placed between the blocks before and after it. -/
theorem place_loose (h : Loose (a ++ b)) (hn : n.start ≤ n.stop) (ha : ∀ x ∈ a, x.stop ≤ n.start)
    (hb : ∀ x ∈ b, n.stop ≤ x.start) :
    Loose (place a n b).1 ∧ bytes (place a n b).1 = bytes (a ++ b) ∪ Set.Ico n.start n.stop := by
  obtain ⟨hla, hlb, -⟩ := Loose.append_iff.mp h
  obtain ⟨a', x, y, b', m, rfl, rfl, hp, he⟩ := place_spec hla hlb ha hb
  have hx : ∀ p ∈ x, p.start ≤ p.stop := fun p hp => hla.ordered p (by simp [hp])
  have hy : ∀ q ∈ y, q.start ≤ q.stop := fun q hq => hlb.ordered q (by simp [hq])
  have hsub : Loose (a' ++ b') :=
    h.sublist ((List.sublist_append_left a' x).append (List.sublist_append_right y b'))
  have hbelow : ∀ z ∈ a', z.stop < m.start := by
    intro z hz
    rcases hp.left with ⟨-, e⟩ | ⟨p, rfl, -, e⟩
    · rw [e]; exact hp.below z hz
    · rw [e]; exact (Loose.split_at hla).1 z hz
  have habove : ∀ z ∈ b', m.stop < z.start := by
    intro z hz
    rcases hp.right with ⟨-, e⟩ | ⟨q, rfl, -, e⟩
    · rw [e]; exact hp.above z hz
    · rw [e]; exact (Loose.cons_iff.mp hlb).2.1 z hz
  have hm : m.start ≤ m.stop := ((hp.start_le hx).trans hn).trans (hp.le_stop hy)
  rw [he]
  refine ⟨hsub.insert hm hbelow habove, ?_⟩
  have hbytes : bytes (a' ++ m :: b') = bytes (a' ++ (x ++ y ++ b')) ∪ _ :=
    bytes_replace (hp.ico hn hx hy)
  simpa using hbytes

variable (rcv ti) in
/-- The segment is merged with a block that sticks out on the left. -/
theorem merge_left_loose {l : Block} (h : Loose (a ++ l :: b))
    (hl : l.start < start ∧ start < l.stop) (hb : ∀ x ∈ b, stop ≤ x.start) :
    Loose (merge rcv start stop ti a [l] b).blocks ∧
      bytes (merge rcv start stop ti a [l] b).blocks =
        bytes (a ++ l :: b) ∪ Set.Ico start stop := by
  have hab : Loose (a ++ b) := h.sublist (by simp)
  obtain ⟨hal, hlb⟩ := Loose.split_at h
  simp only [merge, if_pos hl.1]
  by_cases hin : stop ≤ l.stop ∨ b = []
  · rw [if_pos hin]
    have hv : ∀ y ∈ b, max l.stop stop < y.start := by
      intro y hy
      rcases hin with hin | rfl
      · rw [max_eq_left hin]; exact hlb y hy
      · simp at hy
    refine ⟨hab.insert (by dsimp only; omega) hal hv, ?_⟩
    refine bytes_replace (t := [l]) ?_
    ext v
    simp only [bytes, cover_cons, cover_nil, Set.union_empty, Set.mem_union, Set.mem_Ico]
    omega
  · rw [if_neg hin]
    have hls : l.stop < stop := not_le.mp (not_or.mp hin).1
    have h' : Loose ((a ++ [l.orFlag ti]) ++ b) := by simpa using loose_orFlag h
    obtain ⟨h₁, h₂⟩ := place_loose (n := ⟨l.stop, stop, ti⟩) h' hls.le (stop_le_last (loose_orFlag h))
      hb
    refine ⟨h₁, h₂.trans ?_⟩
    have hbo : bytes (a ++ [l.orFlag ti] ++ b) = bytes (a ++ l :: b) := by simp [bytes]
    rw [hbo]
    refine union_gap hl.2.le le_rfl fun v hv hgap => ⟨l, by simp, ?_⟩
    simp only [Set.mem_Ico] at hv hgap
    omega

variable (rcv ti) in
/-- The segment is merged with a block that sticks out on the right. -/
theorem merge_right_loose {r : Block} (h : Loose (a ++ r :: b)) (ha : ∀ x ∈ a, x.stop ≤ start)
    (hr : start ≤ r.start ∧ r.start < stop ∧ stop < r.stop) :
    Loose (merge rcv start stop ti a [r] b).blocks ∧
      bytes (merge rcv start stop ti a [r] b).blocks =
        bytes (a ++ r :: b) ∪ Set.Ico start stop := by
  have hab : Loose (a ++ b) := h.sublist (by simp)
  obtain ⟨har, hrb⟩ := Loose.split_at h
  simp only [merge, if_neg (not_lt.mpr hr.1)]
  by_cases hset : a = [] ∨ start = r.start
  · rw [if_pos hset]
    have hv : ∀ x ∈ a, x.stop < start := by
      intro x hx
      rcases hset with rfl | rfl
      · simp at hx
      · exact har x hx
    refine ⟨hab.insert (by dsimp only; omega) hv hrb, ?_⟩
    refine bytes_replace (t := [r]) ?_
    ext v
    simp only [bytes, cover_cons, cover_nil, Set.union_empty, Set.mem_union, Set.mem_Ico]
    omega
  · rw [if_neg hset]
    have h' : Loose (a ++ r.orFlag ti :: b) := loose_orFlag h
    obtain ⟨h₁, h₂⟩ := place_loose (n := ⟨start, r.start, ti⟩) h' hr.1 ha (first_le_start h')
    refine ⟨h₁, h₂.trans ?_⟩
    rw [bytes_orFlag]
    refine union_gap le_rfl hr.2.1.le fun v hv hgap => ⟨r, by simp, ?_⟩
    simp only [Set.mem_Ico] at hv hgap
    omega

variable (rcv ti) in
/-- The segment fills the gap between two blocks that stick out. -/
theorem merge_both_loose {l r : Block} (h : Loose (a ++ l :: r :: b))
    (hl : l.start < start ∧ start < l.stop) (hr : r.start < stop ∧ stop < r.stop) :
    Loose (merge rcv start stop ti a [l, r] b).blocks ∧
      bytes (merge rcv start stop ti a [l, r] b).blocks =
        bytes (a ++ l :: r :: b) ∪ Set.Ico start stop := by
  have hlr : l.stop < r.start := (Loose.split_at h).2 r (by simp)
  have h₁ : Loose ((a ++ [l.orFlag ti]) ++ r :: b) := by simpa using loose_orFlag h
  have h' : Loose ((a ++ [l.orFlag ti]) ++ r.orFlag ti :: b) := loose_orFlag h₁
  obtain ⟨h₂, h₃⟩ := place_loose (n := ⟨l.stop, r.start, ti⟩) h' hlr.le
    (stop_le_last (loose_orFlag h)) (first_le_start h')
  refine ⟨h₂, h₃.trans ?_⟩
  have hbo : bytes (a ++ [l.orFlag ti] ++ r.orFlag ti :: b) = bytes (a ++ l :: r :: b) := by
    simp [bytes]
  rw [hbo]
  refine union_gap hl.2.le hr.1.le fun v hv hgap => ?_
  simp only [Set.mem_Ico] at hv hgap
  by_cases hvl : v < l.stop
  · exact ⟨l, by simp, by omega, hvl⟩
  · exact ⟨r, by simp, by omega, by omega⟩

variable (rcv ti) in
/-- **The merges** add the bytes of the segment. -/
theorem merge_loose (h : Loose (a ++ (m ++ b)))
    (hsp : Split start stop (a ++ (m ++ b)) a m b) (hlt : start < stop) (hwm : Wf m)
    (hunc : ∀ x ∈ m, ¬ Covers start stop x) :
    Loose (merge rcv start stop ti a m b).blocks ∧
      bytes (merge rcv start stop ti a m b).blocks =
        bytes (a ++ (m ++ b)) ∪ Set.Ico start stop := by
  have hnil : ∀ k : List Block, (∀ x ∈ k, x ∈ m) → (∀ x ∈ k, Covers start stop x) → k = [] :=
    fun k hk hc => List.eq_nil_iff_forall_not_mem.mpr fun x hx => hunc x (hk x hx) (hc x hx)
  have hov := hsp.meets
  cases shape_of_overlap hwm hov with
  | within k hk =>
      obtain rfl := hnil m (fun x hx => hx) hk
      rw [merge, if_neg (by omega)]
      exact place_loose (n := ⟨start, stop, ti⟩) h hlt.le hsp.below hsp.above
  | left l k hl hk =>
      obtain rfl := hnil k (fun x hx => by simp [hx]) hk
      exact merge_left_loose rcv ti h ⟨hl, (hov l (by simp)).1⟩ hsp.above
  | right k r hrs hre hk =>
      obtain rfl := hnil k (fun x hx => by simp [hx]) hk
      exact merge_right_loose rcv ti h hsp.below ⟨hrs, (hov r (by simp)).2, hre⟩
  | both l k r hl hr hk =>
      obtain rfl := hnil k (fun x hx => by simp [hx]) hk
      exact merge_both_loose rcv ti h ⟨hl, (hov l (by simp)).1⟩ ⟨(hov r (by simp)).2, hr⟩

end SegList

open Rq

/-! ### The call that goes wrong -/

/-- The first block is empty and stands at the start of the segment, and the segment covers the last
block, another one. -/
def Rq.Swallows (s : Rq) (start stop : Int) : Prop :=
  ∃ e t, s.head = some e ∧ s.tail = some t ∧ e ≠ t ∧ s.startseq e = start ∧ s.endseq e = start ∧
    s.startseq t < stop ∧ s.endseq t ≤ stop

/-- The queue holds the bytes `B` in order; blocks may be empty. -/
def Rq.Orderly (s : Rq) (B : Set Int) : Prop :=
  ∃ L, Holds s L ∧ SegList.Loose (L.map s.blk) ∧ SegList.bytes (L.map s.blk) = B

/-- A call returns, and leaves the bytes `B` in order. -/
def Yields (r : Option (TcpFlag × Rq)) (B : Set Int) : Prop :=
  ∃ f s, r = some (f, s) ∧ s.Orderly B

theorem Gives.yields {r : Option (TcpFlag × Rq)} {x : SegList.Added} {B : Set Int} (h : Gives r x)
    (hx : SegList.Loose x.blocks ∧ SegList.bytes x.blocks = B) : Yields r B := by
  obtain ⟨s, L, he, hs, hb, -⟩ := h
  refine ⟨x.flags, s, he, L, hs, ?_, ?_⟩
  · rw [hb]; exact hx.1
  · rw [hb]; exact hx.2

/-! ### Segments with bytes -/

section Add

variable {s : Rq} {A M B : List Nat} {start stop ic : Int} {ti : TcpFlag} {rqf : Int} {fuel : Nat}

theorem add_empty_yields (h : Holds s []) (hle : start ≤ stop) (ti : TcpFlag) (rqf : Int) :
    Yields (s.add start stop ti rqf) (Set.Ico start stop) := by
  refine (add_empty h hle ti rqf).yields ⟨Loose.cons_iff.mpr ⟨hle, by simp, .nil⟩, ?_⟩
  simp [SegList.bytes]

theorem mem_uncovered_or (s : Rq) (start stop : Int) {x : Nat} (hx : x ∈ M) :
    x ∈ uncovered s start stop M ∨ SegList.Covers start stop (s.blk x) := by
  by_cases hc : SegList.Covers start stop (s.blk x)
  · exact .inr hc
  · exact .inl (List.mem_filter.mpr ⟨hx, by simpa using hc⟩)

/-- What the segment covers lies in it. -/
theorem bytes_of_covers {K K' : List Nat} (hsub : K'.Sublist K)
    (hcov : ∀ x ∈ K, x ∈ K' ∨ SegList.Covers start stop (s.blk x)) :
    SegList.bytes (K'.map s.blk) ∪ Set.Ico start stop =
      SegList.bytes (K.map s.blk) ∪ Set.Ico start stop := by
  ext w
  constructor
  · rintro (⟨b, hb, hw⟩ | hw)
    · exact .inl ⟨b, (hsub.map s.blk).mem hb, hw⟩
    · exact .inr hw
  · rintro (⟨b, hb, hw₁, hw₂⟩ | hw)
    · obtain ⟨x, hx, rfl⟩ := List.mem_map.mp hb
      rcases hcov x hx with hx' | hc
      · exact .inl ⟨s.blk x, List.mem_map_of_mem hx', hw₁, hw₂⟩
      · exact .inr ⟨hc.1.trans hw₁, lt_of_lt_of_le hw₂ hc.2⟩
    · exact .inr hw

/-- Unless the first block is swallowed, all blocks are covered only when none lies before the
segment. -/
theorem Bracket.eq_nil_of_covered (h : Bracket s start stop A M B) (hB : M ++ B ≠ [])
    (hsw : ¬ s.Swallows start stop)
    (hall : uncovered s start stop A ++ (uncovered s start stop M ++ B) = []) : A = [] := by
  have hcov : ∀ K : List Nat, uncovered s start stop K = [] → ∀ x ∈ K,
      SegList.Covers start stop (s.blk x) := fun K hK x hx =>
    (mem_uncovered_or s start stop hx).resolve_left (by simp [hK])
  obtain ⟨hA, hMB⟩ := List.append_eq_nil_iff.mp hall
  obtain ⟨hM, rfl⟩ := List.append_eq_nil_iff.mp hMB
  rw [List.append_nil] at hB
  cases A with
  | nil => rfl
  | cons e A =>
      have hd := h.holds.fifo
      have ht : s.tail = some (M.getLast hB) := by
        rw [hd.tail_eq, List.append_nil, List.getLast?_append_of_ne_nil _ hB,
          List.getLast?_eq_some_getLast hB]
      have htM : M.getLast hB ∈ M := List.getLast_mem hB
      have he₁ : start ≤ s.startseq e := (hcov _ hA e (by simp)).1
      have he₂ := h.below (x := e) (by simp)
      have he₃ := h.ordered (x := e) (by simp)
      have ht₁ := h.meets htM
      -- a covered block before the segment is empty and stands at its start
      refine absurd ⟨e, M.getLast hB, hd.head_eq, ht, ?_, by omega, by omega, ht₁.2, ?_⟩ hsw
      · intro hne
        rw [← hne] at ht₁
        omega
      · exact (hcov _ hM _ htM).2

/-- **`add` on a queue that is not empty**, when the first block is not swallowed. -/
theorem Bracket.again2_yields (h : Bracket s start stop A M B) (hL : A ++ (M ++ B) ≠ [])
    (hsw : ¬ s.Swallows start stop) :
    Yields (again2 start stop rqf (fuel + 2) s ti ic)
      (SegList.bytes ((A ++ (M ++ B)).map s.blk) ∪ Set.Ico start stop) := by
  have hl : SegList.Loose (A.map s.blk ++ (M.map s.blk ++ B.map s.blk)) := by
    simpa using h.loose
  have hsp : SegList.Split start stop (A.map s.blk ++ (M.map s.blk ++ B.map s.blk)) (A.map s.blk)
      (M.map s.blk) (B.map s.blk) := by
    simpa using h.split
  rw [List.map_append, List.map_append]
  -- a segment after every block, or before every block, is placed without a search
  by_cases hedge : M ++ B = [] ∨ A ++ M = []
  · obtain rfl : M = [] := by simp at hedge; tauto
    refine (h.again2_edge hL hedge).yields ?_
    exact SegList.place_loose (n := ⟨start, stop, ti⟩) hl h.lt.le hsp.below hsp.above
  obtain ⟨hB, hA⟩ := not_or.mp hedge
  by_cases hex : ∃ c ∈ M, start = s.startseq c ∧ stop = s.endseq c
  · obtain ⟨c, hcM, rfl, rfl⟩ := hex
    obtain rfl := h.exact_alone hcM rfl rfl
    refine (h.again2_dup rfl rfl).yields ⟨SegList.loose_orFlag hl, ?_⟩
    refine SegList.bytes_orFlag.trans (Set.union_eq_left.mpr fun w hw => ?_).symm
    exact ⟨s.blk c, by simp, hw.1, hw.2⟩
  · push Not at hex
    have hne : ∀ y ∈ M, ¬ (start = s.startseq y ∧ stop = s.endseq y) :=
      fun y hy e => hex y hy e.1 e.2
    -- the kill loop also takes an empty block at the start of the segment, which is one of `A`
    have hsubA : (uncovered s start stop A).Sublist A := List.filter_sublist
    have hsubM : (uncovered s start stop M).Sublist M := List.filter_sublist
    have hsub : (uncovered s start stop A ++ (uncovered s start stop M ++ B)).Sublist
        (A ++ (M ++ B)) := hsubA.append (hsubM.append_right B)
    have hcov : ∀ x ∈ A ++ (M ++ B), x ∈ uncovered s start stop A ++ (uncovered s start stop M ++ B) ∨
        SegList.Covers start stop (s.blk x) := by
      intro x hx
      simp only [List.mem_append] at hx ⊢
      rcases hx with hx | hx | hx
      · exact (mem_uncovered_or s start stop hx).imp_left .inl
      · exact (mem_uncovered_or s start stop hx).imp_left fun h => .inr (.inl h)
      · exact .inl (.inr (.inr hx))
    have hbytes := bytes_of_covers hsub hcov
    have hunc : ∀ x ∈ (uncovered s start stop M).map s.blk, ¬ SegList.Covers start stop x := by
      intro x hx
      obtain ⟨y, hy, rfl⟩ := List.mem_map.mp hx
      exact not_covers_of_mem_uncovered hy
    simp only [List.map_append] at hbytes
    obtain ⟨hml, hmb⟩ := SegList.merge_loose s.rcvNxt
      (ti ||| SegList.orFlags ((covered s start stop (A ++ M)).map s.blk))
      (hl.sublist (by simpa using hsub.map s.blk))
      (hsp.sublist (hsubA.map s.blk) (hsubM.map s.blk)) h.lt h.uncovered_wf hunc
    exact (h.again2_mid hA hB hne (h.eq_nil_of_covered hB hsw) fun s' ti' c' hbr hb hr hnil _ =>
      hbr.again2_uncovered hb hr hnil).yields ⟨hml, hmb.trans hbytes⟩

end Add

/-! ### Segments without bytes -/

section Point

variable {s : Rq} {A M B L : List Nat} {v ic : Int} {ti : TcpFlag} {rqf : Int} {fuel : Nat}

/-- An empty segment at `v` next to a block is dropped. -/
theorem mergeSides_point {p q y z : Nat} (hn : s.next p = some y) (hy : v ≤ s.startseq y)
    (hz : s.prev q = some z) (hze : s.endseq z ≤ v) :
    mergeSides ⟨s, v, v, some p, some q, false, ic⟩ ti rqf = s.head.map (s.advance ti) := by
  simp [mergeSides, Cut.leftMerge, Cut.rightMerge, hn, hz, not_lt.mpr hy, not_lt.mpr hze]

theorem Holds.settled_yields (h : Holds s L) (hl : SegList.Loose (L.map s.blk)) (hL : L ≠ [])
    (ti : TcpFlag) : Yields (s.head.map (s.advance ti)) (SegList.bytes (L.map s.blk)) :=
  (gives_settled h hL ti).yields ⟨hl, rfl⟩

/-- An empty segment at the end of the last block or above is placed there. -/
theorem again2_point_tail {t : Nat} (h : Holds s (A ++ [t]))
    (hl : SegList.Loose ((A ++ [t]).map s.blk)) (hge : v ≥ s.endseq t) :
    Yields (again2 v v rqf (fuel + 1) s ti ic) (SegList.bytes ((A ++ [t]).map s.blk)) := by
  have hh : s.head = some ((A ++ [t]).head (by simp)) := by
    rw [h.fifo.head_eq, List.head?_eq_some_head]
  have ht : s.tail = some t := by
    rw [h.fifo.tail_eq, List.getLast?_concat]
  have hg := endfast_spec ti rqf (c := ⟨s, v, v, some t, none, v = s.endseq t, ic⟩) (A := A ++ [t])
    (B := []) (by simpa using h) (by simp) rfl (by simp [AdjLeft, AdjRight, eq_comm])
  have hl' : SegList.Loose (A.map s.blk ++ s.blk t :: []) := by simpa using hl
  have hle : ∀ x ∈ (A ++ [t]).map s.blk, x.stop ≤ v := fun x hx =>
    (SegList.stop_le_last hl' x (by simpa using hx)).trans hge
  obtain ⟨hpl, hpb⟩ := SegList.place_loose (n := ⟨v, v, ti⟩) (b := []) (by simpa using hl) le_rfl hle
    (by simp)
  rw [again2_of_tail hh ht hge]
  refine hg.yields ⟨hpl, hpb.trans ?_⟩
  simp

/-- An empty segment at the start of the first block or below is placed there. -/
theorem again2_point_head {x t : Nat} (h : Holds s (x :: B))
    (hl : SegList.Loose ((x :: B).map s.blk)) (ht : s.tail = some t) (hlt : ¬ v ≥ s.endseq t)
    (hle : v ≤ s.startseq x) :
    Yields (again2 v v rqf (fuel + 1) s ti ic) (SegList.bytes ((x :: B).map s.blk)) := by
  have hh : s.head = some x := h.fifo.head_eq
  have hg := endfast_spec ti rqf (c := ⟨s, v, v, none, some x, v = s.startseq x, ic⟩) (A := [])
    (B := x :: B) h rfl rfl (by simp [AdjLeft, AdjRight, eq_comm])
  have hl' : SegList.Loose ([] ++ s.blk x :: B.map s.blk) := hl
  have hge : ∀ y ∈ (x :: B).map s.blk, v ≤ y.start := fun y hy =>
    hle.trans (SegList.first_le_start hl' y hy)
  obtain ⟨hpl, hpb⟩ := SegList.place_loose (n := ⟨v, v, ti⟩) (a := []) hl le_rfl (by simp) hge
  rw [again2_of_head hh ht hlt hle]
  refine hg.yields ⟨hpl, hpb.trans ?_⟩
  simp

/-- An empty segment at an empty block is dropped. -/
theorem again2_point_block {e : Nat} (h : Holds s (A ++ e :: B))
    (hl : SegList.Loose ((A ++ e :: B).map s.blk)) (he : s.startseq e = v ∧ s.endseq e = v)
    (hA : A ≠ []) (hB : B ≠ []) :
    Yields (again2 v v rqf (fuel + 1) s ti ic) (SegList.bytes ((A ++ e :: B).map s.blk)) := by
  have hd := h.fifo
  have hlen := h.length_lt
  have hle : SegList.Loose (A.map s.blk ++ s.blk e :: B.map s.blk) := by simpa using hl
  have hord : ∀ x ∈ A ++ e :: B, s.startseq x ≤ s.endseq x := fun x hx =>
    hl.ordered (s.blk x) (List.mem_map_of_mem hx)
  have hAe : ∀ x ∈ A, s.endseq x < v := fun x hx => by
    rw [← he.1]
    exact (Loose.split_at hle).1 (s.blk x) (List.mem_map_of_mem hx)
  have hBe : ∀ x ∈ B, v < s.startseq x := fun x hx => by
    rw [← he.2]
    exact (Loose.split_at hle).2 (s.blk x) (List.mem_map_of_mem hx)
  have hh : s.head = some (A.head hA) := by
    rw [hd.head_eq, List.head?_append_of_ne_nil _ hA, List.head?_eq_some_head hA]
  have ht : s.tail = some (B.getLast hB) := by
    rw [hd.tail_eq, List.getLast?_append_of_ne_nil _ (by simp), List.getLast?_cons,
      List.getLast?_eq_some_getLast hB]
    rfl
  have hhA := hAe _ (List.head_mem hA)
  have htB := hBe _ (List.getLast_mem hB)
  have hhA' := hord (A.head hA) (List.mem_append_left _ (List.head_mem hA))
  have htB' := hord (B.getLast hB) (by simp)
  -- both searches stop at the block: it starts at `v` and ends there
  have hq : s.searchAfter v (s.brk + 1) s.head = some (some e) := by
    rw [hd.head_eq]
    refine searchAfter_spec (P := []) (X := A) (Y := e :: B) (by simpa using hd) (fun x hx => ?_)
      (fun x hx => ?_) (by simp at hlen ⊢; omega)
    · have h₁ := hAe x hx
      have h₂ := hord x (by simp [hx])
      omega
    · rcases List.mem_cons.mp hx with rfl | hx
      · exact he.1.ge
      · exact (hBe x hx).le
  have hp : s.searchBefore v (s.brk + 1) s.tail = some (some e) := by
    have htl : (A ++ e :: B).getLast? = (A ++ [e] ++ B).getLast? := by simp
    have hle : some e = (A ++ [e]).getLast? := List.getLast?_concat.symm
    rw [hd.tail_eq, htl, hle]
    refine searchBefore_spec (P := []) (by simpa using hd) (fun x hx => ?_) (fun x hx => ?_)
      (by simp at hlen ⊢; omega)
    · rcases List.mem_append.mp hx with hx | hx
      · exact (hAe x hx).le
      · rw [List.mem_singleton.mp hx]
        exact he.2.le
    · have h₁ := hBe x hx
      have h₂ := hord x (by simp [hx])
      omega
  rw [again2_of_search hh ht (by omega) (by omega) hq hp]
  -- the kill loop ends where it starts
  have hk : kill v v (some e) (s.brk + 1) s ((some e).or s.head) ti ic false =
      some (.rest s ti ic false) := by
    simp [kill]
  rw [hk, Option.bind_some]
  dsimp only
  rw [if_neg (by simp [hh]), if_neg (by simp)]
  have hn : s.next e = some (B.head hB) := by
    rw [hd.links.1, List.head?_eq_some_head hB]
  have hz : s.prev e = some (A.getLast hA) := by
    rw [hd.links.2, List.getLast?_eq_some_getLast hA]
  rw [mergeSides_point hn (hBe _ (List.head_mem hB)).le hz (hAe _ (List.getLast_mem hA)).le]
  exact h.settled_yields hl (by simp) ti

/-- The FIFO split around a point that no empty block stands at. -/
structure Pierced (s : Rq) (v : Int) (A M B : List Nat) : Prop where
  holds : Holds s (A ++ (M ++ B))
  loose : SegList.Loose ((A ++ (M ++ B)).map s.blk)
  below : ∀ x ∈ A, s.startseq x < v ∧ s.endseq x ≤ v
  across : ∀ x ∈ M, s.startseq x < v ∧ v < s.endseq x
  above : ∀ x ∈ B, v ≤ s.startseq x ∧ v < s.endseq x

namespace Pierced

theorem of_holds (h : Holds s L) (hl : SegList.Loose (L.map s.blk))
    (hne : ∀ x ∈ L, ¬ (s.startseq x = v ∧ s.endseq x = v)) :
    ∃ A M B, L = A ++ (M ++ B) ∧ Pierced s v A M B := by
  obtain ⟨he, hb, hm, ha⟩ := SegList.split_of_loose v v hl
  obtain ⟨A, R, rfl, hA, hR⟩ := List.map_eq_append_iff.mp he
  obtain ⟨M, B, rfl, hM, hB⟩ := List.map_eq_append_iff.mp hR
  have hord : ∀ x ∈ A ++ (M ++ B), s.startseq x ≤ s.endseq x := fun x hx =>
    hl.ordered (s.blk x) (List.mem_map_of_mem hx)
  refine ⟨A, M, B, rfl, h, hl, fun x hx => ?_, fun x hx => ?_, fun x hx => ?_⟩
  · have h₁ : s.endseq x ≤ v := hb (s.blk x) (hA ▸ List.mem_map_of_mem hx)
    have h₂ := hord x (by simp [hx])
    have h₃ := hne x (by simp [hx])
    omega
  · exact (hm (s.blk x) (hM ▸ List.mem_map_of_mem hx)).symm
  · have h₁ : v ≤ s.startseq x := ha (s.blk x) (hB ▸ List.mem_map_of_mem hx)
    have h₂ := hord x (by simp [hx])
    have h₃ := hne x (by simp [hx])
    omega

theorem congr {s' : Rq} (h : Pierced s v A M B) (hs : Holds s' (A ++ (M ++ B)))
    (hb : s'.blk = s.blk) : Pierced s' v A M B := by
  have hse : ∀ x, s'.startseq x = s.startseq x ∧ s'.endseq x = s.endseq x := fun x =>
    ⟨congrArg Block.start (congrFun hb x), congrArg Block.stop (congrFun hb x)⟩
  refine ⟨hs, by rw [hb]; exact h.loose, fun x hx => ?_, fun x hx => ?_, fun x hx => ?_⟩
  · rw [(hse x).1, (hse x).2]; exact h.below x hx
  · rw [(hse x).1, (hse x).2]; exact h.across x hx
  · rw [(hse x).1, (hse x).2]; exact h.above x hx

theorem not_covers (h : Pierced s v A M B) {x : Nat} (hx : x ∈ A ++ (M ++ B)) :
    ¬ SegList.Covers v v (s.blk x) := by
  rintro ⟨h₁, h₂⟩
  simp only [blk] at h₁ h₂
  rcases List.mem_append.mp hx with hx | hx
  · have hxA := h.below x hx
    omega
  · rcases List.mem_append.mp hx with hx | hx
    · have hxM := h.across x hx
      omega
    · have hxB := h.above x hx
      omega

/-- At most one block lies over the point. -/
theorem across_alone (h : Pierced s v A M B) : M = [] ∨ ∃ m, M = [m] := by
  match M with
  | [] => exact .inl rfl
  | [m] => exact .inr ⟨m, rfl⟩
  | m :: m' :: M =>
      have hsub : (m :: m' :: M).Sublist (A ++ (m :: m' :: M ++ B)) := by simp
      have hlm : SegList.Loose (s.blk m :: (m' :: M).map s.blk) :=
        h.loose.sublist (hsub.map s.blk)
      have h₁ : s.endseq m < s.startseq m' := (Loose.cons_iff.mp hlm).2.1 (s.blk m') (by simp)
      have h₂ := h.across m (by simp)
      have h₃ := h.across m' (by simp)
      omega

/-- The merges drop an empty segment, or merge its flags with the block over it. -/
theorem mergeSides_yields (h : Pierced s v A M B) (hA : A ++ M ≠ []) (hB : M ++ B ≠ []) :
    Yields (mergeSides ⟨s, v, v, A.getLast?, B.head?, false, ic⟩ ti rqf)
      (SegList.bytes ((A ++ (M ++ B)).map s.blk)) := by
  rcases h.across_alone with rfl | ⟨m, rfl⟩
  · rw [List.append_nil] at hA
    rw [List.nil_append] at hB
    rcases List.eq_nil_or_concat A with rfl | ⟨A, a, rfl⟩
    · exact absurd rfl hA
    obtain ⟨b, B, rfl⟩ := List.exists_cons_of_ne_nil hB
    rw [List.concat_eq_append] at *
    have h₁ : Holds s (A ++ a :: (b :: B)) := by simpa using h.holds
    have h₂ : Holds s ((A ++ [a]) ++ b :: B) := by simpa using h.holds
    have hn : s.next a = some b := h₁.fifo.links.1
    have hz : s.prev b = some a := by rw [h₂.fifo.links.2]; simp
    rw [List.getLast?_append, List.getLast?_singleton, Option.some_or, List.head?_cons,
      mergeSides_point hn (h.above b (by simp)).1 hz (h.below a (by simp)).2]
    exact h.holds.settled_yields h.loose (by simp) ti
  · have hm := h.across m (by simp)
    have hH : Holds s (A ++ m :: B) := h.holds
    have hl : SegList.Loose (A.map s.blk ++ s.blk m :: B.map s.blk) := by simpa using h.loose
    obtain ⟨h₁, h₂⟩ := SegList.merge_left_loose s.rcvNxt ti hl hm fun x hx => by
      obtain ⟨y, hy, rfl⟩ := List.mem_map.mp hx
      exact (h.above y hy).1
    refine (mergeSides_left hH hm.1 hm.2).yields ⟨h₁, h₂.trans ?_⟩
    simp

/-- An empty segment that is not at an empty block leaves the bytes as they are. -/
theorem again2_yields (h : Pierced s v A M B) (hA : A ++ M ≠ []) (hB : M ++ B ≠ []) :
    Yields (again2 v v rqf (fuel + 1) s ti ic) (SegList.bytes ((A ++ (M ++ B)).map s.blk)) := by
  have hd := h.holds.fifo
  have hlen := h.holds.length_lt
  have hstart : ∀ x ∈ A ++ M, s.startseq x < v := fun x hx => by
    rcases List.mem_append.mp hx with hx | hx
    · exact (h.below x hx).1
    · exact (h.across x hx).1
  have hend : ∀ x ∈ M ++ B, v < s.endseq x := fun x hx => by
    rcases List.mem_append.mp hx with hx | hx
    · exact (h.across x hx).2
    · exact (h.above x hx).2
  have hh : s.head = some ((A ++ M).head hA) := by
    rw [hd.head_eq, ← List.append_assoc, List.head?_append_of_ne_nil _ hA,
      List.head?_eq_some_head hA]
  have ht : s.tail = some ((M ++ B).getLast hB) := by
    rw [hd.tail_eq, List.getLast?_append_of_ne_nil _ hB, List.getLast?_eq_some_getLast hB]
  have hq : s.searchAfter v (s.brk + 1) s.head = some B.head? := by
    rw [hd.head_eq, ← List.append_assoc]
    exact searchAfter_spec (P := []) (X := A ++ M) (Y := B) (by simpa using hd) hstart
      (fun x hx => (h.above x hx).1) (by simp at hlen ⊢; omega)
  have hp : s.searchBefore v (s.brk + 1) s.tail = some A.getLast? := by
    rw [hd.tail_eq]
    exact searchBefore_spec (P := []) (X := A) (Y := M ++ B) (by simpa using hd)
      (fun x hx => (h.below x hx).2) hend (by simp at hlen ⊢; omega)
  rw [again2_of_search hh ht (not_le.mpr (hend _ (List.getLast_mem hB)))
    (not_le.mpr (hstart _ (List.head_mem hA))) hq hp]
  -- nothing is covered, so the kill loop changes nothing
  obtain ⟨P, X, hPX, -, hst⟩ := h.holds.start_kill
  have hunc : ∀ w ∈ X ++ M, ¬ SegList.Covers v v (s.blk w) := fun w hw =>
    h.not_covers (by simp [hPX] at hw ⊢; tauto)
  have hXM : (X ++ M).filter (fun w => decide (¬ SegList.Covers v v (s.blk w))) = X ++ M :=
    uncovered_eq_self hunc
  have hany : (X ++ M).any (fun w => decide (SegList.Covers v v (s.blk w))) = false := by
    rw [List.any_eq_false]
    simpa using hunc
  obtain ⟨s', c', hk, hs', hb', -⟩ := kill_spec v v (s.brk + 1) (P := P) (W := X ++ M) (B := B)
    (by simpa [hPX] using h.holds) (fun w hw e => hunc w hw ⟨e.1.le, e.2.ge⟩)
    (by simp [hPX] at hlen ⊢; omega) ti ic false
  rw [hXM] at hs'
  rw [hst, hk, Option.bind_some, hany]
  have hs : Holds s' (A ++ (M ++ B)) := by simpa [hPX] using hs'
  have hnil : A ++ (M ++ B) ≠ [] := fun e => hB (List.append_eq_nil_iff.mp e).2
  dsimp only
  rw [if_neg (hs.fifo.eq_nil_iff.not.mpr hnil), if_neg (by simp), ← hb']
  exact (h.congr hs hb').mergeSides_yields hA hB

end Pierced

/-- **`add` of an empty segment** leaves the bytes as they are. -/
theorem add_point (h : Holds s L) (hl : SegList.Loose (L.map s.blk)) (v : Int) (ti : TcpFlag)
    (rqf : Int) : Yields (s.add v v ti rqf) (SegList.bytes (L.map s.blk)) := by
  by_cases hL : L = []
  · subst hL
    simpa [SegList.bytes] using add_empty_yields h (le_refl v) ti rqf
  rw [Rq.add, if_neg (lt_irrefl v), if_neg (h.fifo.eq_nil_iff.not.mpr hL)]
  by_cases hge : v ≥ s.endseq (L.getLast hL)
  · have hLe : L.dropLast ++ [L.getLast hL] = L := List.dropLast_append_getLast hL
    rw [← hLe] at h hl ⊢
    exact again2_point_tail h hl hge
  by_cases hle : v ≤ s.startseq (L.head hL)
  · have ht : s.tail = some (L.getLast hL) := by
      rw [h.fifo.tail_eq, List.getLast?_eq_some_getLast hL]
    have hLe : L.head hL :: L.tail = L := List.cons_head_tail hL
    rw [← hLe] at h hl ⊢
    exact again2_point_head h hl ht hge hle
  -- between the first block and the last: at an empty block, or through the others
  by_cases hE : ∃ e ∈ L, s.startseq e = v ∧ s.endseq e = v
  · obtain ⟨e, heL, he⟩ := hE
    obtain ⟨A, B, rfl⟩ := List.append_of_mem heL
    refine again2_point_block h hl he ?_ ?_
    · rintro rfl
      exact hle he.1.ge
    · rintro rfl
      exact hge (by simpa using he.2.le)
  · obtain ⟨A, M, B, rfl, hp⟩ := Pierced.of_holds h hl fun x hx e => hE ⟨x, hx, e⟩
    refine hp.again2_yields (fun e => hle ?_) fun e => hge ?_
    · obtain ⟨rfl, rfl⟩ := List.append_eq_nil_iff.mp e
      exact (hp.above _ (List.head_mem hL)).1
    · obtain ⟨rfl, rfl⟩ := List.append_eq_nil_iff.mp e
      exact (hp.below _ (by simp)).2

end Point

/-! ### Calls -/

section Call

variable {s : Rq} {start stop : Int}

/-- **A call of `add`** keeps the queue orderly and adds the bytes of the segment, unless it swallows
the first block. -/
theorem Rq.Orderly.add {B : Set Int} (h : s.Orderly B) (hle : start ≤ stop)
    (hsw : ¬ s.Swallows start stop) (ti : TcpFlag) (rqf : Int) :
    Yields (s.add start stop ti rqf) (B ∪ Set.Ico start stop) := by
  obtain ⟨L, hs, hl, rfl⟩ := h
  rcases hle.eq_or_lt with rfl | hlt
  · rw [Set.Ico_self, Set.union_empty]
    exact add_point hs hl start ti rqf
  by_cases hL : L = []
  · subst hL
    simpa [SegList.bytes] using add_empty_yields hs hle ti rqf
  · obtain ⟨A, M, B, rfl, hb⟩ := Bracket.of_holds hs hl hlt
    rw [Rq.add, if_neg (not_lt.mpr hle), if_neg (hs.fifo.eq_nil_iff.not.mpr hL)]
    exact hb.again2_yields hL hsw

theorem newseginfo_head (s : Rq) : s.newseginfo.2.head = s.head := by
  rw [newseginfo]
  cases s.freelist <;> rfl

/-- A block linked after another one leaves `head_` alone. -/
theorem insertSeg_linked {c : Cut} {p : Nat} (hp : c.p = some p) (ti : TcpFlag) (rqf : Int) :
    (c.insertSeg ti rqf).2.head = c.s.head ∧
      (c.insertSeg ti rqf).2.top = some (c.insertSeg ti rqf).1 := by
  simp [Cut.insertSeg, hp, push_eq, linkPrev_eq, linkNext_eq, newseginfo_head]

theorem endfast_linked {c : Cut} {p : Nat} (hp : c.p = some p) (hm : c.needmerge = false)
    (ti : TcpFlag) (rqf : Int) :
    ∃ f s', endfast c ti rqf = some (f, s') ∧ s'.head = c.s.head ∧ s'.top ≠ none := by
  obtain ⟨hhead, htop⟩ := insertSeg_linked hp ti rqf
  simp only [endfast, hm, Bool.false_eq_true, if_false]
  refine ⟨ti, _, rfl, ?_⟩
  split
  · exact ⟨hhead, by simp [htop]⟩
  · exact ⟨hhead, by simp [htop]⟩

/-- When the first block is swallowed it is the one before the segment, the others are over it, and
all of them are covered. -/
theorem Rq.Swallows.bracket {L : List Nat} (hsw : s.Swallows start stop) (hs : Holds s L)
    (hl : SegList.Loose (L.map s.blk)) : ∃ e M, M ≠ [] ∧ Bracket s start stop [e] M [] ∧
      (∀ x ∈ M, start < s.startseq x) ∧ uncovered s start stop [e] = [] ∧
      uncovered s start stop M = [] := by
  obtain ⟨e, t, hh, ht, hne, he₁, he₂, ht₁, ht₂⟩ := hsw
  have hd := hs.fifo
  obtain ⟨M, rfl⟩ := List.head?_eq_some_iff.mp (hd.head_eq.symm.trans hh)
  have htl := hd.tail_eq.symm.trans ht
  rcases List.eq_nil_or_concat M with rfl | ⟨K, t', rfl⟩
  · exact absurd (by simpa using htl) hne
  rw [List.concat_eq_append] at *
  obtain rfl : t' = t := by simpa [List.getLast?_cons] using htl
  have hle : SegList.Loose (s.blk e :: (K ++ [t']).map s.blk) := hl
  obtain ⟨-, heM, hlM⟩ := Loose.cons_iff.mp hle
  have hlK : SegList.Loose (K.map s.blk ++ s.blk t' :: []) := by simpa using hlM
  have hstart : ∀ x ∈ K ++ [t'], start < s.startseq x := fun x hx => by
    rw [← he₂]
    exact heM (s.blk x) (List.mem_map_of_mem hx)
  have hord : ∀ x ∈ K ++ [t'], s.startseq x ≤ s.endseq x := fun x hx =>
    hlM.ordered (s.blk x) (List.mem_map_of_mem hx)
  -- the last block is covered, and the ones before it end below it
  have hstop : ∀ x ∈ K ++ [t'], s.startseq x < stop ∧ s.endseq x ≤ stop := fun x hx => by
    have h₁ : s.endseq x ≤ s.endseq t' :=
      SegList.stop_le_last hlK (s.blk x) (by simpa using List.mem_map_of_mem (f := s.blk) hx)
    rcases List.mem_append.mp hx with hxK | hxt
    · have h₂ : s.endseq x < s.startseq t' :=
        (Loose.split_at hlK).1 (s.blk x) (List.mem_map_of_mem hxK)
      have h₃ := hord x hx
      omega
    · rw [List.mem_singleton.mp hxt]
      exact ⟨ht₁, ht₂⟩
  have hlt : start < stop := (hstart t' (by simp)).trans ht₁
  refine ⟨e, K ++ [t'], by simp, ⟨by simpa using hs, by simpa using hl, ⟨by simp, ?_, ?_, by simp⟩,
    hlt⟩, hstart, ?_, ?_⟩
  · intro x hx
    obtain rfl : x = s.blk e := by simpa using hx
    exact he₂.le
  · intro x hx
    obtain ⟨y, hy, rfl⟩ := List.mem_map.mp hx
    exact ⟨lt_of_lt_of_le (hstart y hy) (hord y hy), (hstop y hy).1⟩
  · simp [uncovered, SegList.Covers, blk, he₁, he₂, hlt.le]
  · rw [uncovered, List.filter_eq_nil_iff]
    intro x hx
    have hc : SegList.Covers start stop (s.blk x) := ⟨(hstart x hx).le, (hstop x hx).2⟩
    simpa using hc

/-- The kill loop removes every block, and the new one is linked to the first of them: `head_` stays
null. -/
theorem Rq.Orderly.add_swallows {B : Set Int} (h : s.Orderly B) (hsw : s.Swallows start stop)
    (ti : TcpFlag) (rqf : Int) :
    ∃ f s', s.add start stop ti rqf = some (f, s') ∧ s'.head = none ∧ s'.top ≠ none := by
  obtain ⟨L, hs, hl, -⟩ := h
  have hh : s.head ≠ none := by
    obtain ⟨e, t, hh, -⟩ := hsw
    simp [hh]
  obtain ⟨e, M, hne, hb, hstart, hA, hM⟩ := hsw.bracket hs hl
  obtain ⟨s', c', hk, hs', -⟩ := hb.kill_rest (fun x hx hex => (hstart x hx).ne hex.1) ti 1
  rw [hA, hM] at hs'
  have hnil : s'.head = none := hs'.fifo.head_eq
  rw [Rq.add, if_neg (not_lt.mpr hb.lt.le), if_neg hh, hb.again2_kill (by simp) (by simpa using hne),
    hk, Option.bind_some]
  dsimp only
  rw [if_pos hnil]
  -- the block before the segment is no longer on the queue
  obtain ⟨f, s'', he, hh'', ht''⟩ := endfast_linked
    (c := ⟨s', start, stop, [e].getLast?, [].head?, false, c'⟩) rfl rfl _ rqf
  exact ⟨f, s'', he, hh''.trans hnil, ht''⟩

end Call

/-! ### Runs -/

/-- A segment given to `add`: data, or a FIN without data. -/
structure QueueSeg where
  start : Int
  stop : Int
  tiflags : TcpFlag
  rqflags : Int
  le : start ≤ stop

/-- The bytes of some segments. -/
abbrev QueueSeg.bytes (segs : List QueueSeg) : Set Int := cover QueueSeg.start QueueSeg.stop segs

namespace Rq

/-- The queue after a call of `add`. -/
def addOne (s : Rq) (sg : QueueSeg) : Option Rq :=
  (s.add sg.start sg.stop sg.tiflags sg.rqflags).map Prod.snd

/-- The queue after a sequence of calls. -/
def addAll (s : Rq) (segs : List QueueSeg) : Option Rq := segs.foldlM addOne s

/-- The FIFO `L` and the LIFO `S` have the same blocks, none of them on the free list `F`; they are in
order, their bytes are `B`, and `total_` counts these. -/
structure Consistent (s : Rq) (B : Set Int) (L S F : List Nat) : Prop where
  fifo : DLL s.next s.prev s.head s.tail L
  lifo : DLL s.snext s.sprev s.top s.bottom S
  same : S.Perm L
  free : SLL s.next s.freelist F
  live : ∀ p ∈ L, p ∉ F ∧ p < s.brk
  apart : L.Pairwise fun p q => s.endseq p < s.startseq q
  bytes : {v | ∃ p ∈ L, s.startseq p ≤ v ∧ v < s.endseq p} = B
  total : s.total = B.ncard

variable {s s' : Rq} {B : Set Int} {L S F : List Nat} {sg : QueueSeg} {segs : List QueueSeg}

theorem addAll_cons (s : Rq) (sg : QueueSeg) (segs : List QueueSeg) :
    s.addAll (sg :: segs) = (s.addOne sg).bind fun s => s.addAll segs := List.foldlM_cons

theorem Fresh.orderly (h : s.Fresh) : s.Orderly ∅ := by
  obtain ⟨L, hs, hwf, hB⟩ := h.inv
  exact ⟨L, hs, hwf.loose, hB⟩

theorem Orderly.consistent (h : s.Orderly B) : ∃ L S F, s.Consistent B L S F := by
  obtain ⟨L, hs, hl, rfl⟩ := h
  obtain ⟨S, F, hr⟩ := hs.rep
  refine ⟨L, S, F, hr.fifo, hr.lifo, hr.perm, hr.free,
    fun p hp => ⟨hr.apart p hp, hr.bound p (.inl hp)⟩, List.pairwise_map.mp hl.apart, ?_, ?_⟩
  · ext v
    simp [SegList.bytes, cover, blk]
  · rw [hs.total]
    exact hl.ncard_cover.symm

/-- A FIFO without a head has no block, and the LIFO must be empty as well. -/
theorem Consistent.top_none (h : s.Consistent B L S F) (hh : s.head = none) : s.top = none := by
  obtain rfl : L = [] := h.fifo.eq_nil_iff.mp hh
  obtain rfl : S = [] := h.same.eq_nil
  exact h.lifo.head_eq

theorem Orderly.addOne (h : s.Orderly B) (hsw : ¬ s.Swallows sg.start sg.stop) :
    ∃ s', s.addOne sg = some s' ∧ s'.Orderly (B ∪ Set.Ico sg.start sg.stop) := by
  obtain ⟨f, s', he, h'⟩ := h.add sg.le hsw sg.tiflags sg.rqflags
  exact ⟨s', by simp [Rq.addOne, he], h'⟩

theorem Orderly.addOne_swallows (h : s.Orderly B) (hsw : s.Swallows sg.start sg.stop) :
    ∃ s', s.addOne sg = some s' ∧ ∀ C L S F, ¬ s'.Consistent C L S F := by
  obtain ⟨f, s', he, hh, ht⟩ := h.add_swallows hsw sg.tiflags sg.rqflags
  exact ⟨s', by simp [Rq.addOne, he], fun _ _ _ _ hc => ht (hc.top_none hh)⟩

/-- From an orderly queue on, a run is consistent as long as no call swallows the first block. -/
theorem Orderly.run_iff (h : s.Orderly B) (segs : List QueueSeg) :
    (∀ pre, pre <+: segs → ∃ s', s.addAll pre = some s' ∧
      ∃ L S F, s'.Consistent (B ∪ QueueSeg.bytes pre) L S F) ↔
      ∀ pre sg s', pre ++ [sg] <+: segs → s.addAll pre = some s' →
        ¬ s'.Swallows sg.start sg.stop := by
  induction segs generalizing s B with
  | nil =>
      refine iff_of_true (fun pre hpre => ?_) fun pre sg s' hpre => ?_
      · obtain rfl := List.prefix_nil.mp hpre
        refine ⟨s, rfl, ?_⟩
        rw [QueueSeg.bytes, cover_nil, Set.union_empty]
        exact h.consistent
      · simp at hpre
  | cons sg segs ih =>
      -- the first call decides it if it swallows, else the run goes on from an orderly queue
      by_cases hsw : s.Swallows sg.start sg.stop
      · refine iff_of_false (fun hall => ?_) fun hno => hno [] sg s (by simp) rfl hsw
        obtain ⟨s₁, he, hbad⟩ := h.addOne_swallows hsw
        obtain ⟨s₂, he₂, L, S, F, hc⟩ := hall [sg] (by simp)
        rw [addAll_cons, he] at he₂
        obtain rfl : s₁ = s₂ := by simpa [addAll] using he₂
        exact hbad _ L S F hc
      · obtain ⟨s₁, he, h₁⟩ := h.addOne hsw
        have hrun : ∀ pre, s.addAll (sg :: pre) = s₁.addAll pre := fun pre => by
          rw [addAll_cons, he, Option.bind_some]
        have hbytes : ∀ pre, B ∪ QueueSeg.bytes (sg :: pre) =
            B ∪ Set.Ico sg.start sg.stop ∪ QueueSeg.bytes pre := fun pre => by
          rw [QueueSeg.bytes, cover_cons, Set.union_assoc]
        constructor
        · intro hall pre sg' s' hpre hs'
          cases pre with
          | nil =>
              obtain rfl : s = s' := by simpa [addAll] using hs'
              obtain rfl : sg' = sg := by simpa using hpre
              exact hsw
          | cons p pre =>
              obtain ⟨rfl, htl⟩ := List.cons_prefix_cons.mp hpre
              rw [hrun] at hs'
              refine (ih h₁).mp (fun pre' hpre' => ?_) pre sg' s' htl hs'
              have hp := hall (p :: pre') (List.cons_prefix_cons.mpr ⟨rfl, hpre'⟩)
              rwa [hrun, hbytes] at hp
        · intro hno pre hpre
          cases pre with
          | nil =>
              refine ⟨s, rfl, ?_⟩
              rw [QueueSeg.bytes, cover_nil, Set.union_empty]
              exact h.consistent
          | cons p pre =>
              obtain ⟨rfl, htl⟩ := List.cons_prefix_cons.mp hpre
              rw [hrun, hbytes]
              refine (ih h₁).mpr (fun pre' sg' s' hpre' hs' => ?_) pre htl
              refine hno (p :: pre') sg' s' (List.cons_prefix_cons.mpr ⟨rfl, hpre'⟩) ?_
              rwa [hrun]

/-- **Segments without bytes.**  Whatever the segments given to a queue that starts empty, it is
consistent after every call if and only if no call swallows the first block. -/
theorem addAll_consistent_iff (s : Rq) (hs : s.Fresh) (segs : List QueueSeg) :
    (∀ pre, pre <+: segs → ∃ s', s.addAll pre = some s' ∧
      ∃ L S F, s'.Consistent (QueueSeg.bytes pre) L S F) ↔
      ∀ pre sg s', pre ++ [sg] <+: segs → s.addAll pre = some s' →
        ¬ s'.Swallows sg.start sg.stop := by
  simpa using hs.orderly.run_iff segs

/-- A FIN without data, and a segment from the same place on. -/
theorem addAll_consistent_fin :
    ∃ s', empty.addAll [⟨5, 5, 1, 0, by decide⟩, ⟨5, 8, 0, 0, by decide⟩] = some s' ∧
      ∃ L S F, s'.Consistent
        (QueueSeg.bytes [⟨5, 5, 1, 0, by decide⟩, ⟨5, 8, 0, 0, by decide⟩]) L S F := by
  refine (addAll_consistent_iff empty empty_fresh _).mpr (fun pre sg s' hpre hs' => ?_) _
    List.prefix_rfl
  rintro ⟨e, t, hh, ht, hne, -⟩
  match pre with
  | [] =>
      obtain rfl : empty = s' := by simpa [addAll] using hs'
      simp [empty] at hh
  | [p] =>
      -- the FIN is the first block and the last
      obtain ⟨rfl, -⟩ : p = ⟨5, 5, 1, 0, by decide⟩ ∧ sg = ⟨5, 8, 0, 0, by decide⟩ := by
        simpa using hpre
      have hends : (empty.addAll [⟨5, 5, 1, 0, by decide⟩]).map (fun s => (s.head, s.tail)) =
          some (some 0, some 0) := by decide
      rw [hs'] at hends
      obtain ⟨h₁, h₂⟩ : s'.head = some 0 ∧ s'.tail = some 0 := by simpa using hends
      rw [hh] at h₁
      rw [ht] at h₂
      exact hne (Option.some_inj.mp (h₁.trans h₂.symm))
  | p :: q :: pre =>
      have hlen := hpre.length_le
      simp at hlen

/-- A FIN without data at the front, and a segment from the same place on that covers the rest: the
FIFO is empty, the LIFO is not, and the next call finds them so and does not return. -/
theorem fin_swallowed :
    ∃ s', empty.addAll [⟨5, 5, 1, 0, by decide⟩, ⟨6, 7, 0, 0, by decide⟩,
      ⟨5, 8, 0, 0, by decide⟩] = some s' ∧ (∀ B L S F, ¬ s'.Consistent B L S F) ∧
      s'.add 8 9 0 0 = none := by
  obtain ⟨s', hs', hh, ht, hn⟩ : ∃ s', empty.addAll [⟨5, 5, 1, 0, by decide⟩, ⟨6, 7, 0, 0, by decide⟩,
      ⟨5, 8, 0, 0, by decide⟩] = some s' ∧ s'.head = none ∧ s'.top ≠ none ∧ s'.add 8 9 0 0 = none := by
    refine ⟨_, rfl, ?_, ?_, ?_⟩ <;> decide
  exact ⟨s', hs', fun _ _ _ _ hc => ht (hc.top_none hh), hn⟩

end Rq

end Afabric
