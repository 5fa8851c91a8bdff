import Afabric.Tcp.SegListSpec

/-!
# Tcp — the flags of a block

The flags of a block are meant to be the union of the flags of the segments merged into it
(`Exact`).  One step of `add` breaks this: when a segment joins two blocks and covers neither,
`coalesce` merges the flags of the left block and of the segment, and drops those of the right
block (`JoinLoses`).  No other step does: on a queue with exact flags, `add` keeps them exact if and
only if it is not such a step (`exact_add_iff`).

A segment is a block here: an interval with flags.
-/

namespace Afabric

namespace SegList

/-! ### Sets of flags -/

/-- The flags of some blocks are among `g` if and only if those of each block are. -/
theorem orFlags_sub_iff {l : List Block} {g : TcpFlag} :
    orFlags l ||| g = g ↔ ∀ b ∈ l, b.flags ||| g = g := by
  induction l with
  | nil => simp
  | cons b l ih =>
      simp only [orFlags_cons, List.forall_mem_cons, ← ih]
      constructor
      · intro h
        constructor
        · rw [← h, ← BitVec.or_assoc, ← BitVec.or_assoc, BitVec.or_self]
        · rw [← h, ← BitVec.or_assoc, BitVec.or_comm b.flags, ← BitVec.or_assoc, BitVec.or_self]
      · rintro ⟨h₁, h₂⟩
        rw [BitVec.or_assoc, h₂, h₁]

theorem flags_sub_orFlags {l : List Block} {b : Block} (hb : b ∈ l) :
    b.flags ||| orFlags l = orFlags l :=
  orFlags_sub_iff.mp BitVec.or_self b hb

theorem sub_trans {f g k : TcpFlag} (h₁ : f ||| g = g) (h₂ : g ||| k = k) : f ||| k = k := by
  rw [← h₂, ← BitVec.or_assoc, h₁]

theorem sub_or_right {f g k : TcpFlag} (h : f ||| g = g) : f ||| (k ||| g) = k ||| g := by
  rw [BitVec.or_comm k, ← BitVec.or_assoc, h]

theorem sub_or_left (f g : TcpFlag) : f ||| (f ||| g) = f ||| g := by
  rw [← BitVec.or_assoc, BitVec.or_self]

/-! ### Exact flags -/

/-- The segment lies in the block. -/
def Inside (b sg : Block) : Prop := b.start ≤ sg.start ∧ sg.stop ≤ b.stop

instance (b sg : Block) : Decidable (Inside b sg) := inferInstanceAs (Decidable (_ ∧ _))

/-- The segments merged into the block. -/
def merged (segs : List Block) (b : Block) : List Block := segs.filter (Inside b)

theorem mem_merged {segs : List Block} {b sg : Block} :
    sg ∈ merged segs b ↔ sg ∈ segs ∧ Inside b sg := by simp [merged]

/-- The flags of every block are those of the segments merged into it. -/
def Exact (segs l : List Block) : Prop := ∀ b ∈ l, b.flags = orFlags (merged segs b)

/-- The segments are not empty, and each lies in a block. -/
def Live (segs l : List Block) : Prop := ∀ sg ∈ segs, sg.start < sg.stop ∧ ∃ b ∈ l, Inside b sg

/-- The blocks a segment overlaps or is adjacent to. -/
def touched (l : List Block) (sg : Block) : List Block :=
  l.filter fun b => sg.start ≤ b.stop ∧ b.start ≤ sg.stop

/-- The segment joins two blocks that stick out of it on both sides, and the right one has a flag
that neither it nor another block it touches has. -/
def JoinLoses (l : List Block) (sg : Block) : Prop :=
  ∃ x k y, touched l sg = x :: (k ++ [y]) ∧ x.start < sg.start ∧ sg.stop < y.stop ∧
    ¬ y.flags ||| (sg.flags ||| orFlags (x :: k)) = sg.flags ||| orFlags (x :: k)

variable {segs l a t b : List Block} {sg m : Block} {rcv : Int}

theorem Joined.touched_eq (h : Joined sg.start sg.stop sg.flags l a t b m) :
    touched l sg = t := by
  have ha : ∀ x ∈ a, ¬ (sg.start ≤ x.stop ∧ x.start ≤ sg.stop) := fun x hx => by
    have := h.below x hx
    omega
  have hb : ∀ x ∈ b, ¬ (sg.start ≤ x.stop ∧ x.start ≤ sg.stop) := fun x hx => by
    have := h.above x hx
    omega
  rw [touched, h.eq, List.filter_append, List.filter_append,
    List.filter_eq_nil_iff.mpr (by simpa using ha), List.filter_eq_self.mpr (by simpa using h.touch),
    List.filter_eq_nil_iff.mpr (by simpa using hb)]
  simp

/-- The joined block has the flags of all it joins, unless the join loses some. -/
theorem Joined.flags_iff (h : Joined sg.start sg.stop sg.flags l a t b m) :
    m.flags = sg.flags ||| orFlags t ↔ ¬ JoinLoses l sg := by
  rw [h.flags]
  by_cases hj : ∃ x k y, t = x :: (k ++ [y]) ∧ x.start < sg.start ∧ sg.stop < y.stop
  · obtain ⟨x, k, y, rfl, hx, hy⟩ := hj
    have hkept : kept sg.start sg.stop (x :: (k ++ [y])) = x :: k := by
      rw [kept_concat, if_pos ⟨hx, hy⟩]
    have hall : sg.flags ||| orFlags (x :: (k ++ [y])) =
        y.flags ||| (sg.flags ||| orFlags (x :: k)) := by
      rw [← List.cons_append, orFlags_append, ← BitVec.or_assoc, BitVec.or_comm]
      simp
    rw [hkept, hall, JoinLoses, h.touched_eq, not_exists]
    constructor
    · intro e x' h'
      obtain ⟨k', y', he, -, -, hn⟩ := h'
      obtain ⟨hx', hk'⟩ := List.cons.inj he
      obtain ⟨rfl, rfl⟩ := List.append_singleton_inj.mp hk'
      obtain rfl := hx'
      exact hn e.symm
    · intro hn
      by_contra hne
      exact hn x ⟨k, y, rfl, hx, hy, fun e => hne e.symm⟩
  · have hkept : kept sg.start sg.stop t = t :=
      kept_eq_self fun x k y e hx hy => hj ⟨x, k, y, e, hx, hy⟩
    rw [hkept]
    refine iff_of_true rfl ?_
    rintro ⟨x, k, y, he, hx, hy, -⟩
    exact hj ⟨x, k, y, h.touched_eq.symm.trans he, hx, hy⟩

/-- The segments merged into the joined block: the new one, and those of the blocks it joins. -/
theorem Joined.orFlags_merged (h : Joined sg.start sg.stop sg.flags l a t b m) (hwf : Wf l)
    (hlt : sg.start < sg.stop) (hlive : Live segs l) (hex : Exact segs l) :
    orFlags (merged (sg :: segs) m) = sg.flags ||| orFlags t := by
  have hsub : orFlags (merged (sg :: segs) m) ||| (sg.flags ||| orFlags t) =
      sg.flags ||| orFlags t := by
    refine orFlags_sub_iff.mpr fun z hz => ?_
    obtain ⟨hz, hin⟩ := mem_merged.mp hz
    rcases List.mem_cons.mp hz with rfl | hz
    · exact sub_or_left _ _
    -- an old segment lies in a block, and that block is joined
    obtain ⟨hzlt, x, hx, hxz⟩ := hlive z hz
    have hxt : x ∈ t := by
      have hwf' := h.wf hwf hlt
      obtain ⟨ham, hmb⟩ := Normal.split_at hwf'
      rw [h.eq] at hx
      rcases List.mem_append.mp hx with hx' | hx'
      · have := ham x hx'
        have h₁ := hin.1
        have h₂ := hxz.2
        omega
      · rcases List.mem_append.mp hx' with hx' | hx'
        · exact hx'
        · have := hmb x hx'
          have h₁ := hin.2
          have h₂ := hxz.1
          omega
    have hzx : z.flags ||| x.flags = x.flags := by
      rw [hex x hx]
      exact flags_sub_orFlags (mem_merged.mpr ⟨hz, hxz⟩)
    exact sub_or_right (sub_trans hzx (flags_sub_orFlags hxt))
  have hsup : (sg.flags ||| orFlags t) ||| orFlags (merged (sg :: segs) m) =
      orFlags (merged (sg :: segs) m) := by
    have hsg : sg ∈ merged (sg :: segs) m :=
      mem_merged.mpr ⟨by simp, h.start_le, h.le_stop⟩
    rw [BitVec.or_assoc, orFlags_sub_iff.mpr fun x hx => ?_, flags_sub_orFlags hsg]
    have hxl : x ∈ l := by rw [h.eq]; simp [hx]
    rw [hex x hxl]
    refine orFlags_sub_iff.mpr fun z hz => flags_sub_orFlags ?_
    obtain ⟨hz, hxz⟩ := mem_merged.mp hz
    have hs := h.spans x hx
    exact mem_merged.mpr ⟨by simp [hz], Int.le_trans hs.1 hxz.1, Int.le_trans hxz.2 hs.2⟩
  rw [← hsub, BitVec.or_comm, hsup]

/-- A block the segment does not touch keeps its segments. -/
theorem merged_cons_of_apart {x : Block} (hlt : sg.start < sg.stop)
    (hx : x.stop < sg.start ∨ sg.stop < x.start) : merged (sg :: segs) x = merged segs x := by
  rw [merged, List.filter_cons_of_neg, merged]
  rw [decide_eq_true_eq]
  rintro ⟨h₁, h₂⟩
  rcases hx with hx | hx <;> omega

variable (rcv) in
/-- Whether `add` keeps the flags exact. -/
theorem exact_add_iff (hwf : Wf l) (hlive : Live segs l) (hex : Exact segs l)
    (hlt : sg.start < sg.stop) :
    Exact (sg :: segs) (add l rcv sg.start sg.stop sg.flags).blocks ↔ ¬ JoinLoses l sg := by
  obtain ⟨a, t, b, m, hj, hr⟩ := add_spec hwf hlt rcv sg.flags
  rw [hr.blocks, ← hj.flags_iff, ← hj.orFlags_merged hwf hlt hlive hex]
  constructor
  · exact fun he => he m (by simp)
  · intro he x hx
    have hold : ∀ y ∈ a ++ b, y ∈ l := fun y hy => by
      rw [hj.eq]
      rcases List.mem_append.mp hy with hy | hy <;> simp [hy]
    rcases List.mem_append.mp hx with hx | hx
    · rw [merged_cons_of_apart hlt (.inl (hj.below x hx)), hex x (hold x (by simp [hx]))]
    · rcases List.mem_cons.mp hx with rfl | hx
      · exact he
      · rw [merged_cons_of_apart hlt (.inr (hj.above x hx)), hex x (hold x (by simp [hx]))]

variable (rcv) in
theorem live_add (hwf : Wf l) (hlive : Live segs l) (hlt : sg.start < sg.stop) :
    Live (sg :: segs) (add l rcv sg.start sg.stop sg.flags).blocks := by
  obtain ⟨a, t, b, m, hj, hr⟩ := add_spec hwf hlt rcv sg.flags
  rw [hr.blocks]
  intro z hz
  rcases List.mem_cons.mp hz with rfl | hz
  · exact ⟨hlt, m, by simp, hj.start_le, hj.le_stop⟩
  obtain ⟨hzlt, x, hx, hxz⟩ := hlive z hz
  refine ⟨hzlt, ?_⟩
  rw [hj.eq] at hx
  rcases List.mem_append.mp hx with hx | hx
  · exact ⟨x, by simp [hx], hxz⟩
  · rcases List.mem_append.mp hx with hx | hx
    · have hs := hj.spans x hx
      exact ⟨m, by simp, Int.le_trans hs.1 hxz.1, Int.le_trans hxz.2 hs.2⟩
    · exact ⟨x, by simp [hx], hxz⟩

end SegList

end Afabric
