import Afabric.Tcp.RqSack

/-!
# Tcp — the first SACK block

After `add` the first block that `gensack` writes is the one on top of the LIFO.  Of the blocks
that the segment touches at most one stays on the LIFO, and it stays where it was
(`add_lifo`).  So the first block is the segment's exactly when every block that was above that
one goes, that is, when the segment touches it too.
-/

namespace Afabric

open Rq

theorem head?_filter_iff {α : Type*} [DecidableEq α] {l : List α} {a : α} {p : α → Bool}
    (ha : a ∈ l) (hp : p a) :
    (l.filter p).head? = some a ↔ ∀ x ∈ l.takeWhile (· ≠ a), p x = false := by
  induction l with
  | nil => simp at ha
  | cons x l ih =>
      by_cases hx : x = a
      · subst hx
        simp [hp]
      · have hal : a ∈ l := (List.mem_cons.mp ha).resolve_left (Ne.symm hx)
        rw [List.takeWhile_cons_of_pos (by simpa using hx), List.forall_mem_cons]
        cases hpx : p x
        · rw [List.filter_cons_of_neg (by simp [hpx]), ih hal]
          simp
        · rw [List.filter_cons_of_pos hpx]
          simp [hx]

/-! ### `gensack` -/

section Gensack

variable {s : Rq} {L S : List Nat} {hd : Option Nat} {fuel : Nat} {m : Int}

/-- A negative limit is no limit: the counter moves away from zero. -/
theorem gensackLoop_spec (h : SLL s.snext hd S) (hf : S.length < fuel) :
    s.gensackLoop fuel hd m = some ((if 0 ≤ m then S.take m.toNat else S).map
      fun p => (s.startseq p, s.endseq p)) := by
  induction S generalizing hd fuel m with
  | nil =>
      obtain ⟨fuel, rfl⟩ := exists_fuel hf
      obtain rfl : hd = none := h
      simp [gensackLoop]
  | cons p S ih =>
      obtain ⟨fuel, rfl⟩ := exists_fuel hf
      obtain ⟨rfl, hS⟩ := h
      have hlen : S.length < fuel := by simpa using hf
      by_cases hm : m = 0
      · subst hm
        simp [gensackLoop]
      rw [gensackLoop, if_neg hm, ih hS hlen, Option.map_some]
      by_cases hpos : 0 ≤ m
      · obtain ⟨k, rfl⟩ : ∃ k : Nat, m = k + 1 := ⟨(m - 1).toNat, by omega⟩
        rw [if_pos (by omega), if_pos hpos]
        have hk : (k + 1 - 1 : Int).toNat = k ∧ (k + 1 : Int).toNat = k + 1 := by omega
        rw [hk.1, hk.2, List.take_succ_cons, List.map_cons]
      · rw [if_neg (by omega), if_neg hpos, List.map_cons]

/-- The first block is the one on top. -/
theorem gensack_head (h : Holds s L) (hS : Lifo s S) (hm : m ≠ 0) :
    ∃ bs, s.gensack m = some bs ∧
      bs.head? = S.head?.map fun p => (s.startseq p, s.endseq p) := by
  have hsll : SLL s.snext s.top S := hS.head_eq ▸ hS.linked.sll
  have hlen : S.length < s.brk + 1 := by
    rw [(h.perm hS).length_eq]
    exact h.length_lt
  refine ⟨_, gensackLoop_spec hsll hlen, ?_⟩
  rw [List.head?_map]
  split_ifs with hpos
  · have hne : m.toNat ≠ 0 := by omega
    rw [List.head?_take, if_neg hne]
  · rfl

end Gensack

/-! ### The blocks a segment touches -/

/-- The segment overlaps the block or is adjacent to it. -/
def Touches (start stop : Int) (b : Block) : Prop := start ≤ b.stop ∧ b.start ≤ stop

instance (start stop : Int) (b : Block) : Decidable (Touches start stop b) :=
  inferInstanceAs (Decidable (_ ∧ _))

/-- The block keeps its node when the segment is added, unless one before it does: it is touched,
and the segment is its exact duplicate or does not cover it. -/
def Stays (start stop : Int) (b : Block) : Prop :=
  Touches start stop b ∧
    (start = b.start ∧ stop = b.stop ∨ ¬ SegList.Covers start stop b)

instance (start stop : Int) (b : Block) : Decidable (Stays start stop b) :=
  inferInstanceAs (Decidable (_ ∧ _))

/-- What `add` makes of the LIFO `S` of a queue with FIFO `L`: the first block that stays is left
with those the segment does not touch, and if there is none a new block is on top of them. -/
def Lifted (s : Rq) (L S : List Nat) (start stop : Int) (S' : List Nat) : Prop :=
  match L.find? fun x => Stays start stop (s.blk x) with
  | none => ∃ n, S' = n :: S.filter fun x => ¬ Touches start stop (s.blk x)
  | some σ => S' = S.filter fun x => x = σ ∨ ¬ Touches start stop (s.blk x)

section Split

variable {s : Rq} {A P M Q B L S : List Nat} {start stop : Int} {ti : TcpFlag} {rqf : Int}

theorem Around.left_split (h : Around s start stop L M B) :
    ∃ A P, L = A ++ P ∧ (P = [] ∧ ¬ AdjLeft s A start ∨ ∃ p, P = [p] ∧ s.endseq p = start) ∧
      ∀ x ∈ A, s.endseq x < start := by
  have hwf : SegList.Wf (L.map s.blk) := by
    have hw := h.wf
    rw [List.map_append] at hw
    exact (Normal.append_iff.mp hw).1
  by_cases hl : AdjLeft s L start
  · obtain ⟨p, hp, hpe⟩ := hl
    obtain ⟨A, rfl⟩ := List.getLast?_eq_some_iff.mp hp
    refine ⟨A, [p], rfl, .inr ⟨p, rfl, hpe⟩, fun x hx => ?_⟩
    rw [List.map_append] at hwf
    have hxp := (Normal.append_iff.mp hwf).2.2 (s.blk x) (List.mem_map_of_mem hx) (s.blk p)
      (by simp)
    have hpp := h.nonempty (x := p) (by simp)
    simp only [blk] at hxp
    omega
  · refine ⟨L, [], by simp, .inl ⟨rfl, hl⟩, fun x hx => ?_⟩
    refine SegList.stop_lt_of_getLast hwf.loose h.split.below (fun b hb e => ?_) (s.blk x)
      (List.mem_map_of_mem hx)
    rw [List.getLast?_map] at hb
    obtain ⟨p, hp, rfl⟩ := Option.map_eq_some_iff.mp hb
    exact hl ⟨p, hp, e⟩

theorem Around.right_split (h : Around s start stop A M L) :
    ∃ Q B, L = Q ++ B ∧ (Q = [] ∧ ¬ AdjRight s B stop ∨ ∃ q, Q = [q] ∧ s.startseq q = stop) ∧
      ∀ x ∈ B, stop < s.startseq x := by
  have hwf : SegList.Wf (L.map s.blk) := by
    have hw := h.wf
    rw [List.map_append, List.map_append] at hw
    exact (Normal.append_iff.mp (Normal.append_iff.mp hw).2.1).2.1
  by_cases hr : AdjRight s L stop
  · obtain ⟨q, hq, hqs⟩ := hr
    obtain ⟨B, rfl⟩ := List.head?_eq_some_iff.mp hq
    refine ⟨[q], B, rfl, .inr ⟨q, rfl, hqs⟩, fun x hx => ?_⟩
    rw [List.map_cons] at hwf
    have hqx := (Normal.cons_iff.mp hwf).2.1 (s.blk x) (List.mem_map_of_mem hx)
    have hqq := h.nonempty (x := q) (by simp)
    simp only [blk] at hqx
    omega
  · refine ⟨[], L, rfl, .inl ⟨rfl, hr⟩, fun x hx => ?_⟩
    refine SegList.lt_start_of_head hwf.loose h.split.above (fun b hb e => ?_) (s.blk x)
      (List.mem_map_of_mem hx)
    rw [List.head?_map] at hb
    obtain ⟨q, hq, rfl⟩ := Option.map_eq_some_iff.mp hb
    exact hr ⟨q, hq, e⟩

/-- The FIFO around a segment: `P`, `M` and `Q` are touched, `A` and `B` are not. -/
structure Parted (s : Rq) (start stop : Int) (A P M Q B : List Nat) : Prop where
  around : Around s start stop (A ++ P) M (Q ++ B)
  beside : Beside s start stop A P Q B
  below : ∀ x ∈ A, s.endseq x < start
  above : ∀ x ∈ B, stop < s.startseq x

theorem Parted.of_holds (h : Holds s L) (hwf : SegList.Wf (L.map s.blk)) (hlt : start < stop) :
    ∃ A P M Q B, L = A ++ P ++ (M ++ (Q ++ B)) ∧ Parted s start stop A P M Q B := by
  obtain ⟨A', M, B', rfl, ha⟩ := Around.of_holds h hwf hlt
  obtain ⟨A, P, rfl, hP, hA⟩ := ha.left_split
  obtain ⟨Q, B, rfl, hQ, hB⟩ := ha.right_split
  exact ⟨A, P, M, Q, B, rfl, ha, ⟨hP, hQ⟩, hA, hB⟩

namespace Parted

theorem left_eq (h : Parted s start stop A P M Q B) {x : Nat} (hx : x ∈ P) :
    s.endseq x = start := by
  rcases h.beside.left with ⟨rfl, -⟩ | ⟨p, rfl, hp⟩
  · simp at hx
  · rwa [List.mem_singleton.mp hx]

theorem right_eq (h : Parted s start stop A P M Q B) {x : Nat} (hx : x ∈ Q) :
    s.startseq x = stop := by
  rcases h.beside.right with ⟨rfl, -⟩ | ⟨q, rfl, hq⟩
  · simp at hx
  · rwa [List.mem_singleton.mp hx]

theorem untouched (h : Parted s start stop A P M Q B) {x : Nat} (hx : x ∈ A ++ B) :
    ¬ Touches start stop (s.blk x) := by
  rintro ⟨h₁, h₂⟩
  simp only [blk] at h₁ h₂
  rcases List.mem_append.mp hx with hx | hx
  · have hA := h.below x hx
    omega
  · have hB := h.above x hx
    omega

theorem touched (h : Parted s start stop A P M Q B) {x : Nat} (hx : x ∈ P ++ M ++ Q) :
    Touches start stop (s.blk x) := by
  have hlt := h.around.lt
  have hne : s.startseq x < s.endseq x := h.around.nonempty (by simp at hx ⊢; tauto)
  show start ≤ s.endseq x ∧ s.startseq x ≤ stop
  simp only [List.mem_append] at hx
  rcases hx with (hx | hx) | hx
  · have hP := h.left_eq hx
    omega
  · have hM := h.around.meets hx
    omega
  · have hQ := h.right_eq hx
    omega

/-- A block next to the segment is not covered by it. -/
theorem beside_stays (h : Parted s start stop A P M Q B) {x : Nat} (hx : x ∈ P ∨ x ∈ Q) :
    Stays start stop (s.blk x) := by
  refine ⟨h.touched (by simp; tauto), .inr ?_⟩
  have hlt := h.around.lt
  rintro ⟨h₁, h₂⟩
  simp only [blk] at h₁ h₂
  rcases hx with hx | hx
  · have hP := h.left_eq hx
    have hne : s.startseq x < s.endseq x := h.around.nonempty (by simp [hx])
    omega
  · have hQ := h.right_eq hx
    have hne : s.startseq x < s.endseq x := h.around.nonempty (by simp [hx])
    omega

/-- The blocks that stay, in sequence order. -/
theorem filter_stays (h : Parted s start stop A P M Q B) :
    (A ++ P ++ (M ++ (Q ++ B))).filter (fun x => Stays start stop (s.blk x)) =
      P ++ M.filter (fun x => Stays start stop (s.blk x)) ++ Q := by
  have hno : ∀ K : List Nat, (∀ x ∈ K, x ∈ A ++ B) →
      K.filter (fun x => Stays start stop (s.blk x)) = [] := by
    intro K hK
    rw [List.filter_eq_nil_iff]
    intro x hx
    have hu := h.untouched (hK x hx)
    simpa using fun hs : Stays start stop (s.blk x) => hu hs.1
  have hall : ∀ K : List Nat, (∀ x ∈ K, x ∈ P ∨ x ∈ Q) →
      K.filter (fun x => Stays start stop (s.blk x)) = K := by
    intro K hK
    rw [List.filter_eq_self]
    intro x hx
    simpa using h.beside_stays (hK x hx)
  simp only [List.filter_append]
  rw [hno A (by simp; tauto), hno B (by simp; tauto), hall P (by tauto), hall Q (by tauto)]
  simp

/-- Without an exact duplicate the blocks that stay are those the segment does not cover. -/
theorem filter_stays_inexact (h : Parted s start stop A P M Q B)
    (hne : ∀ x ∈ M, ¬ (start = s.startseq x ∧ stop = s.endseq x)) :
    (A ++ P ++ (M ++ (Q ++ B))).filter (fun x => Stays start stop (s.blk x)) =
      P ++ uncovered s start stop M ++ Q := by
  rw [h.filter_stays, uncovered]
  refine congrArg (P ++ · ++ Q) (List.filter_congr fun x hx => decide_eq_decide.mpr ?_)
  have ht := h.touched (x := x) (by simp [hx])
  constructor
  · rintro ⟨-, he | hc⟩
    · exact absurd he (hne x hx)
    · exact hc
  · intro hc
    exact ⟨ht, .inr hc⟩

theorem mem_touched (h : Parted s start stop A P M Q B) {x : Nat}
    (hx : x ∈ A ++ P ++ (M ++ (Q ++ B))) :
    Touches start stop (s.blk x) ↔
      x ∈ covered s start stop M ∨ x ∈ P ++ uncovered s start stop M ++ Q := by
  have hsub : x ∈ covered s start stop M ∨ x ∈ P ++ uncovered s start stop M ++ Q ↔
      x ∈ P ++ M ++ Q := by
    simp only [covered, uncovered, List.mem_append, List.mem_filter, decide_eq_true_eq]
    tauto
  rw [hsub]
  refine ⟨fun ht => ?_, h.touched⟩
  by_contra hn
  exact h.untouched (x := x) (by simp at hx hn ⊢; tauto) ht

/-- Without an exact duplicate, what is left of the LIFO is as `Lifted` says. -/
theorem lifted (h : Parted s start stop A P M Q B)
    (hne : ∀ x ∈ M, ¬ (start = s.startseq x ∧ stop = s.endseq x))
    (hS : Lifo s S) {r : Option (TcpFlag × Rq)}
    (hr : Settles r s (P ++ uncovered s start stop M ++ Q) (A ++ B)
      (S.filter (· ∉ covered s start stop M))) :
    ∃ S', Ends r s (A ++ B) S' ∧ Lifted s (A ++ P ++ (M ++ (Q ++ B))) S start stop S' := by
  have hstay := h.filter_stays_inexact hne
  have htouch : ∀ x ∈ S, Touches start stop (s.blk x) ↔
      x ∈ covered s start stop M ∨ x ∈ P ++ uncovered s start stop M ++ Q := fun x hx =>
    h.mem_touched ((h.around.holds.perm hS).mem_iff.mp hx)
  have hnd : (P ++ uncovered s start stop M ++ Q).Nodup := by
    rw [← hstay]
    exact h.around.holds.fifo.nodup.filter _
  have hcov : ∀ x ∈ covered s start stop M, x ∉ P ++ uncovered s start stop M ++ Q := by
    intro x hx hu
    obtain ⟨hxM, hxc⟩ := List.mem_filter.mp hx
    have hst : Stays start stop (s.blk x) := by
      rw [← hstay] at hu
      simpa using (List.mem_filter.mp hu).2
    exact hst.2.elim (hne x hxM) fun hc => hc (by simpa using hxc)
  simp only [Lifted, ← List.head?_filter, hstay]
  generalize P ++ uncovered s start stop M ++ Q = U at *
  cases U with
  | nil =>
      obtain ⟨n, hn⟩ := hr
      refine ⟨_, hn, n, ?_⟩
      refine congrArg (n :: ·) (List.filter_congr fun x hx => decide_eq_decide.mpr ?_)
      rw [htouch x hx]
      simp
  | cons σ R =>
      refine ⟨_, hr, ?_⟩
      obtain ⟨hσR, -⟩ := List.nodup_cons.mp hnd
      rw [List.filter_filter]
      refine List.filter_congr fun x hx => ?_
      rw [← Bool.decide_and, decide_eq_decide, htouch x hx]
      constructor
      · rintro ⟨hxR, hxc⟩
        by_cases e : x = σ
        · exact .inl e
        · exact .inr (by simp [hxc, hxR, e])
      · rintro (rfl | hxn)
        · exact ⟨hσR, fun hc => hcov x hc (by simp)⟩
        · simp only [List.mem_cons, not_or] at hxn
          exact ⟨hxn.2.2, hxn.1⟩

/-- An exact duplicate is the only block touched. -/
theorem exact_alone (h : Parted s start stop A P M Q B) {c : Nat} (hc : c ∈ M)
    (hs : start = s.startseq c) (he : stop = s.endseq c) : P = [] ∧ M = [c] ∧ Q = [] := by
  have hM : M = [c] := h.around.bracket.exact_alone hc hs he
  refine ⟨?_, hM, ?_⟩
  · refine h.beside.left_nil fun p hp e => ?_
    have hpc := h.around.apart_left (x := p) (y := c) (by simp [hp]) hc
    omega
  · refine h.beside.right_nil fun q hq e => ?_
    have hcq := h.around.apart_right (x := c) (y := q) hc (by simp [hq])
    omega

/-- It leaves the LIFO as it is. -/
theorem lifted_exact {c : Nat} (h : Parted s start stop A [] [c] [] B) (hS : Lifo s S)
    (hs : start = s.startseq c) (he : stop = s.endseq c) :
    Lifted s (A ++ [] ++ ([c] ++ ([] ++ B))) S start stop S := by
  have ht : Touches start stop (s.blk c) := h.touched (by simp)
  have hc : Stays start stop (s.blk c) := ⟨ht, .inl ⟨hs, he⟩⟩
  simp only [Lifted, ← List.head?_filter, h.filter_stays]
  rw [List.filter_cons_of_pos (by simpa using hc), List.filter_nil]
  refine (List.filter_eq_self.mpr fun x hx => ?_).symm
  have hx' := (h.around.holds.perm hS).mem_iff.mp hx
  rw [decide_eq_true_eq, or_iff_not_imp_left]
  intro hxc
  exact h.untouched (by simp [hxc] at hx' ⊢; exact hx')

end Parted

/-- **What `add` makes of the LIFO.**  The blocks that the segment does not touch are as before. -/
theorem add_lifo (h : Holds s L) (hwf : SegList.Wf (L.map s.blk)) (hlt : start < stop)
    (hS : Lifo s S) (ti : TcpFlag) (rqf : Int) :
    ∃ S', Ends (s.add start stop ti rqf) s (L.filter fun x => ¬ Touches start stop (s.blk x)) S' ∧
      Lifted s L S start stop S' := by
  by_cases hL : L = []
  · subst hL
    obtain rfl : S = [] := (h.perm hS).eq_nil
    obtain ⟨s', L', he, hs', hb, -⟩ := add_refines h hwf hlt ti rqf
    have hblocks : (SegList.add ([].map s.blk) s.rcvNxt start stop ti).blocks =
        [⟨start, stop, ti⟩] := congrArg SegList.Added.blocks (addAt_nil s.rcvNxt [] [] hlt)
    rw [hblocks] at hb
    obtain ⟨n, rfl, -⟩ := List.map_eq_singleton_iff.mp hb
    obtain ⟨S', F, hr⟩ := hs'.rep
    obtain rfl : S' = [n] := List.perm_singleton.mp hr.perm
    exact ⟨[n], ⟨_, s', he, hr.lifo, by simp⟩, n, rfl⟩
  · obtain ⟨A, P, M, Q, B, rfl, hp⟩ := Parted.of_holds h hwf hlt
    have hK : ∀ x ∈ (A ++ P ++ (M ++ (Q ++ B))).filter
        (fun x => ¬ Touches start stop (s.blk x)), x ∈ A ++ B := by
      intro x hx
      obtain ⟨hxL, hxt⟩ := List.mem_filter.mp hx
      have hxt : ¬ Touches start stop (s.blk x) := by simpa using hxt
      have hnt : x ∉ P ++ M ++ Q := fun hm => hxt (hp.touched hm)
      simp at hxL hnt ⊢
      tauto
    have hmono : ∀ {r S'}, Ends r s (A ++ B) S' → Ends r s ((A ++ P ++ (M ++ (Q ++ B))).filter
        fun x => ¬ Touches start stop (s.blk x)) S' := by
      rintro r S' ⟨f, s', he, hl, hb⟩
      exact ⟨f, s', he, hl, fun x hx => hb x (hK x hx)⟩
    rw [Rq.add, if_neg (not_lt.mpr hlt.le), if_neg (h.fifo.eq_nil_iff.not.mpr hL)]
    by_cases hex : ∃ c ∈ M, start = s.startseq c ∧ stop = s.endseq c
    · obtain ⟨c, hc, hcs, hce⟩ := hex
      obtain ⟨rfl, rfl, rfl⟩ := hp.exact_alone hc hcs hce
      have ha : Around s start stop A [c] B := by simpa using hp.around
      exact ⟨S, hmono (again2_exact ha hS hcs hce), hp.lifted_exact hS hcs hce⟩
    · push Not at hex
      have hne : ∀ x ∈ M, ¬ (start = s.startseq x ∧ stop = s.endseq x) := fun x hx e =>
        hex x hx e.1 e.2
      obtain ⟨S', he, hl⟩ := hp.lifted hne hS (again2_settles hp.around hS hp.beside hL hne)
      exact ⟨S', hmono he, hl⟩

end Split

/-! ### The first block after a call of `add` -/

/-- Every block above the one that stays (`σ`) on the LIFO is touched by the segment too.  When no
block stays the segment gets a node of its own, and nothing is asked. -/
def Newest (s : Rq) (L S : List Nat) (start stop : Int) : Prop :=
  ∀ σ, (L.find? fun x => Stays start stop (s.blk x)) = some σ →
    ∀ x ∈ S.takeWhile (· ≠ σ), Touches start stop (s.blk x)

/-- The first of the blocks contains the segment. -/
def FirstContains (bs : List (Int × Int)) (start stop : Int) : Prop :=
  ∃ b, bs.head? = some b ∧ b.1 ≤ start ∧ stop ≤ b.2

section First

variable {s : Rq} {L S S' : List Nat} {start stop : Int}

/-- One node is left that contains the segment, and `Newest` says that it is on top. -/
theorem Lifted.head_iff {c : Nat → Prop} (h : Lifted s L S start stop S')
    (hout : ∀ x ∈ S, ¬ Touches start stop (s.blk x) → ¬ c x) (hin : ∃ j ∈ S', c j)
    (hS : ∀ x ∈ L, x ∈ S) :
    (∃ p, S'.head? = some p ∧ c p) ↔ Newest s L S start stop := by
  obtain ⟨j, hj, hcj⟩ := hin
  rw [Newest]
  unfold Lifted at h
  split at h
  case h_1 hnone =>
    obtain ⟨n, rfl⟩ := h
    have hjn : j = n := by
      rcases List.mem_cons.mp hj with e | hj
      · exact e
      · obtain ⟨hjS, hjt⟩ := List.mem_filter.mp hj
        exact absurd hcj (hout j hjS (by simpa using hjt))
    simp [hnone, ← hjn, hcj]
  case h_2 σ hσ =>
    subst h
    -- every other node left is apart from the segment
    have honly : ∀ x ∈ S.filter (fun x => x = σ ∨ ¬ Touches start stop (s.blk x)), c x → x = σ := by
      intro x hx hcx
      obtain ⟨hxS, hxt⟩ := List.mem_filter.mp hx
      rcases (by simpa using hxt : x = σ ∨ ¬ Touches start stop (s.blk x)) with e | hnt
      · exact e
      · exact absurd hcx (hout x hxS hnt)
    have hσS : σ ∈ S := hS σ (List.mem_of_find?_eq_some hσ)
    have hcσ : c σ := honly j hj hcj ▸ hcj
    have hhead : (∃ p, (S.filter fun x => x = σ ∨ ¬ Touches start stop (s.blk x)).head? = some p ∧
        c p) ↔ (S.filter fun x => x = σ ∨ ¬ Touches start stop (s.blk x)).head? = some σ := by
      constructor
      · rintro ⟨p, hp, hcp⟩
        have hpσ := honly p (List.mem_of_mem_head? hp) hcp
        rw [hpσ] at hp
        exact hp
      · intro e
        exact ⟨σ, e, hcσ⟩
    rw [hhead, head?_filter_iff hσS (by simp)]
    constructor
    · rintro hx τ hτ x hxS
      obtain rfl : σ = τ := Option.some.inj (hσ.symm.trans hτ)
      have hnot := hx x hxS
      simp only [decide_eq_false_iff_not, not_or, not_not] at hnot
      exact hnot.2
    · intro hn x hx
      have hne : x ≠ σ := by simpa using List.mem_takeWhile_imp hx
      simpa [hne] using hn σ hσ x hx

/-- The first block that is written after a call of `add`. -/
theorem add_first_block (h : Holds s L) (hwf : SegList.Wf (L.map s.blk)) (hS : Lifo s S)
    (hlt : start < stop) (ti : TcpFlag) (rqf : Int) {m : Int} (hm : m ≠ 0) :
    ∃ f s₂ bs, s.add start stop ti rqf = some (f, s₂) ∧ s₂.gensack m = some bs ∧
      (FirstContains bs start stop ↔ Newest s L S start stop) := by
  obtain ⟨S', ⟨f, s₂, he, hl, hb⟩, hlift⟩ := add_lifo h hwf hlt hS ti rqf
  obtain ⟨s', L', he', hs₂, hblk, -⟩ := add_refines h hwf hlt ti rqf
  obtain rfl : s' = s₂ := congrArg Prod.snd (Option.some.inj (he'.symm.trans he))
  obtain ⟨bs, hbs, hhead⟩ := gensack_head hs₂ hl hm
  refine ⟨f, s', bs, he, hbs, ?_⟩
  have hperm := h.perm hS
  -- the block that the segment has become a part of
  obtain ⟨a, t, b, x, hj, hr⟩ := SegList.add_spec hwf hlt s.rcvNxt ti
  rw [hr.blocks] at hblk
  obtain ⟨j, hjL, hjx⟩ : ∃ j ∈ L', s'.blk j = x :=
    List.mem_map.mp (hblk ▸ List.mem_append_right a List.mem_cons_self)
  have hin : ∃ j ∈ S', s'.startseq j ≤ start ∧ stop ≤ s'.endseq j := by
    refine ⟨j, (hs₂.perm hl).mem_iff.mpr hjL, ?_⟩
    subst hjx
    exact ⟨hj.start_le, hj.le_stop⟩
  have hout : ∀ y ∈ S, ¬ Touches start stop (s.blk y) →
      ¬ (s'.startseq y ≤ start ∧ stop ≤ s'.endseq y) := by
    rintro y hy hnt ⟨h₁, h₂⟩
    have hby := hb y (List.mem_filter.mpr ⟨hperm.mem_iff.mp hy, by simpa using hnt⟩)
    have hbs : s'.startseq y = s.startseq y := congrArg Block.start hby
    have hbe : s'.endseq y = s.endseq y := congrArg Block.stop hby
    exact hnt ⟨by simp only [blk]; omega, by simp only [blk]; omega⟩
  rw [FirstContains, hhead, ← hlift.head_iff hout hin fun y hy => hperm.mem_iff.mpr hy]
  simp

end First

namespace Rq

/-- **The first block after `add`.**  In every state of every run, the first block written right
after a segment has been added is the block that contains it if and only if no block is left above
that one on the LIFO. -/
theorem first_block_iff (s : Rq) (hs : s.Fresh) (ops : List RqOp) (hops : ∀ op ∈ ops, op.Valid) :
    ∃ s₁, s.exec ops = some s₁ ∧ ∃ L S, s₁.Represents (held ops) L S ∧
      ∀ start stop ti rqf m, start < stop → m ≠ 0 →
        ∃ f s₂ bs, s₁.add start stop ti rqf = some (f, s₂) ∧ s₂.gensack m = some bs ∧
          (FirstContains bs start stop ↔ Newest s₁ L S start stop) := by
  obtain ⟨s₁, he, h⟩ := hs.inv.run ops hops
  obtain ⟨L, S, hr⟩ := h.represents
  refine ⟨s₁, he, L, S, hr, fun start stop ti rqf m hlt hm => ?_⟩
  obtain ⟨L', hh, hwf, -⟩ := h
  obtain rfl : L = L' := hr.fifo.unique hh.fifo
  exact add_first_block hh hwf hr.lifo hlt ti rqf hm

/-- A queue with two blocks. -/
theorem first_block_iff_two :
    ∃ s₁, empty.exec [.add 20 30 0 0, .add 40 50 0 0] = some s₁ ∧
      ∃ L S, s₁.Represents (held [.add 20 30 0 0, .add 40 50 0 0]) L S ∧
        ∀ start stop ti rqf m, start < stop → m ≠ 0 →
          ∃ f s₂ bs, s₁.add start stop ti rqf = some (f, s₂) ∧ s₂.gensack m = some bs ∧
            (FirstContains bs start stop ↔ Newest s₁ L S start stop) :=
  first_block_iff empty empty_fresh _ (by simp [RqOp.Valid])

/-- A segment that extends the lower of two blocks, the older one: the block of the other is
written first. -/
theorem first_block_stale :
    ∃ s₁ f s₂, ({ empty with rcvNxt := 10 } : Rq).exec [.add 20 30 0 0, .add 40 50 0 0] = some s₁ ∧
      s₁.add 30 35 0 0 = some (f, s₂) ∧ s₂.rcvNxt = 10 ∧
      s₂.gensack 3 = some [(40, 50), (20, 35)] ∧
      ¬ FirstContains [(40, 50), (20, 35)] 30 35 := by
  refine ⟨_, _, _, rfl, rfl, rfl, rfl, ?_⟩
  rintro ⟨b, hb, h₁, -⟩
  obtain rfl : (40, 50) = b := Option.some.inj hb
  exact absurd h₁ (by decide)

end Rq

end Afabric
