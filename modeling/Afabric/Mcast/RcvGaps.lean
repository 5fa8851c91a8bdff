import Afabric.Mcast.RcvBuffer
import Afabric.Support.Intervals
import Afabric.Support.SinglyLinked

/-!
# Mcast — the gaps of a receive buffer

`Holds got s gaps` says that `gaps` are the gaps of the buffer with their numbers, that they are what
is missing of the packets `got` below `nextpkt_`, and that `maxpkt_` is the number before the first
of them.  A gap is a half-open interval, and what a packet does to its gap is to put other intervals
in its place (`Holds.fill`).  So after any packets the buffer is what they say (`addAll_spec`).
-/

namespace Afabric

namespace RcvBuffer

def lower (e : ℕ × Gap) : ℤ := e.2.start

def upper (e : ℕ × Gap) : ℤ := e.2.end_ + 1

structure Holds (got : List ℤ) (s : RcvBuffer) (gaps : List (ℕ × Gap)) : Prop where
  chain : SLQ s.next s.gap s.tail (gaps.map Prod.fst)
  node : ∀ e ∈ gaps, s.node e.1 = some e.2
  fresh : ∀ e ∈ gaps, e.1 < s.fresh
  normal : Normal lower upper gaps
  missing : ∀ j, j ∈ cover lower upper gaps ↔ 0 ≤ j ∧ j < s.nextpkt ∧ j ∉ got
  below : ∀ j ∈ got, 0 ≤ j ∧ j < s.nextpkt
  last : got = [] ∧ s.nextpkt = 0 ∨ s.nextpkt - 1 ∈ got
  first : s.maxpkt + 1 = (gaps.head?.map lower).getD s.nextpkt

variable {got : List ℤ} {s t : RcvBuffer} {gaps a b c : List (ℕ × Gap)} {e : ℕ × Gap} {i j : ℤ}
  {tnow : ℚ}

theorem holds_new : Holds [] new [] where
  chain := .nil
  node := fun e he => absurd he List.not_mem_nil
  fresh := fun e he => absurd he List.not_mem_nil
  normal := .nil
  missing := fun j => by simp [new, cover]
  below := fun j hj => absurd hj List.not_mem_nil
  last := .inl ⟨rfl, rfl⟩
  first := rfl

theorem has_iff : e.2.Has i ↔ lower e ≤ i ∧ i < upper e := by
  rw [Gap.Has, lower, upper, Int.lt_add_one_iff]

/-! ### What is missing -/

section Missing

variable (h : Holds got s gaps)
include h

theorem Holds.nextpkt_nonneg : 0 ≤ s.nextpkt := by
  rcases h.last with ⟨-, h0⟩ | hl
  · exact h0.ge
  · have := (h.below _ hl).1
    omega

theorem Holds.maxpkt_missing : 0 ≤ s.maxpkt + 1 ∧ s.maxpkt + 1 ≤ s.nextpkt ∧
    s.maxpkt + 1 ∉ got := by
  have hfirst := h.first
  cases gaps with
  | nil =>
      have hn : s.maxpkt + 1 = s.nextpkt := hfirst
      refine ⟨hn ▸ h.nextpkt_nonneg, hn.le, fun hm => ?_⟩
      have := (h.below _ hm).2
      omega
  | cons e gaps =>
      have hlo : s.maxpkt + 1 = lower e := hfirst
      have hmem : lower e ∈ cover lower upper (e :: gaps) :=
        ⟨e, List.mem_cons_self, le_rfl, h.normal.nonempty e List.mem_cons_self⟩
      obtain ⟨h₁, h₂, h₃⟩ := (h.missing _).mp hmem
      rw [hlo]
      exact ⟨h₁, h₂.le, h₃⟩

/-- A number below the first gap has been received. -/
theorem Holds.received (h₀ : 0 ≤ j) (hj : j ≤ s.maxpkt) : j ∈ got := by
  by_contra hnot
  have hfirst := h.first
  have hlt : j < s.nextpkt := by
    have := h.maxpkt_missing.2.1
    omega
  obtain ⟨e, he, hle, -⟩ := (h.missing j).mpr ⟨h₀, hlt, hnot⟩
  cases gaps with
  | nil => exact absurd he List.not_mem_nil
  | cons e₀ gaps =>
      have hlo : s.maxpkt + 1 = lower e₀ := hfirst
      rcases List.mem_cons.mp he with rfl | he
      · omega
      · have hapart := (Normal.cons_iff.mp h.normal).2.1 e he
        have hne := (Normal.cons_iff.mp h.normal).1
        omega

/-- A list visits no more gaps than have been allocated. -/
theorem Holds.length_le : gaps.length ≤ s.fresh := by
  have hnd : (gaps.map Prod.fst).Nodup := h.chain.nodup
  rw [← List.length_map Prod.fst, ← List.toFinset_card_of_nodup hnd, ← Finset.card_range s.fresh]
  refine Finset.card_le_card fun x hx => ?_
  obtain ⟨e, he, rfl⟩ := List.mem_map.mp (List.mem_toFinset.mp hx)
  exact Finset.mem_range.mpr (h.fresh e he)

end Missing

/-! ### Searches -/

theorem existsFrom_eq {fuel : ℕ} {hd : Option ℕ} (hc : SLL s.next hd (gaps.map Prod.fst))
    (hn : ∀ e ∈ gaps, s.node e.1 = some e.2) (hf : gaps.length < fuel) :
    ∃ r, existsFrom s i fuel hd = some r ∧ (r = false ↔ i ∈ cover lower upper gaps) := by
  induction gaps generalizing fuel hd with
  | nil =>
      obtain ⟨f, rfl⟩ := Nat.exists_eq_succ_of_ne_zero hf.ne'
      have hnone : hd = none := hc
      rw [hnone]
      exact ⟨true, rfl, by simp⟩
  | cons e gaps ih =>
      obtain ⟨f, rfl⟩ := Nat.exists_eq_succ_of_ne_zero (Nat.ne_zero_of_lt hf)
      obtain ⟨rfl, hc⟩ := hc
      rw [existsFrom, hn e List.mem_cons_self, Option.bind_some, cover_cons]
      by_cases hi : e.2.Has i
      · rw [if_pos hi]
        exact ⟨false, rfl, iff_of_true rfl (.inl (has_iff.mp hi))⟩
      · rw [if_neg hi]
        obtain ⟨r, hr, hiff⟩ := ih hc (fun e' he => hn e' (List.mem_cons_of_mem e he))
          (Nat.lt_of_succ_lt_succ hf)
        refine ⟨r, hr, hiff.trans ⟨.inr, fun hm => hm.resolve_left fun hm => hi (has_iff.mpr hm)⟩⟩

/-- `exists_pkt` holds of what has been received, and of every negative number. -/
theorem Holds.existsPkt (h : Holds got s gaps) (j : ℤ) :
    ∃ r, existsPkt j s = some r ∧ (r = true ↔ j < 0 ∨ j ∈ got) := by
  rw [RcvBuffer.existsPkt]
  obtain ⟨h₀, hle, -⟩ := h.maxpkt_missing
  split_ifs with hmax hnext
  · refine ⟨true, rfl, iff_of_true rfl ?_⟩
    by_cases hj : j < 0
    · exact .inl hj
    · exact .inr (h.received (not_lt.mp hj) hmax)
  · refine ⟨false, rfl, iff_of_false Bool.false_ne_true ?_⟩
    rintro (hj | hj)
    · omega
    · exact absurd (h.below j hj).2 hnext.not_gt
  · obtain ⟨r, hr, hiff⟩ := existsFrom_eq (i := j) h.chain.chain h.node
      (Nat.lt_succ_of_le h.length_le)
    refine ⟨r, hr, ?_⟩
    rw [← Bool.not_eq_false, hiff, h.missing]
    constructor
    · intro hnot
      by_contra hj
      obtain ⟨hj₁, hj₂⟩ := not_or.mp hj
      exact hnot ⟨not_lt.mp hj₁, not_le.mp hnext, hj₂⟩
    · rintro (hj | hj) ⟨h₁, h₂, h₃⟩
      · exact absurd h₁ (not_le.mpr hj)
      · exact h₃ hj

theorem locate_eq {fuel : ℕ} {hd : Option ℕ} (pg : ℕ) (hc : SLL s.next hd ((c ++ e :: b).map Prod.fst))
    (hn : ∀ e' ∈ c ++ e :: b, s.node e'.1 = some e'.2) (hbefore : ∀ e' ∈ c, ¬ e'.2.Has i)
    (he : e.2.Has i) (hf : c.length < fuel) :
    locate s i fuel pg hd = some ((c.getLast?.map Prod.fst).getD pg, e.1) := by
  induction c generalizing fuel pg hd with
  | nil =>
      obtain ⟨f, rfl⟩ := Nat.exists_eq_succ_of_ne_zero (Nat.ne_zero_of_lt hf)
      obtain ⟨rfl, -⟩ := hc
      rw [locate, hn e List.mem_cons_self, Option.bind_some, if_pos he]
      rfl
  | cons e' c ih =>
      obtain ⟨f, rfl⟩ := Nat.exists_eq_succ_of_ne_zero (Nat.ne_zero_of_lt hf)
      obtain ⟨rfl, hc⟩ := hc
      rw [locate, hn e' List.mem_cons_self, Option.bind_some,
        if_neg (hbefore e' List.mem_cons_self),
        ih e'.1 hc (fun x hx => hn x (List.mem_cons_of_mem e' hx))
          (fun x hx => hbefore x (List.mem_cons_of_mem e' hx)) (Nat.lt_of_succ_lt_succ hf)]
      cases hl : c.getLast? with
      | none =>
          rw [List.getLast?_eq_none_iff.mp hl]
          rfl
      | some x =>
          rw [List.getLast?_cons, hl]
          rfl

/-! ### A new gap -/

theorem Holds.newGap (h : Holds got s gaps) (tnow : ℚ) (hi : s.nextpkt < i) :
    ∃ t gaps', newGap i tnow s = some t ∧ Holds (i :: got) t gaps' ∧ t.nextpkt = i + 1 ∧
      t.duplicates = s.duplicates ∧ t.pktsRecovered = s.pktsRecovered := by
  have hx : s.fresh ∉ gaps.map Prod.fst := by
    intro hm
    obtain ⟨e, he, heq⟩ := List.mem_map.mp hm
    exact absurd (h.fresh e he) (heq ▸ lt_irrefl _)
  have hchain : SLQ (Function.update s.next s.fresh none) s.gap s.tail (gaps.map Prod.fst) :=
    h.chain.congr fun x hm => Function.update_of_ne (fun e => hx (by rwa [← e])) _ _
  have happ := hchain.append hx (Function.update_self _ _ _)
  have h0 := h.nextpkt_nonneg
  obtain ⟨g, hg⟩ : ∃ g, g = (s.fresh, (⟨s.nextpkt, i - 1, tnow⟩ : Gap)) := ⟨_, rfl⟩
  have hholds : ∀ t : RcvBuffer, SLQ t.next t.gap t.tail (gaps.map Prod.fst ++ [s.fresh]) →
      t.node = Function.update s.node s.fresh (some g.2) → t.fresh = s.fresh + 1 →
      t.nextpkt = i + 1 → t.maxpkt = s.maxpkt → Holds (i :: got) t (gaps ++ [g]) := by
    intro t hc hnode hfresh hnext hmax
    have hfirst := h.first
    -- the last number below `nextpkt_` is not missing
    have hend : ∀ e ∈ gaps, upper e < lower g := by
      intro e he
      have hmem : upper e - 1 ∈ cover lower upper gaps := ⟨e, he, by
        have := h.normal.nonempty e he
        omega, by omega⟩
      obtain ⟨h₁, h₂, h₃⟩ := (h.missing _).mp hmem
      rcases h.last with ⟨-, hz⟩ | hlast
      · omega
      · have hne : upper e - 1 ≠ s.nextpkt - 1 := fun hc => h₃ (hc ▸ hlast)
        rw [hg, lower]
        dsimp only
        omega
    refine ⟨?_, fun e he => ?_, fun e he => ?_, ?_, fun j => ?_, fun j hj => ?_, ?_, ?_⟩
    · rw [List.map_append, hg]
      exact hc
    · rw [hnode]
      rcases List.mem_append.mp he with he | he
      · rw [Function.update_of_ne (h.fresh e he).ne]
        exact h.node e he
      · rw [List.mem_singleton.mp he, hg]
        exact Function.update_self _ _ _
    · rw [hfresh]
      rcases List.mem_append.mp he with he | he
      · exact Nat.lt_succ_of_lt (h.fresh e he)
      · rw [List.mem_singleton.mp he, hg]
        exact Nat.lt_succ_self _
    · refine Normal.append_iff.mpr ⟨h.normal, Normal.cons_iff.mpr ⟨?_, by simp, .nil⟩,
        fun x hm y hy => List.mem_singleton.mp hy ▸ hend x hm⟩
      rw [hg, lower, upper]
      dsimp only
      omega
    · rw [cover_append, cover_cons, cover_nil, Set.union_empty, Set.mem_union, h.missing, hnext, hg,
        Set.mem_Ico, lower, upper, List.mem_cons]
      dsimp only
      have hb := h.below j
      constructor
      · rintro (⟨h₁, h₂, h₃⟩ | ⟨h₁, h₂⟩)
        · refine ⟨h₁, by omega, fun hc => ?_⟩
          rcases hc with hc | hc
          · omega
          · exact h₃ hc
        · refine ⟨by omega, by omega, fun hc => ?_⟩
          rcases hc with hc | hc
          · omega
          · have := (hb hc).2
            omega
      · rintro ⟨h₁, h₂, h₃⟩
        obtain ⟨hji, hjg⟩ := not_or.mp h₃
        by_cases hlt : j < s.nextpkt
        · exact .inl ⟨h₁, hlt, hjg⟩
        · exact .inr ⟨by omega, by omega⟩
    · rw [hnext]
      rcases List.mem_cons.mp hj with rfl | hj
      · omega
      · have := h.below j hj
        omega
    · rw [hnext, add_sub_cancel_right]
      exact .inr List.mem_cons_self
    · rw [hmax, hfirst, hnext]
      cases gaps with
      | nil => rw [hg]; rfl
      | cons e gaps => rfl
  rw [RcvBuffer.newGap]
  have hgap := h.chain.head_eq
  have htail := h.chain.tail_eq
  rcases List.eq_nil_or_concat' gaps with rfl | ⟨c, e, rfl⟩
  · have hnone : s.gap = none := hgap
    have htnone : s.tail = none := htail
    rw [if_pos hnone]
    refine ⟨_, _, rfl, hholds _ ?_ (by rw [hg]) rfl rfl rfl, rfl, rfl, rfl⟩
    rw [htnone, if_pos hnone] at happ
    exact happ
  · have hsome : s.gap ≠ none := by
      rw [hgap]
      simp
    have htsome : s.tail = some e.1 := by
      rw [htail, List.map_append]
      exact List.getLast?_concat
    rw [if_neg hsome, htsome]
    refine ⟨_, _, rfl, hholds _ ?_ (by rw [hg]) rfl rfl rfl, rfl, rfl, rfl⟩
    rw [htsome, if_neg hsome] at happ
    exact happ

/-! ### A late packet -/

theorem Holds.other (h : Holds got s (a ++ e :: b)) {x : ℕ × Gap} (hx : x ∈ a ++ b) :
    x.1 ≠ e.1 ∧ s.node x.1 = some x.2 ∧ x.1 < s.fresh := by
  have hmem : x ∈ a ++ e :: b := by
    rcases List.mem_append.mp hx with hx | hx
    · exact List.mem_append_left _ hx
    · exact List.mem_append_right _ (List.mem_cons_of_mem e hx)
  refine ⟨fun he => ?_, h.node x hmem, h.fresh x hmem⟩
  have hc := h.chain
  rw [List.map_append, List.map_cons] at hc
  obtain ⟨ha, hb⟩ := hc.not_mem
  rcases List.mem_append.mp hx with hx | hx
  · exact ha (he ▸ List.mem_map_of_mem hx)
  · exact hb (he ▸ List.mem_map_of_mem hx)

/-- In place of the gap of a packet there are others, of what is left of it. -/
theorem Holds.fill (h : Holds got s (a ++ e :: b)) (hi : e.2.Has i)
    (hchain : SLQ t.next t.gap t.tail ((a ++ (c ++ b)).map Prod.fst))
    (hnode : ∀ x ∈ a ++ (c ++ b), t.node x.1 = some x.2)
    (hfresh : ∀ x ∈ a ++ (c ++ b), x.1 < t.fresh) (hnormal : Normal lower upper c)
    (hin : ∀ x ∈ c, lower e ≤ lower x ∧ upper x ≤ upper e)
    (hcover : cover lower upper c = Set.Ico (lower e) (upper e) \ {i})
    (hnext : t.nextpkt = s.nextpkt)
    (hfirst : t.maxpkt + 1 = ((a ++ (c ++ b)).head?.map lower).getD t.nextpkt) :
    Holds (i :: got) t (a ++ (c ++ b)) := by
  obtain ⟨hi₁, hi₂⟩ := has_iff.mp hi
  have hmiss : i ∈ cover lower upper (a ++ e :: b) :=
    ⟨e, List.mem_append_right _ List.mem_cons_self, hi₁, hi₂⟩
  obtain ⟨h₁, h₂, -⟩ := (h.missing i).mp hmiss
  refine ⟨hchain, hnode, hfresh, h.normal.replace hnormal hin, fun j => ?_, fun j hj => ?_, ?_,
    hfirst⟩
  · rw [h.normal.cover_replace hi₁ hi₂ hcover, Set.mem_sdiff, h.missing, hnext, List.mem_cons,
      Set.mem_singleton_iff, not_or]
    tauto
  · rw [hnext]
    rcases List.mem_cons.mp hj with rfl | hj
    · exact ⟨h₁, h₂⟩
    · exact h.below j hj
  · rw [hnext]
    rcases h.last with ⟨-, h0⟩ | hl
    · omega
    · exact .inr (List.mem_cons_of_mem i hl)

/-- The state in which only the end of a gap has moved. -/
theorem Holds.resize (h : Holds got s (a ++ e :: b)) (hi : e.2.Has i) (g : Gap)
    (hne : g.start ≤ g.end_) (hin : e.2.start ≤ g.start ∧ g.end_ ≤ e.2.end_)
    (hcover : ∀ j, g.start ≤ j ∧ j ≤ g.end_ ↔ e.2.Has j ∧ j ≠ i)
    (hchain : t.next = s.next ∧ t.gap = s.gap ∧ t.tail = s.tail)
    (hnode : t.node = Function.update s.node e.1 (some g)) (hfresh : t.fresh = s.fresh)
    (hnext : t.nextpkt = s.nextpkt)
    (hfirst : t.maxpkt + 1 = ((a ++ (e.1, g) :: b).head?.map lower).getD t.nextpkt) :
    Holds (i :: got) t (a ++ ([(e.1, g)] ++ b)) := by
  have hgap : ∀ x ∈ a ++ ([(e.1, g)] ++ b), x = (e.1, g) ∨ x ∈ a ++ b := by
    intro x hx
    simp only [List.mem_append, List.mem_singleton] at hx ⊢
    tauto
  refine h.fill hi ?_ (fun x hx => ?_) (fun x hx => ?_)
    (Normal.cons_iff.mpr ⟨?_, by simp, .nil⟩) (fun x hx => ?_) ?_ hnext hfirst
  · obtain ⟨h₁, h₂, h₃⟩ := hchain
    have hc := h.chain
    rw [h₁, h₂, h₃]
    simpa using hc
  · rw [hnode]
    rcases hgap x hx with rfl | hx
    · exact Function.update_self _ _ _
    · rw [Function.update_of_ne (h.other hx).1]
      exact (h.other hx).2.1
  · rw [hfresh]
    rcases hgap x hx with rfl | hx
    · exact h.fresh e (List.mem_append_right _ List.mem_cons_self)
    · exact (h.other hx).2.2
  · rw [lower, upper]
    exact Int.lt_add_one_iff.mpr hne
  · rw [List.mem_singleton.mp hx]
    simp only [lower, upper]
    omega
  · ext j
    have hj := hcover j
    rw [has_iff] at hj
    rw [cover_cons, cover_nil, Set.union_empty, Set.mem_sdiff, Set.mem_singleton_iff, Set.mem_Ico,
      Set.mem_Ico, ← hj, lower, upper, Int.lt_add_one_iff]

/-- A packet that is not the first of its gap. -/
theorem Holds.fillRest (h : Holds got s (a ++ e :: b)) (hi : e.2.Has i) (hne : e.2.start ≠ i) :
    ∃ gaps', Holds (i :: got) (fillRest i e.1 e.2 s) gaps' := by
  obtain ⟨hi₁, hi₂⟩ := hi
  have hhead : ∀ (g : Gap) (d : List (ℕ × Gap)), g.start = e.2.start →
      (a ++ (e.1, g) :: d).head?.map lower = (a ++ e :: b).head?.map lower := by
    intro g d hg
    cases a with
    | nil => exact congrArg some hg
    | cons x a => rfl
  rw [RcvBuffer.fillRest]
  by_cases hend : e.2.end_ = i
  · rw [if_pos hend]
    refine ⟨_, h.resize ⟨hi₁, hi₂⟩ { e.2 with end_ := e.2.end_ - 1 } ?_ ?_ (fun j => ?_)
      ⟨rfl, rfl, rfl⟩ rfl rfl rfl ?_⟩
    · dsimp only
      omega
    · dsimp only
      omega
    · rw [Gap.Has]
      dsimp only
      omega
    · rw [hhead]
      · exact h.first
      · rfl
  · -- the gap is split, and its second half is new
    rw [if_neg hend]
    obtain ⟨g₁, hg₁⟩ : ∃ g₁, g₁ = (e.1, ({ e.2 with end_ := i - 1 } : Gap)) := ⟨_, rfl⟩
    obtain ⟨g₂, hg₂⟩ : ∃ g₂, g₂ = (s.fresh, (⟨i + 1, e.2.end_, e.2.time⟩ : Gap)) := ⟨_, rfl⟩
    have hefresh : e.1 < s.fresh := h.fresh e (List.mem_append_right _ List.mem_cons_self)
    have hnew : s.fresh ∉ (a ++ e :: b).map Prod.fst := by
      intro hm
      obtain ⟨x, hx, heq⟩ := List.mem_map.mp hm
      exact absurd (h.fresh x hx) (heq ▸ lt_irrefl _)
    have hgap : ∀ x ∈ a ++ ([g₁, g₂] ++ b), x = g₁ ∨ x = g₂ ∨ x ∈ a ++ b := by
      intro x hx
      simp only [List.mem_append, List.mem_cons, List.not_mem_nil, or_false] at hx ⊢
      tauto
    refine ⟨a ++ ([g₁, g₂] ++ b), h.fill ⟨hi₁, hi₂⟩ ?_ (fun x hx => ?_) (fun x hx => ?_) ?_
      (fun x hx => ?_) ?_ rfl ?_⟩
    · have hc := h.chain
      rw [List.map_append, List.map_cons] at hc hnew
      have hins := hc.insertAfter hnew
      rw [List.map_append, List.map_append, hg₁, hg₂]
      exact hins
    · dsimp only
      rcases hgap x hx with rfl | rfl | hx
      · rw [hg₁]
        exact Function.update_self _ _ _
      · rw [hg₂, Function.update_of_ne hefresh.ne', Function.update_self]
      · obtain ⟨hxe, hxn, hxf⟩ := h.other hx
        rw [Function.update_of_ne hxe, Function.update_of_ne hxf.ne]
        exact hxn
    · dsimp only
      rcases hgap x hx with rfl | rfl | hx
      · rw [hg₁]
        exact Nat.lt_succ_of_lt hefresh
      · rw [hg₂]
        exact Nat.lt_succ_self _
      · exact Nat.lt_succ_of_lt (h.other hx).2.2
    · refine Normal.cons_iff.mpr ⟨?_, fun x hx => ?_, Normal.cons_iff.mpr ⟨?_, by simp, .nil⟩⟩
      · simp only [hg₁, lower, upper]
        omega
      · rw [List.mem_singleton.mp hx]
        simp only [hg₁, hg₂, lower, upper]
        omega
      · simp only [hg₂, lower, upper]
        omega
    · simp only [List.mem_cons, List.not_mem_nil, or_false] at hx
      rcases hx with rfl | rfl
      · simp only [hg₁, lower, upper]
        omega
      · simp only [hg₂, lower, upper]
        omega
    · ext j
      simp only [cover_cons, cover_nil, Set.union_empty, Set.mem_union, Set.mem_Ico, Set.mem_sdiff,
        Set.mem_singleton_iff, hg₁, hg₂, lower, upper]
      omega
    · have hsame : (a ++ ([g₁, g₂] ++ b)).head?.map lower = (a ++ e :: b).head?.map lower := by
        rw [hg₁]
        exact hhead { e.2 with end_ := i - 1 } (g₂ :: b) rfl
      rw [hsame]
      exact h.first

/-- The first packet of the first gap. -/
theorem Holds.fillFirst (h : Holds got s (e :: b)) (hi : e.2.Has i) (hne : e.2.start = i) :
    ∃ t gaps', fillFirst e.1 e.2 s = some t ∧ Holds (i :: got) t gaps' ∧ t.nextpkt = s.nextpkt ∧
      t.duplicates = s.duplicates ∧ t.pktsRecovered = s.pktsRecovered := by
  subst hne
  have hmax : s.maxpkt + 1 = e.2.start := h.first
  have hhas := hi
  obtain ⟨hi₁, hi₂⟩ := hi
  rw [RcvBuffer.fillFirst]
  by_cases hend : e.2.end_ < e.2.start + 1
  · -- the gap has been closed
    rw [if_pos hend]
    have hone : cover lower upper ([] : List (ℕ × Gap)) =
        Set.Ico (lower e) (upper e) \ {e.2.start} := by
      ext j
      rw [cover_nil, Set.mem_sdiff, Set.mem_Ico, Set.mem_singleton_iff, lower, upper]
      refine iff_of_false (Set.notMem_empty j) ?_
      omega
    have hnode : ∀ x ∈ b, Function.update (Function.update s.node e.1
        (some { e.2 with start := e.2.start + 1 })) e.1 none x.1 = some x.2 := by
      intro x hx
      obtain ⟨hxe, hxn, -⟩ := h.other (a := []) hx
      rw [Function.update_of_ne hxe, Function.update_of_ne hxe]
      exact hxn
    have hfresh : ∀ x ∈ b, x.1 < s.fresh := fun x hx => (h.other (a := []) hx).2.2
    have hnext : s.next e.1 = (b.map Prod.fst).head? := h.chain.chain.2.head_eq
    cases b with
    | nil =>
        have hnone : s.next e.1 = none := hnext
        rw [hnone]
        refine ⟨_, [], rfl, h.fill (a := []) (c := []) hhas .nil hnode hfresh .nil
          (fun x hx => absurd hx List.not_mem_nil) hone rfl ?_, rfl, rfl, rfl⟩
        exact sub_add_cancel _ _
    | cons e' b =>
        have hsome : s.next e.1 = some e'.1 := hnext
        have hread : Function.update s.node e.1 (some { e.2 with start := e.2.start + 1 }) e'.1 =
            some e'.2 := by
          obtain ⟨hxe, hxn, -⟩ := h.other (a := []) (x := e') List.mem_cons_self
          rw [Function.update_of_ne hxe]
          exact hxn
        rw [hsome]
        dsimp only
        rw [hread]
        refine ⟨_, e' :: b, rfl, h.fill (a := []) (c := []) hhas ?_ hnode hfresh .nil
          (fun x hx => absurd hx List.not_mem_nil) hone rfl ?_, rfl, rfl, rfl⟩
        · have hrem := h.chain.removeHead (by simp)
          rw [hsome] at hrem
          exact hrem
        · exact sub_add_cancel _ _
  · rw [if_neg hend]
    refine ⟨_, _, rfl, h.resize (a := []) hhas { e.2 with start := e.2.start + 1 } ?_ ?_
      (fun j => ?_) ⟨rfl, rfl, rfl⟩ rfl rfl rfl ?_, rfl, rfl, rfl⟩
    · dsimp only
      omega
    · dsimp only
      omega
    · rw [Gap.Has]
      dsimp only
      omega
    · exact congrArg (· + 1) hmax

/-- The first packet of another gap, after `p`. -/
theorem Holds.fillStart {p : ℕ × Gap} (h : Holds got s (a ++ p :: e :: b)) (hi : e.2.Has i)
    (hne : e.2.start = i) : ∃ gaps', Holds (i :: got) (fillStart p.1 e.1 e.2 s) gaps' := by
  subst hne
  have happ : a ++ p :: e :: b = (a ++ [p]) ++ e :: b := by
    rw [List.append_assoc]
    rfl
  have h' := h
  rw [happ] at h'
  have hhas := hi
  obtain ⟨hi₁, hi₂⟩ := hi
  have hhead : ∀ d : List (ℕ × Gap), (a ++ [p] ++ d).head?.map lower =
      (a ++ p :: e :: b).head?.map lower := by
    intro d
    cases a <;> rfl
  rw [RcvBuffer.fillStart]
  by_cases hend : e.2.end_ < e.2.start + 1
  · rw [if_pos hend]
    refine ⟨_, h'.fill (c := []) hhas ?_ (fun x hx => ?_) (fun x hx => (h'.other hx).2.2) .nil
      (fun x hx => absurd hx List.not_mem_nil) ?_ rfl ?_⟩
    · have hc := h.chain
      have htail := h'.chain
      rw [List.map_append, List.map_cons, List.map_cons] at hc
      rw [List.map_append, List.map_cons] at htail
      have hrem := hc.removeAfter
      have hiff : b.map Prod.fst = [] ↔ s.tail = some e.1 := htail.tail_eq_some_iff.symm
      have hlist : (a ++ [p] ++ ([] ++ b)).map Prod.fst = a.map Prod.fst ++ p.1 :: b.map Prod.fst := by
        simp
      rw [hlist]
      simp only [hiff] at hrem
      exact hrem
    · obtain ⟨hxe, hxn, -⟩ := h'.other hx
      dsimp only
      rw [Function.update_of_ne hxe, Function.update_of_ne hxe]
      exact hxn
    · ext j
      rw [cover_nil, Set.mem_sdiff, Set.mem_Ico, Set.mem_singleton_iff, lower, upper]
      refine iff_of_false (Set.notMem_empty j) ?_
      omega
    · rw [hhead]
      exact h.first
  · rw [if_neg hend]
    refine ⟨_, h'.resize hhas { e.2 with start := e.2.start + 1 } ?_ ?_ (fun j => ?_)
      ⟨rfl, rfl, rfl⟩ rfl rfl rfl ?_⟩
    · dsimp only
      omega
    · dsimp only
      omega
    · rw [Gap.Has]
      dsimp only
      omega
    · rw [hhead]
      exact h.first

theorem Holds.delayed (h : Holds got s gaps) (d : ℚ) : Holds got (delayed d s) gaps :=
  ⟨h.chain, h.node, h.fresh, h.normal, h.missing, h.below, h.last, h.first⟩

theorem Holds.recovered (h : Holds got s gaps) (n : ℤ) :
    Holds got { s with pktsRecovered := n } gaps :=
  ⟨h.chain, h.node, h.fresh, h.normal, h.missing, h.below, h.last, h.first⟩

theorem fillRest_counts (g : ℕ) (a : Gap) :
    (fillRest i g a s).duplicates = s.duplicates ∧
      (fillRest i g a s).pktsRecovered = s.pktsRecovered := by
  rw [fillRest]
  split_ifs <;> exact ⟨rfl, rfl⟩

theorem fillStart_counts (pg g : ℕ) (a : Gap) :
    (fillStart pg g a s).duplicates = s.duplicates ∧
      (fillStart pg g a s).pktsRecovered = s.pktsRecovered := by
  rw [fillStart]
  split_ifs <;> exact ⟨rfl, rfl⟩

/-- A missing packet is found in its gap. -/
theorem Holds.recover (h : Holds got s gaps) (h₀ : 0 ≤ i) (hlt : i < s.nextpkt) (hnot : i ∉ got) :
    ∃ t gaps', recover i tnow s = some t ∧ Holds (i :: got) t gaps' ∧
      t.duplicates = s.duplicates ∧ t.pktsRecovered = s.pktsRecovered + 1 := by
  obtain ⟨e, he, hle, hup⟩ := (h.missing i).mpr ⟨h₀, hlt, hnot⟩
  have hhas : e.2.Has i := has_iff.mpr ⟨hle, hup⟩
  obtain ⟨a, b, rfl⟩ := List.append_of_mem he
  have hr := h.recovered (s.pktsRecovered + 1)
  rw [RcvBuffer.recover]
  have hdup : { s with pktsRecovered := s.pktsRecovered + 1 }.duplicates = s.duplicates := rfl
  have hrec : { s with pktsRecovered := s.pktsRecovered + 1 }.pktsRecovered =
    s.pktsRecovered + 1 := rfl
  rw [← hdup, ← hrec]
  clear hdup hrec h
  generalize { s with pktsRecovered := s.pktsRecovered + 1 } = s at hr ⊢
  cases a with
  | nil =>
      have hgap : s.gap = some e.1 := hr.chain.head_eq
      have hd := hr.delayed (tnow - e.2.time)
      have hmax : (RcvBuffer.delayed (tnow - e.2.time) s).maxpkt + 1 = e.2.start := hd.first
      rw [hgap, Option.bind_some, hr.node e List.mem_cons_self, Option.bind_some, if_pos hhas]
      by_cases hi : i = (RcvBuffer.delayed (tnow - e.2.time) s).maxpkt + 1
      · rw [if_pos hi]
        obtain ⟨t, gaps', ht, hholds, -, hdup, hrec⟩ := hd.fillFirst hhas (hmax ▸ hi).symm
        exact ⟨t, gaps', ht, hholds, hdup, hrec⟩
      · rw [if_neg hi]
        obtain ⟨gaps', hholds⟩ := hd.fillRest (a := []) hhas fun hc => hi (hmax ▸ hc.symm)
        exact ⟨_, gaps', rfl, hholds, fillRest_counts _ _⟩
  | cons p₀ a =>
      have hgap : s.gap = some p₀.1 := hr.chain.head_eq
      -- the gaps before it end below the packet
      have hbefore : ∀ x ∈ p₀ :: a, ¬ x.2.Has i := fun x hx hc =>
        absurd ((has_iff.mp hc).2.trans (hr.normal.split_at.1 x hx)) hle.not_gt
      have hfuel : a.length < s.fresh + 1 := by
        have hlen := hr.length_le
        rw [List.length_append, List.length_cons] at hlen
        omega
      have hlocate := locate_eq p₀.1 hr.chain.chain.2
        (fun x hx => hr.node x (List.mem_cons_of_mem p₀ hx))
        (fun x hx => hbefore x (List.mem_cons_of_mem p₀ hx)) hhas hfuel
      obtain ⟨c, p, hcp⟩ := (List.eq_nil_or_concat' (p₀ :: a)).resolve_left (List.cons_ne_nil p₀ a)
      have hp : (a.getLast?.map Prod.fst).getD p₀.1 = p.1 := by
        have hlast : (p₀ :: a).getLast? = some p := by rw [hcp, List.getLast?_concat]
        rw [List.getLast?_cons, Option.some_inj] at hlast
        rw [← hlast]
        cases a.getLast? <;> rfl
      rw [hgap, Option.bind_some, hr.node p₀ List.mem_cons_self, Option.bind_some,
        if_neg (hbefore p₀ List.mem_cons_self), hlocate, Option.bind_some, hp, hr.node e he,
        Option.map_some]
      have hd := hr.delayed (tnow - e.2.time)
      by_cases hi : e.2.start = i
      · rw [if_pos hi]
        rw [hcp, List.append_assoc] at hd
        obtain ⟨gaps', hholds⟩ := hd.fillStart hhas hi
        exact ⟨_, gaps', rfl, hholds, fillStart_counts _ _ _⟩
      · rw [if_neg hi]
        obtain ⟨gaps', hholds⟩ := hd.fillRest hhas hi
        exact ⟨_, gaps', rfl, hholds, fillRest_counts _ _⟩

/-! ### All packets -/

/-- A packet that comes for the first time after a later one. -/
def Late (got : List ℤ) (i : ℤ) : Prop := i ∉ got ∧ ∃ j ∈ got, i < j

instance (got : List ℤ) (i : ℤ) : Decidable (Late got i) := inferInstanceAs (Decidable (_ ∧ _))

/-- How many of the packets `is` after `got` have a property against those before them. -/
def countFrom (P : List ℤ → ℤ → Prop) [∀ got i, Decidable (P got i)] (got : List ℤ) :
    List ℤ → ℤ
  | [] => 0
  | i :: is => (if P got i then 1 else 0) + countFrom P (i :: got) is

theorem Holds.late_iff (h : Holds got s gaps) (h₀ : 0 ≤ i) (hnot : i ∉ got) :
    Late got i ↔ i < s.nextpkt := by
  refine ⟨fun ⟨_, j, hj, hlt⟩ => hlt.trans (h.below j hj).2, fun hlt => ⟨hnot, ?_⟩⟩
  rcases h.last with ⟨-, h0⟩ | hl
  · omega
  · refine ⟨s.nextpkt - 1, hl, ?_⟩
    have hne : i ≠ s.nextpkt - 1 := fun hc => hnot (hc ▸ hl)
    omega

/-- A packet that is there already. -/
theorem Holds.again (h : Holds got s gaps) (hi : i ∈ got) :
    Holds (i :: got) { s with duplicates := s.duplicates + 1 } gaps where
  chain := h.chain
  node := h.node
  fresh := h.fresh
  normal := h.normal
  missing := fun j => by
    have hiff : j ∈ i :: got ↔ j ∈ got := by
      rw [List.mem_cons]
      exact ⟨fun hj => hj.elim (fun he => he ▸ hi) id, .inr⟩
    rw [hiff]
    exact h.missing j
  below := fun j hj => by
    rcases List.mem_cons.mp hj with rfl | hj
    · exact h.below j hi
    · exact h.below j hj
  last := by
    rcases h.last with ⟨rfl, -⟩ | hl
    · exact absurd hi List.not_mem_nil
    · exact .inr (List.mem_cons_of_mem i hl)
  first := h.first

/-- The packet that is expected. -/
theorem Holds.expected (h : Holds got s gaps) :
    Holds (s.nextpkt :: got)
      { s with nextpkt := s.nextpkt + 1
               maxpkt := if s.nextpkt = s.maxpkt + 1 then s.maxpkt + 1 else s.maxpkt } gaps := by
  have h0 := h.nextpkt_nonneg
  refine ⟨h.chain, h.node, h.fresh, h.normal, fun j => ?_, fun j hj => ?_, ?_, ?_⟩
  · rw [h.missing, List.mem_cons]
    dsimp only
    constructor
    · rintro ⟨h₁, h₂, h₃⟩
      exact ⟨h₁, by omega, fun hc => hc.elim (fun he => by omega) h₃⟩
    · rintro ⟨h₁, h₂, h₃⟩
      obtain ⟨hne, hnot⟩ := not_or.mp h₃
      exact ⟨h₁, by omega, hnot⟩
  · dsimp only
    rcases List.mem_cons.mp hj with rfl | hj
    · omega
    · have := h.below j hj
      omega
  · dsimp only
    rw [add_sub_cancel_right]
    exact .inr List.mem_cons_self
  · have hfirst := h.first
    dsimp only
    cases gaps with
    | nil =>
        have hn : s.maxpkt + 1 = s.nextpkt := hfirst
        rw [if_pos hn.symm, hn]
        rfl
    | cons e gaps =>
        have hlo : s.maxpkt + 1 = lower e := hfirst
        have hmem : lower e ∈ cover lower upper (e :: gaps) :=
          ⟨e, List.mem_cons_self, le_rfl, h.normal.nonempty e List.mem_cons_self⟩
        have hlt := ((h.missing _).mp hmem).2.1
        rw [if_neg (by omega)]
        exact hlo

theorem Holds.addPkt (h : Holds got s gaps) (tnow : ℚ) (h₀ : 0 ≤ i) :
    ∃ t gaps', addPkt i tnow s = some t ∧ Holds (i :: got) t gaps' ∧
      t.duplicates = s.duplicates + (if i ∈ got then 1 else 0) ∧
      t.pktsRecovered = s.pktsRecovered + (if Late got i then 1 else 0) := by
  obtain ⟨r, hr, hiff⟩ := h.existsPkt i
  rw [RcvBuffer.addPkt, hr, Option.bind_some]
  by_cases hi : i ∈ got
  · have hlate : ¬ Late got i := fun hl => hl.1 hi
    rw [if_pos (hiff.mpr (.inr hi)), if_pos hi, if_neg hlate]
    exact ⟨_, gaps, rfl, h.again hi, rfl, (add_zero _).symm⟩
  · have hnew : ¬ r = true := fun hc => (hiff.mp hc).elim (fun hneg => absurd h₀ hneg.not_ge) hi
    rw [if_neg hnew, if_neg hi, add_zero]
    by_cases hnext : i = s.nextpkt
    · subst hnext
      have hlate : ¬ Late got s.nextpkt := fun hl => absurd ((h.late_iff h₀ hi).mp hl) (lt_irrefl _)
      rw [if_pos rfl, if_neg hlate, add_zero]
      exact ⟨_, gaps, rfl, h.expected, rfl, rfl⟩
    · rw [if_neg hnext]
      by_cases hlt : s.nextpkt < i
      · have hlate : ¬ Late got i := fun hl => absurd ((h.late_iff h₀ hi).mp hl) hlt.not_gt
        obtain ⟨t, gaps', ht, hholds, -, hdup, hrec⟩ := h.newGap tnow hlt
        rw [if_pos hlt, if_neg hlate, add_zero]
        exact ⟨t, gaps', ht, hholds, hdup, hrec⟩
      · have hgt : i < s.nextpkt := by omega
        rw [if_neg hlt, if_pos ((h.late_iff h₀ hi).mpr hgt)]
        exact h.recover h₀ hgt hi

theorem Holds.addAll (h : Holds got s gaps) {ps : List (ℤ × ℚ)} (hps : ∀ p ∈ ps, 0 ≤ p.1) :
    ∃ t gaps', addAll s ps = some t ∧ Holds ((ps.map Prod.fst).reverse ++ got) t gaps' ∧
      t.duplicates = s.duplicates + countFrom (fun got i => i ∈ got) got (ps.map Prod.fst) ∧
      t.pktsRecovered = s.pktsRecovered + countFrom Late got (ps.map Prod.fst) := by
  induction ps generalizing s got gaps with
  | nil => exact ⟨s, gaps, rfl, h, (add_zero _).symm, (add_zero _).symm⟩
  | cons p ps ih =>
      obtain ⟨t, gaps', ht, hholds, hdup, hrec⟩ :=
        h.addPkt p.2 (hps p List.mem_cons_self)
      obtain ⟨u, gaps'', hu, hholds', hdup', hrec'⟩ :=
        ih hholds fun q hq => hps q (List.mem_cons_of_mem p hq)
      refine ⟨u, gaps'', ?_, ?_, ?_, ?_⟩
      · rw [RcvBuffer.addAll, ht]
        exact hu
      · rw [List.map_cons, List.reverse_cons, List.append_assoc]
        exact hholds'
      · rw [hdup', hdup, List.map_cons, countFrom, add_assoc]
      · rw [hrec', hrec, List.map_cons, countFrom, add_assoc]

/-- **The receive buffer.**  After any packets, in any order and with repetitions, `exists_pkt` holds
of those that came, and of the negative numbers; `maxpkt_ + 1` is the least number that did not come
and `nextpkt_` is beyond the greatest that did; from `gap_` to `tail_` the gaps are the maximal
intervals of what is missing below it; and the two counters count what came again and what came
late. -/
theorem addAll_spec (ps : List (ℤ × ℚ)) (hps : ∀ p ∈ ps, 0 ≤ p.1) :
    ∃ s gaps, new.addAll ps = some s ∧
      (∀ j, ∃ r, existsPkt j s = some r ∧ (r = true ↔ j < 0 ∨ j ∈ ps.map Prod.fst)) ∧
      (0 ≤ s.maxpkt + 1 ∧ s.maxpkt + 1 ∉ ps.map Prod.fst ∧
        ∀ j, 0 ≤ j → j < s.maxpkt + 1 → j ∈ ps.map Prod.fst) ∧
      (ps = [] ∧ s.nextpkt = 0 ∨
        s.nextpkt - 1 ∈ ps.map Prod.fst ∧ ∀ j ∈ ps.map Prod.fst, j ≤ s.nextpkt - 1) ∧
      (SLQ s.next s.gap s.tail (gaps.map Prod.fst) ∧ (∀ e ∈ gaps, s.node e.1 = some e.2) ∧
        Normal lower upper gaps ∧ ∀ j, j ∈ cover lower upper gaps ↔
          0 ≤ j ∧ j < s.nextpkt ∧ j ∉ ps.map Prod.fst) ∧
      s.duplicates = countFrom (fun got i => i ∈ got) [] (ps.map Prod.fst) ∧
      s.pktsRecovered = countFrom Late [] (ps.map Prod.fst) := by
  obtain ⟨s, gaps, hs, h, hdup, hrec⟩ := holds_new.addAll hps
  have hmem : ∀ j, j ∈ (ps.map Prod.fst).reverse ++ [] ↔ j ∈ ps.map Prod.fst := by simp
  obtain ⟨h₀, -, hnot⟩ := h.maxpkt_missing
  refine ⟨s, gaps, hs, fun j => ?_, ⟨h₀, ?_, fun j hj hlt => ?_⟩, ?_,
    ⟨h.chain, h.node, h.normal, fun j => ?_⟩, ?_, ?_⟩
  · simpa only [hmem] using h.existsPkt j
  · rwa [hmem] at hnot
  · exact (hmem j).mp (h.received hj (Int.lt_add_one_iff.mp hlt))
  · rcases h.last with ⟨hnil, h0⟩ | hl
    · exact .inl ⟨by simpa using hnil, h0⟩
    · refine .inr ⟨(hmem _).mp hl, fun j hj => ?_⟩
      have := (h.below j ((hmem j).mpr hj)).2
      omega
  · rw [h.missing, hmem]
  · rw [hdup]
    exact zero_add _
  · rw [hrec]
    exact zero_add _

theorem addAll_spec_four : ∃ s gaps, new.addAll [(0, 0), (3, 1), (1, 2), (3, 3)] = some s ∧
    SLQ s.next s.gap s.tail (gaps.map Prod.fst) ∧ Normal lower upper gaps := by
  obtain ⟨s, gaps, hs, -, -, -, ⟨hchain, -, hnormal, -⟩, -, -⟩ :=
    addAll_spec [(0, 0), (3, 1), (1, 2), (3, 3)] (by decide)
  exact ⟨s, gaps, hs, hchain, hnormal⟩

/-- A negative number counts as received. -/
theorem existsPkt_negative : new.addAll [] = some new ∧ existsPkt (-1) new = some true :=
  ⟨rfl, rfl⟩

end RcvBuffer

end Afabric
