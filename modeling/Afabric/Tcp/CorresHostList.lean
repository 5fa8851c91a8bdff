import Afabric.Tcp.CorresHost

/-!
# Tcp — the segments of a session as a list

What `rmv_old_segs` and `clean_segs` do to the links of `seglist_` is what `scanList` and
`cleanList` do to the list of the segments: a segment that is passed stays or goes, and a suspect
that is sent again goes from its place and is put at the end (`rmvLoop_eq`, `cleanLoop_eq`).  The
places in `prevArray_` are those of the list (`predIn`), as long as the one removed last is put
right in the next of them.
-/

namespace Afabric

namespace CorresHost

open HostState

/-- The outcome of a scan: what stays of the list, what goes to `curArray_`, and the rest. -/
structure ScanOut where
  kept : List ℕ
  suspects : List ℕ
  flags : AckScan
  state : HostState

/-- The loop of `rmv_old_segs`, over a list. -/
def scanList (A : HostAck) : List ℕ → AckScan → HostState → ScanOut
  | [], sc, h => ⟨[], [], sc, h⟩
  | x :: b, sc, h =>
      if h.Stops A sc x then ⟨x :: b, [], sc, h⟩
      else
        let r := scanList A b (h.visit A x sc).1 (h.visit A x sc).2
        if h.ackCase A (h.seg x) = .acked then r
        else
          ⟨x :: r.kept, if (h.visit A x sc).2.Suspect A x then x :: r.suspects else r.suspects,
            r.flags, r.state⟩

/-- The loop of `clean_segs`, over a list. -/
def cleanList (sessionSeqno : ℤ) (stamp : ℕ → ℚ) : List ℕ → HostState → List ℕ →
    HostState × List ℕ
  | [], h, l => (h, l)
  | x :: rest, h, l =>
      if h.Lost x then
        cleanList sessionSeqno stamp rest (h.resend sessionSeqno (stamp rest.length) x)
          (l.erase x ++ [h.fresh])
      else cleanList sessionSeqno stamp rest h l

/-- The element before `x`. -/
def predIn (l : List ℕ) (x : ℕ) : Option ℕ := (l.takeWhile (· ≠ x)).getLast?

variable {A : HostAck} {sc : AckScan} {h : HostState} {s t : CorresHost} {a b l : List ℕ} {x y : ℕ}
  {fuel : ℕ} {suspects : List (ℕ × Option ℕ)}

theorem predIn_eq (hx : x ∉ a) : predIn (a ++ x :: b) x = a.getLast? := by
  have hpass : ∀ z ∈ a, decide (z ≠ x) = true := fun z hz =>
    decide_eq_true fun e => hx (e ▸ hz)
  rw [predIn, List.takeWhile_append_of_pos hpass, List.takeWhile_cons_of_neg (by simp),
    List.append_nil]

theorem scanList_stop (hs : h.Stops A sc x) : scanList A (x :: b) sc h = ⟨x :: b, [], sc, h⟩ := by
  rw [scanList, if_pos hs]

theorem scanList_acked (hs : ¬ h.Stops A sc x) (hk : h.ackCase A (h.seg x) = .acked) :
    scanList A (x :: b) sc h = scanList A b (h.visit A x sc).1 (h.visit A x sc).2 := by
  rw [scanList, if_neg hs, if_pos hk]

theorem scanList_pass (hs : ¬ h.Stops A sc x) (hk : h.ackCase A (h.seg x) ≠ .acked) :
    scanList A (x :: b) sc h =
      ⟨x :: (scanList A b (h.visit A x sc).1 (h.visit A x sc).2).kept,
        if (h.visit A x sc).2.Suspect A x then
          x :: (scanList A b (h.visit A x sc).1 (h.visit A x sc).2).suspects
        else (scanList A b (h.visit A x sc).1 (h.visit A x sc).2).suspects,
        (scanList A b (h.visit A x sc).1 (h.visit A x sc).2).flags,
        (scanList A b (h.visit A x sc).1 (h.visit A x sc).2).state⟩ := by
  rw [scanList, if_neg hs, if_neg hk]

/-- What a scan keeps is in the order of the list, and so are the suspects among it. -/
theorem scanList_sublist (A : HostAck) (b : List ℕ) (sc : AckScan) (h : HostState) :
    (scanList A b sc h).kept.Sublist b ∧
      (scanList A b sc h).suspects.Sublist (scanList A b sc h).kept := by
  induction b generalizing sc h with
  | nil => exact ⟨List.Sublist.refl _, List.Sublist.refl _⟩
  | cons x b ih =>
      by_cases hs : h.Stops A sc x
      · rw [scanList_stop hs]
        exact ⟨List.Sublist.refl _, List.nil_sublist _⟩
      · obtain ⟨hkept, hsus⟩ := ih (h.visit A x sc).1 (h.visit A x sc).2
        by_cases hk : h.ackCase A (h.seg x) = .acked
        · rw [scanList_acked hs hk]
          exact ⟨hkept.cons x, hsus⟩
        · rw [scanList_pass hs hk]
          refine ⟨hkept.cons_cons x, ?_⟩
          by_cases hx : (h.visit A x sc).2.Suspect A x
          · simp only [if_pos hx]
            exact hsus.cons_cons x
          · simp only [if_neg hx]
            exact hsus.cons x

/-- **The scan** of the links is that of the list, and ends unless there are too many suspects. -/
theorem rmvLoop_eq (a b : List ℕ) (fuel : ℕ) (sc : AckScan) (suspects : List (ℕ × Option ℕ))
    (s : CorresHost) (hs : s.seglist.Holds (a ++ b)) (hf : b.length < fuel)
    (hroom : suspects.length ≤ MAX_PARALLEL_CONN) :
    ∃ t : CorresHost, t.toHostState = (scanList A b sc s.toHostState).state ∧
      t.seglist.Holds (a ++ (scanList A b sc s.toHostState).kept) ∧
      (∀ y ∈ t.removed, y ∈ s.removed ∨
        y ∈ b ∧ y ∉ a ++ (scanList A b sc s.toHostState).kept) ∧
      rmvLoop A fuel (s.seglist.pos a b) a.getLast? sc suspects s =
        if suspects.length + (scanList A b sc s.toHostState).suspects.length ≤
            MAX_PARALLEL_CONN then
          some ((scanList A b sc s.toHostState).flags,
            suspects ++ (scanList A b sc s.toHostState).suspects.map fun x =>
              (x, predIn (a ++ (scanList A b sc s.toHostState).kept) x), t)
        else none := by
  induction b generalizing a fuel suspects sc s with
  | nil =>
      obtain ⟨fuel, rfl⟩ := exists_fuel hf
      refine ⟨s, rfl, hs, fun y hy => Or.inl hy, ?_⟩
      rw [rmvLoop, SlistBase.iter_end, scanList]
      simp [hroom]
  | cons x b ih =>
      obtain ⟨fuel, rfl⟩ := exists_fuel hf
      have hf' : b.length < fuel := Nat.lt_of_succ_lt_succ hf
      have hnot : x ∉ a ++ b := fun hm =>
        (List.mem_append.mp hm).elim hs.circle.not_mem.1 hs.circle.not_mem.2
      rw [rmvLoop, hs.iter_cons]
      by_cases hstop : s.Stops A sc x
      · rw [scanList_stop hstop]
        simp only [if_pos hstop]
        exact ⟨s, rfl, hs, fun y hy => Or.inl hy, by simp [hroom]⟩
      · simp only [if_neg hstop]
        by_cases hk : s.ackCase A (s.seg x) = .acked
        · rw [scanList_acked hstop hk]
          simp only [if_pos hk]
          obtain ⟨t, hstate, hlist, hremoved, hrun⟩ := ih a fuel (s.visit A x sc).1 suspects
            { toHostState := (s.visit A x sc).2
              seglist := s.seglist.remove x a.getLast?
              removed := x :: s.removed } hs.remove hf' hroom
          refine ⟨t, hstate, hlist, fun y hy => ?_, ?_⟩
          · rcases hremoved y hy with hy | ⟨hyb, hyn⟩
            · rcases List.mem_cons.mp hy with rfl | hy
              · refine Or.inr ⟨List.mem_cons_self, fun hm => hnot ?_⟩
                exact (List.append_sublist_append_left a).mpr (scanList_sublist A b _ _).1
                  |>.subset hm
              · exact Or.inl hy
            · exact Or.inr ⟨List.mem_cons_of_mem _ hyb, hyn⟩
          · rw [← SlistBase.pos_remove] at hrun
            exact hrun
        · rw [scanList_pass hstop hk]
          simp only [if_neg hk]
          generalize hs₁ : ({ s with toHostState := (s.visit A x sc).2 } : CorresHost) = s₁
          have hlist₁ : s₁.seglist.Holds ((a ++ [x]) ++ b) := by
            rw [← hs₁, List.append_assoc]
            exact hs
          have hstate₁ : s₁.toHostState = (s.visit A x sc).2 := by rw [← hs₁]
          have hpos : s.seglist.pos (a ++ [x]) b = s₁.seglist.pos (a ++ [x]) b := by rw [← hs₁]
          have hremoved₁ : s₁.removed = s.removed := by rw [← hs₁]
          have hpred : ∀ r, predIn (a ++ x :: r) x = a.getLast? :=
            fun r => predIn_eq fun hm => hnot (List.mem_append_left b hm)
          rw [hpos]
          by_cases hx : (s.visit A x sc).2.Suspect A x
          · simp only [if_pos hx]
            by_cases hlt : suspects.length < MAX_PARALLEL_CONN
            · have hroom' : (suspects ++ [(x, a.getLast?)]).length ≤ MAX_PARALLEL_CONN := by
                simpa using hlt
              obtain ⟨t, hstate, hlist, hremoved, hrun⟩ := ih (a ++ [x]) fuel (s.visit A x sc).1
                (suspects ++ [(x, a.getLast?)]) s₁ hlist₁ hf' hroom'
              simp only [List.append_assoc, List.singleton_append, hstate₁, hremoved₁,
                List.getLast?_concat, List.length_append, List.length_singleton]
                at hstate hlist hremoved hrun
              refine ⟨t, hstate, hlist, fun y hy => (hremoved y hy).imp id fun hm =>
                ⟨List.mem_cons_of_mem x hm.1, hm.2⟩, ?_⟩
              rw [if_pos hlt, hrun]
              simp only [List.map_cons, hpred, List.length_cons, Nat.add_assoc, Nat.add_comm 1]
            · obtain ⟨t, hstate, hlist, hremoved, -⟩ := ih (a ++ [x]) fuel (s.visit A x sc).1
                suspects s₁ hlist₁ hf' hroom
              simp only [List.append_assoc, List.singleton_append, hstate₁, hremoved₁]
                at hstate hlist hremoved
              refine ⟨t, hstate, hlist, fun y hy => (hremoved y hy).imp id fun hm =>
                ⟨List.mem_cons_of_mem x hm.1, hm.2⟩, ?_⟩
              rw [if_neg hlt, if_neg]
              rw [List.length_cons]
              omega
          · simp only [if_neg hx]
            obtain ⟨t, hstate, hlist, hremoved, hrun⟩ := ih (a ++ [x]) fuel (s.visit A x sc).1
              suspects s₁ hlist₁ hf' hroom
            simp only [List.append_assoc, List.singleton_append, hstate₁, hremoved₁,
              List.getLast?_concat] at hstate hlist hremoved hrun
            exact ⟨t, hstate, hlist, fun y hy => (hremoved y hy).imp id fun hm =>
              ⟨List.mem_cons_of_mem x hm.1, hm.2⟩, hrun⟩

/-! ### Retransmission -/

/-- The entries of `prevArray_` are right, the first one when it has been put right. -/
def Placed (gone : Option (ℕ × Option ℕ)) (l : List ℕ) : List (ℕ × Option ℕ) → Prop
  | [] => True
  | e :: rest => putRight gone e.2 = predIn l e.1 ∧ ∀ e' ∈ rest, e'.2 = predIn l e'.1

theorem sublist_after {xs : List ℕ} (hsub : (x :: xs).Sublist (a ++ x :: b)) (hx : x ∉ a) :
    xs.Sublist b := by
  obtain ⟨l₁, l₂, he, h₁, h₂⟩ := List.sublist_append_iff.mp hsub
  cases l₁ with
  | nil =>
      rw [List.nil_append] at he
      rw [← he] at h₂
      exact List.cons_sublist_cons.mp h₂
  | cons z l₁ =>
      obtain ⟨rfl, -⟩ := List.cons.inj he
      exact absurd (h₁.subset List.mem_cons_self) hx

/-- A link behind `x`, by the ones between them. -/
theorem predIn_behind {b₁ b₂ c : List ℕ} (hnd : (a ++ x :: (b₁ ++ y :: b₂)).Nodup) :
    predIn (a ++ x :: (b₁ ++ y :: b₂)) y = b₁.getLast?.or (some x) ∧
      predIn (a ++ ((b₁ ++ y :: b₂) ++ c)) y = b₁.getLast?.or a.getLast? := by
  have hy : y ∉ a ++ x :: b₁ := by
    rw [show a ++ x :: (b₁ ++ y :: b₂) = (a ++ x :: b₁) ++ y :: b₂ by simp] at hnd
    exact fun hm => (List.nodup_append.mp hnd).2.2 y hm y List.mem_cons_self rfl
  have hy' : y ∉ a ++ b₁ := fun hm => hy (by
    rw [List.mem_append, List.mem_cons]
    exact (List.mem_append.mp hm).imp id Or.inr)
  constructor
  · rw [show a ++ x :: (b₁ ++ y :: b₂) = (a ++ x :: b₁) ++ y :: b₂ by simp, predIn_eq hy,
      List.append_cons, List.getLast?_append, List.getLast?_concat]
  · rw [show a ++ ((b₁ ++ y :: b₂) ++ c) = (a ++ b₁) ++ y :: (b₂ ++ c) by simp, predIn_eq hy',
      List.getLast?_append]

/-- A link behind one that goes: the one before it, when that is put right. -/
theorem predIn_removed {c : List ℕ} (hnd : (a ++ x :: b).Nodup) (hy : y ∈ b) :
    putRight (some (x, a.getLast?)) (predIn (a ++ x :: b) y) = predIn (a ++ (b ++ c)) y := by
  obtain ⟨b₁, b₂, rfl⟩ := List.append_of_mem hy
  obtain ⟨hbefore, hafter⟩ := predIn_behind (c := c) hnd
  rw [hbefore, hafter, putRight]
  rcases List.eq_nil_or_concat' b₁ with rfl | ⟨b₁, z, rfl⟩
  · exact if_pos rfl
  · have hzx : ¬ some z = some x := by
      intro he
      have hz := (List.nodup_cons.mp (List.nodup_append.mp hnd).2.1).1
      rw [← Option.some.inj he] at hz
      exact hz (by simp)
    rw [List.getLast?_concat]
    exact if_neg hzx

/-- Behind another link that stays, the one before does not change. -/
theorem predIn_kept {c : List ℕ} {z : ℕ} {xs : List ℕ} (hnd : (a ++ x :: b).Nodup)
    (hsub : (z :: xs).Sublist b) (hy : y ∈ xs) :
    predIn (a ++ x :: b) y = predIn (a ++ (b ++ c)) y := by
  have hpair : [z, y].Sublist b :=
    (List.cons_sublist_cons.mpr (List.singleton_sublist.mpr hy)).trans hsub
  obtain ⟨b₁, b₂, rfl⟩ := List.append_of_mem (hpair.subset (by simp : y ∈ [z, y]))
  obtain ⟨hbefore, hafter⟩ := predIn_behind (c := c) hnd
  rw [hbefore, hafter]
  rcases List.eq_nil_or_concat' b₁ with rfl | ⟨b₁, u, rfl⟩
  · -- `z` would have to come before the first link
    have hyb : y ∉ b₂ :=
      (List.nodup_cons.mp (List.nodup_cons.mp (List.nodup_append.mp hnd).2.1).2).1
    rcases List.sublist_cons_iff.mp hpair with hp | ⟨r, hr, hp⟩
    · exact absurd (hp.subset (by simp)) hyb
    · obtain ⟨-, rfl⟩ := List.cons.inj hr
      exact absurd (hp.subset (by simp)) hyb
  · rw [List.getLast?_concat]
    rfl

theorem lossWindow_fresh (k : ℤ) (g : HostSegment) (h : HostState) :
    (h.lossWindow k g).fresh = h.fresh := by
  rw [lossWindow]
  split_ifs <;> rfl

theorem unmark_fresh (x : ℕ) (h : HostState) : (h.unmark x).fresh = h.fresh := by
  rw [unmark]
  split_ifs <;> rfl

theorem resend_fresh (k : ℤ) (ts : ℚ) (x : ℕ) (h : HostState) :
    (h.resend k ts x).fresh = h.fresh + 1 := by
  have hwindow : ((h.unmark x).lossWindow k (h.seg x)).fresh + 1 = h.fresh + 1 := by
    rw [lossWindow_fresh, unmark_fresh]
  simp only [resend]
  split_ifs
  · exact hwindow
  · exact hwindow

/-- **Retransmission** on the links is that on the list. -/
theorem cleanLoop_eq (k : ℤ) (stamp : ℕ → ℚ) (gone : Option (ℕ × Option ℕ))
    (cands : List (ℕ × Option ℕ)) (s : CorresHost) (l : List ℕ) (hs : s.seglist.Holds l)
    (hsub : (cands.map Prod.fst).Sublist l) (hplaced : Placed gone l cands)
    (hfresh : ∀ y ∈ l, y < s.fresh) :
    (cleanLoop k stamp gone cands s).toHostState =
        (cleanList k stamp (cands.map Prod.fst) s.toHostState l).1 ∧
      (cleanLoop k stamp gone cands s).seglist.Holds
        (cleanList k stamp (cands.map Prod.fst) s.toHostState l).2 ∧
      (∀ y ∈ (cleanList k stamp (cands.map Prod.fst) s.toHostState l).2,
        (y ∈ l ∨ s.fresh ≤ y) ∧ y < (cleanLoop k stamp gone cands s).fresh) ∧
      s.fresh ≤ (cleanLoop k stamp gone cands s).fresh ∧
      ∀ y ∈ (cleanLoop k stamp gone cands s).removed, y ∈ s.removed ∨
        y ∈ cands.map Prod.fst ∧
          y ∉ (cleanList k stamp (cands.map Prod.fst) s.toHostState l).2 := by
  induction cands generalizing gone s l with
  | nil => exact ⟨rfl, hs, fun y hy => ⟨Or.inl hy, hfresh y hy⟩, le_rfl, fun y hy => Or.inl hy⟩
  | cons e rest ih =>
      obtain ⟨x, p⟩ := e
      obtain ⟨hp, hrest⟩ := hplaced
      rw [List.map_cons, cleanLoop, cleanList]
      by_cases hlost : s.Lost x
      · simp only [if_pos hlost, hp]
        obtain ⟨a, b, rfl⟩ := List.append_of_mem (hsub.subset List.mem_cons_self)
        have hnd := hs.circle.nodup
        obtain ⟨hxa, hxb⟩ := hs.circle.not_mem
        have hnew : s.fresh ∉ a ++ x :: b := fun hm => absurd (hfresh _ hm) (lt_irrefl _)
        have herase : (a ++ x :: b).erase x = a ++ b := by
          rw [List.erase_append_right _ hxa, List.erase_cons_head]
        have hadd := hs.append hnew
        rw [List.append_assoc, List.cons_append] at hadd
        have hlist := hadd.remove
        rw [predIn_eq hxa, herase, List.length_map, List.append_assoc]
        have hafter := sublist_after hsub hxa
        have hplaced' : Placed (some (x, a.getLast?)) (a ++ (b ++ [s.fresh])) rest := by
          cases rest with
          | nil => trivial
          | cons e rest =>
              refine ⟨?_, fun e' he => ?_⟩
              · rw [hrest e List.mem_cons_self]
                exact predIn_removed hnd (hafter.subset List.mem_cons_self)
              · rw [hrest e' (List.mem_cons_of_mem _ he)]
                exact predIn_kept hnd hafter (List.mem_map_of_mem he)
        have hsub' : (rest.map Prod.fst).Sublist (a ++ (b ++ [s.fresh])) :=
          (hafter.trans (List.sublist_append_left b _)).trans (List.sublist_append_right a _)
        have hnext : (s.resend k (stamp rest.length) x).fresh = s.fresh + 1 := resend_fresh _ _ _ _
        have hfresh' : ∀ y ∈ a ++ (b ++ [s.fresh]),
            y < (s.resend k (stamp rest.length) x).fresh := by
          intro y hy
          rw [hnext]
          simp only [List.mem_append, List.mem_singleton] at hy
          rcases hy with hy | hy | rfl
          · exact Nat.lt_succ_of_lt (hfresh y (by simp [hy]))
          · exact Nat.lt_succ_of_lt (hfresh y (by simp [hy]))
          · exact Nat.lt_succ_self _
        obtain ⟨hstate, hholds, hfrom, hle, hremoved⟩ := ih (some (x, a.getLast?))
          { toHostState := s.resend k (stamp rest.length) x
            seglist := (s.seglist.append s.fresh).remove x a.getLast?
            removed := x :: s.removed } _ hlist hsub' hplaced' hfresh'
        have hfrom' : ∀ y ∈ (cleanList k stamp (rest.map Prod.fst)
            (s.resend k (stamp rest.length) x) (a ++ (b ++ [s.fresh]))).2,
            y ≠ x ∧ (y ∈ a ++ x :: b ∨ s.fresh ≤ y) := by
          intro y hy
          have hx : x < s.fresh := hfresh x (by simp)
          have hmem : y ∈ a ++ (b ++ [s.fresh]) ∨ s.fresh + 1 ≤ y := hnext ▸ (hfrom y hy).1
          simp only [List.mem_append, List.mem_cons, List.not_mem_nil, or_false] at hmem ⊢
          rcases hmem with (hm | hm | rfl) | hm
          · exact ⟨fun e => hxa (e ▸ hm), Or.inl (Or.inl hm)⟩
          · exact ⟨fun e => hxb (e ▸ hm), Or.inl (Or.inr (Or.inr hm))⟩
          · exact ⟨hx.ne', Or.inr le_rfl⟩
          · exact ⟨by omega, Or.inr (by omega)⟩
        refine ⟨hstate, hholds, fun y hy => ⟨(hfrom' y hy).2, (hfrom y hy).2⟩, ?_, fun y hy => ?_⟩
        · exact (Nat.le_succ _).trans (hnext.ge.trans hle)
        · rcases hremoved y hy with hy | ⟨hm, hn⟩
          · rcases List.mem_cons.mp hy with rfl | hy
            · exact Or.inr ⟨List.mem_cons_self, fun hm => (hfrom' _ hm).1 rfl⟩
            · exact Or.inl hy
          · exact Or.inr ⟨List.mem_cons_of_mem _ hm, hn⟩
      · simp only [if_neg hlost]
        have hplaced' : Placed none l rest := by
          cases rest with
          | nil => trivial
          | cons e rest =>
              exact ⟨hrest e List.mem_cons_self, fun e' he => hrest e' (List.mem_cons_of_mem _ he)⟩
        obtain ⟨hstate, hholds, hfrom, hle, hremoved⟩ :=
          ih none s l hs ((List.sublist_cons_self _ _).trans hsub) hplaced' hfresh
        exact ⟨hstate, hholds, hfrom, hle, fun y hy => (hremoved y hy).imp id fun hm =>
          ⟨List.mem_cons_of_mem _ hm.1, hm.2⟩⟩

end CorresHost

end Afabric
