import Afabric.Tcp.CorresHostList

/-!
# Tcp — the outstanding data of a session

`Accounts` says that `ownd_` and `owndCorrection_` share out the sizes of the listed segments.
A segment that goes takes its size from the correction first, and one that is sent again moves its
duplicate acknowledgements to the correction; the sum is always that of the sizes, in every run in
which no acknowledgement finds more suspects than `curArray_` has room for (`run_accounted`).

A connection has one suspect at most as long as it has one record of each of its packets.  But a
packet that is sent again after a timeout is a new record if it is the last one, and a thousand
timeouts are a thousand suspects (`too_many_suspects`).
-/

namespace Afabric

namespace HostState

/-- The sizes of the segments of a list. -/
def weight (h : HostState) (l : List ℕ) : ℚ := (l.map fun x => ((h.seg x).size : ℚ)).sum

structure Accounts (h : HostState) (l : List ℕ) : Prop where
  ownd : 0 ≤ h.ownd
  correction : 0 ≤ h.owndCorrection
  sum : h.ownd + h.owndCorrection = h.weight l
  size : ∀ x ∈ l, 0 ≤ (h.seg x).size
  dupacks : ∀ x ∈ l, 0 ≤ (h.seg x).dupacks

variable {h h' : HostState} {l a b : List ℕ} {x : ℕ} {g : HostSegment} {d : ℤ} {A : HostAck}
  {sc : AckScan}

theorem weight_congr (hs : ∀ x ∈ l, (h'.seg x).size = (h.seg x).size) :
    h'.weight l = h.weight l := by
  rw [weight, weight, List.map_congr_left fun x hx => by rw [hs x hx]]

theorem weight_mid (h : HostState) (a b : List ℕ) (x : ℕ) :
    h.weight (a ++ x :: b) = (h.seg x).size + h.weight (a ++ b) := by
  simp only [weight, List.map_append, List.map_cons, List.sum_append, List.sum_cons]
  ring

theorem Accounts.congr (ha : Accounts h l) (ho : h'.ownd = h.ownd)
    (hc : h'.owndCorrection = h.owndCorrection) (hs : ∀ x ∈ l, (h'.seg x).size = (h.seg x).size)
    (hd : ∀ x ∈ l, 0 ≤ (h'.seg x).dupacks) : Accounts h' l where
  ownd := ho ▸ ha.ownd
  correction := hc ▸ ha.correction
  sum := by rw [ho, hc, ha.sum, weight_congr hs]
  size := fun x hx => (hs x hx).symm ▸ ha.size x hx
  dupacks := hd

/-! ### Data that goes and comes -/

/-- The correction pays first, and the outstanding data the rest. -/
theorem adjustOwnd_spec (ho : 0 ≤ h.ownd)
    (hd : (d : ℚ) ≤ h.ownd + h.owndCorrection) :
    0 ≤ (h.adjustOwnd d).ownd ∧ 0 ≤ (h.adjustOwnd d).owndCorrection ∧
      (h.adjustOwnd d).ownd + (h.adjustOwnd d).owndCorrection = h.ownd + h.owndCorrection - d := by
  simp only [HostState.adjustOwnd]
  by_cases hlt : h.owndCorrection < d
  · have hrest : (d : ℚ) - h.owndCorrection ≤ h.ownd := by linarith
    rw [if_pos hlt, min_eq_right hrest, min_eq_left hlt.le]
    exact ⟨by linarith, by linarith, by ring⟩
  · have hle : (d : ℚ) ≤ h.owndCorrection := not_lt.mp hlt
    rw [if_neg hlt, min_eq_right hle]
    exact ⟨ho, by linarith, by ring⟩

theorem mem_mid {y : ℕ} (hy : y ∈ a ++ b) : y ∈ a ++ x :: b := by
  rw [List.mem_append, List.mem_cons]
  exact (List.mem_append.mp hy).imp id Or.inr

/-- A segment that goes. -/
theorem Accounts.adjustOwnd (ha : Accounts h (a ++ x :: b)) :
    Accounts (h.adjustOwnd (h.seg x).size) (a ++ b) := by
  have hsum := ha.sum
  rw [weight_mid] at hsum
  have hrest : 0 ≤ h.weight (a ++ b) := List.sum_nonneg (by
    rintro _ hmem
    obtain ⟨y, hy, rfl⟩ := List.mem_map.mp hmem
    exact_mod_cast ha.size y (mem_mid hy))
  obtain ⟨ho, hc, hs⟩ := adjustOwnd_spec (d := (h.seg x).size) ha.ownd (by linarith)
  refine ⟨ho, hc, ?_, fun y hy => ha.size y (mem_mid hy), fun y hy => ha.dupacks y (mem_mid hy)⟩
  rw [hs, hsum, add_sub_cancel_left]
  rfl

theorem Accounts.shiftOwnd (ha : Accounts h l) (hd : 0 ≤ d) : Accounts (h.shiftOwnd d) l where
  ownd := sub_nonneg.mpr (min_le_left _ _)
  correction := add_nonneg ha.correction (le_min ha.ownd (by exact_mod_cast hd))
  sum := by
    have hsum := ha.sum
    change h.ownd - min h.ownd d + (h.owndCorrection + min h.ownd d) = h.weight l
    rw [← hsum]
    ring
  size := ha.size
  dupacks := ha.dupacks

/-- A segment that is sent. -/
theorem Accounts.addSeg (ha : Accounts h l) (hx : h.fresh ∉ l) (hg : g.size = 1)
    (hd : g.dupacks = 0) : Accounts (h.addSeg g) (l ++ [h.fresh]) := by
  have hold : ∀ y ∈ l, (h.addSeg g).seg y = h.seg y := fun y hy =>
    Function.update_of_ne (fun e : y = h.fresh => hx (e ▸ hy)) _ _
  have hnew : (h.addSeg g).seg h.fresh = g := Function.update_self _ _ _
  refine ⟨add_nonneg ha.ownd zero_le_one, ha.correction, ?_, fun y hy => ?_, fun y hy => ?_⟩
  · have hw : (h.addSeg g).weight l = h.weight l := weight_congr fun y hy => by rw [hold y hy]
    have hsum := ha.sum
    rw [weight_mid, List.append_nil, hw, hnew, hg, ← hsum]
    change h.ownd + 1 + h.owndCorrection = _
    push_cast
    ring
  · rcases List.mem_append.mp hy with hy | hy
    · rw [hold y hy]
      exact ha.size y hy
    · rw [List.mem_singleton.mp hy, hnew, hg]
      exact zero_le_one
  · rcases List.mem_append.mp hy with hy | hy
    · rw [hold y hy]
      exact ha.dupacks y hy
    · rw [List.mem_singleton.mp hy, hnew, hd]

/-! ### The scan -/

theorem mark_size (h : HostState) (g : HostSegment) (k : AckCase) :
    (h.mark g k).size = g.size ∧ g.dupacks ≤ (h.mark g k).dupacks := by
  cases k
  case later =>
    simp only [mark]
    split_ifs <;> exact ⟨rfl, le_rfl⟩
  case dupack => exact ⟨rfl, (lt_add_one _).le⟩
  all_goals exact ⟨rfl, le_rfl⟩

theorem setSeg_self (x : ℕ) (g : HostSegment) (h : HostState) : (h.setSeg x g).seg x = g :=
  Function.update_self _ _ _

theorem setSeg_of_ne {y : ℕ} (hy : y ≠ x) : (h.setSeg x g).seg y = h.seg y :=
  Function.update_of_ne hy _ _

theorem threshold_self (A : HostAck) (x : ℕ) (g : HostSegment) (h : HostState) :
    (h.threshold A x g).seg x =
      { g with threshDupacks := g.threshDupacks || decide (h.Reaches A g) } := by
  rw [threshold]
  cases hg : g.threshDupacks with
  | false =>
      by_cases hr : h.Reaches A g
      · rw [if_pos ⟨hr, rfl⟩, decide_eq_true hr]
        exact setSeg_self x _ _
      · rw [if_neg fun hc => hr hc.1, decide_eq_false hr, Bool.or_self, setSeg_self, ← hg]
  | true =>
      rw [if_neg fun hc => Bool.noConfusion hc.2, Bool.true_or, setSeg_self, ← hg]

theorem threshold_of_ne {y : ℕ} (hy : y ≠ x) : (h.threshold A x g).seg y = h.seg y := by
  rw [threshold]
  split_ifs <;> exact Function.update_of_ne hy _ _

/-- What an update leaves alone in each connection. -/
theorem updateConn_conn {β : Type*} {f : HostConn → HostConn} (π : HostConn → β)
    (hπ : ∀ c, π (f c) = π c) (i j : ℕ) : π ((h.updateConn i f).conn j) = π (h.conn j) := by
  rcases eq_or_ne j i with rfl | hne
  · exact (congrArg π (Function.update_self _ _ _)).trans (hπ _)
  · exact congrArg π (Function.update_of_ne hne _ _)

theorem threshold_conn {β : Type*} (π : HostConn → β)
    (hπ : ∀ c n, π { c with numThreshDupackSegs := n } = π c) (j : ℕ) :
    π ((h.threshold A x g).conn j) = π (h.conn j) := by
  rw [threshold]
  split_ifs
  · exact updateConn_conn π (fun c => hπ c _) g.sender j
  · rfl

@[simp] theorem threshold_ownd : (h.threshold A x g).ownd = h.ownd := by
  rw [threshold]
  split_ifs <;> rfl

@[simp] theorem threshold_owndCorrection :
    (h.threshold A x g).owndCorrection = h.owndCorrection := by
  rw [threshold]
  split_ifs <;> rfl

@[simp] theorem threshold_fresh : (h.threshold A x g).fresh = h.fresh := by
  rw [threshold]
  split_ifs <;> rfl

/-- A segment that is passed, and stays. -/
theorem Accounts.visit (ha : Accounts h l) (hk : h.ackCase A (h.seg x) ≠ .acked) :
    Accounts (h.visit A x sc).2 l := by
  simp only [HostState.visit, if_neg hk]
  obtain ⟨hsize, hdup⟩ := mark_size h (h.seg x) (h.ackCase A (h.seg x))
  refine ha.congr threshold_ownd threshold_owndCorrection (fun y hy => ?_) fun y hy => ?_
  · rcases eq_or_ne y x with rfl | hne
    · rw [threshold_self]
      exact hsize
    · rw [threshold_of_ne hne]
  · rcases eq_or_ne y x with rfl | hne
    · rw [threshold_self]
      exact (ha.dupacks y hy).trans hdup
    · rw [threshold_of_ne hne]
      exact ha.dupacks y hy

/-- A segment that is acknowledged, and goes. -/
theorem Accounts.visit_acked (ha : Accounts h (a ++ x :: b)) (hx : x ∉ a ++ b)
    (hk : h.ackCase A (h.seg x) = .acked) : Accounts (h.visit A x sc).2 (a ++ b) := by
  simp only [HostState.visit, if_pos hk]
  have hrest : ∀ y ∈ a ++ b, y ≠ x := fun y hy e => hx (e ▸ hy)
  refine ha.adjustOwnd.congr threshold_ownd threshold_owndCorrection (fun y hy => ?_) fun y hy => ?_
  · rw [threshold_of_ne (hrest y hy)]
  · rw [threshold_of_ne (hrest y hy)]
    exact ha.dupacks y (mem_mid hy)

/-! ### Retransmission -/

/-- Nothing of the books changes. -/
structure SameBooks (h h' : HostState) : Prop where
  ownd : h'.ownd = h.ownd
  correction : h'.owndCorrection = h.owndCorrection
  fresh : h'.fresh = h.fresh
  size : ∀ y, (h'.seg y).size = (h.seg y).size
  dupacks : ∀ y, (h'.seg y).dupacks = (h.seg y).dupacks

theorem Accounts.same (ha : Accounts h l) (hs : SameBooks h h') : Accounts h' l :=
  ha.congr hs.ownd hs.correction (fun y _ => hs.size y) fun y hy => by
    rw [hs.dupacks y]
    exact ha.dupacks y hy

theorem SameBooks.trans {h'' : HostState} (h₁ : SameBooks h h') (h₂ : SameBooks h' h'') :
    SameBooks h h'' where
  ownd := h₂.ownd.trans h₁.ownd
  correction := h₂.correction.trans h₁.correction
  fresh := h₂.fresh.trans h₁.fresh
  size := fun y => (h₂.size y).trans (h₁.size y)
  dupacks := fun y => (h₂.dupacks y).trans (h₁.dupacks y)

theorem updateConn_same (i : ℕ) (f : HostConn → HostConn) : SameBooks h (h.updateConn i f) :=
  ⟨rfl, rfl, rfl, fun _ => rfl, fun _ => rfl⟩

theorem unmark_same (x : ℕ) : SameBooks h (h.unmark x) := by
  rw [unmark]
  split_ifs
  · refine ⟨rfl, rfl, rfl, fun y => ?_, fun y => ?_⟩
    all_goals
      rcases eq_or_ne y x with rfl | hne
      · rw [setSeg_self]
      · rw [setSeg_of_ne hne]
        rfl
  · exact ⟨rfl, rfl, rfl, fun _ => rfl, fun _ => rfl⟩

theorem lossWindow_same (k : ℤ) (g : HostSegment) : SameBooks h (h.lossWindow k g) := by
  rw [lossWindow]
  split_ifs <;> exact ⟨rfl, rfl, rfl, fun _ => rfl, fun _ => rfl⟩

theorem Accounts.resend {k : ℤ} {ts : ℚ} (ha : Accounts h (a ++ x :: b))
    (hx : h.fresh ∉ a ++ x :: b) : Accounts (h.resend k ts x) (a ++ (b ++ [h.fresh])) := by
  have hsame : SameBooks h (((h.unmark x).lossWindow k (h.seg x)).updateConn (h.seg x).sender
      fun c => { c with maxseq := max c.maxseq (h.seg x).seqno }) :=
    ((unmark_same x).trans (lossWindow_same k _)).trans (updateConn_same _ _)
  simp only [HostState.resend]
  generalize ((h.unmark x).lossWindow k (h.seg x)).updateConn (h.seg x).sender
    (fun c => { c with maxseq := max c.maxseq (h.seg x).seqno }) = h₁ at hsame ⊢
  have hx₁ : h₁.fresh ∉ a ++ x :: b := hsame.fresh ▸ hx
  have hne : x ≠ h₁.fresh := fun e => hx₁ (by simp [← e])
  generalize hg : ({
      sender := (h.seg x).sender, seqno := (h.seg x).seqno
      sessionSeqno := (h.seg x).sessionSeqno, size := 1, ts := ts, rxmitted := true } :
        HostSegment) = g
  have hadd : Accounts (h₁.addSeg g) (a ++ x :: b ++ [h₁.fresh]) :=
    (ha.same hsame).addSeg hx₁ (by rw [← hg]) (by rw [← hg])
  generalize hh₂ : h₁.addSeg g = h₂ at hadd ⊢
  have hsize : (h₂.seg x).size = (h.seg x).size := by
    rw [← hh₂, ← hsame.size x]
    exact congrArg HostSegment.size (Function.update_of_ne hne _ _)
  rw [List.append_assoc, List.cons_append, hsame.fresh] at hadd
  have hadj := hadd.adjustOwnd
  rw [hsize] at hadj
  split_ifs
  · exact hadj
  · exact hadj.shiftOwnd (ha.dupacks x (by simp))

end HostState

namespace CorresHost

open HostState

variable {h : HostState} {s t : CorresHost} {l a b : List ℕ} {x : ℕ} {A : HostAck} {sc : AckScan}

theorem scanList_accounts (ha : Accounts h (a ++ b)) (hnd : (a ++ b).Nodup) :
    Accounts (scanList A b sc h).state (a ++ (scanList A b sc h).kept) := by
  induction b generalizing a sc h with
  | nil => exact ha
  | cons x b ih =>
      by_cases hs : h.Stops A sc x
      · rw [scanList_stop hs]
        exact ha
      · by_cases hk : h.ackCase A (h.seg x) = .acked
        · rw [scanList_acked hs hk]
          have hnd' := List.nodup_middle.mp hnd
          exact ih (ha.visit_acked (List.nodup_cons.mp hnd').1 hk) (List.nodup_cons.mp hnd').2
        · rw [scanList_pass hs hk]
          have ha' : Accounts (h.visit A x sc).2 ((a ++ [x]) ++ b) := by
            rw [List.append_assoc]
            exact ha.visit hk
          rw [List.append_cons] at hnd ⊢
          exact ih ha' hnd

/-- What holds of the state and the list is kept by retransmission, if each one sent again keeps
it. -/
theorem cleanList_keeps {P : HostState → List ℕ → Prop} {k : ℤ} (stamp : ℕ → ℚ)
    (hP : ∀ h a x b ts, P h (a ++ x :: b) → h.fresh ∉ a ++ x :: b → (a ++ x :: b).Nodup →
      P (h.resend k ts x) (a ++ (b ++ [h.fresh])))
    (xs : List ℕ) (hp : P h l) (hnd : l.Nodup) (hxs : xs.Nodup) (hmem : ∀ x ∈ xs, x ∈ l)
    (hfresh : ∀ y ∈ l, y < h.fresh) :
    P (cleanList k stamp xs h l).1 (cleanList k stamp xs h l).2 := by
  induction xs generalizing h l with
  | nil => exact hp
  | cons x xs ih =>
      obtain ⟨hx, hxs⟩ := List.nodup_cons.mp hxs
      rw [cleanList]
      split_ifs with hlost
      · obtain ⟨a, b, rfl⟩ := List.append_of_mem (hmem x List.mem_cons_self)
        obtain ⟨hxab, hab⟩ := List.nodup_cons.mp (List.nodup_middle.mp hnd)
        have hnew : h.fresh ∉ a ++ x :: b := fun hm => absurd (hfresh _ hm) (lt_irrefl _)
        have herase : (a ++ x :: b).erase x = a ++ b := by
          rw [List.erase_append_right _ fun hm => hxab (List.mem_append_left b hm),
            List.erase_cons_head]
        rw [herase, List.append_assoc]
        have hnd' : (a ++ (b ++ [h.fresh])).Nodup := by
          rw [← List.append_assoc]
          refine List.nodup_append.mpr ⟨hab, List.nodup_singleton _, fun y hy z hz e => ?_⟩
          rw [List.mem_singleton.mp hz] at e
          exact hnew (e ▸ mem_mid hy)
        refine ih (hP h a x b _ hp hnew hnd) hnd' hxs (fun y hy => ?_) fun y hy => ?_
        · have hne : y ≠ x := fun e => hx (e ▸ hy)
          have hm := hmem y (List.mem_cons_of_mem x hy)
          simp only [List.mem_append, List.mem_cons] at hm ⊢
          tauto
        · rw [resend_fresh]
          simp only [List.mem_append, List.mem_singleton] at hy
          rcases hy with hy | hy | rfl
          · exact Nat.lt_succ_of_lt (hfresh y (by simp [hy]))
          · exact Nat.lt_succ_of_lt (hfresh y (by simp [hy]))
          · exact Nat.lt_succ_self _
      · exact ih hp hnd hxs (fun y hy => hmem y (List.mem_cons_of_mem x hy)) hfresh

/-! ### One event -/

/-- The list of a session, its accounts, and what has been taken out. -/
structure Books (s : CorresHost) (l : List ℕ) : Prop where
  holds : s.seglist.Holds l
  accounts : Accounts s.toHostState l
  fresh : ∀ x ∈ l, x < s.fresh
  removed : ∀ y ∈ s.removed, y < s.fresh ∧ y ∉ l

/-- No acknowledgement finds more suspects than `curArray_` has room for. -/
def Fits (s : CorresHost) : HostEvent → Prop
  | .ack i n tsEcho _ _ _ =>
      (scanList (s.ackOf i n tsEcho) (s.newack i n).seglist.items {}
        (s.newack i n).toHostState).suspects.length ≤ MAX_PARALLEL_CONN
  | _ => True

theorem Books.same (hb : Books s l) (hlist : t.seglist = s.seglist) (hr : t.removed = s.removed)
    (hs : SameBooks s.toHostState t.toHostState) : Books t l where
  holds := hlist ▸ hb.holds
  accounts := hb.accounts.same hs
  fresh := fun x hx => hs.fresh.symm ▸ hb.fresh x hx
  removed := fun y hy => hs.fresh.symm ▸ hb.removed y (hr ▸ hy)

theorem visit_fresh (A : HostAck) (x : ℕ) (sc : AckScan) (h : HostState) :
    (h.visit A x sc).2.fresh = h.fresh := by
  simp only [HostState.visit, threshold_fresh]
  split_ifs <;> rfl

theorem scanList_fresh (A : HostAck) (b : List ℕ) (sc : AckScan) (h : HostState) :
    (scanList A b sc h).state.fresh = h.fresh := by
  induction b generalizing sc h with
  | nil => rfl
  | cons x b ih =>
      by_cases hs : h.Stops A sc x
      · rw [scanList_stop hs]
      · by_cases hk : h.ackCase A (h.seg x) = .acked
        · rw [scanList_acked hs hk, ih, visit_fresh]
        · rw [scanList_pass hs hk, ih, visit_fresh]

theorem expire_idle (reset : Bool) (hi : s.seglist.count = 0 ∧ s.slowStartRestart = false) :
    s.expire reset = s := by
  rw [expire, if_pos hi]

theorem expire_seg (reset : Bool) (hi : ¬ (s.seglist.count = 0 ∧ s.slowStartRestart = false)) :
    (s.expire reset).seg = fun x =>
      if x ∈ s.seglist.items then { s.seg x with size := 0 } else s.seg x := by
  rw [expire, if_neg hi]

theorem expire_fresh (reset : Bool) (s : CorresHost) : (s.expire reset).fresh = s.fresh := by
  rw [expire]
  by_cases hi : s.seglist.count = 0 ∧ s.slowStartRestart = false
  · rw [if_pos hi]
  · rw [if_neg hi]

/-- The outstanding data counts no more, but what is listed stays. -/
theorem expire_list (reset : Bool) (hi : ¬ (s.seglist.count = 0 ∧ s.slowStartRestart = false)) :
    (s.expire reset).seglist = s.seglist ∧ (s.expire reset).removed = s.removed ∧
      (s.expire reset).ownd = 0 ∧ (s.expire reset).owndCorrection = 0 := by
  rw [expire, if_neg hi]
  exact ⟨rfl, rfl, rfl, rfl⟩

theorem Books.expire (hb : Books s l) (reset : Bool) : Books (s.expire reset) l := by
  by_cases hi : s.seglist.count = 0 ∧ s.slowStartRestart = false
  · rw [expire_idle reset hi]
    exact hb
  · obtain ⟨hlist, hremoved, hownd, hcorrection⟩ := expire_list reset hi
    have hseg : ∀ x ∈ l, (s.expire reset).seg x = { s.seg x with size := 0 } := fun x hx => by
      rw [expire_seg reset hi]
      exact if_pos (hb.holds.items_eq.symm ▸ hx)
    refine ⟨hlist ▸ hb.holds, ⟨hownd.ge, hcorrection.ge, ?_, fun x hx => ?_, fun x hx => ?_⟩,
      ?_, ?_⟩
    · rw [hownd, hcorrection, weight, List.map_congr_left fun x hx => by rw [hseg x hx]]
      simp
    · rw [hseg x hx]
    · rw [hseg x hx]
      exact hb.accounts.dupacks x hx
    · rw [expire_fresh]
      exact hb.fresh
    · rw [expire_fresh, hremoved]
      exact hb.removed

theorem Books.timeout (hb : Books s l) (e : HostTimer) : Books (s.timeout e) l := by
  cases e
  case rtx => exact hb.expire false
  case reset => exact hb.expire true
  case resetRtx => exact (hb.expire true).expire false

theorem Books.newack (hb : Books s l) (i : ℕ) (n : ℤ) : Books (s.newack i n) l := by
  rw [CorresHost.newack]
  split_ifs
  · exact hb.same rfl rfl ⟨rfl, rfl, rfl, fun _ => rfl, fun _ => rfl⟩
  · exact hb

theorem Books.correct (hb : Books s l) (A : HostAck) (sc : AckScan) :
    Books { s with toHostState := s.correct A sc } l := by
  rw [HostState.correct]
  split_ifs
  · exact ⟨hb.holds, hb.accounts.shiftOwnd zero_le_one, hb.fresh, hb.removed⟩
  · exact hb

theorem Books.fuel (hb : Books s l) : l.length < s.seglist.count.toNat + 1 := by
  rw [hb.holds.count, Int.toNat_natCast]
  exact Nat.lt_succ_self _

theorem Books.scan (hb : Books s l)
    (hr : (scanList A l {} s.toHostState).suspects.length ≤ MAX_PARALLEL_CONN) :
    ∃ t : CorresHost, t.toHostState = (scanList A l {} s.toHostState).state ∧
      Books t (scanList A l {} s.toHostState).kept ∧
      rmvLoop A (s.seglist.count.toNat + 1) s.seglist.last none {} [] s =
        some ((scanList A l {} s.toHostState).flags,
          (scanList A l {} s.toHostState).suspects.map fun x =>
            (x, predIn (scanList A l {} s.toHostState).kept x), t) := by
  obtain ⟨t, hstate, hlist, hremoved, hrun⟩ :=
    rmvLoop_eq (A := A) [] l _ {} [] s hb.holds hb.fuel (Nat.zero_le _)
  simp only [List.nil_append, List.length_nil, Nat.zero_add, if_pos hr, List.getLast?_nil,
    hb.holds.pos_start] at hlist hremoved hrun
  have hfresh : t.fresh = s.fresh := by
    rw [hstate, scanList_fresh]
  have hkept := (scanList_sublist A l {} s.toHostState).1
  refine ⟨t, hstate, ⟨hlist, ?_, fun x hx => ?_, fun y hy => ?_⟩, hrun⟩
  · rw [hstate]
    exact scanList_accounts (a := []) hb.accounts hb.holds.circle.nodup
  · rw [hfresh]
    exact hb.fresh x (hkept.subset hx)
  · rw [hfresh]
    rcases hremoved y hy with hy | ⟨hyl, hyn⟩
    · exact ⟨(hb.removed y hy).1, fun hm => (hb.removed y hy).2 (hkept.subset hm)⟩
    · exact ⟨hb.fresh y hyl, hyn⟩

/-- With more suspects the scan writes past the end. -/
theorem Books.scan_none (hb : Books s l)
    (hr : ¬ (scanList A l {} s.toHostState).suspects.length ≤ MAX_PARALLEL_CONN) :
    rmvLoop A (s.seglist.count.toNat + 1) s.seglist.last none {} [] s = none := by
  obtain ⟨t, -, -, -, hrun⟩ :=
    rmvLoop_eq (A := A) [] l _ {} [] s hb.holds hb.fuel (Nat.zero_le _)
  simpa only [List.nil_append, List.length_nil, Nat.zero_add, if_neg hr, List.getLast?_nil,
    hb.holds.pos_start] using hrun

theorem Books.clean {xs : List ℕ} (hb : Books s l) (hxs : xs.Sublist l) (k : ℤ)
    (stamp : ℕ → ℚ) :
    (cleanLoop k stamp none (xs.map fun x => (x, predIn l x)) s).toHostState =
        (cleanList k stamp xs s.toHostState l).1 ∧
      Books (cleanLoop k stamp none (xs.map fun x => (x, predIn l x)) s)
        (cleanList k stamp xs s.toHostState l).2 := by
  have hfst : (xs.map fun x => (x, predIn l x)).map Prod.fst = xs := by
    rw [List.map_map]
    exact List.map_id' xs
  have hplaced : Placed none l (xs.map fun x => (x, predIn l x)) := by
    cases xs with
    | nil => trivial
    | cons x xs =>
        refine ⟨rfl, fun e he => ?_⟩
        obtain ⟨y, -, rfl⟩ := List.mem_map.mp he
        rfl
  obtain ⟨hstate, hlist, hfrom, hle, hremoved⟩ :=
    cleanLoop_eq k stamp none _ s l hb.holds (hfst.symm ▸ hxs) hplaced hb.fresh
  rw [hfst] at hstate hlist hfrom hremoved
  refine ⟨hstate, hlist, ?_, fun x hx => (hfrom x hx).2, fun y hy => ?_⟩
  · rw [hstate]
    exact cleanList_keeps stamp (fun _ _ _ _ _ ha hnew _ => ha.resend hnew) xs hb.accounts
      hb.holds.circle.nodup (hxs.nodup hb.holds.circle.nodup) (fun x hx => hxs.subset hx) hb.fresh
  · rcases hremoved y hy with hy | ⟨hyx, hyn⟩
    · obtain ⟨hlt, hnot⟩ := hb.removed y hy
      refine ⟨hlt.trans_le hle, fun hm => ?_⟩
      rcases (hfrom y hm).1 with hm | hm
      · exact hnot hm
      · exact absurd hlt (not_lt.mpr hm)
    · exact ⟨(hb.fresh y (hxs.subset hyx)).trans_le hle, hyn⟩

theorem Books.recv {i : ℕ} {n : ℤ} {tsEcho : ℚ} {stamp : ℕ → ℚ} {fs before : Bool} (hb : Books s l)
    (hf : Fits s (.ack i n tsEcho stamp fs before)) :
    ∃ t l', s.recv i n tsEcho stamp fs before = some t ∧ Books t l' := by
  have hb' := hb.newack i n
  rw [Fits, hb'.holds.items_eq] at hf
  obtain ⟨t, -, ht, hrun⟩ := hb'.scan hf
  rw [CorresHost.recv, cleanSegs, hrun]
  simp only [Option.bind_eq_bind, Option.bind_some]
  split
  · exact ⟨_, _, rfl, ht.timeout _⟩
  · exact ⟨_, _, rfl, ((ht.correct _ _).clean (scanList_sublist _ _ _ _).2 _ _).2⟩

theorem Books.recv_none {i : ℕ} {n : ℤ} {tsEcho : ℚ} {stamp : ℕ → ℚ} {fs before : Bool}
    (hb : Books s l) (hf : ¬ Fits s (.ack i n tsEcho stamp fs before)) :
    s.recv i n tsEcho stamp fs before = none := by
  have hb' := hb.newack i n
  rw [Fits, hb'.holds.items_eq] at hf
  rw [CorresHost.recv, cleanSegs, hb'.scan_none hf]
  rfl

/-! ### Turns -/

theorem findNumbered_spec {seg : ℕ → HostSegment} {k : ℤ} {p prev : Option ℕ}
    (hfind : findNumbered seg k p l = some (x, prev)) :
    ∃ a b, l = a ++ x :: b ∧ prev = a.getLast?.or p ∧ (seg x).sessionSeqno = k := by
  induction l generalizing p with
  | nil =>
      rw [findNumbered] at hfind
      cases hfind
  | cons y l ih =>
      rw [findNumbered] at hfind
      split_ifs at hfind with hy
      · cases hfind
        exact ⟨[], l, rfl, rfl, hy⟩
      · obtain ⟨a, b, rfl, hprev, hk⟩ := ih hfind
        refine ⟨y :: a, b, rfl, ?_, hk⟩
        rw [hprev]
        rcases List.eq_nil_or_concat' a with rfl | ⟨a, z, rfl⟩
        · rfl
        · rw [← List.cons_append, List.getLast?_concat, List.getLast?_concat]
          rfl

theorem removeSessionSeqno_eq {k : ℤ} {prev : Option ℕ} (hb : Books s l)
    (hfind : findNumbered s.seg k none l = some (x, prev)) :
    s.removeSessionSeqno k =
      { toHostState := s.adjustOwnd (s.seg x).size
        seglist := s.seglist.remove x prev
        removed := x :: s.removed } := by
  rw [removeSessionSeqno, hb.holds.items_eq, hfind]

theorem Books.removeSessionSeqno {k : ℤ} {prev : Option ℕ} (hb : Books s (a ++ x :: b))
    (hfind : findNumbered s.seg k none (a ++ x :: b) = some (x, prev))
    (hprev : prev = a.getLast?) : Books (s.removeSessionSeqno k) (a ++ b) := by
  have hnot := (List.nodup_cons.mp (List.nodup_middle.mp hb.holds.circle.nodup)).1
  rw [removeSessionSeqno_eq hb hfind, hprev]
  refine ⟨hb.holds.remove, hb.accounts.adjustOwnd, fun y hy => hb.fresh y (mem_mid hy),
    fun y hy => ?_⟩
  rcases List.mem_cons.mp hy with rfl | hy
  · exact ⟨hb.fresh y (by simp), hnot⟩
  · exact ⟨(hb.removed y hy).1, fun hm => (hb.removed y hy).2 (mem_mid hm)⟩

theorem Books.sendOne (hb : Books s l) (i : ℕ) (k : ℤ) (ts : ℚ) :
    Books (s.sendOne i k ts) (l ++ [s.fresh]) := by
  have hnew : s.fresh ∉ l := fun hm => absurd (hb.fresh _ hm) (lt_irrefl _)
  refine ⟨hb.holds.append hnew, (hb.accounts.same (updateConn_same i _)).addSeg hnew rfl rfl,
    fun y hy => ?_, fun y hy => ?_⟩
  · rcases List.mem_append.mp hy with hy | hy
    · exact Nat.lt_succ_of_lt (hb.fresh y hy)
    · rw [List.mem_singleton.mp hy]
      exact Nat.lt_succ_self _
  · obtain ⟨hlt, hnot⟩ := hb.removed y hy
    refine ⟨Nat.lt_succ_of_lt hlt, fun hm => ?_⟩
    rcases List.mem_append.mp hm with hm | hm
    · exact hnot hm
    · exact absurd (List.mem_singleton.mp hm) hlt.ne

/-- A packet that counts as a new one. -/
theorem Books.turn_new {i : ℕ} (hb : Books s l) (hn : ¬ (s.conn i).tSeqno < (s.conn i).maxseq)
    (ts : ℚ) : Books (s.turn i ts) (l ++ [s.fresh]) := by
  have hnew : Books { s with
      sessionSeqno := s.sessionSeqno + 1
      sent := (i, (s.conn i).tSeqno, s.sessionSeqno) :: s.sent } l :=
    hb.same rfl rfl ⟨rfl, rfl, rfl, fun _ => rfl, fun _ => rfl⟩
  rw [CorresHost.turn, if_neg hn]
  exact hnew.sendOne i _ ts

theorem Books.turn (hb : Books s l) (i : ℕ) (ts : ℚ) : ∃ l', Books (s.turn i ts) l' := by
  by_cases hn : (s.conn i).tSeqno < (s.conn i).maxseq
  · rw [CorresHost.turn, if_pos hn]
    cases hfind : findNumbered s.seg (s.findSessionSeqno i (s.conn i).tSeqno) none l with
    | none =>
        have hnone : s.removeSessionSeqno (s.findSessionSeqno i (s.conn i).tSeqno) = s := by
          rw [CorresHost.removeSessionSeqno, hb.holds.items_eq, hfind]
        simp only [hnone]
        exact ⟨_, hb.sendOne i _ ts⟩
    | some r =>
        obtain ⟨x, prev⟩ := r
        obtain ⟨a, b, rfl, hprev, -⟩ := findNumbered_spec hfind
        rw [Option.or_none] at hprev
        exact ⟨_, (hb.removeSessionSeqno hfind hprev).sendOne i _ ts⟩
  · exact ⟨_, hb.turn_new hn ts⟩

/-- Every event that fits keeps the books, and ends. -/
theorem Books.handle {e : HostEvent} (hb : Books s l) (hf : Fits s e) :
    ∃ t l', s.handle e = some t ∧ Books t l' := by
  cases e with
  | app i n => exact ⟨_, l, rfl, hb.same rfl rfl ⟨rfl, rfl, rfl, fun _ => rfl, fun _ => rfl⟩⟩
  | knobs i n p d r =>
      exact ⟨_, l, rfl, hb.same rfl rfl ⟨rfl, rfl, rfl, fun _ => rfl, fun _ => rfl⟩⟩
  | quench i n =>
      refine ⟨_, l, rfl, ?_⟩
      rw [CorresHost.quench]
      split_ifs
      · exact hb.same rfl rfl ⟨rfl, rfl, rfl, fun _ => rfl, fun _ => rfl⟩
      · exact hb
  | ack i n tsEcho stamp fs before => exact hb.recv hf
  | timeout t => exact ⟨_, l, rfl, hb.timeout t⟩
  | turn i ts =>
      rw [CorresHost.handle]
      split_ifs
      · obtain ⟨l', hb'⟩ := hb.turn i ts
        exact ⟨_, l', rfl, hb'⟩
      · exact ⟨_, l, rfl, hb⟩

/-! ### Whole runs -/

theorem init_books (conn : ℕ → HostConn) (p d r : Bool) : Books (init conn p d r) [] where
  holds := SlistBase.empty_holds
  accounts := ⟨le_rfl, le_rfl, by simp [init, weight], by simp, by simp⟩
  fresh := by simp
  removed := by simp [init]

theorem run_keeps_books {conn : ℕ → HostConn} {p d r : Bool}
    (hrun : HostRun Fits (init conn p d r) s) : ∃ l, Books s l := by
  induction hrun with
  | start => exact ⟨[], init_books conn p d r⟩
  | step _ hf he ih =>
      obtain ⟨l, hb⟩ := ih
      obtain ⟨t, l', ht, hb'⟩ := hb.handle hf
      rw [he] at ht
      exact Option.some.inj ht ▸ ⟨l', hb'⟩

/-- The outstanding data is that of the listed segments, and the list is well formed. -/
def Accounted (s : CorresHost) : Prop :=
  0 ≤ s.ownd ∧ 0 ≤ s.owndCorrection ∧
    ∃ l, s.seglist.Holds l ∧ s.ownd + s.owndCorrection = s.weight l ∧ ∀ y ∈ s.removed, y ∉ l

/-- **The accounts of a session** are right after every event of a run in which no acknowledgement
finds more suspects than there is room for; the other acknowledgements write past the end. -/
theorem run_accounted {conn : ℕ → HostConn} {p d r : Bool}
    (hrun : HostRun Fits (init conn p d r) s) :
    Accounted s ∧ ∀ e, (∃ t, s.handle e = some t) ↔ Fits s e := by
  obtain ⟨l, hb⟩ := run_keeps_books hrun
  refine ⟨⟨hb.accounts.ownd, hb.accounts.correction, l, hb.holds, hb.accounts.sum,
    fun y hy => (hb.removed y hy).2⟩, fun e => ⟨fun ⟨t, ht⟩ => ?_, fun hf => ?_⟩⟩
  · cases e with
    | ack i n tsEcho stamp fs before =>
        by_contra hf
        rw [CorresHost.handle, hb.recv_none hf] at ht
        cases ht
    | _ => trivial
  · obtain ⟨t, -, ht, -⟩ := hb.handle hf
    exact ⟨t, ht⟩

theorem handle_turn {i : ℕ} (ts : ℚ) (hdata : (s.conn i).dataLeft) :
    s.handle (.turn i ts) = some (s.turn i ts) := by
  rw [handle, if_pos hdata]

/-- A session whose connections have one packet each; one acknowledgement of a later packet makes a
suspect. -/
def onePacket : CorresHost :=
  init (fun _ => { curseq := 1, numdupacks := 1 }) false false false

/-- Both packets are sent, and the second one is acknowledged. -/
theorem run_accounted_acked :
    ∃ s, HostRun Fits onePacket s ∧ s.seglist.items = [0] ∧ Accounted s := by
  have hrun : HostRun Fits onePacket ((onePacket.turn 0 0).turn 1 1) :=
    .step (e := .turn 1 1)
      (.step (e := .turn 0 0) .start trivial (handle_turn 0 (by decide))) trivial
      (handle_turn 1 (by decide))
  have hfit : Fits ((onePacket.turn 0 0).turn 1 1) (.ack 1 0 1 (fun _ => 2) false false) := by
    rw [Fits]
    decide +kernel
  obtain ⟨t, ht⟩ := ((run_accounted hrun).2 _).mpr hfit
  have hrun' := HostRun.step hrun hfit ht
  refine ⟨t, hrun', ?_, (run_accounted hrun').1⟩
  have hitems : (((onePacket.turn 0 0).turn 1 1).handle
      (.ack 1 0 1 (fun _ => 2) false false)).map (·.seglist.items) = some [0] := by
    decide +kernel
  rw [ht] at hitems
  exact Option.some.inj hitems

/-- A packet from before `t` of the first connection, and nothing that has been said of it. -/
structure Stale (t : ℚ) (g : HostSegment) : Prop where
  sender : g.sender = 0
  seqno : g.seqno = 0
  ts : g.ts < t
  dupacks : g.dupacks = 0
  laterAcks : g.laterAcks = 0

/-- A later packet of the second connection makes suspects of them all. -/
theorem scanList_stale {r : List ℕ} (hs : ∀ x ∈ b, Stale A.tsEcho (h.seg x)) (hnd : b.Nodup)
    (hA : A.sender = 1) (hamt : A.amt ≠ 0) (hack : (h.conn 0).highestAck = -1)
    (hnum : (h.conn 1).numdupacks = 1) (hrecov : h.disableIntLossRecov = false)
    (hdone : sc.done = false) : b.length ≤ (scanList A (b ++ r) sc h).suspects.length := by
  induction b generalizing sc h with
  | nil => exact Nat.zero_le _
  | cons x b ih =>
      have hx := hs x List.mem_cons_self
      obtain ⟨hxb, hnd⟩ := List.nodup_cons.mp hnd
      have hstop : ¬ h.Stops A sc x := fun hc => Bool.noConfusion (hdone.symm.trans hc.1)
      have hcase : h.ackCase A (h.seg x) = .later :=
        if_pos ⟨by rw [hA, hx.sender]; decide, hx.ts⟩
      have hk : h.ackCase A (h.seg x) ≠ .acked := by rw [hcase]; decide
      have hdone' : (h.visit A x sc).1.done = false := by
        simp only [HostState.visit, hcase, if_neg (fun hc : _ ∧ _ => hamt hc.1)]
        exact hdone
      have hvisit : (h.visit A x sc).2 =
          h.threshold A x { h.seg x with laterAcks := (h.seg x).laterAcks + 1 } := by
        simp only [HostState.visit, hcase, mark, hrecov]
        rfl
      have hack' : ((h.visit A x sc).2.conn 0).highestAck = -1 := by
        rw [hvisit]
        exact (threshold_conn (·.highestAck) (fun _ _ => rfl) 0).trans hack
      have hnum' : ((h.visit A x sc).2.conn 1).numdupacks = 1 := by
        rw [hvisit]
        exact (threshold_conn (·.numdupacks) (fun _ _ => rfl) 1).trans hnum
      have hrecov' : (h.visit A x sc).2.disableIntLossRecov = false := by
        rw [hvisit, threshold]
        split_ifs <;> exact hrecov
      have hseg := threshold_self A x { h.seg x with laterAcks := (h.seg x).laterAcks + 1 } h
      rw [← hvisit] at hseg
      have hsus : (h.visit A x sc).2.Suspect A x := by
        rw [Suspect, Reaches, hA, hnum', hseg]
        simp only [hx.sender, hx.seqno, hx.dupacks, hx.laterAcks, hack']
        exact ⟨by decide, Or.inl (by decide)⟩
      rw [List.cons_append, scanList_pass hstop hk]
      simp only [if_pos hsus, List.length_cons]
      refine Nat.succ_le_succ (ih (fun y hy => ?_) hnd hack' hnum' hrecov' hdone')
      rw [hvisit, threshold_of_ne fun e : y = x => hxb (e ▸ hy)]
      exact hs y (List.mem_cons_of_mem x hy)

theorem newack_seg (i : ℕ) (n : ℤ) (s : CorresHost) : (s.newack i n).seg = s.seg := by
  rw [newack]
  split_ifs <;> rfl

theorem newack_eq {i : ℕ} {n : ℤ} (hn : (s.conn i).lastAck < n) :
    (s.newack i n).disableIntLossRecov = s.disableIntLossRecov ∧
      (s.newack i n).conn = Function.update s.conn i { s.conn i with
        lastAck := n, highestAck := n, tSeqno := max (s.conn i).tSeqno (n + 1) } := by
  rw [newack, if_pos hn]
  exact ⟨rfl, rfl⟩

/-- The lone packet of the first connection has been sent `k + 1` times, that of the second one has
not. -/
structure Repeated (k : ℕ) (s : CorresHost) (l : List ℕ) : Prop where
  books : Books s l
  length : l.length = k + 1
  stale : ∀ x ∈ l, Stale (k + 1) (s.seg x)
  first : (s.conn 0).tSeqno = 1 ∧ (s.conn 0).maxseq = 0 ∧ (s.conn 0).highestAck = -1 ∧
    (s.conn 0).curseq = 1
  second : (s.conn 1).tSeqno = 0 ∧ (s.conn 1).maxseq = -1 ∧ (s.conn 1).highestAck = -1 ∧
    (s.conn 1).lastAck = -1 ∧ (s.conn 1).curseq = 1 ∧ (s.conn 1).numdupacks = 1
  recov : s.disableIntLossRecov = false

theorem turn_new_eq {i : ℕ} (hn : ¬ (s.conn i).tSeqno < (s.conn i).maxseq) (ts : ℚ) :
    (s.turn i ts).seg = Function.update s.seg s.fresh
        { sender := i, seqno := (s.conn i).tSeqno, sessionSeqno := s.sessionSeqno, size := 1
          ts := ts } ∧
      (s.turn i ts).conn = Function.update s.conn i { s.conn i with
        tSeqno := (s.conn i).tSeqno + 1, maxseq := max (s.conn i).maxseq (s.conn i).tSeqno } ∧
      (s.turn i ts).disableIntLossRecov = s.disableIntLossRecov := by
  rw [turn, if_neg hn]
  exact ⟨rfl, rfl, rfl⟩

theorem repeated_zero : Repeated 0 (onePacket.turn 0 0) [0] := by
  have hn : ¬ (onePacket.conn 0).tSeqno < (onePacket.conn 0).maxseq := by decide
  obtain ⟨hseg, hconn, hrecov⟩ := turn_new_eq hn 0
  have hbooks : Books onePacket [] := init_books _ _ _ _
  refine ⟨hbooks.turn_new hn 0, rfl, fun x hx => ?_, ?_, ?_, hrecov⟩
  · rw [hseg, List.mem_singleton.mp hx]
    refine ⟨rfl, rfl, ?_, rfl, rfl⟩
    change (0 : ℚ) < ((0 : ℕ) : ℚ) + 1
    norm_num
  · rw [hconn]
    decide
  · rw [hconn]
    decide

theorem expire_conn (reset : Bool) (hi : ¬ (s.seglist.count = 0 ∧ s.slowStartRestart = false))
    (i : ℕ) :
    (s.expire reset).conn i = { s.conn i with
      maxseq := if reset then (s.conn i).highestAck else (s.conn i).maxseq
      tSeqno := (s.conn i).highestAck + 1
      recover := if reset then (s.conn i).highestAck else (s.conn i).maxseq
      lastCwndAction := .timeout } := by
  rw [expire, if_neg hi]

theorem Repeated.again {k : ℕ} (hr : Repeated k s l) :
    ((s.timeout .rtx).conn 0).dataLeft ∧
      ∃ l', Repeated (k + 1) ((s.timeout .rtx).turn 0 (k + 1)) l' := by
  have hi : ¬ (s.seglist.count = 0 ∧ s.slowStartRestart = false) := by
    rw [hr.books.holds.count, hr.length]
    exact fun hc => absurd hc.1 (by exact_mod_cast Nat.succ_ne_zero k)
  obtain ⟨-, hmax, hack, hcur⟩ := hr.first
  obtain ⟨hseq', hmax', hack', hlast', hcur', hnum'⟩ := hr.second
  have hconn := expire_conn false hi
  have hbooks := hr.books.timeout .rtx
  change Books (s.expire false) l at hbooks
  change ((s.expire false).conn 0).dataLeft ∧
    ∃ l', Repeated (k + 1) ((s.expire false).turn 0 (k + 1)) l'
  have hn : ¬ ((s.expire false).conn 0).tSeqno < ((s.expire false).conn 0).maxseq := by
    rw [hconn]
    simp [hmax, hack]
  obtain ⟨hseg, hconn', hrecov⟩ := turn_new_eq hn (k + 1)
  refine ⟨?_, _, hbooks.turn_new hn _, ?_, fun x hx => ?_, ?_, ?_, hrecov.trans ?_⟩
  · rw [IntTcpAgent.dataLeft, hconn]
    simp [hack, hcur]
  · rw [List.length_append, hr.length, List.length_singleton]
  · rw [hseg]
    rcases List.mem_append.mp hx with hx | hx
    · have hne : x ≠ (s.expire false).fresh := (hbooks.fresh x hx).ne
      have hold := hr.stale x hx
      rw [Function.update_of_ne hne, expire_seg false hi]
      simp only [if_pos (hr.books.holds.items_eq.symm ▸ hx : x ∈ s.seglist.items)]
      exact ⟨hold.sender, hold.seqno, hold.ts.trans (by push_cast; linarith), hold.dupacks,
        hold.laterAcks⟩
    · rw [List.mem_singleton.mp hx, Function.update_self, hconn]
      exact ⟨rfl, by simp [hack], by push_cast; linarith, rfl, rfl⟩
  · rw [hconn', Function.update_self, hconn]
    simp [hmax, hack, hcur]
  · rw [hconn', Function.update_of_ne one_ne_zero, hconn]
    simp [hmax', hack', hlast', hcur', hnum']
  · rw [expire, if_neg hi]
    exact hr.recov

/-- Timeouts of the first connection, each with the turn that follows. -/
theorem repeated_run (k : ℕ) :
    ∃ s l, HostRun (fun _ _ => True) onePacket s ∧ Repeated k s l := by
  induction k with
  | zero => exact ⟨_, _, .step .start trivial (handle_turn 0 (by decide)), repeated_zero⟩
  | succ k ih =>
      obtain ⟨s, l, hrun, hr⟩ := ih
      obtain ⟨hdata, l', hr'⟩ := hr.again
      exact ⟨_, l', .step (.step hrun trivial (e := .timeout .rtx) rfl) trivial
        (handle_turn (k + 1) hdata), hr'⟩

/-- A session whose first connection loses its lone packet a thousand times, until one of the second
connection gets through. -/
theorem too_many_suspects : ∃ s, HostRun (fun _ _ => True) onePacket s ∧
    s.handle (.ack 1 0 (MAX_PARALLEL_CONN + 1) (fun _ => 0) false false) = none := by
  obtain ⟨s, l, hrun, hr⟩ := repeated_run MAX_PARALLEL_CONN
  obtain ⟨hseq', hmax', hack', hlast', hcur', hnum'⟩ := hr.second
  have hdata : (s.conn 1).dataLeft := by
    rw [IntTcpAgent.dataLeft, hseq', hcur']
    exact zero_lt_one
  have hn : ¬ (s.conn 1).tSeqno < (s.conn 1).maxseq := by
    rw [hseq', hmax']
    decide
  have hbooks := hr.books.turn_new hn MAX_PARALLEL_CONN
  obtain ⟨hseg, hconn, hrecov⟩ := turn_new_eq hn MAX_PARALLEL_CONN
  refine ⟨s.turn 1 MAX_PARALLEL_CONN, .step hrun trivial (handle_turn _ hdata),
    hbooks.recv_none fun hf => ?_⟩
  rw [Fits, (hbooks.newack 1 0).holds.items_eq] at hf
  have hlast : ((s.turn 1 MAX_PARALLEL_CONN).conn 1).lastAck = -1 := by
    rw [hconn, Function.update_self]
    exact hlast'
  obtain ⟨hrecov', hconn'⟩ := newack_eq (i := 1) (n := 0) (hlast.trans_lt (by decide))
  refine absurd hf (not_le.mpr ((Nat.lt_succ_self _).trans_le (hr.length.ge.trans ?_)))
  refine scanList_stale (fun x hx => ?_) hr.books.holds.circle.nodup rfl ?_ ?_ ?_ ?_ rfl
  · rw [newack_seg, hseg, Function.update_of_ne (hr.books.fresh x hx).ne]
    exact hr.stale x hx
  · simp [ackOf, hlast]
  · rw [hconn', Function.update_of_ne zero_ne_one, hconn, Function.update_of_ne zero_ne_one]
    exact hr.first.2.2.1
  · rw [hconn', Function.update_self, hconn, Function.update_self]
    exact hnum'
  · rw [hrecov', hrecov]
    exact hr.recov

end CorresHost

end Afabric
