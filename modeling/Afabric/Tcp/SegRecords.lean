import Afabric.Tcp.SessionOwnd

/-!
# Tcp — the records of a session's packets

`Records` says that a session has one record of each packet that is not acknowledged, with the
number that the packet got when it was sent first, and that each connection counts its marked
records.  The packets of a connection are numbered in their order (`Later`), so the records of a
connection from a packet on have its number or a later one.

An acknowledgement takes out what it covers, as its scan goes on until all new data is found
(`scanList_kept`), and a packet that is sent again has a record in the place of the old one
(`Records.resend`).
-/

namespace Afabric

namespace HostState

/-- The packet of a record, with its number in the session. -/
def key (h : HostState) (x : ℕ) : ℕ × ℤ × ℤ :=
  ((h.seg x).sender, (h.seg x).seqno, (h.seg x).sessionSeqno)

/-- The connection and the sequence number of a packet. -/
def packet (e : ℕ × ℤ × ℤ) : ℕ × ℤ := (e.1, e.2.1)

/-- A packet that was sent for the first time after another one. -/
def Later (e e' : ℕ × ℤ × ℤ) : Prop := e'.2.2 < e.2.2 ∧ (e'.1 = e.1 → e'.2.1 < e.2.1)

/-- One record of each packet from the acknowledged ones up to `top`. -/
structure Keyed (h : HostState) (ks : List (ℕ × ℤ × ℤ)) (top : ℕ → ℤ) : Prop where
  unique : (ks.map packet).Nodup
  listed : ∀ i n, (i, n) ∈ ks.map packet ↔ (h.conn i).highestAck < n ∧ n ≤ top i
  logged : ∀ e ∈ ks, e ∈ h.sent
  order : h.sent.Pairwise Later
  bound : ∀ e ∈ h.sent, e.2.2 < h.sessionSeqno ∧ e.2.1 ≤ top e.1
  acks : ∀ i, (h.conn i).lastAck = (h.conn i).highestAck
  next : ∀ i, (h.conn i).highestAck < (h.conn i).tSeqno ∧ (h.conn i).tSeqno ≤ top i + 1
  maxseq : ∀ i, (h.conn i).maxseq ≤ top i

/-- How many records of a connection are marked. -/
def marked (h : HostState) (i : ℕ) (l : List ℕ) : ℕ :=
  l.countP fun x => (h.seg x).sender = i ∧ (h.seg x).threshDupacks = true

def Marks (h : HostState) (l : List ℕ) : Prop :=
  ∀ i, (h.conn i).numThreshDupackSegs = h.marked i l

structure Records (h : HostState) (l : List ℕ) (top : ℕ → ℤ) : Prop where
  keyed : Keyed h (l.map h.key) top
  size : ∀ x ∈ l, 0 ≤ (h.seg x).size ∧ (h.seg x).size ≤ 1
  marks : Marks h l

variable {h h' : HostState} {ks ks' : List (ℕ × ℤ × ℤ)} {top : ℕ → ℤ} {e e' : ℕ × ℤ × ℤ}
  {l a b : List ℕ} {x : ℕ} {g : HostSegment} {A : HostAck} {sc : AckScan}

/-! ### The packets sent so far -/

theorem Keyed.log_cases (hk : Keyed h ks top) (he : e ∈ h.sent) (he' : e' ∈ h.sent) :
    e = e' ∨ Later e e' ∨ Later e' e := by
  by_cases hne : e = e'
  · exact Or.inl hne
  · have hsymm : h.sent.Pairwise fun e e' => Later e e' ∨ Later e' e := hk.order.imp Or.inl
    have : Std.Symm fun e e' => Later e e' ∨ Later e' e := ⟨fun _ _ => Or.symm⟩
    exact Or.inr (hsymm.forall he he' hne)

theorem Keyed.eq_of_packet (hk : Keyed h ks top) (he : e ∈ h.sent) (he' : e' ∈ h.sent)
    (hp : packet e = packet e') : e = e' := by
  obtain ⟨hi, hn⟩ := Prod.mk.inj hp
  rcases hk.log_cases he he' with heq | hl | hl
  · exact heq
  · exact absurd (hl.2 hi.symm) hn.symm.not_lt
  · exact absurd (hl.2 hi) hn.not_lt

theorem Keyed.eq_of_number (hk : Keyed h ks top) (he : e ∈ h.sent) (he' : e' ∈ h.sent)
    (hn : e.2.2 = e'.2.2) : e = e' := by
  rcases hk.log_cases he he' with heq | hl | hl
  · exact heq
  · exact absurd hl.1 hn.symm.not_lt
  · exact absurd hl.1 hn.not_lt

/-- The packets of a connection are numbered in their order. -/
theorem Keyed.number_le (hk : Keyed h ks top) (he : e ∈ h.sent) (he' : e' ∈ h.sent)
    (hi : e.1 = e'.1) (hn : e.2.1 ≤ e'.2.1) : e.2.2 ≤ e'.2.2 := by
  rcases hk.log_cases he he' with rfl | hl | hl
  · exact le_rfl
  · exact absurd (hl.2 hi.symm) (not_lt.mpr hn)
  · exact hl.1.le

theorem Keyed.perm (hk : Keyed h ks top) (hp : ks.Perm ks') : Keyed h ks' top where
  unique := (hp.map packet).nodup_iff.mp hk.unique
  listed := fun i n => (hp.map packet).mem_iff.symm.trans (hk.listed i n)
  logged := fun e he => hk.logged e (hp.mem_iff.mpr he)
  order := hk.order
  bound := hk.bound
  acks := hk.acks
  next := hk.next
  maxseq := hk.maxseq

/-- What the records depend on is the same, apart from the marks. -/
structure SameWindows (h h' : HostState) : Prop where
  ack : ∀ i, (h'.conn i).highestAck = (h.conn i).highestAck
  last : ∀ i, (h'.conn i).lastAck = (h.conn i).lastAck
  next : ∀ i, (h'.conn i).tSeqno = (h.conn i).tSeqno
  maxseq : ∀ i, (h'.conn i).maxseq = (h.conn i).maxseq
  sent : h'.sent = h.sent
  session : h'.sessionSeqno = h.sessionSeqno

theorem SameWindows.refl (h : HostState) : SameWindows h h :=
  ⟨fun _ => rfl, fun _ => rfl, fun _ => rfl, fun _ => rfl, rfl, rfl⟩

theorem SameWindows.trans {h'' : HostState} (h₁ : SameWindows h h') (h₂ : SameWindows h' h'') :
    SameWindows h h'' where
  ack := fun i => (h₂.ack i).trans (h₁.ack i)
  last := fun i => (h₂.last i).trans (h₁.last i)
  next := fun i => (h₂.next i).trans (h₁.next i)
  maxseq := fun i => (h₂.maxseq i).trans (h₁.maxseq i)
  sent := h₂.sent.trans h₁.sent
  session := h₂.session.trans h₁.session

/-- Where the windows may move without an acknowledgement. -/
theorem Keyed.window (hk : Keyed h ks top)
    (hack : ∀ i, (h'.conn i).highestAck = (h.conn i).highestAck)
    (hlast : ∀ i, (h'.conn i).lastAck = (h.conn i).lastAck)
    (hnext : ∀ i, (h.conn i).highestAck < (h'.conn i).tSeqno ∧ (h'.conn i).tSeqno ≤ top i + 1)
    (hmax : ∀ i, (h'.conn i).maxseq ≤ top i) (hsent : h'.sent = h.sent)
    (hsession : h'.sessionSeqno = h.sessionSeqno) : Keyed h' ks top where
  unique := hk.unique
  listed := fun i n => by
    rw [hack]
    exact hk.listed i n
  logged := hsent ▸ hk.logged
  order := hsent ▸ hk.order
  bound := by
    rw [hsent, hsession]
    exact hk.bound
  acks := fun i => by
    rw [hlast, hack]
    exact hk.acks i
  next := fun i => by
    rw [hack]
    exact hnext i
  maxseq := hmax

theorem Keyed.same (hk : Keyed h ks top) (hw : SameWindows h h') : Keyed h' ks top := by
  refine hk.window hw.ack hw.last (fun i => ?_) (fun i => ?_) hw.sent hw.session
  · rw [hw.next]
    exact hk.next i
  · rw [hw.maxseq]
    exact hk.maxseq i

/-! ### Marks -/

theorem marked_mid (h : HostState) (i : ℕ) (a b : List ℕ) (x : ℕ) :
    h.marked i (a ++ x :: b) = h.marked i (a ++ b) +
      if (h.seg x).sender = i ∧ (h.seg x).threshDupacks = true then 1 else 0 := by
  simp only [marked, List.countP_append, List.countP_cons, decide_eq_true_eq]
  ring

theorem marked_congr {i : ℕ} (hs : ∀ y ∈ l, (h'.seg y).sender = (h.seg y).sender ∧
    (h'.seg y).threshDupacks = (h.seg y).threshDupacks) : h'.marked i l = h.marked i l := by
  refine List.countP_congr fun y hy => ?_
  rw [(hs y hy).1, (hs y hy).2]

theorem threshold_num (A : HostAck) (x : ℕ) (g : HostSegment) (h : HostState) (i : ℕ) :
    ((h.threshold A x g).conn i).numThreshDupackSegs = (h.conn i).numThreshDupackSegs +
      if g.sender = i ∧ h.Reaches A g ∧ g.threshDupacks = false then 1 else 0 := by
  rw [threshold]
  by_cases hr : h.Reaches A g ∧ g.threshDupacks = false
  · rw [if_pos hr]
    by_cases hi : g.sender = i
    · subst hi
      rw [if_pos ⟨rfl, hr⟩]
      change (Function.update h.conn g.sender _ g.sender).numThreshDupackSegs = _
      rw [Function.update_self]
    · rw [if_neg fun hc => hi hc.1, add_zero]
      change (Function.update h.conn g.sender _ i).numThreshDupackSegs = _
      rw [Function.update_of_ne (Ne.symm hi)]
  · rw [if_neg hr, if_neg fun hc => hr hc.2, add_zero]
    rfl

theorem threshold_marked {i : ℕ} (hx : x ∉ l) :
    (h.threshold A x g).marked i l = h.marked i l :=
  marked_congr fun y hy => by
    rw [threshold_of_ne fun e : y = x => hx (e ▸ hy)]
    exact ⟨rfl, rfl⟩

/-- A record that reaches the threshold is marked, and counted. -/
theorem Marks.threshold (hm : Marks h (a ++ x :: b)) (hx : x ∉ a ++ b)
    (hsender : g.sender = (h.seg x).sender)
    (hmark : g.threshDupacks = (h.seg x).threshDupacks) :
    Marks (h.threshold A x g) (a ++ x :: b) := by
  intro i
  rw [threshold_num, hm i, marked_mid, marked_mid, threshold_marked hx, threshold_self]
  simp only [hsender, ← hmark, Bool.or_eq_true, decide_eq_true_eq]
  by_cases hi : (h.seg x).sender = i
  · cases hg : g.threshDupacks <;> by_cases hr : h.Reaches A g <;> simp [hi, hr]
  · simp [hi]

/-! ### The scan -/

/-- A segment that an acknowledgement covers. -/
def Acked (A : HostAck) (g : HostSegment) : Prop := A.sender = g.sender ∧ g.seqno ≤ A.seqno

instance (A : HostAck) (g : HostSegment) : Decidable (Acked A g) :=
  inferInstanceAs (Decidable (_ ∧ _))

theorem ackCase_acked : h.ackCase A g = .acked ↔ Acked A g := by
  rw [ackCase, Acked]
  split_ifs <;> simp_all

/-- The records are of the same packets, and count the same. -/
def SameKeys (h h' : HostState) : Prop :=
  ∀ y, h'.key y = h.key y ∧ (h'.seg y).size = (h.seg y).size

theorem SameKeys.acked (hs : SameKeys h h') (y : ℕ) : Acked A (h'.seg y) ↔ Acked A (h.seg y) := by
  obtain ⟨hi, hn⟩ := Prod.mk.inj (hs y).1
  rw [Acked, Acked, hi, (Prod.mk.inj hn).1]

theorem mark_key (h : HostState) (g : HostSegment) (k : AckCase) :
    (h.mark g k).sender = g.sender ∧ (h.mark g k).seqno = g.seqno ∧
      (h.mark g k).sessionSeqno = g.sessionSeqno ∧
      (h.mark g k).threshDupacks = g.threshDupacks := by
  cases k
  case later =>
    simp only [mark]
    split_ifs <;> exact ⟨rfl, rfl, rfl, rfl⟩
  all_goals exact ⟨rfl, rfl, rfl, rfl⟩

theorem visit_keys (A : HostAck) (x : ℕ) (sc : AckScan) (h : HostState) :
    SameKeys h (h.visit A x sc).2 := by
  intro y
  obtain ⟨hi, hn, hk, -⟩ := mark_key h (h.seg x) (h.ackCase A (h.seg x))
  have hsize := (mark_size h (h.seg x) (h.ackCase A (h.seg x))).1
  simp only [HostState.visit, key]
  rcases eq_or_ne y x with rfl | hne
  · rw [threshold_self, hi, hn, hk, hsize]
    exact ⟨rfl, rfl⟩
  · rw [threshold_of_ne hne]
    split_ifs <;> exact ⟨rfl, rfl⟩

theorem visit_conn {β : Type*} (π : HostConn → β)
    (hπ : ∀ c n, π { c with numThreshDupackSegs := n } = π c) (A : HostAck) (x : ℕ) (sc : AckScan)
    (h : HostState) (i : ℕ) : π ((h.visit A x sc).2.conn i) = π (h.conn i) := by
  simp only [HostState.visit]
  rw [threshold_conn π hπ]
  split_ifs <;> rfl

theorem visit_windows (A : HostAck) (x : ℕ) (sc : AckScan) (h : HostState) :
    SameWindows h (h.visit A x sc).2 where
  ack := visit_conn (·.highestAck) (fun _ _ => rfl) A x sc h
  last := visit_conn (·.lastAck) (fun _ _ => rfl) A x sc h
  next := visit_conn (·.tSeqno) (fun _ _ => rfl) A x sc h
  maxseq := visit_conn (·.maxseq) (fun _ _ => rfl) A x sc h
  sent := by
    simp only [HostState.visit, threshold]
    split_ifs <;> rfl
  session := by
    simp only [HostState.visit, threshold]
    split_ifs <;> rfl

theorem SameKeys.trans {h'' : HostState} (h₁ : SameKeys h h') (h₂ : SameKeys h' h'') :
    SameKeys h h'' :=
  fun y => ⟨(h₂ y).1.trans (h₁ y).1, (h₂ y).2.trans (h₁ y).2⟩

theorem visit_acked_num (A : HostAck) (x : ℕ) (sc : AckScan) (h : HostState) :
    (h.visit A x sc).1.newDataAcked =
      sc.newDataAcked + if Acked A (h.seg x) then (h.seg x).size else 0 := by
  have hnew : (h.visit A x sc).1.newDataAcked =
      (note A (h.seg x) sc (h.ackCase A (h.seg x))).newDataAcked := by
    simp only [HostState.visit]
    split_ifs <;> rfl
  rw [hnew]
  simp only [← ackCase_acked (h := h)]
  cases h.ackCase A (h.seg x) <;> simp [note]

theorem ackCase_dupack (hk : h.ackCase A g = .dupack) : A.amt = 0 := by
  rw [ackCase] at hk
  split_ifs at hk with _ _ _ _ hd
  exact hd.1

/-- The loop is done when all new data has been found. -/
theorem visit_done (hpos : 0 ≤ sc.newDataAcked) (hsize : 0 ≤ (h.seg x).size)
    (hdone : sc.done = true → A.amt ≤ sc.newDataAcked)
    (hd : (h.visit A x sc).1.done = true) : A.amt ≤ (h.visit A x sc).1.newDataAcked := by
  have hle : sc.newDataAcked ≤ (h.visit A x sc).1.newDataAcked := by
    rw [visit_acked_num]
    split_ifs <;> omega
  by_cases hamt : A.amt = 0
  · rw [hamt]
    exact hpos.trans hle
  · have hflags : (h.visit A x sc).1 = note A (h.seg x) sc (h.ackCase A (h.seg x)) := by
      simp only [HostState.visit, if_neg fun hc : _ ∧ _ => hamt hc.1]
    rw [hflags] at hd hle ⊢
    cases hk : h.ackCase A (h.seg x) with
    | later | nothing =>
        rw [hk] at hd hle
        exact (hdone hd).trans hle
    | acked | partialNew =>
        rw [hk] at hd hle
        rcases Bool.or_eq_true_iff.mp hd with hd | hd
        · exact (hdone hd).trans hle
        · exact of_decide_eq_true hd
    | dupack => exact absurd (ackCase_dupack hk) hamt

/-- What the marks of a scan depend on. -/
def Clear (A : HostAck) (h : HostState) (x : ℕ) : Prop :=
  Acked A (h.seg x) → (h.seg x).threshDupacks = false ∧ ¬ h.Reaches A (h.seg x)

theorem Marks.visit (hm : Marks h (a ++ x :: b)) (hx : x ∉ a ++ b)
    (hk : h.ackCase A (h.seg x) ≠ .acked) : Marks (h.visit A x sc).2 (a ++ x :: b) := by
  obtain ⟨hi, -, -, hmark⟩ := mark_key h (h.seg x) (h.ackCase A (h.seg x))
  simp only [HostState.visit, if_neg hk]
  exact hm.threshold hx hi hmark

/-- A record that goes is not counted, if it is clear. -/
theorem Marks.visit_acked (hm : Marks h (a ++ x :: b)) (hx : x ∉ a ++ b)
    (hk : h.ackCase A (h.seg x) = .acked) (hclear : Clear A h x) :
    Marks (h.visit A x sc).2 (a ++ b) := by
  obtain ⟨hfalse, hreach⟩ := hclear (ackCase_acked.mp hk)
  simp only [HostState.visit, hk, mark, if_true]
  intro i
  have hnone : ¬ ((h.seg x).sender = i ∧
      (h.adjustOwnd (h.seg x).size).Reaches A (h.seg x) ∧ (h.seg x).threshDupacks = false) :=
    fun hc => hreach hc.2.1
  have hunmarked : ¬ ((h.seg x).sender = i ∧ (h.seg x).threshDupacks = true) := fun hc =>
    Bool.noConfusion (hfalse.symm.trans hc.2)
  rw [threshold_num, if_neg hnone, add_zero, threshold_marked hx]
  have hnum := hm i
  rw [marked_mid, if_neg hunmarked, add_zero] at hnum
  exact hnum

theorem visit_of_ne {y : ℕ} (hy : y ≠ x) : (h.visit A x sc).2.seg y = h.seg y := by
  simp only [HostState.visit]
  rw [threshold_of_ne hy]
  split_ifs <;> rfl

theorem Clear.visit {y : ℕ} (hc : Clear A h y) (hy : y ≠ x) : Clear A (h.visit A x sc).2 y := by
  have hnum := visit_conn (·.numdupacks) (fun _ _ => rfl) A x sc h A.sender
  rw [Clear, Reaches, visit_of_ne hy, hnum]
  exact hc

/-! ### Acknowledgements -/

/-- The packets of a connection that an acknowledgement covers are no more than it says. -/
theorem Keyed.count_le (hk : Keyed h ks top) (i : ℕ) (n : ℤ) :
    (ks.countP fun e => i = e.1 ∧ e.2.1 ≤ n) ≤ (n - (h.conn i).highestAck).toNat := by
  generalize hfs : (ks.filter fun e => i = e.1 ∧ e.2.1 ≤ n) = fs
  have hmem : ∀ e ∈ fs, e ∈ ks ∧ i = e.1 ∧ e.2.1 ≤ n := fun e he => by
    rw [← hfs, List.mem_filter] at he
    exact ⟨he.1, of_decide_eq_true he.2⟩
  have hpackets : fs.map packet = (fs.map (·.2.1)).map (Prod.mk i) := by
    rw [List.map_map]
    exact List.map_congr_left fun e he => Prod.ext (hmem e he).2.1.symm rfl
  have hnd : (fs.map (·.2.1)).Nodup := by
    refine List.Nodup.of_map (Prod.mk i) ?_
    rw [← hpackets, ← hfs]
    exact hk.unique.sublist ((List.filter_sublist).map packet)
  have hsub : (fs.map (·.2.1)).toFinset ⊆ Finset.Ioc (h.conn i).highestAck n := by
    intro m hm
    obtain ⟨e, he, rfl⟩ := List.mem_map.mp (List.mem_toFinset.mp hm)
    obtain ⟨hks, hi, hle⟩ := hmem e he
    exact Finset.mem_Ioc.mpr
      ⟨((hk.listed i e.2.1).mp (List.mem_map.mpr ⟨e, hks, Prod.ext hi.symm rfl⟩)).1, hle⟩
  have hcard := Finset.card_le_card hsub
  rw [List.toFinset_card_of_nodup hnd, List.length_map, Int.card_Ioc] at hcard
  rw [List.countP_eq_length_filter, hfs]
  exact hcard

/-- The window of a connection after new data is acknowledged. -/
theorem Keyed.ack {i : ℕ} {n : ℤ} (hk : Keyed h ks top) (hn : (h.conn i).lastAck < n) :
    Keyed (h.updateConn i fun c =>
      { c with lastAck := n, highestAck := n, tSeqno := max c.tSeqno (n + 1) })
      (ks.filter fun e => ¬ (i = e.1 ∧ e.2.1 ≤ n))
      (Function.update top i (max (top i) n)) := by
  have hself : (h.updateConn i fun c =>
      { c with lastAck := n, highestAck := n, tSeqno := max c.tSeqno (n + 1) }).conn i =
        { h.conn i with
          lastAck := n, highestAck := n, tSeqno := max (h.conn i).tSeqno (n + 1) } :=
    Function.update_self _ _ _
  have hother : ∀ j, j ≠ i → (h.updateConn i fun c =>
      { c with lastAck := n, highestAck := n, tSeqno := max c.tSeqno (n + 1) }).conn j =
        h.conn j := fun j hj => Function.update_of_ne hj _ _
  have htop : ∀ j, top j ≤ Function.update top i (max (top i) n) j := fun j => by
    rcases eq_or_ne j i with rfl | hj
    · rw [Function.update_self]
      exact le_max_left _ _
    · rw [Function.update_of_ne hj]
  refine ⟨hk.unique.sublist ((List.filter_sublist).map packet), fun j m => ?_, fun e he => ?_,
    hk.order, fun e he => ?_, fun j => ?_, fun j => ?_, fun j => ?_⟩
  · have hfilter : (j, m) ∈ (ks.filter fun e => ¬ (i = e.1 ∧ e.2.1 ≤ n)).map packet ↔
        (j, m) ∈ ks.map packet ∧ ¬ (i = j ∧ m ≤ n) := by
      simp only [List.mem_map, List.mem_filter, decide_eq_true_eq]
      constructor
      · rintro ⟨e, ⟨he, hne⟩, hp⟩
        obtain ⟨rfl, rfl⟩ := Prod.mk.inj hp
        exact ⟨⟨e, he, rfl⟩, hne⟩
      · rintro ⟨⟨e, he, hp⟩, hne⟩
        obtain ⟨rfl, rfl⟩ := Prod.mk.inj hp
        exact ⟨e, ⟨he, hne⟩, rfl⟩
    rw [hfilter, hk.listed]
    have hacks := hk.acks i
    rcases eq_or_ne j i with rfl | hj
    · rw [hself, Function.update_self, le_max_iff]
      simp only [true_and, not_le]
      omega
    · rw [hother j hj, Function.update_of_ne hj]
      simp only [hj.symm, false_and, not_false_eq_true, and_true]
  · exact hk.logged e (List.mem_of_mem_filter he)
  · exact ⟨(hk.bound e he).1, (hk.bound e he).2.trans (htop e.1)⟩
  · rcases eq_or_ne j i with rfl | hj
    · rw [hself]
    · rw [hother j hj]
      exact hk.acks j
  · have hnext := hk.next j
    rcases eq_or_ne j i with rfl | hj
    · rw [hself, Function.update_self]
      simp only
      omega
    · rw [hother j hj, Function.update_of_ne hj]
      exact hnext
  · have hmax := (hk.maxseq j).trans (htop j)
    rcases eq_or_ne j i with rfl | hj
    · rw [hself]
      exact hmax
    · rw [hother j hj]
      exact hmax

/-! ### Retransmission -/

theorem Keyed.raise {i : ℕ} {n : ℤ} (hk : Keyed h ks top) (hn : n ≤ top i) :
    Keyed (h.updateConn i fun c => { c with maxseq := max c.maxseq n }) ks top := by
  generalize hf : (fun c : HostConn => { c with maxseq := max c.maxseq n }) = f
  have hack : ∀ c, (f c).highestAck = c.highestAck := fun c => by rw [← hf]
  have hlast : ∀ c, (f c).lastAck = c.lastAck := fun c => by rw [← hf]
  have hnext : ∀ c, (f c).tSeqno = c.tSeqno := fun c => by rw [← hf]
  refine hk.window (updateConn_conn (·.highestAck) hack i) (updateConn_conn (·.lastAck) hlast i)
    (fun j => ?_) (fun j => ?_) rfl rfl
  · rw [updateConn_conn (·.tSeqno) hnext]
    exact hk.next j
  · have hmax := hk.maxseq j
    rcases eq_or_ne j i with rfl | hj
    · change (Function.update h.conn j _ j).maxseq ≤ _
      rw [Function.update_self, ← hf]
      exact max_le hmax hn
    · change (Function.update h.conn i _ j).maxseq ≤ _
      rw [Function.update_of_ne hj]
      exact hmax

theorem updateConn_windows {i : ℕ} {f : HostConn → HostConn}
    (hack : ∀ c, (f c).highestAck = c.highestAck) (hlast : ∀ c, (f c).lastAck = c.lastAck)
    (hnext : ∀ c, (f c).tSeqno = c.tSeqno) (hmax : ∀ c, (f c).maxseq = c.maxseq) :
    SameWindows h (h.updateConn i f) where
  ack := updateConn_conn (·.highestAck) hack i
  last := updateConn_conn (·.lastAck) hlast i
  next := updateConn_conn (·.tSeqno) hnext i
  maxseq := updateConn_conn (·.maxseq) hmax i
  sent := rfl
  session := rfl

theorem unmark_windows (x : ℕ) (h : HostState) : SameWindows h (h.unmark x) := by
  rw [unmark]
  split_ifs
  · have hw : SameWindows h (h.updateConn (h.seg x).sender fun c =>
        { c with numThreshDupackSegs := c.numThreshDupackSegs - 1 }) :=
      updateConn_windows (fun _ => rfl) (fun _ => rfl) (fun _ => rfl) fun _ => rfl
    exact ⟨hw.ack, hw.last, hw.next, hw.maxseq, rfl, rfl⟩
  · exact SameWindows.refl h

theorem lossWindow_windows (k : ℤ) (g : HostSegment) (h : HostState) :
    SameWindows h (h.lossWindow k g) := by
  have hw : SameWindows h (h.updateConn g.sender fun c =>
      { c with recover := c.maxseq, lastCwndAction := .dupack }) :=
    updateConn_windows (fun _ => rfl) (fun _ => rfl) (fun _ => rfl) fun _ => rfl
  rw [lossWindow]
  split_ifs
  any_goals exact ⟨fun _ => rfl, fun _ => rfl, fun _ => rfl, fun _ => rfl, rfl, rfl⟩
  all_goals exact ⟨hw.ack, hw.last, hw.next, hw.maxseq, rfl, rfl⟩

theorem lossWindow_seg (k : ℤ) (g : HostSegment) (h : HostState) :
    (h.lossWindow k g).seg = h.seg := by
  rw [lossWindow]
  split_ifs <;> rfl

theorem lossWindow_num (k : ℤ) (g : HostSegment) (h : HostState) (i : ℕ) :
    ((h.lossWindow k g).conn i).numThreshDupackSegs = (h.conn i).numThreshDupackSegs := by
  have hnum := updateConn_conn (h := h)
    (f := fun c => { c with recover := c.maxseq, lastCwndAction := .dupack })
    (·.numThreshDupackSegs) (fun _ => rfl) g.sender i
  rw [lossWindow]
  split_ifs
  any_goals rfl
  all_goals exact hnum

/-- The records and the counts are the same. -/
theorem Marks.same (hm : Marks h l)
    (hnum : ∀ i, (h'.conn i).numThreshDupackSegs = (h.conn i).numThreshDupackSegs)
    (hs : ∀ y ∈ l, (h'.seg y).sender = (h.seg y).sender ∧
      (h'.seg y).threshDupacks = (h.seg y).threshDupacks) : Marks h' l := by
  intro i
  rw [hnum, hm i, marked_congr hs]

theorem Marks.drop (hm : Marks h (a ++ x :: b)) (hx : (h.seg x).threshDupacks = false) :
    Marks h (a ++ b) := by
  intro i
  have hnum := hm i
  rw [marked_mid, if_neg fun hc => Bool.noConfusion (hx.symm.trans hc.2), add_zero] at hnum
  exact hnum

theorem Marks.addSeg (hm : Marks h l) (hx : h.fresh ∉ l) (hg : g.threshDupacks = false) :
    Marks (h.addSeg g) (l ++ [h.fresh]) := by
  intro i
  have hnew : (h.addSeg g).seg h.fresh = g := Function.update_self _ _ _
  have hold : (h.addSeg g).marked i l = h.marked i l := marked_congr fun y hy => by
    have hne : y ≠ h.fresh := fun e => hx (e ▸ hy)
    have hseg : (h.addSeg g).seg y = h.seg y := Function.update_of_ne hne _ _
    rw [hseg]
    exact ⟨rfl, rfl⟩
  have hconn : (h.addSeg g).conn = h.conn := rfl
  rw [marked_mid, List.append_nil, hnew, hg, hold, hconn, hm i]
  simp

/-- The mark of a record is taken back, in its count too. -/
theorem Marks.unmark (hm : Marks h (a ++ x :: b)) (hx : x ∉ a ++ b) :
    Marks (h.unmark x) (a ++ x :: b) ∧ ((h.unmark x).seg x).threshDupacks = false := by
  by_cases ht : (h.seg x).threshDupacks = true
  · rw [HostState.unmark, if_pos ht]
    refine ⟨fun i => ?_, by rw [setSeg_self]⟩
    have hrest : (((h.updateConn (h.seg x).sender fun c =>
        { c with numThreshDupackSegs := c.numThreshDupackSegs - 1 }).setSeg
          x { h.seg x with threshDupacks := false }).marked i (a ++ b)) = h.marked i (a ++ b) :=
      marked_congr fun y hy => by
        rw [setSeg_of_ne fun e : y = x => hx (e ▸ hy)]
        exact ⟨rfl, rfl⟩
    have hnum := hm i
    rw [marked_mid] at hnum
    rw [marked_mid, hrest, setSeg_self]
    change (Function.update h.conn (h.seg x).sender _ i).numThreshDupackSegs = _
    by_cases hi : (h.seg x).sender = i
    · subst hi
      rw [if_pos ⟨rfl, ht⟩] at hnum
      rw [Function.update_self]
      change (h.conn (h.seg x).sender).numThreshDupackSegs - 1 = _
      rw [hnum]
      simp
    · rw [if_neg fun hc => hi hc.1] at hnum
      rw [Function.update_of_ne (Ne.symm hi), hnum]
      simp
  · rw [HostState.unmark, if_neg ht]
    exact ⟨hm, Bool.eq_false_of_not_eq_true ht⟩

theorem unmark_keys (x : ℕ) (h : HostState) : SameKeys h (h.unmark x) := by
  intro y
  rw [HostState.unmark]
  split_ifs
  · rcases eq_or_ne y x with rfl | hne
    · rw [key, setSeg_self]
      exact ⟨rfl, rfl⟩
    · rw [key, setSeg_of_ne hne]
      exact ⟨rfl, rfl⟩
  · exact ⟨rfl, rfl⟩

/-- What retransmission does, but for the outstanding data: the record is unmarked, and a new one of
its packet is made. -/
theorem resend_spec (k : ℤ) (ts : ℚ) (x : ℕ) (h : HostState) :
    (h.resend k ts x).seg = Function.update (h.unmark x).seg h.fresh
        { sender := (h.seg x).sender, seqno := (h.seg x).seqno
          sessionSeqno := (h.seg x).sessionSeqno, size := 1, ts := ts, rxmitted := true } ∧
      (∀ i, ((h.resend k ts x).conn i).numThreshDupackSegs =
        ((h.unmark x).conn i).numThreshDupackSegs) ∧
      SameWindows (((h.unmark x).lossWindow k (h.seg x)).updateConn (h.seg x).sender fun c =>
        { c with maxseq := max c.maxseq (h.seg x).seqno }) (h.resend k ts x) := by
  generalize hf : (fun c : HostConn => { c with maxseq := max c.maxseq (h.seg x).seqno }) = f
  have hnum : ∀ c, (f c).numThreshDupackSegs = c.numThreshDupackSegs := fun c => by rw [← hf]
  have hseg := lossWindow_seg k (h.seg x) (h.unmark x)
  have hfresh : ((h.unmark x).lossWindow k (h.seg x)).fresh = h.fresh := by
    rw [CorresHost.lossWindow_fresh, CorresHost.unmark_fresh]
  have hnums : ∀ i, ((((h.unmark x).lossWindow k (h.seg x)).updateConn (h.seg x).sender
      f).conn i).numThreshDupackSegs = ((h.unmark x).conn i).numThreshDupackSegs := fun i => by
    rw [updateConn_conn (·.numThreshDupackSegs) hnum, lossWindow_num]
  simp only [resend, hf]
  rw [← hseg, ← hfresh]
  split_ifs
  · exact ⟨rfl, hnums, fun _ => rfl, fun _ => rfl, fun _ => rfl, fun _ => rfl, rfl, rfl⟩
  · exact ⟨rfl, hnums, fun _ => rfl, fun _ => rfl, fun _ => rfl, fun _ => rfl, rfl, rfl⟩

/-- A packet that is sent again has a record in the place of the old one. -/
theorem Records.resend {k : ℤ} {ts : ℚ} (hr : Records h (a ++ x :: b) top)
    (hx : h.fresh ∉ a ++ x :: b) (hnd : (a ++ x :: b).Nodup) :
    Records (h.resend k ts x) (a ++ (b ++ [h.fresh])) top := by
  obtain ⟨hseg, hnum, hw⟩ := resend_spec k ts x h
  obtain ⟨hm, hfalse⟩ := hr.marks.unmark (List.nodup_cons.mp (List.nodup_middle.mp hnd)).1
  have hu := unmark_keys x h
  have hold : ∀ y ∈ a ++ x :: b, (h.resend k ts x).seg y = (h.unmark x).seg y := fun y hy => by
    rw [hseg]
    exact Function.update_of_ne (fun e : y = h.fresh => hx (e ▸ hy)) _ _
  have hnew : (h.resend k ts x).seg h.fresh =
      { sender := (h.seg x).sender, seqno := (h.seg x).seqno
        sessionSeqno := (h.seg x).sessionSeqno, size := 1, ts := ts, rxmitted := true } := by
    rw [hseg]
    exact Function.update_self _ _ _
  have hkey : ∀ y ∈ a ++ x :: b, (h.resend k ts x).key y = h.key y := fun y hy => by
    rw [key, hold y hy]
    exact (hu y).1
  have hkeynew : (h.resend k ts x).key h.fresh = h.key x := by
    rw [key, hnew]
    rfl
  refine ⟨?_, fun y hy => ?_, ?_⟩
  · have htop : (h.seg x).seqno ≤ top (h.seg x).sender :=
      ((hr.keyed.listed _ _).mp (List.mem_map.mpr ⟨h.key x, List.mem_map_of_mem (by simp), rfl⟩)).2
    have hk := (((hr.keyed.same (unmark_windows x h)).same
      (lossWindow_windows k (h.seg x) _)).raise htop).same hw
    have hkeys : (a ++ (b ++ [h.fresh])).map (h.resend k ts x).key =
        a.map h.key ++ (b.map h.key ++ [h.key x]) := by
      rw [List.map_append, List.map_append, List.map_singleton, hkeynew,
        List.map_congr_left fun y hy => hkey y (List.mem_append_left _ hy),
        List.map_congr_left fun y hy =>
          hkey y (List.mem_append_right a (List.mem_cons_of_mem x hy))]
    rw [hkeys]
    refine hk.perm ?_
    rw [List.map_append, List.map_cons]
    exact (List.perm_append_singleton _ _).symm.append_left _
  · rw [← List.append_assoc] at hy
    rcases List.mem_append.mp hy with hy | hy
    · rw [hold y (mem_mid hy), (hu y).2]
      exact hr.size y (mem_mid hy)
    · rw [List.mem_singleton.mp hy, hnew]
      exact ⟨zero_le_one, le_rfl⟩
  · have hfresh : (h.unmark x).fresh = h.fresh := CorresHost.unmark_fresh x h
    have hadd := hm.addSeg (g := (h.resend k ts x).seg h.fresh) (hfresh.symm ▸ hx) (by rw [hnew])
    rw [hfresh] at hadd
    have hm' : Marks (h.resend k ts x) (a ++ x :: b ++ [h.fresh]) := by
      refine hadd.same hnum fun y _ => ?_
      have hsame : ((h.unmark x).addSeg ((h.resend k ts x).seg h.fresh)).seg y =
          (h.resend k ts x).seg y := by
        rw [hnew, hseg, ← hfresh]
        rfl
      rw [hsame]
      exact ⟨rfl, rfl⟩
    rw [List.append_assoc, List.cons_append] at hm'
    refine hm'.drop ?_
    rw [hold x (by simp)]
    exact hfalse

theorem Records.same (hr : Records h l top) (hw : SameWindows h h') (hseg : h'.seg = h.seg)
    (hnum : ∀ i, (h'.conn i).numThreshDupackSegs = (h.conn i).numThreshDupackSegs) :
    Records h' l top := by
  have hkeys : l.map h'.key = l.map h.key := List.map_congr_left fun y _ => by rw [key, hseg, key]
  refine ⟨?_, ?_, hr.marks.same hnum fun y _ => by rw [hseg]; exact ⟨rfl, rfl⟩⟩
  · rw [hkeys]
    exact hr.keyed.same hw
  · rw [hseg]
    exact hr.size

/-- The records that are left after a scan, when the window of the connection has moved. -/
theorem Records.kept (hr : Records h l top) {h₁ h₂ : HostState} {i : ℕ} {n : ℤ} {top' : ℕ → ℤ}
    (hA : A.sender = i) (hn : A.seqno = n) (hseg : h₁.seg = h.seg)
    (hk : Keyed h₁ ((l.map h.key).filter fun e => ¬ (i = e.1 ∧ e.2.1 ≤ n)) top')
    (hkeys : SameKeys h₁ h₂) (hw : SameWindows h₁ h₂)
    (hm : Marks h₂ (l.filter fun x => ¬ Acked A (h₁.seg x))) :
    Records h₂ (l.filter fun x => ¬ Acked A (h₁.seg x)) top' := by
  refine ⟨?_, fun x hx => ?_, hm⟩
  · have hmap : (l.filter fun x => ¬ Acked A (h₁.seg x)).map h₂.key =
        (l.map h.key).filter fun e => ¬ (i = e.1 ∧ e.2.1 ≤ n) := by
      rw [List.filter_map, List.map_congr_left fun x _ => (hkeys x).1]
      have hkey : h₁.key = h.key := funext fun x => by rw [key, hseg, key]
      rw [hkey, hseg, ← hA, ← hn]
      rfl
    rw [hmap]
    exact hk.same hw
  · rw [(hkeys x).2, hseg]
    exact hr.size x (List.mem_of_mem_filter hx)

end HostState

namespace CorresHost

open HostState

variable {h : HostState} {s t : CorresHost} {l a b : List ℕ} {x : ℕ} {A : HostAck} {sc : AckScan}
  {top : ℕ → ℤ}

theorem scanList_same (A : HostAck) (b : List ℕ) (sc : AckScan) (h : HostState) :
    SameKeys h (scanList A b sc h).state ∧ SameWindows h (scanList A b sc h).state := by
  induction b generalizing sc h with
  | nil => exact ⟨fun _ => ⟨rfl, rfl⟩, SameWindows.refl h⟩
  | cons x b ih =>
      by_cases hs : h.Stops A sc x
      · rw [scanList_stop hs]
        exact ⟨fun _ => ⟨rfl, rfl⟩, SameWindows.refl h⟩
      · obtain ⟨hkeys, hwindows⟩ := ih (h.visit A x sc).1 (h.visit A x sc).2
        have hkeys' := (visit_keys A x sc h).trans hkeys
        have hwindows' := (visit_windows A x sc h).trans hwindows
        by_cases hk : h.ackCase A (h.seg x) = .acked
        · rw [scanList_acked hs hk]
          exact ⟨hkeys', hwindows'⟩
        · rw [scanList_pass hs hk]
          exact ⟨hkeys', hwindows'⟩

/-- A scan takes out what is acknowledged, as the loop goes on until all new data is found. -/
theorem scanList_kept (A : HostAck) (b : List ℕ) (sc : AckScan) (h : HostState)
    (hsize : ∀ x ∈ b, 0 ≤ (h.seg x).size ∧ (h.seg x).size ≤ 1)
    (hleft : sc.newDataAcked + (b.countP fun x => Acked A (h.seg x) : ℕ) ≤ A.amt)
    (hpos : 0 ≤ sc.newDataAcked) (hdone : sc.done = true → A.amt ≤ sc.newDataAcked) :
    (scanList A b sc h).kept = b.filter fun x => ¬ Acked A (h.seg x) := by
  induction b generalizing sc h with
  | nil => rfl
  | cons x b ih =>
      by_cases hs : h.Stops A sc x
      · rw [scanList_stop hs]
        have hnone : (x :: b).countP (fun x => Acked A (h.seg x)) = 0 := by
          have hall := hdone hs.1
          omega
        refine (List.filter_eq_self.mpr fun y hy => ?_).symm
        exact decide_eq_true fun hc => List.countP_eq_zero.mp hnone y hy (decide_eq_true hc)
      · have hkeys := visit_keys A x sc h
        obtain ⟨h0, h1⟩ := hsize x List.mem_cons_self
        have hnum := visit_acked_num A x sc h
        have hcount : (b.countP fun y => Acked A ((h.visit A x sc).2.seg y)) =
            b.countP fun y => Acked A (h.seg y) :=
          List.countP_congr fun y _ => by simp only [decide_eq_true_eq, hkeys.acked y]
        have hfilter : (b.filter fun y => ¬ Acked A ((h.visit A x sc).2.seg y)) =
            b.filter fun y => ¬ Acked A (h.seg y) :=
          List.filter_congr fun y _ => by simp only [hkeys.acked y]
        have hsize' : ∀ y ∈ b, 0 ≤ ((h.visit A x sc).2.seg y).size ∧
            ((h.visit A x sc).2.seg y).size ≤ 1 := fun y hy => by
          rw [(hkeys y).2]
          exact hsize y (List.mem_cons_of_mem x hy)
        by_cases hk : h.ackCase A (h.seg x) = .acked
        · have hacked := ackCase_acked.mp hk
          rw [if_pos hacked] at hnum
          simp only [List.countP_cons, hacked, decide_true, if_true] at hleft
          rw [scanList_acked hs hk, List.filter_cons_of_neg (by simp [hacked]), ← hfilter]
          refine ih _ _ hsize' ?_ ?_ (visit_done hpos h0 hdone)
          · rw [hcount, hnum]
            push_cast at hleft
            linarith
          · rw [hnum]
            exact add_nonneg hpos h0
        · have hacked := mt ackCase_acked.mpr hk
          rw [if_neg hacked, add_zero] at hnum
          simp only [List.countP_cons, hacked, decide_false, Bool.false_eq_true, if_false,
            add_zero] at hleft
          rw [scanList_pass hs hk, List.filter_cons_of_pos (by simp [hacked]), ← hfilter]
          refine congrArg (x :: ·) (ih _ _ hsize' ?_ ?_ (visit_done hpos h0 hdone))
          · rw [hcount, hnum]
            exact hleft
          · rw [hnum]
            exact hpos

theorem scanList_marks (hm : Marks h (a ++ b)) (hnd : (a ++ b).Nodup)
    (hclear : ∀ x ∈ b, Clear A h x) :
    Marks (scanList A b sc h).state (a ++ (scanList A b sc h).kept) := by
  induction b generalizing a sc h with
  | nil => exact hm
  | cons x b ih =>
      by_cases hs : h.Stops A sc x
      · rw [scanList_stop hs]
        exact hm
      · obtain ⟨hx, hnd'⟩ := List.nodup_cons.mp (List.nodup_middle.mp hnd)
        have hclear' : ∀ y ∈ b, Clear A (h.visit A x sc).2 y := fun y hy =>
          (hclear y (List.mem_cons_of_mem x hy)).visit
            fun e => hx (List.mem_append_right a (e ▸ hy))
        by_cases hk : h.ackCase A (h.seg x) = .acked
        · rw [scanList_acked hs hk]
          exact ih (hm.visit_acked hx hk (hclear x List.mem_cons_self)) hnd' hclear'
        · rw [scanList_pass hs hk]
          have hm' : Marks (h.visit A x sc).2 ((a ++ [x]) ++ b) := by
            rw [List.append_assoc]
            exact hm.visit hx hk
          rw [List.append_cons] at hnd ⊢
          exact ih hm' hnd hclear'

/-- **An acknowledgement** takes out the records of what it covers. -/
theorem Records.scan {i : ℕ} {n : ℤ} {tsEcho : ℚ} (hr : Records s.toHostState l top)
    (hnd : l.Nodup)
    (hclear : ∀ x ∈ l, Clear (s.ackOf i n tsEcho) (s.newack i n).toHostState x) :
    ∃ top', Records
      (scanList (s.ackOf i n tsEcho) l {} (s.newack i n).toHostState).state
      (scanList (s.ackOf i n tsEcho) l {} (s.newack i n).toHostState).kept top' := by
  generalize hA : s.ackOf i n tsEcho = A at hclear ⊢
  have hsender : A.sender = i := by rw [← hA]; rfl
  have hseqno : A.seqno = n := by rw [← hA]; rfl
  have hseg := newack_seg i n s
  have hnum : ∀ j, ((s.newack i n).conn j).numThreshDupackSegs =
      (s.conn j).numThreshDupackSegs := fun j => by
    by_cases hn : (s.conn i).lastAck < n
    · obtain ⟨-, hconn⟩ := newack_eq hn
      rw [hconn]
      rcases eq_or_ne j i with rfl | hj
      · rw [Function.update_self]
      · rw [Function.update_of_ne hj]
    · rw [newack, if_neg hn]
  have hcount : ((l.countP fun x => Acked A ((s.newack i n).seg x) : ℕ) : ℤ) ≤ A.amt := by
    have hle := hr.keyed.count_le i n
    rw [List.countP_map] at hle
    have hsame : (l.countP fun x => Acked A ((s.newack i n).seg x)) =
        l.countP ((fun e => decide (i = e.1 ∧ e.2.1 ≤ n)) ∘ s.key) := by
      rw [hseg, ← hsender, ← hseqno]
      rfl
    have hacks := hr.keyed.acks i
    have hamt : A.amt = if (s.conn i).lastAck < n then n - (s.conn i).lastAck else 0 := by
      rw [← hA, ackOf]
    rw [hsame, hamt]
    split_ifs <;> omega
  have hkept := scanList_kept A l {} (s.newack i n).toHostState
    (by rw [hseg]; exact hr.size) (by simpa using hcount) le_rfl (fun hc => Bool.noConfusion hc)
  obtain ⟨hkeys, hw⟩ := scanList_same A l {} (s.newack i n).toHostState
  have hmarks : Marks (scanList A l {} (s.newack i n).toHostState).state
      (scanList A l {} (s.newack i n).toHostState).kept :=
    scanList_marks (a := []) (hr.marks.same hnum fun y _ => by rw [hseg]; exact ⟨rfl, rfl⟩) hnd
      hclear
  rw [hkept] at hmarks ⊢
  by_cases hn : (s.conn i).lastAck < n
  · have hk := hr.keyed.ack hn
    refine ⟨Function.update top i (max (top i) n),
      hr.kept hsender hseqno hseg ?_ hkeys hw hmarks⟩
    rw [newack, if_pos hn]
    exact hk
  · have hold : s.newack i n = s := by rw [newack, if_neg hn]
    have hall : ((l.map s.key).filter fun e => ¬ (i = e.1 ∧ e.2.1 ≤ n)) = l.map s.key := by
      refine List.filter_eq_self.mpr fun e he => decide_eq_true fun hc => ?_
      have hlt := ((hr.keyed.listed _ _).mp (List.mem_map_of_mem he)).1
      have hacks := hr.keyed.acks i
      rw [← hc.1] at hlt
      omega
    refine ⟨top, hr.kept hsender hseqno hseg ?_ hkeys hw hmarks⟩
    rw [hall, hold]
    exact hr.keyed

end CorresHost

end Afabric
