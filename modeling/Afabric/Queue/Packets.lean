import Afabric.Queue.DropTail

/-!
# Queue — the packets in the queue

The structural side of the operations: which packets are in the queue after them, and in what
order.  `Valid` says that the packets stand in order of arrival, which makes them distinct, and
that `len_` counts them.  On a valid queue `remove` finds its target (`remove_eq`), so an
operation returns whenever `drop_prio` does not throw, and it takes the packets that leave out of
the list and nothing else.
-/

namespace Afabric

/-- The packets are in order of arrival, and counted. -/
structure BadTrackingPacketQueue.Valid (q : BadTrackingPacketQueue) : Prop where
  sorted : q.pkts.Pairwise fun x y => x.uid < y.uid
  len_eq : q.len = q.pkts.length

namespace BadTrackingPacketQueue

variable {q : BadTrackingPacketQueue} {A B : List Packet} {p t : Packet}

@[simp] theorem noteEnque_pkts : (q.noteEnque p).pkts = q.pkts := by unfold noteEnque; split <;> rfl

@[simp] theorem noteEnque_len : (q.noteEnque p).len = q.len := by unfold noteEnque; split <;> rfl

@[simp] theorem noteDeque_pkts : (q.noteDeque p).pkts = q.pkts := by unfold noteDeque; split <;> rfl

@[simp] theorem noteDeque_len : (q.noteDeque p).len = q.len := by unfold noteDeque; split <;> rfl

@[simp] theorem enque_pkts : (q.enque p).pkts = q.pkts ++ [p] := by simp [enque]

theorem Valid.enque (h : q.Valid) (hp : ∀ x ∈ q.pkts, x.uid < p.uid) : (q.enque p).Valid := by
  refine ⟨?_, ?_⟩
  · rw [enque_pkts, List.pairwise_append]
    exact ⟨h.sorted, by simp, by simpa using hp⟩
  · simp [BadTrackingPacketQueue.enque, h.len_eq]

theorem Valid.uid_ne (h : q.Valid) (hq : q.pkts = A ++ t :: B) :
    (∀ x ∈ A, x.uid < t.uid) ∧ ∀ x ∈ B, t.uid < x.uid := by
  have hs := h.sorted
  rw [hq, List.pairwise_append] at hs
  exact ⟨fun x hx => hs.2.2 x hx t (by simp), (List.pairwise_cons.mp hs.2.1).1⟩

theorem Valid.uid_inj (h : q.Valid) {x y : Packet} (hx : x ∈ q.pkts) (hy : y ∈ q.pkts)
    (e : x.uid = y.uid) : x = y := by
  obtain ⟨A, B, hq⟩ := List.append_of_mem hx
  obtain ⟨h₁, h₂⟩ := h.uid_ne hq
  rw [hq] at hy
  rcases List.mem_append.mp hy with hy | hy
  · have := h₁ y hy
    omega
  · rcases List.mem_cons.mp hy with rfl | hy
    · rfl
    · have := h₂ y hy
      omega

/-- `remove` on a packet of the queue: a bad packet at the head is counted off twice. -/
theorem remove_eq (h : q.Valid) (hq : q.pkts = A ++ t :: B) :
    q.remove t = some
      { pkts := A ++ B
        len := q.len - 1
        bytes := q.bytes - t.size
        numBadPackets :=
          q.numBadPackets - if t.isBadPrio then (if A = [] then 2 else 1) else 0 } := by
  have huid := (h.uid_ne hq).1
  cases A with
  | nil =>
      cases hb : t.isBadPrio <;> simp [remove, noteDeque, deque, hq, hb]
      omega
  | cons a A =>
      have ha : a.uid ≠ t.uid := Nat.ne_of_lt (huid a (by simp))
      have hA : ∀ x ∈ A, ¬ (x.uid = t.uid) := fun x hx =>
        Nat.ne_of_lt (huid x (by simp [hx]))
      have hfind : (A ++ t :: B).find? (fun x => decide (x.uid = t.uid)) = some t := by
        rw [List.find?_append, List.find?_eq_none.mpr (by simpa using hA)]
        simp
      have herase : (A ++ t :: B).eraseP (fun x => decide (x.uid = t.uid)) = A ++ B := by
        rw [List.eraseP_append_right _ (by simpa using hA)]
        simp
      cases hb : t.isBadPrio <;> simp [remove, noteDeque, hq, ha, hfind, herase, hb]

theorem Valid.of_sublist (h : q.Valid) {q' : BadTrackingPacketQueue}
    (hs : q'.pkts.Sublist q.pkts) (hl : q'.len = q'.pkts.length) : q'.Valid :=
  ⟨h.sorted.sublist hs, hl⟩

/-- How far the counter is below the number of bad packets. -/
def excess (q : BadTrackingPacketQueue) : Int := q.pkts.countP (·.isBadPrio) - q.numBadPackets

/-- What `remove` leaves. -/
theorem Valid.remove (h : q.Valid) (hq : q.pkts = A ++ t :: B) :
    ∃ q', q.remove t = some q' ∧ q'.Valid ∧ q'.pkts = A ++ B ∧
      q'.excess = q.excess + if t.isBadPrio ∧ A = [] then 1 else 0 := by
  refine ⟨_, remove_eq h hq, h.of_sublist (by simp [hq]) ?_, rfl, ?_⟩
  · have := h.len_eq
    simp only [hq, List.length_append, List.length_cons] at this ⊢
    omega
  · simp only [excess, hq, List.countP_append, List.countP_cons]
    cases hb : t.isBadPrio <;> by_cases hA : A = [] <;> simp [hA] <;> omega

theorem enque_excess : (q.enque p).excess = q.excess := by
  cases hb : p.isBadPrio with
  | false => simp [excess, enque, noteEnque, hb]
  | true =>
      have hcount : (q.pkts ++ [p]).countP (·.isBadPrio) = q.pkts.countP (·.isBadPrio) + 1 := by
        simp [hb]
      simp only [excess, enque, noteEnque, hb, if_true, hcount]
      omega

theorem Valid.deque (h : q.Valid) :
    q.deque.1 = q.pkts.head? ∧ q.deque.2.Valid ∧ q.deque.2.pkts = q.pkts.tail ∧
      q.deque.2.excess = q.excess := by
  cases hq : q.pkts with
  | nil => simp [BadTrackingPacketQueue.deque, hq, h]
  | cons p rest =>
      simp only [BadTrackingPacketQueue.deque, hq]
      refine ⟨rfl, h.of_sublist (by simp [hq]) ?_, by simp, ?_⟩
      · have := h.len_eq
        simp only [hq, List.length_cons, noteDeque_pkts, noteDeque_len] at this ⊢
        omega
      · cases hb : p.isBadPrio <;> simp [excess, noteDeque, hq, hb]
        omega

end BadTrackingPacketQueue

namespace DropTail

open BadTrackingPacketQueue

variable {q : BadTrackingPacketQueue}

/-- Removing bad packets in the order of the queue.  The counter suffers when the first of them
is the head, and only then. -/
theorem removeAll_spec (h : q.Valid) {D : List Packet} (hD : D.Sublist q.pkts)
    (hbad : ∀ x ∈ D, x.isBadPrio = true) :
    ∃ q', removeAll q D = some q' ∧ q'.Valid ∧ q'.pkts = q.pkts.filter (· ∉ D) ∧
      q.excess ≤ q'.excess ∧ (q'.excess = q.excess ↔ ∀ x ∈ D, q.pkts.head? ≠ some x) := by
  induction D generalizing q with
  | nil => exact ⟨q, rfl, h, by simp, le_rfl, by simp⟩
  | cons d D ih =>
      obtain ⟨r₁, r₂, hr, hd, hD'⟩ := List.cons_sublist_iff.mp hD
      obtain ⟨A, A', rfl⟩ := List.append_of_mem hd
      rw [List.append_assoc, List.cons_append] at hr
      have hsub : D.Sublist (A' ++ r₂) := hD'.trans (List.sublist_append_right _ _)
      generalize A' ++ r₂ = B at hr hsub
      obtain ⟨huA, huB⟩ := h.uid_ne hr
      obtain ⟨q₁, he₁, hv₁, hp₁, hx₁⟩ := h.remove hr
      obtain ⟨q₂, he₂, hv₂, hp₂, hle, hiff⟩ := ih hv₁
        (hp₁ ▸ hsub.trans (List.sublist_append_right _ _)) fun x hx => hbad x (by simp [hx])
      have hdA : d ∉ A := fun hm => absurd (huA d hm) (Nat.lt_irrefl _)
      have hdB : d ∉ B := fun hm => absurd (huB d hm) (Nat.lt_irrefl _)
      have hbd := hbad d (by simp)
      refine ⟨q₂, by simp [removeAll, he₁, he₂], hv₂, ?_, ?_, ?_⟩
      · rw [hp₂, hp₁, hr, List.filter_append, List.filter_append, List.filter_cons_of_neg (by simp)]
        congr 1
        · exact List.filter_congr fun x hx => by
            have : x ≠ d := fun e => hdA (e ▸ hx)
            simp [this]
        · exact List.filter_congr fun x hx => by
            have : x ≠ d := fun e => hdB (e ▸ hx)
            simp [this]
      · rw [hx₁] at hle
        split at hle <;> omega
      · rw [hr]
        cases A with
        | nil =>
            simp only [hbd, and_self, if_true] at hx₁
            simp only [List.nil_append, List.head?_cons]
            constructor
            · intro e
              omega
            · intro hne
              exact absurd rfl (hne d (by simp))
        | cons a A =>
            simp only [hbd, reduceCtorEq, and_false, if_false, Int.add_zero] at hx₁
            rw [hp₁] at hiff
            simp only [List.cons_append, List.head?_cons] at hiff ⊢
            rw [← hx₁, hiff]
            have had : a ≠ d := fun e => hdA (by simp [e])
            simp [had]

/-! ### The best packet -/

/-- The packet is the first one of the least priority value. -/
def IsFirstMin (l : List Packet) (p : Packet) : Prop :=
  ∃ A B, l = A ++ p :: B ∧ (∀ x ∈ A, p.prio < x.prio) ∧ ∀ x ∈ B, p.prio ≤ x.prio

/-- The packet is the first one of the greatest `key`. -/
def IsFirstMax (key : Packet → Int) (l : List Packet) (p : Packet) : Prop :=
  ∃ A B, l = A ++ p :: B ∧ (∀ x ∈ A, key x < key p) ∧ ∀ x ∈ B, key x ≤ key p

theorem isFirstMax_unique {key : Packet → Int} {l : List Packet} {x y : Packet}
    (hx : IsFirstMax key l x) (hy : IsFirstMax key l y) : x = y := by
  obtain ⟨A, B, hl, hA, hB⟩ := hx
  obtain ⟨A', B', hl', hA', hB'⟩ := hy
  rw [hl] at hl'
  rcases List.append_eq_append_iff.mp hl' with ⟨C, rfl, hC⟩ | ⟨C, rfl, hC⟩
  · cases C with
    | nil => exact (List.cons.inj (by simpa using hC)).1
    | cons c C =>
        obtain ⟨rfl, rfl⟩ := List.cons.inj (by simpa using hC)
        have h₁ := hA' x (by simp)
        have h₂ := hB y (by simp)
        omega
  · cases C with
    | nil => exact (List.cons.inj (by simpa using hC)).1.symm
    | cons c C =>
        obtain ⟨rfl, rfl⟩ := List.cons.inj (by simpa using hC)
        have h₁ := hA y (by simp)
        have h₂ := hB' x (by simp)
        omega

theorem IsFirstMin.isFirstMax {l : List Packet} {p : Packet} (h : IsFirstMin l p) :
    IsFirstMax (fun x => -x.prio) l p := by
  obtain ⟨A, B, hl, hA, hB⟩ := h
  exact ⟨A, B, hl, fun x hx => Int.neg_lt_neg (hA x hx), fun x hx => Int.neg_le_neg (hB x hx)⟩

theorem foldl_isFirstMin {l rest : List Packet} {p : Packet} (h : IsFirstMin l p) :
    IsFirstMin (l ++ rest)
      (rest.foldl (fun best pp => if decide (pp.prio < best.prio) then pp else best) p) := by
  induction rest generalizing l p with
  | nil => simpa using h
  | cons x rest ih =>
      obtain ⟨A, B, rfl, hA, hB⟩ := h
      have hl : A ++ p :: B ++ x :: rest = A ++ p :: B ++ [x] ++ rest := by simp
      rw [hl, List.foldl_cons]
      refine ih ?_
      by_cases hx : x.prio < p.prio
      · rw [if_pos (by simpa using hx)]
        refine ⟨A ++ p :: B, [], rfl, fun y hy => ?_, by simp⟩
        rcases List.mem_append.mp hy with hy | hy
        · have := hA y hy
          omega
        · rcases List.mem_cons.mp hy with rfl | hy
          · exact hx
          · have := hB y hy
            omega
      · rw [if_neg (by simpa using hx)]
        refine ⟨A, B ++ [x], by simp, hA, fun y hy => ?_⟩
        rcases List.mem_append.mp hy with hy | hy
        · exact hB y hy
        · obtain rfl := List.mem_singleton.mp hy
          omega

theorem findBestPacket_spec {d : DropTail} (h : d.q.Valid) :
    (d.findBestPacket = none ↔ d.q.pkts = []) ∧
      ∀ best, d.findBestPacket = some best → IsFirstMin d.q.pkts best := by
  have hl := h.len_eq
  cases hq : d.q.pkts with
  | nil => simp [findBestPacket, findExtremePacket, hq]
  | cons p rest =>
      have hlen : d.q.len ≠ 0 := by
        rw [hl, hq, List.length_cons]
        omega
      simp only [findBestPacket, findExtremePacket, if_neg hlen, hq]
      refine ⟨by simp, fun best hb => ?_⟩
      obtain rfl := Option.some.inj hb
      exact foldl_isFirstMin (l := [p]) ⟨[], [], rfl, by simp, by simp⟩

/-! ### The scan over the flow of the best packet -/

variable {cfg : DropTailConfig} {A B : List Packet} {packet : Packet}

variable (cfg B) in
/-- The packets to drop are bad packets of the flow in front of the result, and with `keep_order_`
they are all of the flow that is in front of it. -/
theorem sameFlowScan_spec (hA : ∀ x ∈ A, x.uid ≠ packet.uid) :
    ∃ r D X Y, sameFlowScan cfg packet (A ++ packet :: B) = (r, D) ∧ A ++ [packet] = X ++ r :: Y ∧
      packet.isSameFlow r = true ∧ D.Sublist X ∧
      (∀ x ∈ D, packet.isSameFlow x = true ∧ cfg.dropLowPrio = true ∧ x.isBadPrio = true ∧
        packet.isBadPrio = false) ∧
      (cfg.keepOrder = true → ∀ x ∈ X, packet.isSameFlow x = true → x ∈ D) := by
  induction A with
  | nil =>
      exact ⟨packet, [], [], [], by simp [sameFlowScan], rfl, by simp [Packet.isSameFlow], by simp,
        by simp, by simp⟩
  | cons a A ih =>
      have ha : a.uid ≠ packet.uid := hA a (by simp)
      obtain ⟨r, D, X, Y, he, hs, hf, hsub, hD, hk⟩ := ih fun x hx => hA x (by simp [hx])
      rw [List.cons_append, sameFlowScan, if_neg ha]
      by_cases hfa : packet.isSameFlow a = true
      · rw [if_pos hfa]
        by_cases hdrop : (cfg.dropLowPrio && a.isBadPrio && !packet.isBadPrio) = true
        · rw [if_pos hdrop, he]
          refine ⟨r, a :: D, a :: X, Y, rfl, by rw [List.cons_append, hs]; rfl, hf, hsub.cons_cons a,
            fun x hx => ?_, fun hko x hx hfx => ?_⟩
          · rcases List.mem_cons.mp hx with rfl | hx
            · simp only [Bool.and_eq_true, Bool.not_eq_true'] at hdrop
              exact ⟨hfa, hdrop.1.1, hdrop.1.2, hdrop.2⟩
            · exact hD x hx
          · rcases List.mem_cons.mp hx with rfl | hx
            · simp
            · exact List.mem_cons_of_mem _ (hk hko x hx hfx)
        · rw [if_neg hdrop]
          by_cases hko : cfg.keepOrder = true
          · rw [if_pos hko]
            exact ⟨a, [], [], A ++ [packet], rfl, rfl, hfa, by simp, by simp, by simp⟩
          · rw [if_neg hko]
            exact ⟨packet, [], a :: A, [], rfl, rfl, by simp [Packet.isSameFlow], by simp, by simp,
              fun h => absurd h hko⟩
      · rw [if_neg hfa, he]
        refine ⟨r, D, a :: X, Y, rfl, by rw [List.cons_append, hs]; rfl, hf, hsub.cons a, hD,
          fun hko x hx hfx => ?_⟩
        rcases List.mem_cons.mp hx with rfl | hx
        · exact absurd hfx hfa
        · exact hk hko x hx hfx

/-- Without either option the scan changes nothing. -/
theorem sameFlowScan_off (hk : cfg.keepOrder = false) (hd : cfg.dropLowPrio = false)
    (l : List Packet) : sameFlowScan cfg packet l = (packet, []) := by
  induction l with
  | nil => rfl
  | cons x l ih => simp [sameFlowScan, hk, hd, ih]

/-- What `deque_priority` does to the queue `X ++ r :: Z`: it hands out `r` and drops `D`. -/
structure Handed (cfg : DropTailConfig) (q q' : BadTrackingPacketQueue) (best r : Packet)
    (D X Z : List Packet) : Prop where
  split : q.pkts = X ++ r :: Z
  flow : best.isSameFlow r = true
  front : D.Sublist X
  bad : ∀ x ∈ D, best.isSameFlow x = true ∧ cfg.dropLowPrio = true ∧ x.isBadPrio = true ∧
    best.isBadPrio = false
  order : cfg.keepOrder = true → ∀ x ∈ X, best.isSameFlow x = true → x ∈ D
  valid : q'.Valid
  left : q'.pkts = X.filter (· ∉ D) ++ Z
  le : q.excess ≤ q'.excess
  exact_iff : q'.excess = q.excess ↔
    (∀ x ∈ D, q.pkts.head? ≠ some x) ∧ ¬ (r.isBadPrio = true ∧ q.pkts.head? = some r)

theorem dequePriority_eq {d : DropTail} {best : Packet} (hb : d.findBestPacket = some best) :
    d.dequePriority cfg = (do
      let r ← d.handleSameFlow cfg best
      let packet ← r.result
      let q ← r.state.q.remove packet
      some { r with state := { r.state with q } }) := by
  simp only [dequePriority, hb]
  by_cases hopt : (cfg.keepOrder || cfg.dropLowPrio) = true
  · rw [if_pos hopt]
  · rw [if_neg hopt]
    simp only [Bool.or_eq_true, not_or, Bool.not_eq_true] at hopt
    simp [handleSameFlow, sameFlowScan_off hopt.1 hopt.2, removeAll]

variable (cfg) in
theorem dequePriority_spec {d : DropTail} (h : d.q.Valid) (hne : d.q.pkts ≠ []) :
    ∃ q' best r D X Z, d.findBestPacket = some best ∧ IsFirstMin d.q.pkts best ∧
      d.dequePriority cfg = some ⟨{ d with q := q' }, D, some r⟩ ∧
      sameFlowScan cfg best d.q.pkts = (r, D) ∧ Handed cfg d.q q' best r D X Z := by
  obtain ⟨hnone, hfirst⟩ := findBestPacket_spec h
  obtain ⟨best, hb⟩ := Option.ne_none_iff_exists'.mp (hnone.not.mpr hne)
  obtain ⟨A, B, hq, -, -⟩ := hfirst best hb
  have hAu : ∀ x ∈ A, x.uid ≠ best.uid := fun x hx => Nat.ne_of_lt ((h.uid_ne hq).1 x hx)
  obtain ⟨r, D, X, Y, he, hs, hf, hsub, hD, hk⟩ := sameFlowScan_spec cfg B hAu
  rw [← hq] at he
  have hsplit : d.q.pkts = X ++ r :: (Y ++ B) := by
    have : A ++ best :: B = A ++ [best] ++ B := by simp
    rw [hq, this, hs]
    simp
  obtain ⟨huX, huZ⟩ := h.uid_ne hsplit
  -- the packets to drop stand in front of the result
  have hDu : ∀ x ∈ D, x.uid < r.uid := fun x hx => huX x (hsub.mem hx)
  have hrest : (r :: (Y ++ B)).filter (· ∉ D) = r :: (Y ++ B) := by
    refine List.filter_eq_self.mpr fun x hx => ?_
    have hxu : r.uid ≤ x.uid := by
      rcases List.mem_cons.mp hx with rfl | hx
      · exact Nat.le_refl _
      · exact Nat.le_of_lt (huZ x hx)
    rw [decide_eq_true_eq]
    exact fun hm => absurd (hDu x hm) (Nat.not_lt.mpr hxu)
  have hfilter : d.q.pkts.filter (· ∉ D) = X.filter (· ∉ D) ++ r :: (Y ++ B) := by
    rw [hsplit, List.filter_append, hrest]
  obtain ⟨q₁, he₁, hv₁, hp₁, hle₁, hiff₁⟩ := removeAll_spec h
    (hsplit ▸ hsub.trans (List.sublist_append_left _ _)) fun x hx => (hD x hx).2.2.1
  obtain ⟨q₂, he₂, hv₂, hp₂, hx₂⟩ := hv₁.remove (hp₁.trans hfilter)
  refine ⟨q₂, best, r, D, X, Y ++ B, hb, hfirst best hb, ?_, he,
    hsplit, hf, hsub, hD, hk, hv₂, hp₂, ?_, ?_⟩
  · rw [dequePriority_eq hb]
    simp [handleSameFlow, he, he₁, he₂]
  · rw [hx₂]
    split <;> omega
  · -- the result is at the head when nothing is left in front of it
    have hhead : d.q.pkts.head? = some r → X = [] := fun e => by
      cases X with
      | nil => rfl
      | cons x X =>
          have hx := huX x (by simp)
          obtain rfl : x = r := by simpa [hsplit] using e
          omega
    rw [hx₂, ← hiff₁]
    constructor
    · intro e
      refine ⟨by split at e <;> omega, fun ⟨hbr, hr⟩ => ?_⟩
      rw [hhead hr, List.filter_nil, if_pos ⟨hbr, rfl⟩] at e
      omega
    · rintro ⟨e, hr⟩
      rw [e, if_neg, Int.add_zero]
      rintro ⟨hbr, hX⟩
      cases X with
      | nil => exact hr ⟨hbr, by rw [hsplit]; rfl⟩
      | cons x X =>
          have hxD : x ∉ D := fun hx => (hiff₁.mp e) x hx (by rw [hsplit]; rfl)
          rw [List.filter_cons_of_pos (by simpa using hxD)] at hX
          exact absurd hX (by simp)

/-! ### The packet an overflow drops -/

section Select

variable {c : Packet → Int → Bool} {key : Packet → Int} {l t : List Packet} {h : Packet}

/-- One round of the selection loops of `drop_prio` and `drop_smart`. -/
def select (c : Packet → Int → Bool) (key : Packet → Int) (m : Packet × Int) (pp : Packet) :
    Packet × Int :=
  if c pp m.2 then (pp, key pp) else m

variable (c key l) in
theorem foldl_select_mem (m : Packet × Int) : (l.foldl (select c key) m).1 ∈ m.1 :: l := by
  induction l generalizing m with
  | nil => simp
  | cons x l ih =>
      rw [List.foldl_cons]
      have := ih (select c key m x)
      unfold select at this ⊢
      split at this <;> simp_all
      tauto

theorem foldl_select_stay {m : Packet × Int} (hl : ∀ x ∈ l, c x m.2 = false) :
    l.foldl (select c key) m = m := by
  induction l with
  | nil => rfl
  | cons x l ih =>
      have hx : select c key m x = m := by rw [select, hl x (by simp)]; rfl
      rw [List.foldl_cons, hx]
      exact ih fun y hy => hl y (by simp [hy])

variable (key) in
theorem foldl_select_move {m : Packet × Int} {x : Packet} (hx : x ∈ l) (hc : c x m.2 = true) :
    (l.foldl (select c key) m).1 ∈ l := by
  induction l with
  | nil => simp at hx
  | cons y l ih =>
      rw [List.foldl_cons]
      by_cases hy : c y m.2 = true
      · rw [show select c key m y = (y, key y) by rw [select, if_pos hy]]
        exact foldl_select_mem c key l (y, key y)
      · rw [show select c key m y = m by rw [select, if_neg hy]]
        rcases List.mem_cons.mp hx with rfl | hx
        · exact absurd hc hy
        · exact List.mem_cons_of_mem _ (ih hx)

/-- The first packet is selected when it is alone, or when it qualifies and no later one does
against it. -/
theorem foldl_select_eq_head {p : Packet} (hht : h ∉ t) (hp : p ∈ h :: t) (hpt : t ≠ [] → p ∈ t) :
    ((h :: t).foldl (select c key) (p, 0)).1 = h ↔
      t = [] ∨ (c h 0 = true ∧ ∀ x ∈ t, c x (key h) = false) := by
  by_cases ht : t = []
  · subst ht
    obtain rfl : p = h := by simpa using hp
    simp only [List.foldl_cons, List.foldl_nil, select, true_or, iff_true]
    split <;> rfl
  have hpt := hpt ht
  rw [List.foldl_cons]
  by_cases hc : c h 0 = true
  · rw [show select c key (p, 0) h = (h, key h) by rw [select, if_pos hc]]
    by_cases hall : ∀ x ∈ t, c x (key h) = false
    · rw [foldl_select_stay hall]
      exact iff_of_true rfl (.inr ⟨hc, hall⟩)
    · push Not at hall
      obtain ⟨x, hx, hcx⟩ := hall
      have hmem := foldl_select_move key (m := (h, key h)) hx (by simpa using hcx)
      constructor
      · intro e
        exact absurd (e ▸ hmem) hht
      · rintro (e | ⟨-, e⟩)
        · exact absurd e ht
        · exact absurd (e x hx) hcx
  · rw [show select c key (p, 0) h = (p, 0) by rw [select, if_neg hc]]
    have hmem := foldl_select_mem c key t (p, 0)
    constructor
    · intro e
      rcases List.mem_cons.mp hmem with hm | hm
      · have hph : p = h := hm.symm.trans e
        exact absurd (hph ▸ hpt) hht
      · exact absurd (e ▸ hm) hht
    · rintro (e | ⟨e, -⟩)
      · exact absurd e ht
      · exact absurd e hc

end Select

section Overflow

variable {d : DropTail} {p : Packet}

/-- The count of the packet's flow, as `drop_smart` reads it. -/
def count (cfg : DropTailConfig) (d : DropTail) (pp : Packet) : Int :=
  (d.sqCounts (cfg.hash pp.flow)).getD 0

theorem maxPrio_eq (cfg : DropTailConfig) (q : BadTrackingPacketQueue) (p : Packet) :
    maxPrio cfg q p =
      (q.pkts.foldl (select (fun pp k => eligible cfg q pp && decide (k ≤ pp.prio)) (·.prio))
        (p, 0)).1 := by
  unfold maxPrio
  congr 2
  funext m pp
  simp [select]

theorem maxCount_eq (cfg : DropTailConfig) (d : DropTail) (q : BadTrackingPacketQueue) (p : Packet) :
    maxCount cfg d q p =
      (q.pkts.foldl (select (fun pp k => (d.sqCounts (cfg.hash pp.flow)).isSome &&
        decide (k < count cfg d pp)) (count cfg d)) (p, 0)).1 := by
  unfold maxCount
  congr 2
  funext m pp
  cases hc : d.sqCounts (cfg.hash pp.flow) <;> simp [select, count, hc]

/-- The packet an overflow takes out of the middle of the queue. -/
def victim (cfg : DropTailConfig) (d : DropTail) (p : Packet) : Packet :=
  if cfg.dropPrio then maxPrio cfg (d.q.enque p) p else maxCount cfg d (d.q.enque p) p

variable (cfg d p) in
theorem victim_mem : victim cfg d p ∈ d.q.pkts ++ [p] := by
  have hsub : ∀ x, x ∈ p :: (d.q.pkts ++ [p]) → x ∈ d.q.pkts ++ [p] := by simp
  unfold victim
  split
  · rw [maxPrio_eq, enque_pkts]
    exact hsub _ (foldl_select_mem _ _ _ (p, 0))
  · rw [maxCount_eq, enque_pkts]
    exact hsub _ (foldl_select_mem _ _ _ (p, 0))

/-- The overflow goes through `remove`. -/
def Evicts (cfg : DropTailConfig) (d : DropTail) (p : Packet) : Prop :=
  d.willOverflow cfg p = true ∧ cfg.dropFront = false ∧
    (cfg.dropPrio = true ∨ cfg.dropSmart = true)

/-- The overflow removes a bad packet from the head. -/
def EvictsBadHead (cfg : DropTailConfig) (d : DropTail) (p : Packet) : Prop :=
  Evicts cfg d p ∧ (victim cfg d p).isBadPrio = true ∧
    (d.q.pkts ++ [p]).head? = some (victim cfg d p)

instance : Decidable (EvictsBadHead cfg d p) :=
  inferInstanceAs (Decidable ((_ ∧ _ ∧ (_ ∨ _)) ∧ _ ∧ _))

/-- `drop_prio` throws. -/
def Throws (cfg : DropTailConfig) (d : DropTail) (p : Packet) : Prop :=
  d.willOverflow cfg p = true ∧ cfg.dropFront = false ∧ cfg.dropPrio = true ∧ cfg.qib = false ∧
    0 ≤ cfg.goodPrioQlim

/-- What a change to the queue keeps of the packets it keeps: arrival number and flow. -/
def SameKeys (l l' : List Packet) : Prop :=
  ∀ y ∈ l', ∃ z ∈ l, z.uid = y.uid ∧ z.flow = y.flow

theorem markEcn_spec (h : d.q.Valid) :
    d.markEcn.q.Valid ∧ SameKeys d.q.pkts d.markEcn.q.pkts ∧ d.markEcn.q.excess = d.q.excess := by
  have hid : SameKeys d.q.pkts d.q.pkts := fun y hy => ⟨y, hy, rfl, rfl⟩
  unfold markEcn
  split
  case h_1 m _ =>
    split
    · let f : Packet → Packet := fun x => if x.uid = m.uid then { x with ce := true } else x
      have hf : ∀ x, (f x).uid = x.uid ∧ (f x).flow = x.flow ∧ (f x).isBadPrio = x.isBadPrio := by
        intro x
        simp only [f]
        split <;> simp [Packet.flow, Packet.isBadPrio]
      refine ⟨⟨?_, by simpa using h.len_eq⟩, fun y hy => ?_, ?_⟩
      · refine List.pairwise_map.mpr (h.sorted.imp fun {x y} hxy => ?_)
        have h₁ := (hf x).1
        have h₂ := (hf y).1
        simp only [f] at h₁ h₂
        omega
      · obtain ⟨z, hz, rfl⟩ := List.mem_map.mp hy
        exact ⟨z, hz, (hf z).1.symm, (hf z).2.1.symm⟩
      · have hbad : (fun x => (f x).isBadPrio) = fun x => x.isBadPrio := funext fun x => (hf x).2.2
        simp only [excess, List.countP_map]
        exact congrArg (fun g => ((List.countP g d.q.pkts : Nat) : Int) - d.q.numBadPackets) hbad
    · exact ⟨h, hid, rfl⟩
  · exact ⟨h, hid, rfl⟩

/-- What `handle_overflow` leaves of the queue. -/
theorem handleOverflow_spec (h : d.q.Valid) (hp : ∀ x ∈ d.q.pkts, x.uid < p.uid)
    (hov : d.willOverflow cfg p = true) (hnt : ¬ Throws cfg d p) :
    ∃ x, d.handleOverflow cfg p = some x ∧ x.result = none ∧ x.state.q.Valid ∧
      SameKeys (d.q.pkts ++ [p]) x.state.q.pkts ∧
      x.state.q.excess = d.q.excess + if EvictsBadHead cfg d p then 1 else 0 := by
  have hv := h.enque hp
  have hsub : ∀ l : List Packet, l.Sublist (d.q.pkts ++ [p]) → SameKeys (d.q.pkts ++ [p]) l :=
    fun l hl y hy => ⟨y, hl.mem hy, rfl, rfl⟩
  by_cases hf : cfg.dropFront = true
  · obtain ⟨-, h₁, h₂, h₃⟩ := hv.deque
    refine ⟨_, by rw [handleOverflow, if_pos hf], rfl, h₁, ?_, ?_⟩
    · simp only [dropFront, h₂, enque_pkts]
      exact hsub _ (List.tail_sublist _)
    · simp only [dropFront, h₃, enque_excess]
      rw [if_neg fun e => absurd hf (by simp [e.1.2.1]), Int.add_zero]
  -- both evictions remove the victim
  obtain ⟨A, B, hAB⟩ := List.append_of_mem (victim_mem cfg d p)
  have hq : (d.q.enque p).pkts = A ++ victim cfg d p :: B := by rw [enque_pkts, hAB]
  obtain ⟨q', hr, hv', hp', hx'⟩ := hv.remove hq
  have hhead : (d.q.pkts ++ [p]).head? = some (victim cfg d p) ↔ A = [] := by
    rw [hAB]
    cases A with
    | nil => simp
    | cons a A =>
        have ha := (hv.uid_ne hq).1 a (by simp)
        simp only [List.cons_append, List.head?_cons, Option.some.injEq, reduceCtorEq, iff_false]
        intro e
        rw [e] at ha
        omega
  have hev : ∀ he : Evicts cfg d p,
      ∃ x : Departure, some (⟨{ d with q := q' }, [victim cfg d p], none⟩ : Departure) = some x ∧
        x.result = none ∧ x.state.q.Valid ∧ SameKeys (d.q.pkts ++ [p]) x.state.q.pkts ∧
        x.state.q.excess = d.q.excess + if EvictsBadHead cfg d p then 1 else 0 := by
    intro he
    refine ⟨_, rfl, rfl, hv', ?_, ?_⟩
    · simp only [hp']
      refine hsub _ ?_
      rw [hAB]
      simp
    · simp only [hx', enque_excess, EvictsBadHead, hhead, he, true_and]
  by_cases hdp : cfg.dropPrio = true
  · have hthrow : ¬ (!cfg.qib ∧ cfg.goodPrioQlim ≥ 0) := fun e =>
      hnt ⟨hov, by simpa using hf, hdp, by simpa using e.1, e.2⟩
    have hvic : maxPrio cfg (d.q.enque p) p = victim cfg d p := by rw [victim, if_pos hdp]
    rw [handleOverflow, if_neg hf, if_pos hdp, dropPrio]
    simp only [if_neg hthrow, hvic, hr, Option.map_some]
    exact hev ⟨hov, by simpa using hf, .inl hdp⟩
  by_cases hds : cfg.dropSmart = true
  · have hvic : maxCount cfg d (d.q.enque p) p = victim cfg d p := by rw [victim, if_neg hdp]
    rw [handleOverflow, if_neg hf, if_neg hdp, if_pos hds, dropSmart]
    simp only [hvic, hr, Option.map_some]
    exact hev ⟨hov, by simpa using hf, .inr hds⟩
  · refine ⟨_, by rw [handleOverflow, if_neg hf, if_neg hdp, if_neg hds], rfl, h, ?_, ?_⟩
    · exact hsub _ (List.sublist_append_left _ _)
    · rw [if_neg fun e => e.1.2.2.elim hdp hds, Int.add_zero]

variable (cfg) in
/-- **`enque`** returns unless `drop_prio` throws.  The queue then holds packets it held before, or
the new one; the counter suffers when a bad packet is evicted from the head. -/
theorem enque_spec (h : d.q.Valid) (hp : ∀ x ∈ d.q.pkts, x.uid < p.uid) :
    (Throws cfg d p → d.enque cfg p = none) ∧ (¬ Throws cfg d p →
      ∃ x, d.enque cfg p = some x ∧ x.result = none ∧ x.state.q.Valid ∧
        SameKeys (d.q.pkts ++ [p]) x.state.q.pkts ∧
        x.state.q.excess = d.q.excess + if EvictsBadHead cfg d p then 1 else 0) := by
  have hq : Throws cfg d p → d.enque cfg p = none := by
    rintro ⟨hov, hf, hdp, hqib, hlim⟩
    simp [enque, takeIn, handleOverflow, dropPrio, hov, hf, hdp, hqib, hlim]
  refine ⟨hq, fun hnt => ?_⟩
  -- the state before the mark is set
  obtain ⟨x, he, hr, hv, hk, hx⟩ : ∃ x, d.takeIn cfg p = some x ∧ x.result = none ∧
      x.state.q.Valid ∧ SameKeys (d.q.pkts ++ [p]) x.state.q.pkts ∧
      x.state.q.excess = d.q.excess + if EvictsBadHead cfg d p then 1 else 0 := by
    by_cases hov : d.willOverflow cfg p = true
    · rw [takeIn, if_pos hov]
      exact handleOverflow_spec h hp hov hnt
    · rw [takeIn, if_neg hov]
      refine ⟨_, rfl, rfl, h.enque hp, fun y hy => ⟨y, by simpa using hy, rfl, rfl⟩, ?_⟩
      rw [if_neg fun e => hov e.1.1, Int.add_zero]
      exact enque_excess
  rw [enque, he, Option.map_some]
  by_cases hecn : cfg.ecnEnable ∧ x.state.q.len ≥ cfg.thresh
  · rw [if_pos hecn]
    obtain ⟨h₁, h₂, h₃⟩ := markEcn_spec hv
    refine ⟨_, rfl, hr, h₁, fun y hy => ?_, h₃.trans hx⟩
    obtain ⟨z, hz, hzu, hzf⟩ := h₂ y hy
    obtain ⟨w, hw, hwu, hwf⟩ := hk z hz
    exact ⟨w, hw, hwu.trans hzu, hwf.trans hzf⟩
  · rw [if_neg hecn]
    exact ⟨x, rfl, hr, hv, hk, hx⟩

end Overflow

end DropTail

end Afabric
