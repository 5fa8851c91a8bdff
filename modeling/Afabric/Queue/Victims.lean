import Afabric.Queue.Limits
import Afabric.Queue.Order

/-!
# Queue — which packets are dropped

`drop_prio` drops the packet of the greatest priority value whose removal makes room, and among
several of them the one that arrived last (`drop_prio_victim`).

With `drop_low_prio_` the scan of `handle_same_flow` collects the bad packets of the flow in front
of the best one, to drop them.  It leaves its loop at the first good packet of the flow.  With
`keep_order_` that packet is the one handed out, and nothing stale is left in front of it.  Without,
the best packet is handed out nevertheless, and the bad packets between the two stay
(`low_prio_cleaned_iff`).
-/

namespace Afabric

open BadTrackingPacketQueue DropTail

namespace DropTail

variable {cfg : DropTailConfig} {d : DropTail} {p : Packet}

/-! ### The victim of `drop_prio` -/

/-- The packet is the last one of the greatest priority value among those that qualify. -/
def IsLastMax (ok : Packet → Bool) (l : List Packet) (v : Packet) : Prop :=
  ∃ A B, l = A ++ v :: B ∧ ok v = true ∧ (∀ x ∈ A, ok x = true → x.prio ≤ v.prio) ∧
    ∀ x ∈ B, ok x = true → x.prio < v.prio

/-- The selection loop of `drop_prio` over `rest`, after `l`. -/
theorem foldl_select_lastMax {ok : Packet → Bool} {l : List Packet} (rest : List Packet)
    {m : Packet × Int}
    (hm : (m = (p, 0) ∧ ∀ x ∈ l, ok x = true → x.prio < 0) ∨
      m.2 = m.1.prio ∧ 0 ≤ m.2 ∧ IsLastMax ok l m.1) :
    ((rest.foldl (select (fun x k => ok x && decide (k ≤ x.prio)) (·.prio)) m).1 = p ∧
        ∀ x ∈ l ++ rest, ok x = true → x.prio < 0) ∨
      IsLastMax ok (l ++ rest)
        (rest.foldl (select (fun x k => ok x && decide (k ≤ x.prio)) (·.prio)) m).1 := by
  induction rest generalizing l m with
  | nil =>
      rw [List.append_nil]
      rcases hm with ⟨rfl, hm⟩ | ⟨-, -, hm⟩
      · exact .inl ⟨rfl, hm⟩
      · exact .inr hm
  | cons x rest ih =>
      have hl : l ++ x :: rest = l ++ [x] ++ rest := by simp
      rw [hl, List.foldl_cons]
      refine ih ?_
      have hm0 : 0 ≤ m.2 := by
        rcases hm with ⟨rfl, -⟩ | ⟨-, h, -⟩
        · exact le_rfl
        · exact h
      by_cases hx : (ok x && decide (m.2 ≤ x.prio)) = true
      · rw [select, if_pos hx]
        rw [Bool.and_eq_true, decide_eq_true_eq] at hx
        refine .inr ⟨rfl, hm0.trans hx.2, l, [], rfl, hx.1, fun y hy hok => ?_, by simp⟩
        rcases hm with ⟨rfl, hm⟩ | ⟨h₁, -, A, B, rfl, -, hA, hB⟩
        · exact (hm y hy hok).le.trans hx.2
        · rw [h₁] at hx
          rcases List.mem_append.mp hy with hy | hy
          · exact (hA y hy hok).trans hx.2
          · rcases List.mem_cons.mp hy with rfl | hy
            · exact hx.2
            · exact (hB y hy hok).le.trans hx.2
      · rw [select, if_neg hx]
        have hlt : ok x = true → x.prio < m.2 := by
          intro hok
          rw [hok, Bool.true_and, decide_eq_true_eq] at hx
          exact not_le.mp hx
        rcases hm with ⟨rfl, hm⟩ | ⟨h₁, h₂, A, B, rfl, hok, hA, hB⟩
        · refine .inl ⟨rfl, fun y hy hoky => ?_⟩
          rcases List.mem_append.mp hy with hy | hy
          · exact hm y hy hoky
          · obtain rfl := List.mem_singleton.mp hy
            exact hlt hoky
        · refine .inr ⟨h₁, h₂, A, B ++ [x], by simp, hok, hA, fun y hy hoky => ?_⟩
          rcases List.mem_append.mp hy with hy | hy
          · exact hB y hy hoky
          · obtain rfl := List.mem_singleton.mp hy
            exact h₁ ▸ hlt hoky

/-- `drop_prio` selects the last of the greatest priority value, or, when no packet that qualifies
has a value that is not negative, the new one. -/
theorem maxPrio_lastMax (q : BadTrackingPacketQueue) (p : Packet) :
    (maxPrio cfg q p = p ∧ ∀ x ∈ q.pkts, eligible cfg q x = true → x.prio < 0) ∨
      IsLastMax (eligible cfg q) q.pkts (maxPrio cfg q p) := by
  rw [maxPrio_eq]
  exact foldl_select_lastMax q.pkts (l := []) (m := (p, 0)) (.inl ⟨rfl, by simp⟩)

/-- The packets `drop_prio` can drop for the new packet: counting bytes, those whose removal brings
`byteLength()` below the limit; counting packets, all. -/
def Candidate (cfg : DropTailConfig) (d : DropTail) (p v : Packet) : Prop :=
  cfg.qib = true → d.q.bytes + p.size - v.size < qlimInBytes cfg

theorem eligible_iff (hmode : cfg.qib = false → cfg.goodPrioQlim < 0) (v : Packet) :
    eligible cfg (d.q.enque p) v = true ↔ Candidate cfg d p v := by
  rw [eligible, Candidate, enque_bytes]
  cases hq : cfg.qib with
  | true => simp
  | false =>
      have hlim := hmode hq
      simp [hlim]

/-- `enque` has dropped `v` for the new packet `p`. -/
structure DropsWorst (cfg : DropTailConfig) (d : DropTail) (p : Packet) (x : Departure)
    (v : Packet) : Prop where
  dropped : x.dropped = [v]
  mem : v ∈ d.q.pkts ++ [p]
  candidate : Candidate cfg d p v
  greatest : ∀ y ∈ d.q.pkts ++ [p], Candidate cfg d p y → y.prio ≤ v.prio
  latest : ∀ y ∈ d.q.pkts ++ [p], Candidate cfg d p y → y.prio = v.prio → y.uid ≤ v.uid
  left : x.state.q.pkts.map (·.uid) = ((d.q.pkts ++ [p]).filter (· ≠ v)).map (·.uid)

/-- `drop_prio` with any priorities of which one that qualifies is not negative. -/
theorem dropPrio_dropsWorst (h : d.q.Valid) (hp : ∀ x ∈ d.q.pkts, x.uid < p.uid)
    (hdp : cfg.dropPrio = true) (hf : cfg.dropFront = false) (hov : d.willOverflow cfg p = true)
    (hmode : cfg.qib = false → cfg.goodPrioQlim < 0)
    (hcand : ∃ x ∈ d.q.pkts ++ [p], Candidate cfg d p x ∧ 0 ≤ x.prio) :
    ∃ x v, d.enque cfg p = some x ∧ DropsWorst cfg d p x v := by
  have hv := h.enque hp
  obtain ⟨x, he, -⟩ := (enque_spec cfg h hp).2 fun hthrow =>
    absurd (hmode hthrow.2.2.2.1) (not_lt.mpr hthrow.2.2.2.2)
  have hd := enque_dropped h hp he
  rw [if_pos hov, evicted, if_neg (by simp [hf]), if_pos hdp] at hd
  obtain ⟨A, B, hl, hok, hA, hB⟩ : IsLastMax (eligible cfg (d.q.enque p)) (d.q.pkts ++ [p])
      (maxPrio cfg (d.q.enque p) p) := by
    rw [← enque_pkts]
    refine (maxPrio_lastMax (d.q.enque p) p).resolve_left fun hneg => ?_
    obtain ⟨y, hy, hc, h0⟩ := hcand
    have hlt := hneg.2 y (by rwa [enque_pkts]) ((eligible_iff hmode y).mpr hc)
    omega
  -- the loop keeps the last of the worst packets that it may take
  generalize maxPrio cfg (d.q.enque p) p = v at hd hl hok hA hB
  obtain ⟨huA, huB⟩ := hv.uid_ne (show (d.q.enque p).pkts = A ++ v :: B by rw [enque_pkts, hl])
  refine ⟨x, v, he, hd, by simp [hl], (eligible_iff hmode v).mp hok, fun y hy hc => ?_,
    fun y hy hc heq => ?_, ?_⟩
  · have hoky := (eligible_iff hmode y).mpr hc
    rw [hl] at hy
    rcases List.mem_append.mp hy with hy | hy
    · exact hA y hy hoky
    · rcases List.mem_cons.mp hy with rfl | hy
      · exact le_rfl
      · exact (hB y hy hoky).le
  · have hoky := (eligible_iff hmode y).mpr hc
    rw [hl] at hy
    rcases List.mem_append.mp hy with hy | hy
    · exact (huA y hy).le
    · rcases List.mem_cons.mp hy with rfl | hy
      · exact le_rfl
      · exact absurd heq (hB y hy hoky).ne
  · -- what is left is the queue without the victim, but for a mark
    obtain ⟨y, hy, hm, hdy, -⟩ := enque_takeIn he
    obtain ⟨q', hr, -, hpk, -⟩ := hv.remove
      (show (d.q.enque p).pkts = A ++ v :: B by rw [enque_pkts, hl])
    have hyq : y.state.q = q' := by
      rw [takeIn, if_pos hov, handleOverflow, if_neg (by simp [hf]), if_pos hdp, dropPrio,
        if_neg fun e => absurd (hmode (by simpa using e.1)) (not_lt.mpr e.2)] at hy
      obtain ⟨q₁, hq₁, rfl⟩ := Option.map_eq_some_iff.mp hy
      rw [hd] at hdy
      rw [← (List.cons.inj hdy).1, hr] at hq₁
      exact (Option.some.inj hq₁).symm
    have hne : ∀ z ∈ A ++ B, z ≠ v := by
      intro z hz e
      rcases List.mem_append.mp hz with hz | hz
      · exact absurd (huA z hz) (by simp [e])
      · exact absurd (huB z hz) (by simp [e])
    rw [hm.uids, hyq, hpk, hl, List.filter_append, List.filter_cons_of_neg (by simp),
      ← List.filter_append, List.filter_eq_self.mpr fun z hz => by simpa using hne z hz]

/-- **The victim of `drop_prio`.**  On a queue below its limit and with priorities that are not
negative, an arriving packet that would overflow it makes `enque` drop the packet of the greatest
priority value among all whose removal makes room (counting packets, among all), the last one to
arrive among equals, and nothing else changes place. -/
theorem drop_prio_victim (cfg : DropTailConfig) (d : DropTail) (p : Packet) (h : d.q.Valid)
    (hp : ∀ x ∈ d.q.pkts, x.uid < p.uid) (hprio : ∀ x ∈ d.q.pkts ++ [p], 0 ≤ x.prio)
    (hdp : cfg.dropPrio = true) (hf : cfg.dropFront = false) (hov : d.willOverflow cfg p = true)
    (hmode : cfg.qib = true ∧ d.q.bytes < qlimInBytes cfg ∨
      cfg.qib = false ∧ cfg.goodPrioQlim < 0) :
    ∃ x v, d.enque cfg p = some x ∧ DropsWorst cfg d p x v := by
  refine dropPrio_dropsWorst h hp hdp hf hov (fun hq => ?_)
    ⟨p, by simp, fun hq => ?_, hprio p (by simp)⟩
  · exact (hmode.resolve_left fun e => absurd e.1 (by simp [hq])).2
  · have hlim := (hmode.resolve_right fun e => absurd e.1 (by simp [hq])).2
    omega

/-- Packets of 900 and of 100 bytes, the small one of the worse priority. -/
def twoSizes : DropTail :=
  { init with q := ((BadTrackingPacketQueue.init.enque ⟨⟨900, 3, 0, 1, 0, false, false⟩, 0⟩).enque
      ⟨⟨100, 9, 0, 1, 0, false, false⟩, 1⟩) }

/-- A limit of 2000 bytes. -/
def bytePrio : DropTailConfig :=
  { QueueRun.pfabric with qib := true, qlim := 2, meanPktsize := 1000 }

/-- A third packet of 1200 bytes: without the small packet there would still be 2100, so the other
one goes. -/
theorem drop_prio_victim_bytes :
    ∃ x v, twoSizes.enque bytePrio ⟨⟨1200, 2, 0, 1, 0, false, false⟩, 2⟩ = some x ∧
      v.uid = 0 ∧ DropsWorst bytePrio twoSizes ⟨⟨1200, 2, 0, 1, 0, false, false⟩, 2⟩ x v := by
  obtain ⟨x, v, he, hv⟩ := drop_prio_victim bytePrio twoSizes ⟨⟨1200, 2, 0, 1, 0, false, false⟩, 2⟩
    ⟨by decide, by decide⟩ (by decide) (by decide) rfl rfl (by decide) (.inl ⟨rfl, by decide⟩)
  refine ⟨x, v, he, ?_, hv⟩
  obtain ⟨x', hx', hd⟩ : ∃ x' : Departure, twoSizes.enque bytePrio
      ⟨⟨1200, 2, 0, 1, 0, false, false⟩, 2⟩ = some x' ∧ x'.dropped.map (·.uid) = [0] :=
    ⟨_, rfl, by decide⟩
  obtain rfl := Option.some.inj (he.symm.trans hx')
  rw [hv.dropped] at hd
  simpa using hd

/-! ### The stale packets of `drop_low_prio_` -/

/-- Among packets in order of arrival, the ones up to the first that fails the test. -/
theorem mem_takeWhile_iff {ok : Packet → Bool} {l : List Packet}
    (hl : l.Pairwise fun x y => x.uid < y.uid) {y : Packet} (hy : y ∈ l) :
    y ∈ l.takeWhile ok ↔ ∀ x ∈ l, x.uid ≤ y.uid → ok x = true := by
  induction l with
  | nil => simp at hy
  | cons a l ih =>
      obtain ⟨ha, hl⟩ := List.pairwise_cons.mp hl
      have hay : a.uid ≤ y.uid := by
        rcases List.mem_cons.mp hy with rfl | hy
        · exact Nat.le_refl _
        · exact (ha y hy).le
      cases hok : ok a with
      | false =>
          rw [List.takeWhile_cons_of_neg (by simp [hok])]
          refine iff_of_false (by simp) fun hall => ?_
          exact absurd (hall a (by simp) hay) (by simp [hok])
      | true =>
          rw [List.takeWhile_cons_of_pos hok]
          rcases List.mem_cons.mp hy with rfl | hy
          · refine iff_of_true (by simp) fun x hx hle => ?_
            rcases List.mem_cons.mp hx with rfl | hx
            · exact hok
            · exact absurd (ha x hx) (Nat.not_lt.mpr hle)
          · have hne : y ≠ a := fun e => absurd (ha y hy) (by simp [e])
            rw [List.mem_cons, or_iff_right hne, ih hl hy]
            constructor
            · intro hall x hx hle
              rcases List.mem_cons.mp hx with rfl | hx
              · exact hok
              · exact hall x hx hle
            · exact fun hall x hx => hall x (List.mem_cons_of_mem _ hx)

/-- Without `keep_order_` the scan collects the bad packets of the flow up to its first good one. -/
theorem sameFlowScan_stale {A B : List Packet} {packet : Packet} (hko : cfg.keepOrder = false)
    (hdl : cfg.dropLowPrio = true) (hgood : packet.isBadPrio = false)
    (hA : ∀ x ∈ A, x.uid ≠ packet.uid) :
    sameFlowScan cfg packet (A ++ packet :: B) =
      (packet, (A.filter fun x => packet.isSameFlow x).takeWhile (·.isBadPrio)) := by
  induction A with
  | nil => simp [sameFlowScan]
  | cons a A ih =>
      have ha : a.uid ≠ packet.uid := hA a (by simp)
      have ih := ih fun x hx => hA x (by simp [hx])
      rw [List.cons_append, sameFlowScan, if_neg ha]
      cases hf : packet.isSameFlow a with
      | false =>
          rw [if_neg (by simp), ih, List.filter_cons_of_neg (by simp [hf])]
      | true =>
          rw [if_pos rfl, List.filter_cons_of_pos (by simp [hf])]
          cases hb : a.isBadPrio with
          | true =>
              rw [if_pos (by simp [hdl, hgood]), ih, List.takeWhile_cons_of_pos hb]
          | false =>
              rw [if_neg (by simp), if_neg (by simp [hko]),
                List.takeWhile_cons_of_neg (by simp [hb])]

/-- What `drop_low_prio_` is for: with a good packet handed out, no bad packet of its flow that
arrived before it is left, and only packets of its flow are dropped. -/
def Cleans (x : Departure) : Prop :=
  (∀ r ∈ x.result, r.isBadPrio = false →
    ∀ y ∈ x.state.q.pkts, y.flow = r.flow → y.isBadPrio = true → ¬ y.uid < r.uid) ∧
  ∀ y ∈ x.dropped, ∃ r ∈ x.result, y.flow = r.flow

/-- In front of the best packet, which is good, a bad packet of its flow stands behind a good
one. -/
def StaleBehindGood (d : DropTail) : Prop :=
  ∃ best ∈ d.findBestPacket, best.isBadPrio = false ∧
    ∃ g ∈ d.q.pkts, ∃ b ∈ d.q.pkts, g.flow = best.flow ∧ b.flow = best.flow ∧
      g.isBadPrio = false ∧ b.isBadPrio = true ∧ g.uid < b.uid ∧ b.uid < best.uid

/-- With `keep_order_` nothing stale is left. -/
theorem cleans_of_earliest {x : Departure} {best r : Packet}
    (h : QueueRun.Earliest cfg d x best r) : Cleans x := by
  refine ⟨fun r' hr' _ y hy hf _ hlt => ?_, fun y hy => ⟨r, h.result, ?_⟩⟩
  · obtain rfl : r' = r := Option.some.inj (hr'.symm.trans h.result)
    have hy' : y ∈ d.q.pkts ∧ y ≠ r' ∧ y ∉ x.dropped := by simpa [h.left] using hy
    exact absurd (h.least y hy'.1 (hf.trans h.flow) hy'.2.2) (Nat.not_le.mpr hlt)
  · rw [(h.dropped y hy).2.1, h.flow]

/-- The packets in front of one are those that arrived before it. -/
theorem mem_front_iff {q : BadTrackingPacketQueue} (h : q.Valid) {A B : List Packet} {x y : Packet}
    (hq : q.pkts = A ++ x :: B) : y ∈ A ↔ y ∈ q.pkts ∧ y.uid < x.uid := by
  obtain ⟨huA, huB⟩ := h.uid_ne hq
  rw [hq, List.mem_append, List.mem_cons]
  constructor
  · exact fun hy => ⟨.inl hy, huA y hy⟩
  · rintro ⟨hy | rfl | hy, hlt⟩
    · exact hy
    · exact absurd hlt (Nat.lt_irrefl _)
    · exact absurd (huB y hy) (Nat.lt_asymm hlt)

/-- If the best packet is bad, so is every other. -/
theorem bad_of_best_bad {best x : Packet} (h : d.q.Valid) (hb : d.findBestPacket = some best)
    (hbad : best.isBadPrio = true) (hx : x ∈ d.q.pkts) : x.isBadPrio = true := by
  obtain ⟨A, B, hq, hA, hB⟩ := (findBestPacket_spec h).2 best hb
  have hle : best.prio ≤ x.prio := by
    rw [hq] at hx
    rcases List.mem_append.mp hx with hm | hm
    · exact (hA x hm).le
    · rcases List.mem_cons.mp hm with rfl | hm
      · exact le_rfl
      · exact hB x hm
  simp only [Packet.isBadPrio, decide_eq_true_eq] at hbad ⊢
  omega

/-- Without `keep_order_`. -/
theorem cleans_iff_of_unordered (h : d.q.Valid) (hdq : cfg.dequePrio = true)
    (hdl : cfg.dropLowPrio = true) (hko : cfg.keepOrder = false) (hne : d.q.pkts ≠ []) :
    ∃ x, d.deque cfg = some x ∧ (Cleans x ↔ ¬ StaleBehindGood d) := by
  obtain ⟨q', best, r, D, X, Z, hb, -, he, hscan, hh⟩ := dequePriority_spec cfg h hne
  obtain ⟨A, B, hq, -, -⟩ := (findBestPacket_spec h).2 best hb
  have hdrop : ∀ y ∈ D, y.flow = r.flow := fun y hy => by
    rw [QueueRun.isSameFlow_iff.mp (hh.bad y hy).1, QueueRun.isSameFlow_iff.mp hh.flow]
  refine ⟨_, by rw [DropTail.deque, if_pos hdq, he], ?_⟩
  cases hgood : best.isBadPrio with
  | true =>
      have hr : r.isBadPrio = true := bad_of_best_bad h hb hgood (by simp [hh.split])
      refine iff_of_true ⟨fun r' hr' hg => ?_, fun y hy => ⟨r, rfl, hdrop y hy⟩⟩ ?_
      · obtain rfl := Option.some.inj hr'
        exact absurd hg (by simp [hr])
      · rintro ⟨b, hb', hbg, -⟩
        obtain rfl := Option.some.inj (hb.symm.trans hb')
        exact absurd hbg (by simp [hgood])
  | false =>
      have hs := sameFlowScan_stale (B := B) hko hdl hgood fun x hx => ((h.uid_ne hq).1 x hx).ne
      rw [← hq, hscan] at hs
      obtain ⟨rfl, hD⟩ := Prod.mk.inj hs
      have hA : ∀ y, y ∈ A ↔ y ∈ d.q.pkts ∧ y.uid < r.uid := fun _ => mem_front_iff h hq
      have hX : ∀ y, y ∈ X ↔ y ∈ d.q.pkts ∧ y.uid < r.uid := fun _ => mem_front_iff h hh.split
      -- what is left in front of the best packet is what the scan has not collected
      have hleft : ∀ y, y ∈ q'.pkts ∧ y.uid < r.uid ↔ y ∈ A ∧ y ∉ D := by
        intro y
        rw [hA, ← hX, hh.left, List.mem_append, List.mem_filter, decide_eq_true_eq]
        constructor
        · rintro ⟨hy | hy, hlt⟩
          · exact hy
          · exact absurd ((h.uid_ne hh.split).2 y hy) (Nat.lt_asymm hlt)
        · exact fun hy => ⟨.inl hy, ((hX y).mp hy.1).2⟩
      have hsorted : (A.filter fun x => r.isSameFlow x).Pairwise fun x y => x.uid < y.uid := by
        have hs := h.sorted
        rw [hq, List.pairwise_append] at hs
        exact hs.1.sublist List.filter_sublist
      have hflow : ∀ y, y ∈ (A.filter fun x => r.isSameFlow x) ↔ y ∈ A ∧ y.flow = r.flow := by
        intro y
        rw [List.mem_filter, QueueRun.isSameFlow_iff]
      have hmemD : ∀ y ∈ A, y.flow = r.flow →
          (y ∈ D ↔ ∀ x ∈ A, x.flow = r.flow → x.uid ≤ y.uid → x.isBadPrio = true) := by
        intro y hy hf
        rw [hD, mem_takeWhile_iff hsorted ((hflow y).mpr ⟨hy, hf⟩)]
        exact ⟨fun hall x hx hfx => hall x ((hflow x).mpr ⟨hx, hfx⟩),
          fun hall x hx => hall x ((hflow x).mp hx).1 ((hflow x).mp hx).2⟩
      constructor
      · rintro ⟨hclean, -⟩ ⟨best, hb', -, g, hg, b, hbm, hfg, hfb, hgg, hbb, hgb, hbr⟩
        obtain rfl := Option.some.inj (hb.symm.trans hb')
        have hbA : b ∈ A := (hA b).mpr ⟨hbm, hbr⟩
        have hgA : g ∈ A := (hA g).mpr ⟨hg, hgb.trans hbr⟩
        by_cases hbD : b ∈ D
        · have hbad := (hmemD b hbA hfb).mp hbD g hgA hfg hgb.le
          exact absurd hbad (by simp [hgg])
        · obtain ⟨hbq, hlt⟩ := (hleft b).mpr ⟨hbA, hbD⟩
          exact hclean r rfl hgood b hbq hfb hbb hlt
      · refine fun hstale => ⟨fun r' hr' _ y hy hf hbad hlt => ?_, fun y hy => ⟨r, rfl, hdrop y hy⟩⟩
        obtain rfl := Option.some.inj hr'
        obtain ⟨hyA, hyD⟩ := (hleft y).mp ⟨hy, hlt⟩
        rw [hmemD y hyA hf] at hyD
        push Not at hyD
        obtain ⟨g, hgA, hfg, hle, hgg⟩ := hyD
        have hne : g.uid ≠ y.uid := by
          intro e
          obtain rfl := h.uid_inj ((hA g).mp hgA).1 ((hA y).mp hyA).1 e
          exact hgg hbad
        exact hstale ⟨r, hb, hgood, g, ((hA g).mp hgA).1, y, ((hA y).mp hyA).1, hfg, hf,
          by simpa using hgg, hbad, by omega, hlt⟩

/-- **When `drop_low_prio_` cleans.**  A call of `deque` leaves no stale packet of the flow behind,
and drops none of another flow, if and only if `keep_order_` is on or no bad packet of the best
packet's flow stands between a good one of the flow and the best packet. -/
theorem low_prio_cleaned_iff (cfg : DropTailConfig) (d : DropTail) (h : d.q.Valid)
    (hdq : cfg.dequePrio = true) (hdl : cfg.dropLowPrio = true) :
    ∃ x, d.deque cfg = some x ∧ (Cleans x ↔ cfg.keepOrder = true ∨ ¬ StaleBehindGood d) := by
  by_cases hne : d.q.pkts = []
  · have hb := (findBestPacket_spec h).1.mpr hne
    refine ⟨⟨d, [], none⟩, by rw [DropTail.deque, if_pos hdq, dequePriority, hb],
      iff_of_true ⟨by simp, by simp⟩ (.inr ?_)⟩
    rintro ⟨best, hb', -⟩
    exact absurd (hb.symm.trans hb') (by simp)
  cases hko : cfg.keepOrder with
  | true =>
      obtain ⟨x, best, r, he, hE⟩ := QueueRun.deque_earliest h hdq hko hne
      exact ⟨x, he, iff_of_true (cleans_of_earliest hE) (.inl rfl)⟩
  | false =>
      obtain ⟨x, he, hx⟩ := cleans_iff_of_unordered h hdq hdl hko hne
      exact ⟨x, he, by simpa using hx⟩

/-- The options of aFabric's queue, without `keep_order_`. -/
def unordered : DropTailConfig := { QueueRun.pfabric with keepOrder := false, dropLowPrio := true }

/-- Of one flow a good packet, a bad one, and the best one. -/
def goodBadBest : DropTail :=
  { init with q := (((BadTrackingPacketQueue.init.enque ⟨⟨1500, 5, 0, 1, 0, false, false⟩, 0⟩).enque
      ⟨⟨1500, 2 ^ 30, 0, 1, 0, false, false⟩, 1⟩).enque ⟨⟨1500, 1, 0, 1, 0, false, false⟩, 2⟩) }

/-- The best packet is handed out, and the bad one that arrived before it stays. -/
theorem stale_left_behind :
    goodBadBest.q.Valid ∧ ∃ x, goodBadBest.deque unordered = some x ∧ ¬ Cleans x := by
  refine ⟨⟨by decide, by decide⟩, _, rfl, fun h => ?_⟩
  exact h.1 ⟨⟨1500, 1, 0, 1, 0, false, false⟩, 2⟩ (by rfl) (by decide)
    ⟨⟨1500, 2 ^ 30, 0, 1, 0, false, false⟩, 1⟩ (by decide) rfl (by decide) (by decide)

theorem low_prio_cleaned_iff_stale :
    ∃ x, goodBadBest.deque unordered = some x ∧
      (Cleans x ↔ unordered.keepOrder = true ∨ ¬ StaleBehindGood goodBadBest) :=
  low_prio_cleaned_iff unordered goodBadBest ⟨by decide, by decide⟩ rfl rfl

end DropTail

end Afabric
