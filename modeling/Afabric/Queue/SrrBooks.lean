import Afabric.Queue.SrrMatrix
import Mathlib.Algebra.Order.BigOperators.Group.Finset

/-!
# Queue — the books of smoothed round robin

`Books v last s` says that the weight matrix has the rows of the queues that count packets, and that
every counter is what it counts, where `last` is the queue whose last packet is still counted.
`enque`, `settle` and `serve` keep the books, so that no exit but the one on a queue id that is too
large is reached, and they end: a queue that is passed over is short of fewer bytes, or has lost its
turn (`work_pass`).  `Follows` is what the visits are: the rest of the column in service, and then
the columns of the terms that are read.
-/

namespace Afabric

/-- What the settings promise: a positive quantum, columns within the spread sequence, and for each
flow a queue with a weight within the columns. -/
structure SrrVars.Valid (v : SrrVars) : Prop where
  mtu : 0 < v.mtu
  order : v.maxColumn < maxWssOrder
  weight : ∀ f, 1 ≤ v.weight (v.f2q f) ∧ v.weight (v.f2q f) ≤ 2 ^ (v.maxColumn + 1) - 1

namespace SRR

/-- A queue that counts packets. -/
def Active (s : SRR) (q : ℕ) : Prop := 0 < (s.srr q).pkts

def bytes (l : List SrrPacket) : ℤ := (l.map fun p => (p.size : ℤ)).sum

/-- The number of queues. -/
def queues (v : SrrVars) : ℕ := v.maxqueuenumber.toNat + 1

structure Books (v : SrrVars) (last : Option ℕ) (s : SRR) : Prop where
  matrix : Matrix v (Active s) s
  pkts : ∀ q, (s.srr q).pkts = (s.srr q).queue.length + if last = some q then 1 else 0
  flows : ∀ q, ∀ p ∈ (s.srr q).queue, v.f2q p.flowid = q
  deficit : ∀ q, 0 ≤ (s.srr q).deficitCounter
  used : ∀ q, Active s q → (q : ℤ) ≤ v.maxqueuenumber
  pktcnt : s.pktcnt = ∑ q ∈ Finset.range (queues v), (s.srr q).pkts
  bytecnt : s.bytecnt = ∑ q ∈ Finset.range (queues v), bytes (s.srr q).queue +
    if last = none then 0 else (s.lastSize : ℤ)

variable {v : SrrVars} {s s' : SRR} {q x n : ℕ} {last last' : Option ℕ} {p : SrrPacket}
  {act : ℕ → Prop}

theorem bytes_nonneg (l : List SrrPacket) : 0 ≤ bytes l :=
  List.sum_nonneg fun z hz => by
    obtain ⟨p, -, rfl⟩ := List.mem_map.mp hz
    exact Int.natCast_nonneg p.size

theorem bytes_cons (p : SrrPacket) (l : List SrrPacket) : bytes (p :: l) = p.size + bytes l := by
  simp [bytes]

theorem bytes_append (l l' : List SrrPacket) : bytes (l ++ l') = bytes l + bytes l' := by
  simp [bytes]

/-! ### The matrix stays -/

structure SameMatrix (s s' : SRR) : Prop where
  wm : s'.wm = s.wm
  row : s'.row = s.row
  ptr : s'.ptr = s.ptr
  pwmCurr : s'.pwmCurr = s.pwmCurr
  wmEmptyFlag : s'.wmEmptyFlag = s.wmEmptyFlag
  currColumns : s'.currColumns = s.currColumns

theorem Matrix.of_same (h : Matrix v act s) (e : SameMatrix s s') : Matrix v act s' where
  holds := by
    obtain ⟨h₁, h₂, h₃, h₄, h₅, h₆, h₇⟩ := h.holds
    constructor
    case nodup => rwa [e.wm]
    case mem => rwa [e.wm]
    case curr => rwa [e.wm, e.pwmCurr]
    case curr_none => rwa [e.wm, e.pwmCurr]
    case flag => rwa [e.wm, e.wmEmptyFlag]
    case above => rwa [e.wm, e.currColumns]
    case top => rwa [e.wm, e.currColumns]
  row := e.row ▸ h.row
  row_nil := e.row ▸ h.row_nil
  small := h.small
  range := by
    rw [InRange, e.currColumns, e.ptr]
    exact h.range

/-- Another node in service. -/
theorem Matrix.move (h : Matrix v act s) {n' : WmNode} {p : ℕ} (hn : n'.queueid ∈ s.wm n'.weight)
    (hp : p < wssItems s.currColumns) :
    Matrix v act { s with ptr := p, pwmCurr := some n' } where
  holds := by
    obtain ⟨h₁, h₂, h₃, h₄, h₅, h₆, h₇⟩ := h.holds
    refine ⟨h₁, h₂, fun m hm => ?_, fun hnone => (by cases hnone), h₅, h₆, h₇⟩
    cases hm
    exact hn
  row := h.row
  row_nil := h.row_nil
  small := h.small
  range := by
    rw [InRange]
    dsimp only
    rwa [if_neg (h.holds.currColumns_ne hn)]

/-! ### The books after a queue has changed -/

theorem Books.lt_queues (hq : (q : ℤ) ≤ v.maxqueuenumber) : q < queues v := by
  rw [queues]
  omega

theorem Books.set (h : Books v last s) (b : PacketSRR) (hq : (q : ℤ) ≤ v.maxqueuenumber)
    (hsrr : s'.srr = Function.update s.srr q b) (hm : Matrix v (Active s') s')
    (hpkts : b.pkts = b.queue.length + if last' = some q then 1 else 0)
    (hlast : ∀ x, x ≠ q → (last' = some x ↔ last = some x))
    (hflows : ∀ p ∈ b.queue, v.f2q p.flowid = q) (hdef : 0 ≤ b.deficitCounter)
    (hpktcnt : s'.pktcnt = s.pktcnt + (b.pkts - (s.srr q).pkts))
    (hbytecnt : s'.bytecnt = s.bytecnt + (bytes b.queue - bytes (s.srr q).queue) +
      ((if last' = none then 0 else (s'.lastSize : ℤ)) -
        if last = none then 0 else (s.lastSize : ℤ))) : Books v last' s' := by
  have hset : ∀ (P : ℕ → PacketSRR → Prop), P q b → (∀ y, y ≠ q → P y (s.srr y)) →
      ∀ y, P y (s'.srr y) := by
    intro P hb hall y
    rw [hsrr]
    by_cases hy : y = q
    · rw [hy, Function.update_self]
      exact hb
    · rw [Function.update_of_ne hy]
      exact hall y hy
  have hlt := Books.lt_queues hq
  constructor
  case matrix => exact hm
  case pkts =>
    refine hset (fun y b => b.pkts = b.queue.length + if last' = some y then 1 else 0) hpkts
      fun y hy => ?_
    rw [h.pkts y]
    simp only [hlast y hy]
  case flows => exact hset (fun y b => ∀ p ∈ b.queue, v.f2q p.flowid = y) hflows fun y _ => h.flows y
  case deficit => exact hset (fun _ b => 0 ≤ b.deficitCounter) hdef fun y _ => h.deficit y
  case used =>
    exact hset (fun y b => 0 < b.pkts → (y : ℤ) ≤ v.maxqueuenumber) (fun _ => hq)
      fun y _ => h.used y
  case pktcnt =>
    rw [hsrr, sum_update hlt fun b : PacketSRR => b.pkts, ← h.pktcnt, hpktcnt]
  case bytecnt =>
    have hb := h.bytecnt
    rw [hsrr, sum_update hlt fun b : PacketSRR => bytes b.queue, hbytecnt, hb]
    omega

theorem active_set (b : PacketSRR) (hsrr : s'.srr = Function.update s.srr q b) :
    Active s' x ↔ if x = q then 0 < b.pkts else Active s x := by
  rw [Active, hsrr]
  by_cases hx : x = q
  · rw [if_pos hx, hx, Function.update_self]
  · rw [if_neg hx, Function.update_of_ne hx]
    exact Iff.rfl

theorem Books.pkts_nonneg (h : Books v last s) (q : ℕ) : 0 ≤ (s.srr q).pkts := by
  rw [h.pkts]
  split_ifs <;> omega

/-! ### What the visits are -/

/-- The visits with the numbers of the terms they are made at, counted from `t`. -/
def labelled : ℕ → List SrrVisit → List (ℕ × ℕ)
  | _, [] => []
  | t, w :: ws => (w.queueid, t + w.terms) :: labelled (t + w.terms) ws

def termsRead (ws : List SrrVisit) : ℕ := (ws.map SrrVisit.terms).sum

/-- The rest of the column in service. -/
def toCome (s : SRR) : List ℕ :=
  match s.pwmCurr with
  | none => []
  | some n => after n.queueid (s.wm n.weight)

/-- The queues of a column, labelled with a term. -/
def atTerm (t : ℕ) (l : List ℕ) : List (ℕ × ℕ) := l.map fun q => (q, t)

structure Follows (s : SRR) (ws : List SrrVisit) (s' : SRR) : Prop where
  wm : s'.wm = s.wm
  currColumns : s'.currColumns = s.currColumns
  ptr : s'.ptr = (s.ptr + termsRead ws) % wssItems s.currColumns
  visits : ∀ t, labelled t ws ++ atTerm (t + termsRead ws) (toCome s') =
    atTerm t (toCome s) ++ (List.range (termsRead ws)).flatMap
      fun j => atTerm (t + j + 1) (s.scan (s.ptr + j))

theorem labelled_append (t : ℕ) (a b : List SrrVisit) :
    labelled t (a ++ b) = labelled t a ++ labelled (t + termsRead a) b := by
  induction a generalizing t with
  | nil => rfl
  | cons w a ih =>
      rw [List.cons_append, labelled, labelled, ih, List.cons_append]
      simp [termsRead, Nat.add_assoc]

theorem termsRead_append (a b : List SrrVisit) :
    termsRead (a ++ b) = termsRead a + termsRead b := by
  simp [termsRead]

theorem Follows.of_same (hr : InRange s) (e : SameMatrix s s') : Follows s [] s' where
  wm := e.wm
  currColumns := e.currColumns
  ptr := by
    rw [InRange] at hr
    split_ifs at hr with hz
    · rw [e.ptr, hz, hr]
      rfl
    · rw [e.ptr]
      exact (Nat.mod_eq_of_lt hr).symm
  visits := fun t => by
    have hcome : toCome s' = toCome s := by rw [toCome, toCome, e.pwmCurr, e.wm]
    rw [hcome]
    exact (List.append_nil _).symm

theorem Follows.trans {a b : List SrrVisit} {s₁ : SRR} (h : Follows s a s₁) (h' : Follows s₁ b s') :
    Follows s (a ++ b) s' where
  wm := h'.wm.trans h.wm
  currColumns := h'.currColumns.trans h.currColumns
  ptr := by
    rw [h'.ptr, h.currColumns, h.ptr, Nat.mod_add_mod, termsRead_append, Nat.add_assoc]
  visits := fun t => by
    have hscan : ∀ j, s₁.scan (s₁.ptr + j) = s.scan (s.ptr + (termsRead a + j)) := fun j => by
      rw [scan, scan, h.wm, h.currColumns, h.ptr, Nat.mod_add_mod, Nat.add_assoc]
    have hv := h.visits t
    have hv' := h'.visits (t + termsRead a)
    rw [labelled_append, List.append_assoc, termsRead_append, ← Nat.add_assoc, hv', ← List.append_assoc,
      hv, List.append_assoc, List.range_add, List.flatMap_append, List.flatMap_map]
    congr 2
    refine List.flatMap_congr fun j _ => ?_
    rw [hscan, Nat.add_assoc t]

/-- A visit. -/
theorem Follows.visit {n n' : WmNode} {m : ℕ} (hn : s.pwmCurr = some n) (hl : Leads s n n' m)
    (hwm : s'.wm = s.wm) (hc : s'.currColumns = s.currColumns)
    (hptr : s'.ptr = (s.ptr + m) % wssItems s.currColumns) (hn' : s'.pwmCurr = some n') :
    Follows s [⟨n'.queueid, m⟩] s' where
  wm := hwm
  currColumns := hc
  ptr := by simpa [termsRead] using hptr
  visits := fun t => by
    have hread : termsRead [⟨n'.queueid, m⟩] = m := by simp [termsRead]
    have hcome : toCome s = after n.queueid (s.wm n.weight) := by rw [toCome, hn]
    have hcome' : toCome s' = after n'.queueid (s.wm n'.weight) := by rw [toCome, hn', hwm]
    have hlab : labelled t [⟨n'.queueid, m⟩] ++ atTerm (t + m) (toCome s') =
        atTerm (t + m) (n'.queueid :: after n'.queueid (s.wm n'.weight)) := by
      rw [hcome']
      rfl
    rw [hread, hlab, hcome]
    cases m with
    | zero =>
        rw [hl]
        exact (List.append_nil _).symm
    | succ m =>
        obtain ⟨hnil, hskip, hlast⟩ := hl
        have hempty : (List.range m).flatMap (fun j => atTerm (t + j + 1) (s.scan (s.ptr + j))) = [] := by
          refine List.flatMap_eq_nil_iff.mpr fun j hj => ?_
          rw [hskip j (List.mem_range.mp hj)]
          rfl
        rw [hnil, List.range_succ, List.flatMap_append, hempty, List.flatMap_singleton, hlast,
          Nat.add_assoc]
        rfl

/-! ### Arrivals -/

theorem valid_small (hv : v.Valid) (f : ℕ) :
    v.weight (v.f2q f) ≠ 0 ∧ v.weight (v.f2q f) < 2 ^ (v.maxColumn + 1) := by
  obtain ⟨h₁, h₂⟩ := hv.weight f
  have := Nat.two_pow_pos (v.maxColumn + 1)
  omega

theorem sameMatrix_arrive (q : ℕ) (b : PacketSRR) (p : SrrPacket) (s : SRR) :
    SameMatrix s (arrive q b p s) := ⟨rfl, rfl, rfl, rfl, rfl, rfl⟩

theorem bytes_accept (p : SrrPacket) (b : PacketSRR) :
    bytes (accept p b).queue - bytes b.queue = p.size := by
  rw [accept, bytes_append, bytes_cons]
  simp [bytes]

theorem Books.pkts_accept (h : Books v last s) (p : SrrPacket) (q : ℕ) :
    (accept p (s.srr q)).pkts =
      (accept p (s.srr q)).queue.length + if last = some q then 1 else 0 := by
  rw [accept]
  dsimp only
  rw [h.pkts, List.length_append, List.length_singleton]
  push_cast
  ring

theorem Books.flows_accept (h : Books v last s) (hp : v.f2q p.flowid = q) :
    ∀ r ∈ (accept p (s.srr q)).queue, v.f2q r.flowid = q := by
  intro r hr
  rcases List.mem_append.mp hr with hr | hr
  · exact h.flows q r hr
  · rwa [List.mem_singleton.mp hr]

/-- A packet for a queue that had none: the queue gets its row. -/
theorem Books.admit (h : Books v last s) (hq : (q : ℤ) ≤ v.maxqueuenumber)
    (hw : v.weight q ≠ 0 ∧ v.weight q < 2 ^ (v.maxColumn + 1)) (hp : v.f2q p.flowid = q)
    (hone : (accept p (s.srr q)).pkts = 1) {b : PacketSRR}
    (hb : b = { accept p (s.srr q) with deficitCounter := 0 }) :
    ∃ s₂ s₃ : SRR, addToWM v q (v.weight q) (arrive q (accept p (s.srr q)) p s) = .ok s₂ ∧
      s₃ = { s₂ with srr := Function.update s₂.srr q b } ∧
      Books v last s₃ ∧ s₃.lastQueueid = s.lastQueueid ∧ ¬ Active s q ∧ Active s₃ q := by
  have hbp : b.pkts = (s.srr q).pkts + 1 := by rw [hb]; rfl
  have hbone : b.pkts = 1 := by rw [hb]; exact hone
  have hidle : ¬ Active s q := by
    rw [Active]
    omega
  obtain ⟨s₂, hadd, hm₂, hsame⟩ :=
    addToWM_spec (h.matrix.of_same (sameMatrix_arrive q (accept p (s.srr q)) p s)) hidle hw
  obtain ⟨s₃, hs₃⟩ : ∃ s₃ : SRR, s₃ = { s₂ with srr := Function.update s₂.srr q b } := ⟨_, rfl⟩
  have hsrr₃ : s₃.srr = Function.update s.srr q b := by
    rw [hs₃]
    dsimp only
    rw [hsame.srr]
    exact Function.update_idem ..
  have he₃ : SameMatrix s₂ s₃ := by
    rw [hs₃]
    exact ⟨rfl, rfl, rfl, rfl, rfl, rfl⟩
  have hact : Active s₃ q := by
    rw [active_set b hsrr₃, if_pos rfl]
    omega
  refine ⟨s₂, s₃, hadd, hs₃, ?_, ?_, hidle, hact⟩
  · refine h.set b hq hsrr₃ ?_ (hb ▸ h.pkts_accept p q) (fun x _ => Iff.rfl)
      (hb ▸ h.flows_accept hp) (hb ▸ le_rfl) ?_ ?_
    · refine (hm₂.of_same he₃).congr fun x => ?_
      rw [active_set b hsrr₃]
      by_cases hx : x = q
      · rw [if_pos hx]
        exact iff_of_true (.inr hx) (by omega)
      · rw [if_neg hx]
        exact or_iff_left hx
    · rw [hs₃]
      dsimp only
      rw [hsame.pktcnt, arrive, hbp]
      ring
    · have hbytes : bytes b.queue - bytes (s.srr q).queue = p.size := hb ▸ bytes_accept p _
      rw [hbytes, hs₃]
      dsimp only
      rw [hsame.bytecnt, hsame.lastSize, arrive]
      ring
  · rw [hs₃]
    exact hsame.lastQueueid

/-- A packet for a queue that has its row already. -/
theorem Books.join (h : Books v last s) (hq : (q : ℤ) ≤ v.maxqueuenumber)
    (hp : v.f2q p.flowid = q) (hone : (accept p (s.srr q)).pkts ≠ 1) :
    Books v last (arrive q (accept p (s.srr q)) p s) := by
  have hact : ∀ x, Active s x ↔ Active (arrive q (accept p (s.srr q)) p s) x := by
    intro x
    have hset : Active (arrive q (accept p (s.srr q)) p s) x ↔
        if x = q then 0 < (accept p (s.srr q)).pkts else Active s x := active_set _ rfl
    rw [hset]
    by_cases hx : x = q
    · have := h.pkts_nonneg q
      rw [accept] at hone ⊢
      rw [if_pos hx, hx, Active]
      dsimp only at hone ⊢
      omega
    · rw [if_neg hx]
  refine h.set (accept p (s.srr q)) hq rfl
    ((h.matrix.of_same (sameMatrix_arrive ..)).congr hact) (h.pkts_accept p q) (fun x _ => Iff.rfl)
    (h.flows_accept hp) (h.deficit q) ?_ ?_
  · rw [arrive, accept]
    ring
  · rw [bytes_accept, arrive]
    ring

/-- A packet that is taken in or dropped. -/
theorem Books.enque (hv : v.Valid) (h : Books v last s)
    (hq : (v.f2q p.flowid : ℤ) ≤ v.maxqueuenumber) :
    ∃ o s', SRR.enque v p s = .ok (o, s') ∧ Books v last s' ∧ s'.lastQueueid = s.lastQueueid ∧
      ((∀ x, Active s' x ↔ Active s x) → Follows s [] s') := by
  obtain ⟨q, hqd⟩ : ∃ q, v.f2q p.flowid = q := ⟨_, rfl⟩
  rw [SRR.enque]
  dsimp only
  rw [hqd] at hq ⊢
  rw [if_neg (not_lt.mpr hq)]
  by_cases hfull : (s.srr q).pkts = v.qlim
  · rw [if_pos hfull]
    exact ⟨_, _, rfl, h, rfl, fun _ => .of_same h.matrix.range ⟨rfl, rfl, rfl, rfl, rfl, rfl⟩⟩
  rw [if_neg hfull]
  by_cases hone : (accept p (s.srr q)).pkts = 1
  · obtain ⟨s₂, s₃, hadd, hs₃, hbooks, hlast, hidle, hactive⟩ :=
      h.admit hq (hqd ▸ valid_small hv p.flowid) hqd hone rfl
    rw [if_pos hone, hadd]
    refine ⟨none, s₃, by rw [hs₃]; rfl, hbooks, hlast, fun hact => ?_⟩
    exact absurd ((hact q).mp hactive) hidle
  · rw [if_neg hone]
    exact ⟨none, _, rfl, h.join hq hqd hone, rfl,
      fun _ => .of_same h.matrix.range (sameMatrix_arrive ..)⟩

/-! ### Departures -/

theorem sameMatrix_depart (q : ℕ) (b : PacketSRR) (s : SRR) : SameMatrix s (depart q b s) :=
  ⟨rfl, rfl, rfl, rfl, rfl, rfl⟩

theorem Books.active_last (h : Books v (some q) s) : Active s q := by
  have hpkts := h.pkts q
  rw [if_pos rfl] at hpkts
  rw [Active]
  omega

theorem Books.pkts_sentOne (h : Books v (some q) s) : (sentOne (s.srr q)).pkts =
    (sentOne (s.srr q)).queue.length + if (none : Option ℕ) = some q then 1 else 0 := by
  have hpkts := h.pkts q
  rw [if_pos rfl] at hpkts
  rw [if_neg (by simp), sentOne]
  dsimp only
  omega

theorem none_iff_last (hx : x ≠ q) : (none : Option ℕ) = some x ↔ some q = some x :=
  iff_of_false (by simp) fun he => hx (Option.some.inj he).symm

/-- The packet was the last of its queue, which loses its row. -/
theorem Books.vacate (hv : v.Valid) (h : Books v (some q) s) (hz : (sentOne (s.srr q)).pkts = 0)
    {b : PacketSRR} (hb : b = { sentOne (s.srr q) with turn := 0, deficitCounter := 0 }) :
    ∃ s', (∀ fuel, delFromWM (fuel + 2) q (depart q b s) = .ok s') ∧ Books v none s' ∧
      ¬ Active s' q := by
  obtain ⟨s', hdel, hm', hsrr, hbytecnt, hpktcnt⟩ :=
    delFromWM_spec (h.matrix.of_same (sameMatrix_depart q b s)) h.active_last hv.order
  have hbp : b.pkts = (sentOne (s.srr q)).pkts := by rw [hb]
  have hidle : ¬ Active s' q := by
    rw [active_set b hsrr, if_pos rfl]
    omega
  refine ⟨s', hdel, ?_, hidle⟩
  refine h.set b (h.used q h.active_last) hsrr (hm'.congr fun x => ?_) (hb ▸ h.pkts_sentOne)
    (fun x hx => none_iff_last hx) (hb ▸ h.flows q) (hb ▸ le_rfl) ?_ ?_
  · rw [active_set b hsrr]
    by_cases hx : x = q
    · rw [if_pos hx]
      exact iff_of_false (fun h => h.2 hx) (by omega)
    · rw [if_neg hx]
      exact and_iff_left hx
  · rw [hpktcnt, hbp, sentOne, depart]
    ring
  · have hbq : b.queue = (s.srr q).queue := by rw [hb]; rfl
    rw [hbytecnt, hbq, if_pos rfl, if_neg (by simp), depart]
    ring

/-- The queue has packets left, and keeps its row. -/
theorem Books.remain (h : Books v (some q) s) (hz : (sentOne (s.srr q)).pkts ≠ 0) :
    Books v none (depart q (sentOne (s.srr q)) s) := by
  have hactive : ∀ x, Active s x ↔ Active (depart q (sentOne (s.srr q)) s) x := by
    intro x
    have hset : Active (depart q (sentOne (s.srr q)) s) x ↔
        if x = q then 0 < (sentOne (s.srr q)).pkts else Active s x := active_set _ rfl
    rw [hset]
    by_cases hx : x = q
    · have hlen := h.pkts_sentOne
      rw [if_neg (by simp)] at hlen
      rw [if_pos hx, hx]
      exact iff_of_true h.active_last (by omega)
    · rw [if_neg hx]
  refine h.set (sentOne (s.srr q)) (h.used q h.active_last) rfl
    ((h.matrix.of_same (sameMatrix_depart ..)).congr hactive) h.pkts_sentOne
    (fun x hx => none_iff_last hx) (h.flows q) (h.deficit q) ?_ ?_
  · rw [sentOne, depart]
    ring
  · rw [if_pos rfl, if_neg (by simp), sentOne, depart]
    ring

/-- The packet sent last leaves the books. -/
theorem Books.settle (hv : v.Valid) (h : Books v s.lastQueueid s) :
    ∃ s', (∀ fuel, SRR.settle (fuel + 2) s = .ok s') ∧ Books v none s' ∧
      ((∀ x, Active s' x ↔ Active s x) → SameMatrix s s') := by
  cases hl : s.lastQueueid with
  | none =>
      rw [hl] at h
      exact ⟨s, fun fuel => by rw [SRR.settle, hl], h, fun _ => ⟨rfl, rfl, rfl, rfl, rfl, rfl⟩⟩
  | some q =>
      rw [hl] at h
      have hsettle : ∀ fuel, SRR.settle fuel s = if (sentOne (s.srr q)).pkts = 0 then
          delFromWM fuel q (depart q { sentOne (s.srr q) with turn := 0, deficitCounter := 0 } s)
            else .ok (depart q (sentOne (s.srr q)) s) := by
        intro fuel
        rw [SRR.settle, hl]
      by_cases hz : (sentOne (s.srr q)).pkts = 0
      · obtain ⟨s', hdel, hbooks, hidle⟩ := h.vacate hv hz rfl
        exact ⟨s', fun fuel => (hsettle _).trans ((if_pos hz).trans (hdel fuel)), hbooks,
          fun hall => absurd ((hall q).mpr h.active_last) hidle⟩
      · exact ⟨_, fun fuel => (hsettle _).trans (if_neg hz), h.remain hz,
          fun _ => sameMatrix_depart ..⟩

/-- What a queue is short of for its first packet, twice, and its turn. -/
def shortage (b : PacketSRR) : ℕ :=
  match b.queue with
  | [] => 0
  | p :: _ => 2 * ((p.size : ℤ) - b.deficitCounter).toNat + if b.turn = 0 then 0 else 1

def work (v : SrrVars) (s : SRR) : ℕ := ∑ q ∈ Finset.range (queues v), shortage (s.srr q)

/-- A queue that is passed over. -/
theorem shortage_pass {b : PacketSRR} {rest : List SrrPacket} (hm : 0 < v.mtu)
    (hq : b.queue = p :: rest) (hlt : (credited v b).deficitCounter < p.size) :
    shortage { credited v b with turn := 0 } < shortage b := by
  have hcq : (credited v b).queue = p :: rest := by
    rw [credited]
    split_ifs <;> exact hq
  rw [shortage, shortage, hq]
  dsimp only
  rw [hcq]
  rw [credited] at hlt ⊢
  by_cases ht : b.turn = 0
  · simp only [if_pos ht, if_true] at hlt ⊢
    omega
  · simp only [if_neg ht, if_true] at hlt ⊢
    omega

theorem work_pass (hq : (q : ℤ) ≤ v.maxqueuenumber) {b : PacketSRR}
    (hsrr : s'.srr = Function.update s.srr q b) (hb : shortage b < shortage (s.srr q)) :
    work v s' < work v s := by
  have h := sum_update (Books.lt_queues hq) (fun b => (shortage b : ℤ)) s.srr b
  rw [work, work, hsrr, ← Int.ofNat_lt]
  push_cast
  omega

theorem credited_deficit (hm : 0 < v.mtu) {b : PacketSRR} (hb : 0 ≤ b.deficitCounter) :
    0 ≤ (credited v b).deficitCounter := by
  rw [credited]
  split_ifs
  · dsimp only
    omega
  · exact hb

/-- The queue in service, with its first packet. -/
theorem Books.head (h : Books v none s) (hact : Active s q) :
    ∃ n p rest, s.pwmCurr = some n ∧ (s.srr n.queueid).queue = p :: rest ∧
      v.f2q p.flowid = n.queueid ∧ Active s n.queueid := by
  obtain ⟨n, hn⟩ := h.matrix.curr_of_act hact
  have hactive : Active s n.queueid := ((h.matrix.holds.mem _ _).mp (h.matrix.holds.curr n hn)).1
  have hpkts := h.pkts n.queueid
  rw [if_neg (by simp)] at hpkts
  cases hq : (s.srr n.queueid).queue with
  | nil =>
      rw [hq] at hpkts
      rw [Active, hpkts] at hactive
      exact absurd hactive (by simp)
  | cons p rest => exact ⟨n, p, rest, hn, hq, h.flows _ p (hq ▸ List.mem_cons_self), hactive⟩

theorem credited_fields (v : SrrVars) (b : PacketSRR) :
    (credited v b).queue = b.queue ∧ (credited v b).pkts = b.pkts := by
  rw [credited]
  split_ifs <;> exact ⟨rfl, rfl⟩

theorem Books.bytecnt_ne (h : Books v none s) {rest : List SrrPacket} (hq : (q : ℤ) ≤ v.maxqueuenumber)
    (hp : (s.srr q).queue = p :: rest) (hsize : 0 < (p.size : ℤ)) : s.bytecnt ≠ 0 := by
  have hle := Finset.single_le_sum (f := fun x => bytes (s.srr x).queue)
    (fun x _ => bytes_nonneg _) (Finset.mem_range.mpr (Books.lt_queues hq))
  have hbytes := h.bytecnt
  have hrest := bytes_nonneg rest
  rw [if_pos rfl, add_zero] at hbytes
  rw [hp, bytes_cons] at hle
  omega

/-- The packet that a queue sends. -/
theorem Books.send (h : Books v none s) {rest : List SrrPacket} (hact : Active s q)
    (hp : (s.srr q).queue = p :: rest) (hle : (p.size : ℤ) ≤ (credited v (s.srr q)).deficitCounter) :
    Books v (some q) (release q (sendHead p rest (credited v (s.srr q))) p s) ∧
      ∀ x, ((release q (sendHead p rest (credited v (s.srr q))) p s).srr x).pkts = (s.srr x).pkts := by
  obtain ⟨b, hb⟩ : ∃ b, b = sendHead p rest (credited v (s.srr q)) := ⟨_, rfl⟩
  have hbq : b.queue = rest := by rw [hb]; rfl
  have hbp : b.pkts = (s.srr q).pkts := by rw [hb]; exact (credited_fields v (s.srr q)).2
  have hbd : 0 ≤ b.deficitCounter := by
    rw [hb, sendHead]
    dsimp only
    omega
  rw [← hb]
  have hpkts : ∀ x, ((release q b p s).srr x).pkts = (s.srr x).pkts := by
    intro x
    by_cases hx : x = q
    · rw [hx]
      exact (congrArg PacketSRR.pkts (Function.update_self ..)).trans hbp
    · exact congrArg PacketSRR.pkts (Function.update_of_ne hx ..)
  have he : SameMatrix s (release q b p s) := ⟨rfl, rfl, rfl, rfl, rfl, rfl⟩
  refine ⟨?_, hpkts⟩
  have hlen := h.pkts q
  rw [if_neg (by simp), hp, List.length_cons] at hlen
  refine h.set b (h.used q hact) rfl ((h.matrix.of_same he).congr fun x => ?_) ?_ (fun x hx => ?_) ?_
    hbd ?_ ?_
  · rw [Active, Active, hpkts]
  · rw [if_pos rfl, hbp, hbq, hlen]
    push_cast
    ring
  · exact iff_of_false (fun he => hx (Option.some.inj he).symm) (by simp)
  · rw [hbq]
    exact fun r hr => h.flows q r (hp ▸ List.mem_cons_of_mem p hr)
  · rw [hbp, release]
    ring
  · rw [hbq, hp, bytes_cons, if_neg (by simp), if_pos rfl, release]
    ring

/-- The books when a queue is passed over. -/
theorem Books.pass (hv : v.Valid) (h : Books v none s) (hact : Active s q) :
    Books v none (passOver q (credited v (s.srr q)) s) ∧
      ∀ x, ((passOver q (credited v (s.srr q)) s).srr x).pkts = (s.srr x).pkts := by
  obtain ⟨hcq, hcp⟩ := credited_fields v (s.srr q)
  have hcd := credited_deficit hv.mtu (h.deficit q)
  obtain ⟨c, hc⟩ : ∃ c, c = credited v (s.srr q) := ⟨_, rfl⟩
  rw [← hc] at hcq hcp hcd ⊢
  have hpkts : ∀ x, ((passOver q c s).srr x).pkts = (s.srr x).pkts := by
    intro x
    by_cases hx : x = q
    · have hself : (passOver q c s).srr q = { c with turn := 0 } := Function.update_self ..
      rw [hx, hself]
      exact hcp
    · exact congrArg PacketSRR.pkts (Function.update_of_ne hx ..)
  have he : SameMatrix s (passOver q c s) := ⟨rfl, rfl, rfl, rfl, rfl, rfl⟩
  refine ⟨h.set { c with turn := 0 } (h.used q hact) rfl ((h.matrix.of_same he).congr fun x => ?_) ?_
    (fun x _ => Iff.rfl) ?_ hcd ?_ ?_, hpkts⟩
  · rw [Active, Active, hpkts]
  · dsimp only
    rw [hcp, hcq]
    exact h.pkts q
  · dsimp only
    rw [hcq]
    exact h.flows q
  · dsimp only
    rw [hcp, passOver]
    ring
  · dsimp only
    rw [hcq, passOver]
    ring

theorem Books.move (h : Books v none s) {n' : WmNode} {m : ℕ} (hn : n'.queueid ∈ s.wm n'.weight) :
    Books v none { s with ptr := (s.ptr + m) % wssItems s.currColumns, pwmCurr := some n' } where
  matrix := h.matrix.move hn
    (Nat.mod_lt _ (wssItems_pos (h.matrix.holds.currColumns_ne hn)))
  pkts := h.pkts
  flows := h.flows
  deficit := h.deficit
  used := h.used
  pktcnt := h.pktcnt
  bytecnt := h.bytecnt

theorem Matrix.currColumns_le_order (hv : v.Valid) (h : Matrix v act s) :
    s.currColumns ≤ maxWssOrder :=
  h.currColumns_le.trans hv.order

/-- One round of the loop. -/
theorem serve_succ {n : WmNode} {rest : List SrrPacket} (hn : s.pwmCurr = some n)
    (hq : (s.srr n.queueid).queue = p :: rest) (hflow : v.f2q p.flowid = n.queueid) (fuel : ℕ) :
    SRR.serve v (fuel + 1) s =
      if (p.size : ℤ) ≤ (credited v (s.srr n.queueid)).deficitCounter then
        .ok ([], p, release n.queueid (sendHead p rest (credited v (s.srr n.queueid))) p s)
      else (getNextNode fuel (passOver n.queueid (credited v (s.srr n.queueid)) s)).bind fun t =>
        (SRR.serve v fuel t.2).map fun r => (visits t.1 t.2.pwmCurr ++ r.1, r.2) := by
  rw [SRR.serve, hn]
  dsimp only
  rw [hq]
  dsimp only
  rw [hflow, if_neg (not_not.mpr rfl)]
  cases getNextNode fuel (passOver n.queueid (credited v (s.srr n.queueid)) s) <;> rfl

/-- The queue in service is passed over, and the pointer moves to the next node. -/
theorem Books.next (hv : v.Valid) (h : Books v none s) {n : WmNode} {rest : List SrrPacket}
    (hn : s.pwmCurr = some n) (hact : Active s n.queueid)
    (hq : (s.srr n.queueid).queue = p :: rest)
    (hlt : (credited v (s.srr n.queueid)).deficitCounter < p.size) :
    ∃ m n' s', (∀ fuel, getNextNode (fuel + 2)
        (passOver n.queueid (credited v (s.srr n.queueid)) s) = .ok (some m, s')) ∧
      s'.pwmCurr = some n' ∧ Books v none s' ∧ work v s' < work v s ∧
      Follows s [⟨n'.queueid, m⟩] s' ∧ ∀ x, (s'.srr x).pkts = (s.srr x).pkts := by
  obtain ⟨hpass, hpkts⟩ := h.pass hv hact
  have hused := h.used n.queueid hact
  have hless : work v (passOver n.queueid (credited v (s.srr n.queueid)) s) < work v s :=
    work_pass hused rfl (shortage_pass hv.mtu hq hlt)
  have hbytes : (passOver n.queueid (credited v (s.srr n.queueid)) s).bytecnt ≠ 0 := by
    refine h.bytecnt_ne hused hq ?_
    have := credited_deficit hv.mtu (h.deficit n.queueid)
    omega
  obtain ⟨s₁, hs₁⟩ : ∃ s₁, s₁ = passOver n.queueid (credited v (s.srr n.queueid)) s := ⟨_, rfl⟩
  have hn₁ : s₁.pwmCurr = some n := by rw [hs₁]; exact hn
  have he : SameMatrix s s₁ := by
    rw [hs₁]
    exact ⟨rfl, rfl, rfl, rfl, rfl, rfl⟩
  rw [← hs₁] at hpass hpkts hless hbytes ⊢
  obtain ⟨m, n', hnext, hn', hleads⟩ := getNextNode_spec hpass.matrix.holds
    hpass.matrix.range (hpass.matrix.currColumns_le_order hv) hbytes hn₁
  exact ⟨m, n', _, hnext, rfl, hpass.move hn', hless,
    (Follows.of_same h.matrix.range he).trans (.visit hn₁ hleads rfl rfl rfl rfl), hpkts⟩

/-- **The loop of `deque` ends**, with a packet.  The induction is on what the queues are short of. -/
theorem Books.serve (hv : v.Valid) {k : ℕ} (hk : work v s < k) (h : Books v none s)
    (hact : Active s q) : ∃ ws p s', (∀ fuel, k + 2 ≤ fuel → SRR.serve v fuel s = .ok (ws, p, s')) ∧
      Books v s'.lastQueueid s' ∧ Follows s ws s' ∧ ∀ x, (s'.srr x).pkts = (s.srr x).pkts := by
  induction k generalizing s with
  | zero => exact absurd hk (Nat.not_lt_zero _)
  | succ k ih =>
      obtain ⟨n, p, rest, hn, hq, hflow, hactive⟩ := h.head hact
      have hround := serve_succ (v := v) hn hq hflow
      by_cases hle : (p.size : ℤ) ≤ (credited v (s.srr n.queueid)).deficitCounter
      · obtain ⟨hbooks, hpkts⟩ := h.send hactive hq hle
        have he : SameMatrix s
            (release n.queueid (sendHead p rest (credited v (s.srr n.queueid))) p s) :=
          ⟨rfl, rfl, rfl, rfl, rfl, rfl⟩
        refine ⟨[], p, _, fun fuel hf => ?_, hbooks, .of_same h.matrix.range he, hpkts⟩
        obtain ⟨f, rfl⟩ : ∃ f, fuel = f + 1 := ⟨fuel - 1, by omega⟩
        rw [hround, if_pos hle]
      · obtain ⟨m, n', s₂, hnext, hcurr, hbooks, hless, hvisit, hpkts⟩ :=
          h.next hv hn hactive hq (not_le.mp hle)
        have hact₂ : Active s₂ q := by rwa [Active, hpkts]
        obtain ⟨ws, p', s', hserve, hbooks', hfollows, hpkts'⟩ := ih (by omega) hbooks hact₂
        refine ⟨[⟨n'.queueid, m⟩] ++ ws, p', s', fun fuel hf => ?_, hbooks',
          hvisit.trans hfollows, fun x => (hpkts' x).trans (hpkts x)⟩
        -- a round takes one unit of fuel, and the search for a node two more
        obtain ⟨f, rfl⟩ : ∃ f, fuel = f + 2 + 1 := ⟨fuel - 3, by omega⟩
        rw [hround, if_neg hle, hnext f, Except.bind, hserve (f + 2) (by omega), hcurr]
        rfl

/-- **`deque` ends**, and reaches no exit. -/
theorem Books.deque (hv : v.Valid) (h : Books v s.lastQueueid s) :
    ∃ ws o s' N, (∀ fuel, N ≤ fuel → SRR.deque v fuel s = .ok (ws, o, s')) ∧
      Books v s'.lastQueueid s' ∧ ((∀ x, Active s' x ↔ Active s x) → Follows s ws s') := by
  obtain ⟨s₁, hsettle, h₁, hsame⟩ := h.settle hv
  have hdeque : ∀ fuel, SRR.deque v (fuel + 2) s =
      if s₁.pktcnt < 0 then .error .pktcntNegative
      else if s₁.pktcnt = 0 then .ok ([], none, { s₁ with lastQueueid := none })
      else if s₁.pwmCurr = none then .error .pwmCurrNull
      else (SRR.serve v (fuel + 2) s₁).map fun r => (r.1, some r.2.1, r.2.2) := by
    intro fuel
    rw [SRR.deque, hsettle]
  have hnonneg : ¬ s₁.pktcnt < 0 := by
    rw [h₁.pktcnt, not_lt]
    exact Finset.sum_nonneg fun x _ => h₁.pkts_nonneg x
  by_cases hz : s₁.pktcnt = 0
  · have he : SameMatrix s₁ { s₁ with lastQueueid := none } := ⟨rfl, rfl, rfl, rfl, rfl, rfl⟩
    refine ⟨[], none, { s₁ with lastQueueid := none }, 2, fun fuel hf => ?_, ?_, fun hact => ?_⟩
    · obtain ⟨f, rfl⟩ := Nat.exists_eq_add_of_le' hf
      rw [hdeque, if_neg hnonneg, if_pos hz]
    · exact ⟨h₁.matrix.of_same he, h₁.pkts, h₁.flows, h₁.deficit, h₁.used, h₁.pktcnt, h₁.bytecnt⟩
    · exact (Follows.of_same h.matrix.range (hsame hact)).trans (.of_same h₁.matrix.range he)
  · obtain ⟨q, hq⟩ : ∃ q, Active s₁ q := by
      by_contra hno
      refine hz (h₁.pktcnt.trans (Finset.sum_eq_zero fun x _ => ?_))
      have hx : ¬ Active s₁ x := fun hx => hno ⟨x, hx⟩
      exact le_antisymm (not_lt.mp hx) (h₁.pkts_nonneg x)
    obtain ⟨n, hn⟩ := h₁.matrix.curr_of_act hq
    obtain ⟨ws, p, s', hserve, hbooks, hfollows, hpkts⟩ :=
      h₁.serve hv (Nat.lt_succ_self (work v s₁)) hq
    refine ⟨ws, some p, s', work v s₁ + 1 + 2, fun fuel hf => ?_, hbooks, fun hact => ?_⟩
    · obtain ⟨f, rfl⟩ : ∃ f, fuel = f + 2 := ⟨fuel - 2, by omega⟩
      rw [hdeque, if_neg hnonneg, if_neg hz, hn, if_neg (Option.some_ne_none n), hserve _ hf]
      rfl
    · have hback : ∀ x, Active s₁ x ↔ Active s x := fun x => by
        rw [← hact x, Active, Active, hpkts]
      exact (Follows.of_same h.matrix.range (hsame hback)).trans hfollows

end SRR

end Afabric
