import Afabric.Queue.SrrBooks

/-!
# Queue — sharing by weight

Runs of smoothed round robin.  An operation does what it does with every large enough fuel (`Step`).
In every state of a run the matrix has the nodes of the weights of the queues that count packets,
and as long as these queues stay the same, each of them is visited in a period of the spread sequence
as often as its weight says (`srr_shares`).
-/

namespace Afabric

namespace SRR

inductive Op where
  | enque (p : SrrPacket)
  | deque

def step (v : SrrVars) (fuel : ℕ) (s : SRR) : Op → Except SrrExit (List SrrVisit × SRR)
  | .enque p => (enque v p s).map fun r => ([], r.2)
  | .deque => (deque v fuel s).map fun r => (r.1, r.2.2)

/-- An operation, the visits it makes and the state it ends in. -/
def Step (v : SrrVars) (s : SRR) (op : Op) (ws : List SrrVisit) (s' : SRR) : Prop :=
  ∃ n, ∀ fuel, n ≤ fuel → step v fuel s op = .ok (ws, s')

inductive Reachable (v : SrrVars) : SRR → Prop
  | init : Reachable v .init
  | step {s s' : SRR} {op : Op} {ws : List SrrVisit} (h : Reachable v s) (hs : Step v s op ws s') :
      Reachable v s'

/-- Operations that leave the set of backlogged queues as it is, and the visits they make. -/
inductive Steady (v : SrrVars) (s : SRR) : List SrrVisit → SRR → Prop
  | refl : Steady v s [] s
  | step {s₁ s₂ : SRR} {op : Op} {ws us : List SrrVisit} (h : Steady v s ws s₁)
      (hs : Step v s₁ op us s₂) (hact : ∀ q, Active s₂ q ↔ Active s₁ q) : Steady v s (ws ++ us) s₂

instance (s : SRR) (q : ℕ) : Decidable (Active s q) := inferInstanceAs (Decidable (_ < _))

/-- The visits to a queue at the terms after `t`, up to `u`. -/
def visitsIn (q t u : ℕ) (ws : List SrrVisit) : ℕ :=
  (labelled 0 ws).countP fun a => a.1 = q ∧ t < a.2 ∧ a.2 ≤ u

/-- The columns of the terms up to `u` have been scanned to their ends. -/
def Scanned (u : ℕ) (ws : List SrrVisit) (s' : SRR) : Prop :=
  u < termsRead ws ∨ (u = termsRead ws ∧ toCome s' = [])

variable {v : SrrVars} {s s' : SRR} {ws : List SrrVisit} {op : Op} {q : ℕ}

/-! ### Every state of a run -/

theorem books_init (v : SrrVars) : Books v none init where
  matrix := by
    have hidle : ∀ q, ¬ Active init q := fun q => lt_irrefl (0 : ℤ)
    constructor
    case holds =>
      refine ⟨fun _ => List.nodup_nil, fun i q => ?_, fun n hn => (by cases hn), fun _ _ => rfl,
        ⟨fun _ _ => rfl, fun _ => rfl⟩, fun _ _ => rfl, fun k hk => (by cases hk)⟩
      exact iff_of_false List.not_mem_nil fun h => hidle q h.1
    case row => exact fun q hq => absurd hq (hidle q)
    case row_nil => exact fun _ _ => rfl
    case small => exact fun q hq => absurd hq (hidle q)
    case range => simp [InRange, init]
  pkts := fun _ => rfl
  flows := fun _ _ hp => absurd hp List.not_mem_nil
  deficit := fun _ => le_rfl
  used := fun q hq => absurd hq (lt_irrefl (0 : ℤ))
  pktcnt := (Finset.sum_eq_zero fun _ _ => rfl).symm
  bytecnt := by
    rw [if_pos rfl, add_zero]
    exact (Finset.sum_eq_zero fun _ _ => rfl).symm

/-- An operation goes through, or its packet is for a queue id that is too large. -/
theorem Books.step (hv : v.Valid) (h : Books v s.lastQueueid s) (op : Op) :
    (∃ ws s', Step v s op ws s' ∧ Books v s'.lastQueueid s' ∧
      ((∀ q, Active s' q ↔ Active s q) → Follows s ws s')) ∨
    ∃ p, op = .enque p ∧ v.maxqueuenumber < v.f2q p.flowid ∧
      ∀ fuel, SRR.step v fuel s op = .error .queueidTooBig := by
  cases op with
  | enque p =>
      by_cases hq : v.maxqueuenumber < v.f2q p.flowid
      · refine .inr ⟨p, rfl, hq, fun fuel => ?_⟩
        rw [SRR.step, SRR.enque]
        dsimp only
        rw [if_pos hq]
        rfl
      · obtain ⟨o, s', he, hbooks, hlast, hfollows⟩ := h.enque hv (not_lt.mp hq)
        refine .inl ⟨[], s', ⟨0, fun fuel _ => ?_⟩, hlast ▸ hbooks, hfollows⟩
        rw [SRR.step, he]
        rfl
  | deque =>
      obtain ⟨ws, o, s', N, hd, hbooks, hfollows⟩ := h.deque hv
      refine .inl ⟨ws, s', ⟨N, fun fuel hf => ?_⟩, hbooks, hfollows⟩
      rw [SRR.step, hd fuel hf]
      rfl

theorem Step.unique {ws₁ ws₂ : List SrrVisit} {s₁ s₂ : SRR} (h₁ : Step v s op ws₁ s₁)
    (h₂ : Step v s op ws₂ s₂) : ws₁ = ws₂ ∧ s₁ = s₂ := by
  obtain ⟨n₁, h₁⟩ := h₁
  obtain ⟨n₂, h₂⟩ := h₂
  have he := (h₁ (max n₁ n₂) (le_max_left ..)).symm.trans (h₂ (max n₁ n₂) (le_max_right ..))
  cases he
  exact ⟨rfl, rfl⟩

theorem Books.of_step (hv : v.Valid) (h : Books v s.lastQueueid s) (hs : Step v s op ws s') :
    Books v s'.lastQueueid s' ∧ ((∀ q, Active s' q ↔ Active s q) → Follows s ws s') := by
  rcases h.step hv op with ⟨ws₁, s₁, hs₁, hbooks⟩ | ⟨p, -, -, herr⟩
  · obtain ⟨rfl, rfl⟩ := hs.unique hs₁
    exact hbooks
  · obtain ⟨n, hn⟩ := hs
    have he := (hn n le_rfl).symm.trans (herr n)
    cases he

theorem Reachable.books (hv : v.Valid) (h : Reachable v s) : Books v s.lastQueueid s := by
  induction h with
  | init => exact books_init v
  | step _ hs ih => exact (ih.of_step hv hs).1

/-- The visits of operations that leave the backlogged queues as they are. -/
theorem Steady.follows (hv : v.Valid) (hb : Books v s.lastQueueid s) (h : Steady v s ws s') :
    Books v s'.lastQueueid s' ∧ Follows s ws s' := by
  induction h with
  | refl => exact ⟨hb, .of_same hb.matrix.range ⟨rfl, rfl, rfl, rfl, rfl, rfl⟩⟩
  | step _ hs hact ih =>
      obtain ⟨hbooks, hfollows⟩ := ih.1.of_step hv hs
      exact ⟨hbooks, ih.2.trans (hfollows hact)⟩

/-! ### A period -/

theorem sum_map_range (f : ℕ → ℕ) (n : ℕ) :
    ((List.range n).map f).sum = ∑ i ∈ Finset.range n, f i := by
  induction n with
  | zero => rfl
  | succ n ih => simp [List.range_succ, Finset.sum_range_succ, ih]

theorem countP_atTerm (q t u w : ℕ) (l : List ℕ) :
    (atTerm w l).countP (fun a => a.1 = q ∧ t < a.2 ∧ a.2 ≤ u) =
      if t < w ∧ w ≤ u then l.count q else 0 := by
  rw [atTerm, List.countP_map]
  by_cases hw : t < w ∧ w ≤ u
  · rw [if_pos hw, List.count]
    refine List.countP_congr fun x _ => ?_
    simp [hw]
  · rw [if_neg hw, List.countP_eq_zero]
    intro x _
    simp only [Function.comp_apply, decide_eq_true_eq]
    exact fun h => hw h.2

/-- What is visited at the terms after `t`, up to `u`. -/
theorem Follows.visitsIn_eq (h : Follows s ws s') {t n : ℕ} (hu : Scanned (t + n) ws s') :
    visitsIn q t (t + n) ws = ∑ i ∈ Finset.range n, (s.scan (s.ptr + t + i)).count q := by
  have hle : t + n ≤ termsRead ws := by
    rcases hu with hu | ⟨hu, -⟩
    · exact hu.le
    · exact hu.le
  have hrest : (atTerm (0 + termsRead ws) (toCome s')).countP
      (fun a => a.1 = q ∧ t < a.2 ∧ a.2 ≤ t + n) = 0 := by
    rw [countP_atTerm, Nat.zero_add]
    rcases hu with hu | ⟨-, hnil⟩
    · exact if_neg fun h => absurd h.2 (not_le.mpr hu)
    · rw [hnil]
      exact ite_self 0
  have hfirst : (atTerm 0 (toCome s)).countP
      (fun a => a.1 = q ∧ t < a.2 ∧ a.2 ≤ t + n) = 0 := by
    rw [countP_atTerm]
    exact if_neg fun h => absurd h.1 (Nat.not_lt_zero t)
  have hcount := congrArg (List.countP fun a => a.1 = q ∧ t < a.2 ∧ a.2 ≤ t + n) (h.visits 0)
  rw [List.countP_append, List.countP_append, hrest, hfirst, Nat.add_zero, Nat.zero_add,
    List.countP_flatMap, sum_map_range] at hcount
  rw [visitsIn, hcount]
  have hterm : ∀ j, (List.countP (fun a : ℕ × ℕ => decide (a.1 = q ∧ t < a.2 ∧ a.2 ≤ t + n)) ∘
      fun j => atTerm (0 + j + 1) (s.scan (s.ptr + j))) j =
        if j ∈ Finset.Ico t (t + n) then (s.scan (s.ptr + j)).count q else 0 := by
    intro j
    rw [Function.comp_apply, countP_atTerm]
    refine if_congr ?_ rfl rfl
    rw [Finset.mem_Ico]
    omega
  have hsub : (Finset.range (termsRead ws)).filter (· ∈ Finset.Ico t (t + n)) =
      Finset.Ico t (t + n) := by
    ext j
    simp only [Finset.mem_filter, Finset.mem_range, Finset.mem_Ico]
    omega
  calc ∑ j ∈ Finset.range (termsRead ws), _
      = ∑ j ∈ Finset.range (termsRead ws),
          if j ∈ Finset.Ico t (t + n) then (s.scan (s.ptr + j)).count q else 0 :=
        Finset.sum_congr rfl fun j _ => hterm j
    _ = ∑ j ∈ Finset.Ico t (t + n), (s.scan (s.ptr + j)).count q := by
        rw [← Finset.sum_filter, hsub]
    _ = ∑ i ∈ Finset.range n, (s.scan (s.ptr + t + i)).count q := by
        rw [Finset.sum_Ico_eq_sum_range, Nat.add_sub_cancel_left]
        exact Finset.sum_congr rfl fun i _ => by rw [Nat.add_assoc]

theorem scan_add_items (s : SRR) (j : ℕ) : s.scan (j + wssItems s.currColumns) = s.scan j := by
  rw [scan, scan, Nat.add_mod_right]

theorem Matrix.count_eq {act : ℕ → Prop} [DecidablePred act] (h : Matrix v act s) (i q : ℕ) :
    (s.wm i).count q = if act q ∧ (v.weight q).testBit i then 1 else 0 := by
  by_cases hq : act q ∧ (v.weight q).testBit i
  · rw [if_pos hq]
    exact List.count_eq_one_of_mem (h.holds.nodup i) ((h.holds.mem i q).mpr hq)
  · rw [if_neg hq]
    exact List.count_eq_zero_of_not_mem fun hm => hq ((h.holds.mem i q).mp hm)

/-- A queue is met in a period as often as its weight says. -/
theorem Books.sum_period (hv : v.Valid) {last : Option ℕ} (h : Books v last s) (hq : Active s q)
    (t : ℕ) : ∑ i ∈ Finset.range (wssItems s.currColumns), (s.scan (t + i)).count q = v.weight q := by
  rw [sum_window (f := fun i => (s.scan i).count q) (fun i => by rw [scan_add_items])]
  have hterm : ∀ i ∈ Finset.range (wssItems s.currColumns), (s.scan i).count q =
      if (v.weight q).testBit (wssColumn s.currColumns i) then 1 else 0 := by
    intro i hi
    rw [scan, Nat.mod_eq_of_lt (Finset.mem_range.mp hi), h.matrix.count_eq]
    simp [hq]
  rw [Finset.sum_congr rfl hterm, sum_spread (h.matrix.currColumns_le_order hv),
    Nat.mod_eq_of_lt (h.matrix.weight_lt hq)]

/-- **Smoothed round robin shares by weight.**  In every state of a run the matrix has a node for
each bit of the weight of each queue that counts packets, and no other, the node in service is one
of them, and the pointer is inside the sequence of the order of the matrix; every operation goes
through, unless its packet is for a queue id that is too large; and while the backlogged queues stay
the same each is visited in every period as often as its weight says. -/
theorem srr_shares (hv : v.Valid) (hs : Reachable v s) :
    (∀ i q, (s.wm i).count q = if Active s q ∧ (v.weight q).testBit i then 1 else 0) ∧
    (s.pwmCurr = none → ∀ i, s.wm i = []) ∧
    (∀ n, s.pwmCurr = some n → n.queueid ∈ s.wm n.weight) ∧
    InRange s ∧ s.currColumns ≤ maxWssOrder ∧
    (∀ op, (∃ ws s', Step v s op ws s') ∨
      ∃ p, op = .enque p ∧ v.maxqueuenumber < v.f2q p.flowid ∧
        ∀ fuel, step v fuel s op = .error .queueidTooBig) ∧
    ∀ ws s', Steady v s ws s' → ∀ q, Active s q → ∀ t,
      Scanned (t + wssItems s.currColumns) ws s' →
        visitsIn q t (t + wssItems s.currColumns) ws = v.weight q := by
  have hb := hs.books hv
  refine ⟨hb.matrix.count_eq, hb.matrix.holds.curr_none, hb.matrix.holds.curr, hb.matrix.range,
    hb.matrix.currColumns_le_order hv, fun op => ?_, fun ws s' hsteady q hq t hu => ?_⟩
  · rcases hb.step hv op with ⟨ws, s', hstep, -⟩ | herr
    · exact .inl ⟨ws, s', hstep⟩
    · exact .inr herr
  · rw [(hsteady.follows hv hb).2.visitsIn_eq hu]
    exact hb.sum_period hv hq (s.ptr + t)

/-- Two queues of weights 5 and 3. -/
def vars : SrrVars where
  maxqueuenumber := 1
  qlim := 50
  mtu := 1000
  granularity := 1000
  maxColumn := 2
  f2q := fun f => if f = 0 then 0 else 1
  privateRate := fun q => if q = 0 then 5000 else 3000

theorem valid_vars : vars.Valid where
  mtu := by decide
  order := by decide
  weight := fun f => by
    have hq : vars.f2q f = 0 ∨ vars.f2q f = 1 := by
      by_cases hf : f = 0
      · exact .inl (if_pos hf)
      · exact .inr (if_neg hf)
    rcases hq with hq | hq <;> rw [hq] <;> decide

/-- Operations one after another, as long as the backlogged queues stay as they are. -/
def steadyRun (v : SrrVars) (fuel : ℕ) :
    List Op → List SrrVisit → SRR → Option (List SrrVisit × SRR)
  | [], ws, s => some (ws, s)
  | op :: ops, ws, s =>
      match step v fuel s op with
      | .error _ => none
      | .ok (us, s') =>
          if ∀ q ≤ v.maxqueuenumber.toNat, Active s' q ↔ Active s q then
            steadyRun v fuel ops (ws ++ us) s'
          else none

theorem Steady.of_run (hv : v.Valid) {s₀ : SRR} (hb : Books v s₀.lastQueueid s₀) {ops : List Op}
    {ws' : List SrrVisit} (h : Steady v s₀ ws s) {n : ℕ}
    (hrun : ∀ fuel, n ≤ fuel → steadyRun v fuel ops ws s = some (ws', s')) :
    Steady v s₀ ws' s' := by
  induction ops generalizing ws s n with
  | nil =>
      cases hrun n le_rfl
      exact h
  | cons op ops ih =>
      have hbooks := (h.follows hv hb).1
      rcases hbooks.step hv op with ⟨us, s₁, ⟨k, hk⟩, hbooks', -⟩ | ⟨p, -, -, herr⟩
      · have hact : ∀ q ≤ v.maxqueuenumber.toNat, Active s₁ q ↔ Active s q := by
          by_contra hno
          have hr := hrun (max n k) (le_max_left ..)
          rw [steadyRun, hk _ (le_max_right ..)] at hr
          exact absurd hr (by simp [hno])
        have hall : ∀ q, Active s₁ q ↔ Active s q := by
          intro q
          by_cases hq : q ≤ v.maxqueuenumber.toNat
          · exact hact q hq
          · exact iff_of_false (fun h => hq (by have := hbooks'.used q h; omega))
              (fun h => hq (by have := hbooks.used q h; omega))
        refine ih (.step h ⟨k, hk⟩ hall) (n := max n k) fun fuel hf => ?_
        rw [← hrun fuel ((le_max_left ..).trans hf), steadyRun, hk fuel ((le_max_right ..).trans hf)]
        exact (if_pos hact).symm
      · have hr := hrun n le_rfl
        rw [steadyRun, herr] at hr
        cases hr

/-- Six packets of queue 0 and four of queue 1, sent up to the last of each: a whole period. -/
theorem srr_shares_two : ∃ s ws s', Reachable vars s ∧ Active s 0 ∧ Active s 1 ∧
    Steady vars s ws s' ∧ Scanned (0 + wssItems s.currColumns) ws s' ∧
    (s.wm 0).count 0 = 1 ∧ (s.wm 0).count 1 = 1 ∧
    visitsIn 0 0 (0 + wssItems s.currColumns) ws = 5 ∧
    visitsIn 1 0 (0 + wssItems s.currColumns) ws = 3 := by
  obtain ⟨r₁, hr₁⟩ : ∃ r, enque vars ⟨0, 1000, 0⟩ init = .ok r := ⟨_, rfl⟩
  obtain ⟨r, hr⟩ : ∃ r, enque vars ⟨1, 1000, 1⟩ r₁.2 = .ok r := by
    cases hr₁
    exact ⟨_, rfl⟩
  have hreach₁ : Reachable vars r₁.2 := .step .init ⟨0, fun fuel _ => by rw [step, hr₁]; rfl⟩
  have hreach : Reachable vars r.2 := .step hreach₁ ⟨0, fun fuel _ => by rw [step, hr]; rfl⟩
  let ops := List.replicate 5 (Op.enque ⟨2, 1000, 0⟩) ++
    (List.replicate 3 (.enque ⟨3, 1000, 1⟩) ++ List.replicate 9 .deque)
  let ws : List SrrVisit := [⟨0, 1⟩, ⟨1, 1⟩, ⟨0, 1⟩, ⟨0, 1⟩, ⟨1, 0⟩, ⟨0, 1⟩, ⟨1, 1⟩, ⟨0, 1⟩]
  obtain ⟨s', hrun, hend⟩ : ∃ s', (∀ fuel, 10 ≤ fuel →
      steadyRun vars fuel ops [] r.2 = some (ws, s')) ∧ toCome s' = [] := by
    refine ⟨((steadyRun vars 10 ops [] r.2).getD ([], init)).2, fun fuel hf => ?_, ?_⟩
    · obtain ⟨m, rfl⟩ := Nat.exists_eq_add_of_le' hf
      cases hr₁
      cases hr
      rfl
    · cases hr₁
      cases hr
      rfl
  have hsteady : Steady vars r.2 ws s' :=
    .of_run valid_vars (hreach.books valid_vars) .refl hrun
  obtain ⟨hact, hact', hcols⟩ : Active r.2 0 ∧ Active r.2 1 ∧ r.2.currColumns = 3 := by
    cases hr₁
    cases hr
    decide
  have hscan : Scanned (0 + wssItems r.2.currColumns) ws s' :=
    .inr ⟨by rw [hcols]; decide, hend⟩
  obtain ⟨hcount, -, -, -, -, -, hperiod⟩ := srr_shares valid_vars hreach
  refine ⟨r.2, ws, s', hreach, hact, hact', hsteady, hscan, ?_, ?_,
    hperiod ws s' hsteady 0 hact 0 hscan, hperiod ws s' hsteady 1 hact' 0 hscan⟩
  · rw [hcount, if_pos ⟨hact, by decide⟩]
  · rw [hcount, if_pos ⟨hact', by decide⟩]

end SRR

end Afabric
