import Afabric.Queue.Srr

/-!
# Queue — the weight matrix

What the weight matrix of `SRR` keeps.  `Holds N s` says that the nodes of the columns are those of
`N`, each once, and what goes with the columns: the node in service is one of them, and the columns
in use are known.  A node is added (`Holds.addNode`) and a row taken out (`Holds.unlinkRow`), and the
pointer is rescaled when the number of columns changes.
-/

namespace Afabric

namespace SRR

variable {s : SRR} {N : ℕ → ℕ → Prop} {q x i j : ℕ} {l : List ℕ}

/-! ### Columns -/

theorem insertBefore_perm (q x : ℕ) (l : List ℕ) : (insertBefore q x l).Perm (x :: l) := by
  induction l with
  | nil => exact .refl _
  | cons y l ih =>
      rw [insertBefore]
      split_ifs
      · exact .refl _
      · exact (ih.cons y).trans (.swap x y l)

theorem withNode_perm (q i : ℕ) (s : SRR) : (withNode q i s).Perm (q :: s.wm i) := by
  have happ : (s.wm i ++ [q]).Perm (q :: s.wm i) := List.perm_append_singleton q _
  cases hc : s.pwmCurr with
  | none =>
      rw [withNode, hc]
      exact happ
  | some n =>
      rw [withNode, hc]
      dsimp only
      split_ifs
      · exact insertBefore_perm _ _ _
      · exact happ

theorem mem_of_mem_after (hx : x ∈ after q l) : x ∈ l := by
  induction l with
  | nil => exact hx
  | cons y l ih =>
      rw [after] at hx
      split_ifs at hx
      · exact List.mem_cons_of_mem _ hx
      · exact List.mem_cons_of_mem _ (ih hx)

/-- The next of the next. -/
theorem after_after {r : List ℕ} (hl : l.Nodup) (h : after q l = x :: r) : after x l = r ∧ x ≠ q := by
  induction l with
  | nil => cases h
  | cons y l ih =>
      obtain ⟨hy, hl⟩ := List.nodup_cons.mp hl
      rw [after] at h
      split_ifs at h with hyq
      · subst hyq
        rw [h] at hy
        have hne : y ≠ x := fun he => hy (he ▸ List.mem_cons_self)
        rw [after, if_neg hne, h, after, if_pos rfl]
        exact ⟨rfl, hne.symm⟩
      · obtain ⟨ha, hne⟩ := ih hl h
        have hxl : x ∈ l := mem_of_mem_after (h ▸ List.mem_cons_self)
        rw [after, if_neg fun he : y = x => hy (he ▸ hxl)]
        exact ⟨ha, hne⟩

theorem mem_bits {m w : ℕ} : i ∈ bits m w ↔ i ≤ m ∧ w.testBit i := by
  rw [bits, List.mem_filter, List.mem_reverse, List.mem_range, Nat.lt_succ_iff]

theorem nodup_bits (m w : ℕ) : (bits m w).Nodup :=
  (List.nodup_reverse.mpr List.nodup_range).filter _

/-! ### Nodes -/

structure Holds (N : ℕ → ℕ → Prop) (s : SRR) : Prop where
  nodup : ∀ i, (s.wm i).Nodup
  mem : ∀ i q, q ∈ s.wm i ↔ N q i
  curr : ∀ n, s.pwmCurr = some n → n.queueid ∈ s.wm n.weight
  curr_none : s.pwmCurr = none → ∀ i, s.wm i = []
  flag : s.wmEmptyFlag = true ↔ ∀ i, s.wm i = []
  above : ∀ i, s.currColumns ≤ i → s.wm i = []
  top : ∀ k, s.currColumns = k + 1 → s.wm k ≠ []

theorem Holds.congr {N' : ℕ → ℕ → Prop} (h : Holds N s) (hN : ∀ q i, N q i ↔ N' q i) : Holds N' s :=
  { h with mem := fun i q => (h.mem i q).trans (hN q i) }

theorem Holds.addNode (h : Holds N s) (hn : ¬ N q i) :
    Holds (fun x j => N x j ∨ (x = q ∧ j = i)) (addNode q i s) := by
  have hperm := withNode_perm q i s
  have hself : q ∈ withNode q i s := hperm.mem_iff.mpr List.mem_cons_self
  have hgrow : ∀ j x, x ∈ s.wm j → x ∈ (SRR.addNode q i s).wm j := by
    intro j x hx
    by_cases hj : j = i
    · subst hj
      simp only [SRR.addNode, Function.update_self]
      exact hperm.mem_iff.mpr (List.mem_cons_of_mem _ hx)
    · simp only [SRR.addNode, Function.update_of_ne hj]
      exact hx
  have hwm : (SRR.addNode q i s).wm i = withNode q i s := Function.update_self ..
  -- a matrix without a node in service is empty, so the new node is taken into service
  have hcurr : withCurr q i s ≠ none := by
    rw [withCurr]
    split_ifs with hc
    · exact Option.some_ne_none _
    · exact fun hnone => hc ⟨h.flag.mpr (h.curr_none hnone), hnone⟩
  constructor
  case nodup =>
    intro j
    by_cases hj : j = i
    · subst hj
      rw [hwm, hperm.nodup_iff, List.nodup_cons]
      exact ⟨fun hq => hn ((h.mem _ _).mp hq), h.nodup j⟩
    · simp only [SRR.addNode, Function.update_of_ne hj]
      exact h.nodup j
  case mem =>
    intro j x
    by_cases hj : j = i
    · subst hj
      rw [hwm, hperm.mem_iff, List.mem_cons, h.mem, or_comm]
      simp
    · simp only [SRR.addNode, Function.update_of_ne hj, h.mem, hj, and_false, or_false]
  case curr =>
    intro n hnode
    have hnode : withCurr q i s = some n := hnode
    rw [withCurr] at hnode
    split_ifs at hnode
    · cases hnode
      rw [hwm]
      exact hself
    · exact hgrow _ _ (h.curr n hnode)
  case curr_none => exact fun hnone => absurd hnone hcurr
  case flag =>
    refine ⟨fun hf => (by cases hf), fun hall => ?_⟩
    have := hall i
    rw [hwm] at this
    rw [this] at hself
    exact absurd hself List.not_mem_nil
  case above =>
    intro j hj
    simp only [SRR.addNode] at hj ⊢
    have hji : j ≠ i ∧ s.currColumns ≤ j := by
      split_ifs at hj <;> omega
    rw [Function.update_of_ne hji.1]
    exact h.above j hji.2
  case top =>
    intro k hk
    by_cases hki : k = i
    · subst hki
      rw [hwm]
      exact List.ne_nil_of_mem hself
    · simp only [SRR.addNode] at hk ⊢
      rw [Function.update_of_ne hki]
      split_ifs at hk with hlt
      · omega
      · exact h.top k hk

/-- The nodes of a row are added one by one. -/
theorem Holds.addNodes (h : Holds N s) (hl : l.Nodup) (hn : ∀ i ∈ l, ¬ N q i) :
    Holds (fun x j => N x j ∨ (x = q ∧ j ∈ l)) (l.foldl (fun s i => SRR.addNode q i s) s) := by
  induction l generalizing s N with
  | nil => exact h.congr (by simp)
  | cons i l ih =>
      obtain ⟨hi, hl⟩ := List.nodup_cons.mp hl
      refine (ih (h.addNode (hn i List.mem_cons_self)) hl fun j hj => ?_).congr fun x j => ?_
      · rintro (hN | ⟨-, rfl⟩)
        · exact hn j (List.mem_cons_of_mem _ hj) hN
        · exact hi hj
      · rw [List.mem_cons]
        tauto

/-- The columns without a row. -/
theorem foldl_erase (hl : l.Nodup) (wm : ℕ → List ℕ) (j : ℕ) :
    l.foldl (fun wm i => Function.update wm i ((wm i).erase q)) wm j =
      if j ∈ l then (wm j).erase q else wm j := by
  induction l generalizing wm with
  | nil => rfl
  | cons i l ih =>
      obtain ⟨hi, hl⟩ := List.nodup_cons.mp hl
      rw [List.foldl_cons, ih hl]
      by_cases hj : j = i
      · subst hj
        rw [if_neg hi, if_pos List.mem_cons_self, Function.update_self]
      · rw [Function.update_of_ne hj]
        simp only [List.mem_cons, hj, false_or]

theorem columns_le (wm : ℕ → List ℕ) (n : ℕ) : columns wm n ≤ n := by
  induction n with
  | zero => exact le_rfl
  | succ n ih =>
      rw [columns]
      split_ifs
      · exact le_rfl
      · exact ih.trans (Nat.le_succ n)

theorem columns_above {wm : ℕ → List ℕ} {n : ℕ} (hi : i < n) (hc : columns wm n ≤ i) :
    wm i = [] := by
  induction n with
  | zero => exact absurd hi (Nat.not_lt_zero i)
  | succ n ih =>
      rw [columns] at hc
      split_ifs at hc with hn
      · exact absurd hi (Nat.not_lt.mpr hc)
      · rcases Nat.lt_succ_iff_lt_or_eq.mp hi with hi | rfl
        · exact ih hi hc
        · exact not_not.mp hn

theorem columns_top {wm : ℕ → List ℕ} {n k : ℕ} (hc : columns wm n = k + 1) : wm k ≠ [] := by
  induction n with
  | zero => cases hc
  | succ n ih =>
      rw [columns] at hc
      split_ifs at hc with hn
      · obtain rfl : n = k := Nat.succ.inj hc
        exact hn
      · exact ih hc

/-! ### The pointer -/

/-- The pointer is inside the sequence of the order of the matrix. -/
def InRange (s : SRR) : Prop :=
  if s.currColumns = 0 then s.ptr = 0 else s.ptr < wssItems s.currColumns

theorem InRange.lt (h : InRange s) (hc : s.currColumns ≠ 0) : s.ptr < wssItems s.currColumns := by
  rwa [InRange, if_neg hc] at h

theorem wssItems_pos {n : ℕ} (hn : n ≠ 0) : 0 < wssItems n :=
  Nat.sub_pos_of_lt (Nat.one_lt_two_pow hn)

theorem InRange.stretch {old : ℕ} (hold : if old = 0 then s.ptr = 0 else s.ptr < wssItems old)
    (hle : old ≤ s.currColumns) : InRange (stretch old s) := by
  rw [SRR.stretch]
  by_cases hc : old < s.currColumns ∧ 0 < old
  · rw [if_pos hc]
    rw [if_neg hc.2.ne'] at hold
    have hpow : 2 ^ s.currColumns = 2 ^ old * 2 ^ (s.currColumns - old) := by
      rw [← pow_add, Nat.add_sub_cancel' hle]
    have hmul : 0 < 2 ^ (s.currColumns - old) := Nat.two_pow_pos _
    have hlt : s.ptr + 1 < 2 ^ old := by
      rw [wssItems] at hold
      omega
    rw [InRange]
    dsimp only
    rw [if_neg (hc.2.trans hc.1).ne', wssItems, hpow]
    exact Nat.sub_lt_sub_right (Nat.mul_pos (Nat.succ_pos _) hmul)
      (Nat.mul_lt_mul_of_pos_right hlt hmul)
  · rw [if_neg hc, InRange]
    by_cases hz : s.currColumns = 0
    · rw [if_pos hz]
      rwa [if_pos (Nat.le_zero.mp (hz ▸ hle))] at hold
    · rw [if_neg hz]
      by_cases ho : old = 0
      · rw [if_pos ho] at hold
        rw [hold]
        exact wssItems_pos hz
      · rw [if_neg ho] at hold
        have heq : old = s.currColumns := by omega
        exact heq ▸ hold

theorem shrunk_lt {old new ptr : ℕ} (hp : ptr < wssItems old) (hlt : new < old) (hn : new ≠ 0) :
    shrunk old new ptr < wssItems new := by
  have hpow : 2 ^ old = 2 ^ (old - new) * 2 ^ new := by
    rw [← pow_add, Nat.sub_add_cancel hlt.le]
  have hmul : 0 < 2 ^ (old - new) := Nat.two_pow_pos _
  have hdiv : (ptr + 1) / 2 ^ (old - new) < 2 ^ new := by
    refine Nat.div_lt_of_lt_mul ?_
    rw [wssItems] at hp
    omega
  have hone := Nat.one_lt_two_pow hn
  rw [shrunk, wssItems]
  by_cases hmod : (ptr + 1) % 2 ^ (old - new) = 0
  · rw [if_pos hmod]
    have hpos : 0 < (ptr + 1) / 2 ^ (old - new) :=
      Nat.div_pos (Nat.le_of_dvd (Nat.succ_pos ptr) (Nat.dvd_of_mod_eq_zero hmod)) hmul
    omega
  · rw [if_neg hmod]
    split_ifs <;> omega

/-! ### Scanning -/

/-- The column that is scanned at a term, of the terms without end. -/
def scan (s : SRR) (t : ℕ) : List ℕ := s.wm (wssColumn s.currColumns (t % wssItems s.currColumns))

theorem wssInc_eq {n p : ℕ} (hp : p < wssItems n) : wssInc n p = (p + 1) % wssItems n := by
  rw [wssItems] at hp ⊢
  rw [wssInc]
  by_cases hlt : 2 ^ n < p + 1 + 2
  · have heq : p + 1 = 2 ^ n - 1 := by omega
    rw [if_pos hlt, heq, Nat.mod_self]
  · rw [if_neg hlt, Nat.mod_eq_of_lt]
    omega

/-- The last column is scanned at every other term. -/
theorem scan_even {k : ℕ} (hc : s.currColumns = k + 1) (hk : k < maxWssOrder)
    (hp : s.ptr < wssItems s.currColumns) (heven : s.ptr % 2 = 0) : s.scan s.ptr = s.wm k := by
  have htwo : s.ptr = 2 * (s.ptr / 2) := by omega
  rw [hc] at hp
  rw [scan, hc, Nat.mod_eq_of_lt hp, htwo, wssColumn_two_mul (htwo ▸ hp) hk]

theorem seek_succ (hp : s.ptr < wssItems s.currColumns) (fuel : ℕ) : seek (fuel + 1) s =
    match s.scan s.ptr with
    | [] => (seek fuel { s with ptr := (s.ptr + 1) % wssItems s.currColumns }).map
        fun r => (r.1 + 1, r.2)
    | x :: _ => .ok (1, { s with ptr := (s.ptr + 1) % wssItems s.currColumns
                                 pwmCurr := some ⟨x, wssColumn s.currColumns s.ptr⟩ }) := by
  have hget : wssGet s.currColumns s.ptr = some (pwss s.ptr) := by
    rw [wssItems] at hp
    rw [wssGet, if_neg]
    omega
  have hscan : s.scan s.ptr = s.wm (s.currColumns - pwss s.ptr) := by
    rw [scan, Nat.mod_eq_of_lt hp, wssColumn]
  cases hwm : s.wm (s.currColumns - pwss s.ptr) with
  | nil => simp only [seek, hget, hscan, wssInc_eq hp, hwm]
  | cons x rest => simp only [seek, hget, hscan, wssInc_eq hp, wssColumn, hwm]

/-- What the terms that are read lead to: empty columns, and at the last the head of one. -/
theorem seek_spec {k : ℕ} (hc : s.currColumns = k + 1) (hk : k < maxWssOrder)
    (htop : s.wm k ≠ []) (hp : s.ptr < wssItems s.currColumns) :
    ∃ m c x rest, (∀ fuel, seek (fuel + 2) s = .ok (m + 1, { s with
          ptr := (s.ptr + (m + 1)) % wssItems s.currColumns, pwmCurr := some ⟨x, c⟩ })) ∧
      s.wm c = x :: rest ∧ (∀ j, j < m → s.scan (s.ptr + j) = []) ∧
      s.scan (s.ptr + m) = x :: rest := by
  cases hs : s.scan s.ptr with
  | cons x rest =>
      refine ⟨0, wssColumn s.currColumns s.ptr, x, rest, fun fuel => ?_, ?_,
        fun j hj => absurd hj (Nat.not_lt_zero j), hs⟩
      · rw [seek_succ hp, hs]
      · rwa [scan, Nat.mod_eq_of_lt hp] at hs
  | nil =>
      -- the pointer is odd, and the next term is the first of the order
      have hodd : s.ptr % 2 = 1 := by
        by_contra heven
        rw [scan_even hc hk hp (by omega)] at hs
        exact htop hs
      have hitems : wssItems s.currColumns % 2 = 1 := by
        rw [hc, wssItems, pow_succ]
        have := Nat.two_pow_pos k
        omega
      have hmod : (s.ptr + 1) % wssItems s.currColumns = s.ptr + 1 := Nat.mod_eq_of_lt (by omega)
      obtain ⟨s₁, hs₁⟩ : ∃ s₁, s₁ = { s with ptr := (s.ptr + 1) % wssItems s.currColumns } :=
        ⟨_, rfl⟩
      have hc₁ : s₁.currColumns = k + 1 := by rw [hs₁]; exact hc
      have hptr₁ : s₁.ptr = s.ptr + 1 := by rw [hs₁]; exact hmod
      have heven : s₁.ptr % 2 = 0 := by omega
      have hp₁ : s₁.ptr < wssItems s₁.currColumns := by
        rw [hs₁]
        exact Nat.mod_lt _ (Nat.zero_lt_of_lt hp)
      have hscan : s₁.scan s₁.ptr = s.wm k := by
        rw [scan_even hc₁ hk hp₁ heven, hs₁]
      have hscan' : s.scan (s.ptr + 1) = s.wm k := by
        rw [← hscan, hptr₁, scan, scan, hs₁]
      have hcol : wssColumn s₁.currColumns s₁.ptr = k := by
        have hdouble : s₁.ptr = 2 * (s₁.ptr / 2) := by omega
        rw [hc₁] at hp₁ ⊢
        rw [hdouble, wssColumn_two_mul (hdouble ▸ hp₁) hk]
      have htwo : (s₁.ptr + 1) % wssItems s₁.currColumns =
          (s.ptr + (1 + 1)) % wssItems s.currColumns := by
        rw [hptr₁, hc₁, hc, Nat.add_assoc]
      obtain ⟨x, rest, hx⟩ := List.exists_cons_of_ne_nil htop
      refine ⟨1, k, x, rest, fun fuel => ?_, hx, fun j hj => ?_, hscan'.trans hx⟩
      · rw [seek_succ hp, hs]
        dsimp only
        rw [← hs₁, seek_succ hp₁, hscan, hx]
        dsimp only [Except.map]
        rw [htwo, hcol, hs₁]
      · obtain rfl := Nat.lt_one_iff.mp hj
        exact hs

theorem Holds.currColumns_ne (h : Holds N s) (hx : x ∈ s.wm i) : s.currColumns ≠ 0 := by
  intro hz
  rw [h.above i (hz ▸ Nat.zero_le i)] at hx
  exact absurd hx List.not_mem_nil

/-- From `n`, after `terms` terms of the sequence, to `n'`. -/
def Leads (s : SRR) (n n' : WmNode) : ℕ → Prop
  | 0 => after n.queueid (s.wm n.weight) = n'.queueid :: after n'.queueid (s.wm n'.weight)
  | m + 1 => after n.queueid (s.wm n.weight) = [] ∧ (∀ j, j < m → s.scan (s.ptr + j) = []) ∧
      s.scan (s.ptr + m) = n'.queueid :: after n'.queueid (s.wm n'.weight)

theorem getNextNode_spec {n : WmNode} (h : Holds N s) (hr : InRange s)
    (hk : s.currColumns ≤ maxWssOrder) (hb : s.bytecnt ≠ 0) (hn : s.pwmCurr = some n) :
    ∃ m n', (∀ fuel, getNextNode (fuel + 2) s = .ok (some m, { s with
          ptr := (s.ptr + m) % wssItems s.currColumns, pwmCurr := some n' })) ∧
      n'.queueid ∈ s.wm n'.weight ∧ Leads s n n' m := by
  have hne := h.currColumns_ne (h.curr n hn)
  have hp := hr.lt hne
  cases ha : after n.queueid (s.wm n.weight) with
  | cons x r =>
      obtain ⟨hax, -⟩ := after_after (h.nodup _) ha
      refine ⟨0, ⟨x, n.weight⟩, fun fuel => ?_, mem_of_mem_after (ha ▸ List.mem_cons_self), ?_⟩
      · have hstay : (s.ptr + 0) % wssItems s.currColumns = s.ptr := Nat.mod_eq_of_lt hp
        rw [getNextNode, if_neg hb, hn, hstay]
        dsimp only
        rw [ha]
      · exact ha.trans (hax.symm ▸ rfl)
  | nil =>
      obtain ⟨k, hc⟩ := Nat.exists_eq_succ_of_ne_zero hne
      obtain ⟨m, c, x, rest, hseek, hx, hskip, hscan⟩ :=
        seek_spec hc (by omega) (h.top k hc) hp
      refine ⟨m + 1, ⟨x, c⟩, fun fuel => ?_, hx ▸ List.mem_cons_self, ha, hskip, ?_⟩
      · rw [getNextNode, if_neg hb, hn]
        dsimp only
        rw [ha]
        dsimp only
        rw [if_neg hne, hseek]
        rfl
      · rw [hscan, hx, after, if_pos rfl]

/-! ### The matrix of the queues in service -/

/-- The queues of `act` have the nodes of their weights, and no other queue has any. -/
structure Matrix (v : SrrVars) (act : ℕ → Prop) (s : SRR) : Prop where
  holds : Holds (fun q i => act q ∧ (v.weight q).testBit i) s
  row : ∀ q, act q → s.row q = bits v.maxColumn (v.weight q)
  row_nil : ∀ q, ¬ act q → s.row q = []
  small : ∀ q, act q → v.weight q ≠ 0 ∧ v.weight q < 2 ^ (v.maxColumn + 1)
  range : InRange s

variable {v : SrrVars} {act : ℕ → Prop}

theorem Matrix.congr {act' : ℕ → Prop} (h : Matrix v act s) (ha : ∀ q, act q ↔ act' q) :
    Matrix v act' s := by
  rwa [← funext fun q => propext (ha q)]

theorem Matrix.exists_node (h : Matrix v act s) (hq : act q) : ∃ i, q ∈ s.wm i := by
  obtain ⟨i, hi⟩ := Nat.exists_testBit_of_ne_zero (h.small q hq).1
  exact ⟨i, (h.holds.mem i q).mpr ⟨hq, hi⟩⟩

theorem Matrix.curr_of_act (h : Matrix v act s) (hq : act q) : ∃ n, s.pwmCurr = some n := by
  obtain ⟨i, hi⟩ := h.exists_node hq
  cases hc : s.pwmCurr with
  | some n => exact ⟨n, rfl⟩
  | none =>
      rw [h.holds.curr_none hc i] at hi
      exact absurd hi List.not_mem_nil

theorem bit_le {m w : ℕ} (hw : w < 2 ^ (m + 1)) (hi : w.testBit i) : i ≤ m := by
  have hlt : 2 ^ i < 2 ^ (m + 1) := (Nat.ge_two_pow_of_testBit hi).trans_lt hw
  exact Nat.le_of_lt_succ ((Nat.pow_lt_pow_iff_right Nat.one_lt_two).mp hlt)

theorem Matrix.currColumns_le (h : Matrix v act s) : s.currColumns ≤ v.maxColumn + 1 := by
  cases hc : s.currColumns with
  | zero => exact Nat.zero_le _
  | succ k =>
      obtain ⟨q, hq⟩ := List.exists_mem_of_ne_nil _ (h.holds.top k hc)
      obtain ⟨hact, hbit⟩ := (h.holds.mem k q).mp hq
      exact Nat.succ_le_succ (bit_le (h.small q hact).2 hbit)

/-- A weight has no bit beyond the columns in use. -/
theorem Matrix.weight_lt (h : Matrix v act s) (hq : act q) : v.weight q < 2 ^ s.currColumns := by
  by_contra hge
  obtain ⟨i, hi, hbit⟩ := Nat.exists_ge_and_testBit_of_ge_two_pow (not_lt.mp hge)
  have hmem := (h.holds.mem i q).mpr ⟨hq, hbit⟩
  rw [h.holds.above i hi] at hmem
  exact absurd hmem List.not_mem_nil

/-! ### Adding a row -/

/-- The packets and their counters are the same. -/
structure SameBooks (s s' : SRR) : Prop where
  srr : s'.srr = s.srr
  bytecnt : s'.bytecnt = s.bytecnt
  pktcnt : s'.pktcnt = s.pktcnt
  lastQueueid : s'.lastQueueid = s.lastQueueid
  lastSize : s'.lastSize = s.lastSize

theorem SameBooks.trans {s₁ s₂ : SRR} (h : SameBooks s s₁) (h' : SameBooks s₁ s₂) :
    SameBooks s s₂ where
  srr := h'.srr.trans h.srr
  bytecnt := h'.bytecnt.trans h.bytecnt
  pktcnt := h'.pktcnt.trans h.pktcnt
  lastQueueid := h'.lastQueueid.trans h.lastQueueid
  lastSize := h'.lastSize.trans h.lastSize

theorem Holds.setPtr (h : Holds N s) (p : ℕ) : Holds N { s with ptr := p } :=
  ⟨h.nodup, h.mem, h.curr, h.curr_none, h.flag, h.above, h.top⟩

theorem Holds.stretch (h : Holds N s) (old : ℕ) : Holds N (SRR.stretch old s) := by
  rw [SRR.stretch]
  split_ifs
  · exact h.setPtr _
  · exact h

theorem stretch_row (old : ℕ) (s : SRR) : (SRR.stretch old s).row = s.row := by
  rw [SRR.stretch]
  split_ifs <;> rfl

theorem sameBooks_stretch (old : ℕ) (s : SRR) : SameBooks s (SRR.stretch old s) := by
  rw [SRR.stretch]
  split_ifs <;> exact ⟨rfl, rfl, rfl, rfl, rfl⟩

theorem sameBooks_addNodes (q : ℕ) (l : List ℕ) (s : SRR) :
    SameBooks s (l.foldl (fun s i => SRR.addNode q i s) s) := by
  induction l generalizing s with
  | nil => exact ⟨rfl, rfl, rfl, rfl, rfl⟩
  | cons i l ih =>
      have hone : SameBooks s (SRR.addNode q i s) := ⟨rfl, rfl, rfl, rfl, rfl⟩
      exact hone.trans (ih (SRR.addNode q i s))

theorem ptr_addNodes (q : ℕ) (l : List ℕ) (s : SRR) :
    (l.foldl (fun s i => SRR.addNode q i s) s).ptr = s.ptr := by
  induction l generalizing s with
  | nil => rfl
  | cons i l ih => exact ih (SRR.addNode q i s)

theorem le_currColumns_addNodes (q : ℕ) (l : List ℕ) (s : SRR) :
    s.currColumns ≤ (l.foldl (fun s i => SRR.addNode q i s) s).currColumns := by
  induction l generalizing s with
  | nil => exact le_rfl
  | cons i l ih =>
      refine le_trans ?_ (ih (SRR.addNode q i s))
      rw [SRR.addNode]
      dsimp only
      split_ifs with hlt
      · exact hlt.le
      · exact le_rfl

theorem row_addNodes (q : ℕ) (l : List ℕ) (s : SRR) (x : ℕ) :
    (l.foldl (fun s i => SRR.addNode q i s) s).row x =
      if x = q then s.row x ++ l else s.row x := by
  induction l generalizing s with
  | nil => simp
  | cons i l ih =>
      rw [List.foldl_cons, ih, SRR.addNode]
      by_cases hx : x = q
      · subst hx
        rw [if_pos rfl, if_pos rfl]
        dsimp only
        rw [Function.update_self, List.append_assoc, List.singleton_append]
      · rw [if_neg hx, if_neg hx]
        exact Function.update_of_ne hx ..

theorem addToWM_spec (h : Matrix v act s) (hq : ¬ act q)
    (hw : v.weight q ≠ 0 ∧ v.weight q < 2 ^ (v.maxColumn + 1)) :
    ∃ s', addToWM v q (v.weight q) s = .ok s' ∧ Matrix v (fun x => act x ∨ x = q) s' ∧
      SameBooks s s' := by
  have hbit : ∀ i, i ∈ bits v.maxColumn (v.weight q) ↔ (v.weight q).testBit i := fun i =>
    mem_bits.trans ⟨fun hi => hi.2, fun hi => ⟨bit_le hw.2 hi, hi⟩⟩
  have hadd := h.holds.addNodes (nodup_bits v.maxColumn (v.weight q))
    (fun i _ hN => hq hN.1)
  refine ⟨_, by rw [addToWM, if_neg hw.1, if_neg (by omega)], ?_,
    (sameBooks_addNodes q _ s).trans (sameBooks_stretch _ _)⟩
  constructor
  case holds =>
    refine (hadd.stretch _).congr fun x j => ?_
    rw [hbit]
    constructor
    · rintro (⟨hx, hj⟩ | ⟨rfl, hj⟩)
      · exact ⟨.inl hx, hj⟩
      · exact ⟨.inr rfl, hj⟩
    · rintro ⟨hx | rfl, hj⟩
      · exact .inl ⟨hx, hj⟩
      · exact .inr ⟨rfl, hj⟩
  case row =>
    intro x hx
    rw [stretch_row, row_addNodes]
    by_cases hxq : x = q
    · rw [if_pos hxq, hxq, h.row_nil q hq, List.nil_append]
    · rw [if_neg hxq]
      exact h.row x (hx.resolve_right hxq)
  case row_nil =>
    intro x hx
    rw [stretch_row, row_addNodes, if_neg fun he => hx (.inr he)]
    exact h.row_nil x fun ha => hx (.inl ha)
  case small =>
    rintro x (hx | rfl)
    · exact h.small x hx
    · exact hw
  case range =>
    refine InRange.stretch ?_ (le_currColumns_addNodes q _ s)
    rw [ptr_addNodes]
    exact h.range

/-! ### Taking a row out -/

theorem mem_unlinkRow (h : Matrix v act s) (hq : act q) (c : Option WmNode) :
    x ∈ (unlinkRow q { s with pwmCurr := c }).wm j ↔ x ∈ s.wm j ∧ x ≠ q := by
  rw [unlinkRow]
  dsimp only
  rw [h.row q hq, foldl_erase (nodup_bits _ _)]
  by_cases hj : j ∈ bits v.maxColumn (v.weight q)
  · rw [if_pos hj, (h.holds.nodup j).mem_erase_iff, and_comm]
  · rw [if_neg hj]
    refine ⟨fun hx => ⟨hx, ?_⟩, fun hx => hx.1⟩
    rintro rfl
    have hbit := ((h.holds.mem j x).mp hx).2
    exact hj (mem_bits.mpr ⟨bit_le (h.small x hq).2 hbit, hbit⟩)

theorem nodup_unlinkRow (h : Matrix v act s) (hq : act q) (c : Option WmNode) (j : ℕ) :
    ((unlinkRow q { s with pwmCurr := c }).wm j).Nodup := by
  rw [unlinkRow]
  dsimp only
  rw [h.row q hq, foldl_erase (nodup_bits _ _)]
  split_ifs
  · exact (h.holds.nodup j).erase q
  · exact h.holds.nodup j

/-- The node in service is no longer one of the row. -/
theorem leave_mem (h : Matrix v act s) {n n' : WmNode} (hn : s.pwmCurr = some n)
    (hl : leave q n s = some n') : n'.queueid ∈ s.wm n'.weight ∧ n'.queueid ≠ q := by
  rw [leave] at hl
  by_cases hnq : n.queueid = q
  · rw [if_pos hnq] at hl
    cases ha : after n.queueid (s.wm n.weight) with
    | nil =>
        rw [ha] at hl
        cases hl
    | cons x r =>
        rw [ha] at hl
        cases hl
        exact ⟨mem_of_mem_after (ha ▸ List.mem_cons_self),
          hnq ▸ (after_after (h.holds.nodup _) ha).2⟩
  · rw [if_neg hnq] at hl
    cases hl
    exact ⟨h.holds.curr n hn, hnq⟩

/-- The rows that are left. -/
theorem Matrix.rows (h : Matrix v act s) (c : Option WmNode) :
    (∀ x, act x ∧ x ≠ q → (unlinkRow q { s with pwmCurr := c }).row x =
      bits v.maxColumn (v.weight x)) ∧
    ∀ x, ¬ (act x ∧ x ≠ q) → (unlinkRow q { s with pwmCurr := c }).row x = [] := by
  refine ⟨fun x hx => ?_, fun x hx => ?_⟩
  · exact (Function.update_of_ne hx.2 ..).trans (h.row x hx.1)
  · by_cases hxq : x = q
    · subst hxq
      exact Function.update_self ..
    · exact (Function.update_of_ne hxq ..).trans (h.row_nil x fun ha => hx ⟨ha, hxq⟩)

/-- The matrix without the row of `q`, before the columns are counted again. -/
structure Thinned (v : SrrVars) (act : ℕ → Prop) (q : ℕ) (s s₁ : SRR) : Prop where
  nodup : ∀ i, (s₁.wm i).Nodup
  mem : ∀ i x, x ∈ s₁.wm i ↔ (act x ∧ x ≠ q) ∧ (v.weight x).testBit i
  curr : ∀ n, s₁.pwmCurr = some n → n.queueid ∈ s₁.wm n.weight
  above : ∀ i, s₁.currColumns ≤ i → s₁.wm i = []
  flag : s₁.wmEmptyFlag = false
  row : ∀ x, act x ∧ x ≠ q → s₁.row x = bits v.maxColumn (v.weight x)
  row_nil : ∀ x, ¬ (act x ∧ x ≠ q) → s₁.row x = []
  currColumns : s₁.currColumns = s.currColumns
  ptr : s₁.ptr = s.ptr
  srr : s₁.srr = s.srr
  bytecnt : s₁.bytecnt = s.bytecnt
  pktcnt : s₁.pktcnt = s.pktcnt

theorem Matrix.thinned (h : Matrix v act s) (hq : act q) {n : WmNode} (hn : s.pwmCurr = some n) :
    Thinned v act q s (unlinkRow q { s with pwmCurr := leave q n s }) where
  nodup := nodup_unlinkRow h hq _
  mem := fun i x => by
    rw [mem_unlinkRow h hq, h.holds.mem]
    tauto
  curr := fun n' hn' => (mem_unlinkRow h hq _).mpr (leave_mem h hn hn')
  above := fun i hi => by
    refine List.eq_nil_iff_forall_not_mem.mpr fun x hx => ?_
    have hx' := ((mem_unlinkRow h hq _).mp hx).1
    rw [h.holds.above i hi] at hx'
    exact absurd hx' List.not_mem_nil
  flag := by
    -- the row of `q` has a node, so the matrix was not marked empty
    obtain ⟨i, hi⟩ := h.exists_node hq
    have hne : s.wmEmptyFlag ≠ true := fun hf => by
      rw [h.holds.flag.mp hf i] at hi
      exact absurd hi List.not_mem_nil
    exact Bool.eq_false_iff.mpr hne
  row := (h.rows _).1
  row_nil := (h.rows _).2
  currColumns := rfl
  ptr := rfl
  srr := rfl
  bytecnt := rfl
  pktcnt := rfl

/-- The pointer when the columns have been counted again. -/
def newPtr (s : SRR) : ℕ :=
  if columns s.wm s.currColumns < s.currColumns then
    shrunk s.currColumns (columns s.wm s.currColumns) s.ptr
  else s.ptr

theorem delFromWM_eq {n : WmNode} {s₁ : SRR} (hn : s.pwmCurr = some n)
    (hs₁ : s₁ = unlinkRow q { s with pwmCurr := leave q n s }) (fuel : ℕ) :
    delFromWM fuel q s =
      if columns s₁.wm s₁.currColumns = 0 then
        .ok { s₁ with wmEmptyFlag := true, currColumns := 0, pwmCurr := none, lastQueueid := none
                      ptr := 0 }
      else s₁.pwmCurr.elim
        ((seek fuel { s₁ with
          ptr := newPtr s₁, currColumns := columns s₁.wm s₁.currColumns }).map Prod.snd)
        fun _ => .ok { s₁ with ptr := newPtr s₁, currColumns := columns s₁.wm s₁.currColumns } := by
  rw [delFromWM, hn]
  dsimp only
  rw [← hs₁]
  cases s₁.pwmCurr <;> rfl

namespace Thinned

variable {s₁ : SRR}

theorem above_columns (h : Thinned v act q s s₁) (hi : columns s₁.wm s₁.currColumns ≤ i) :
    s₁.wm i = [] := by
  by_cases hlt : i < s₁.currColumns
  · exact columns_above hlt hi
  · exact h.above i (not_lt.mp hlt)

theorem newPtr_lt (h : Thinned v act q s s₁) (hr : InRange s)
    (hnew : columns s₁.wm s₁.currColumns ≠ 0) :
    newPtr s₁ < wssItems (columns s₁.wm s₁.currColumns) := by
  have hle := columns_le s₁.wm s₁.currColumns
  have hlt : s₁.ptr < wssItems s₁.currColumns := by
    rw [h.ptr, h.currColumns]
    refine hr.lt fun hz => hnew ?_
    rw [h.currColumns, hz]
    rfl
  rw [newPtr]
  split_ifs with hless
  · exact shrunk_lt hlt hless hnew
  · rwa [le_antisymm hle (not_lt.mp hless)]

/-- No column is left. -/
theorem cleared (h : Thinned v act q s s₁) (hnew : columns s₁.wm s₁.currColumns = 0)
    (hsmall : ∀ x, act x ∧ x ≠ q → v.weight x ≠ 0 ∧ v.weight x < 2 ^ (v.maxColumn + 1)) :
    Matrix v (fun x => act x ∧ x ≠ q)
      { s₁ with wmEmptyFlag := true, currColumns := 0, pwmCurr := none, lastQueueid := none
                ptr := 0 } := by
  have hempty : ∀ i, s₁.wm i = [] := fun i => h.above_columns (hnew ▸ Nat.zero_le i)
  refine ⟨⟨h.nodup, h.mem, fun n' hn' => (by cases hn'), fun _ => hempty,
    ⟨fun _ => hempty, fun _ => rfl⟩, fun i _ => hempty i, fun k hk => (by cases hk)⟩,
    h.row, h.row_nil, hsmall, ?_⟩
  simp [InRange]

/-- A node is in service, and the pointer is inside the shorter sequence. -/
theorem rescaled (h : Thinned v act q s s₁) {p : ℕ} (n' : WmNode)
    (hnew : columns s₁.wm s₁.currColumns ≠ 0) (hn' : n'.queueid ∈ s₁.wm n'.weight)
    (hp : p < wssItems (columns s₁.wm s₁.currColumns))
    (hsmall : ∀ x, act x ∧ x ≠ q → v.weight x ≠ 0 ∧ v.weight x < 2 ^ (v.maxColumn + 1)) :
    Matrix v (fun x => act x ∧ x ≠ q)
      { s₁ with pwmCurr := some n', ptr := p, currColumns := columns s₁.wm s₁.currColumns } := by
  obtain ⟨k, hk⟩ := Nat.exists_eq_succ_of_ne_zero hnew
  refine ⟨⟨h.nodup, h.mem, fun m hm => ?_, fun hm => (by cases hm), ?_,
    fun i hi => h.above_columns hi, fun j hj => columns_top hj⟩, h.row, h.row_nil, hsmall, ?_⟩
  · cases hm
    exact hn'
  · exact ⟨fun hf => absurd hf (by rw [h.flag]; exact Bool.false_ne_true),
      fun hall => absurd (hall k) (columns_top hk)⟩
  · rw [InRange]
    dsimp only
    rwa [if_neg hnew]

end Thinned

theorem delFromWM_spec (h : Matrix v act s) (hq : act q) (hm : v.maxColumn < maxWssOrder) :
    ∃ s', (∀ fuel, delFromWM (fuel + 2) q s = .ok s') ∧ Matrix v (fun x => act x ∧ x ≠ q) s' ∧
      s'.srr = s.srr ∧ s'.bytecnt = s.bytecnt ∧ s'.pktcnt = s.pktcnt := by
  obtain ⟨n, hn⟩ := h.curr_of_act hq
  have hsmall : ∀ x, act x ∧ x ≠ q → _ := fun x hx => h.small x hx.1
  obtain ⟨s₁, hs₁⟩ : ∃ s₁, s₁ = unlinkRow q { s with pwmCurr := leave q n s } := ⟨_, rfl⟩
  have ht : Thinned v act q s s₁ := hs₁ ▸ h.thinned hq hn
  have hfields : s₁.srr = s.srr ∧ s₁.bytecnt = s.bytecnt ∧ s₁.pktcnt = s.pktcnt :=
    ⟨ht.srr, ht.bytecnt, ht.pktcnt⟩
  have hdel (fuel : ℕ) := delFromWM_eq hn hs₁ (fuel + 2)
  by_cases hnew : columns s₁.wm s₁.currColumns = 0
  · exact ⟨_, fun fuel => (hdel fuel).trans (if_pos hnew), ht.cleared hnew hsmall, hfields⟩
  · have hp := ht.newPtr_lt h.range hnew
    cases hc : s₁.pwmCurr with
    | some n' =>
        exact ⟨_, fun fuel => (hdel fuel).trans (by rw [if_neg hnew, hc, Option.elim_some]),
          ht.rescaled n' hnew (ht.curr n' hc) hp hsmall, hfields⟩
    | none =>
        -- the row held the node in service at the end of its column: the next is sought
        obtain ⟨k, hk⟩ := Nat.exists_eq_succ_of_ne_zero hnew
        have hle : columns s₁.wm s₁.currColumns ≤ v.maxColumn + 1 :=
          (columns_le _ _).trans (ht.currColumns ▸ h.currColumns_le)
        obtain ⟨m, c, x, rest, hseek, hx, -⟩ := seek_spec
          (s := { s₁ with ptr := newPtr s₁, currColumns := columns s₁.wm s₁.currColumns })
          hk (by omega) (columns_top hk) hp
        have hfound (fuel : ℕ) := (hdel fuel).trans <| by
          rw [if_neg hnew, hc, Option.elim_none, ← hc, hseek fuel, Except.map]
        exact ⟨_, hfound, ht.rescaled ⟨x, c⟩ hnew (hx ▸ List.mem_cons_self)
          (Nat.mod_lt _ (Nat.zero_lt_of_lt hp)) hsmall, hfields⟩

end SRR

end Afabric
