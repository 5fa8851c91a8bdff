import Afabric.Support.MachineInt
import Mathlib.Data.Nat.ModEq

/-!
# Tcp — the connections of a session

`TcpSessionAgent::who_to_snd` (`tcp-session.cc`) over the circular list `conns_`
(`nilist.cc`): a connection is known by its place in the list, to which only `add_agent` adds, and
the iterator `connIter_` by the place it stands at.  Deciding what is sent is left to
`SessionSend`.

A choice passes each connection once, from the place after the iterator's, and spends a credit of
every connection that has one, with data or not.  So it finds a connection with data exactly when
the credits are due for a refill, when a connection with data has credit left, or when the last
place of the round, the iterator's own, has data (`conserving_iff`).
-/

namespace Afabric

/-- What a session knows of an `IntTcpAgent`. -/
structure IntTcpAgent where
  wt : ℤ := 1
  dynWt : ℤ := 0
  curseq : ℤ := 0
  tSeqno : ℤ := 0
  maxseq : ℤ := 0
  highestAck : ℤ := 0
deriving DecidableEq, Inhabited

namespace IntTcpAgent

/-- `data_left_to_send`. -/
def dataLeft (c : IntTcpAgent) : Prop := c.tSeqno < c.curseq

instance (c : IntTcpAgent) : Decidable c.dataLeft := inferInstanceAs (Decidable (_ < _))

/-- A credit is spent. -/
def spend (c : IntTcpAgent) : IntTcpAgent := { c with dynWt := c.dynWt - 1 }

/-- A segment is sent. -/
def sent (c : IntTcpAgent) : IntTcpAgent :=
  { c with tSeqno := c.tSeqno + 1, maxseq := max c.maxseq c.tSeqno }

end IntTcpAgent

/-- The disciplines of `schedDisp_` that go round. -/
inductive SchedDisp where
  | fineRoundRobin
  | coarseRoundRobin
deriving DecidableEq

/-- `operator()` of an iterator over a list of `n` elements. -/
def iterNext (n : ℕ) : Option ℕ → Option ℕ × Option ℕ
  | none => (none, none)
  | some k => (some ((k + 1) % n), if (k + 1) % n + 1 = n then none else some ((k + 1) % n))

/-- `get_last`. -/
def iterLast (n : ℕ) : Option ℕ := if n = 0 then none else some (n - 1)

/-- The part of a `TcpSessionAgent` that chooses a connection. -/
structure SessionSched where
  /-- `conns_`. -/
  conns : List IntTcpAgent := []
  /-- `connIter_`. -/
  iter : Option ℕ := none
  curConn : Option ℕ := none
  numConsecSegs : ℤ := 0
  wtSum : ℤ := 0
  dynWtSum : ℤ := 0
deriving DecidableEq

namespace SessionSched

def conn (s : SessionSched) (i : ℕ) : IntTcpAgent := s.conns.getD i default

/-- `reset_dyn_weights`. -/
def resetDynWeights (s : SessionSched) : SessionSched :=
  { s with conns := s.conns.map fun c => { c with dynWt := c.wt }, dynWtSum := s.wtSum }

/-- The next connection of the round, from the first one after the last. -/
def nextConn (s : SessionSched) : Option ℕ × SessionSched :=
  match iterNext s.conns.length s.iter with
  | (some j, c) => (some j, { s with iter := c })
  | (none, _) =>
    let r := iterNext s.conns.length (iterLast s.conns.length)
    (r.1, { s with iter := r.2 })

/-- The credit of a connection, if it has any. -/
def spendAt (s : SessionSched) (j : ℕ) : SessionSched :=
  if 0 < (s.conn j).dynWt then
    { s with conns := s.conns.modify j .spend, dynWtSum := s.dynWtSum - 1 }
  else s

/-- The `do` loop of `who_to_snd`, with the passes that `i < count()` still allows. -/
def fineLoop : ℕ → SessionSched → Option ℕ × SessionSched
  | left, s =>
    match s.nextConn with
    | (none, s) => (none, s)
    | (some j, s) =>
      let s' := s.spendAt j
      if (s.conn j).dataLeft ∧ 0 < (s.conn j).dynWt then (some j, s')
      else
        match left with
        | 0 => (some j, s')
        | left + 1 => fineLoop left s'

/-- `who_to_snd(FINE_ROUND_ROBIN)`; with no connection, `next` is a null pointer where it is asked
for its data. -/
def whoToSndFine (s : SessionSched) : Option (Option ℕ × SessionSched) :=
  let s := if s.dynWtSum = 0 then s.resetDynWeights else s
  match fineLoop (s.conns.length - 1) s with
  | (none, _) => none
  | (some j, s) => some (if (s.conn j).dataLeft then some j else none, s)

/-- `who_to_snd(COARSE_ROUND_ROBIN)`, from the choice of another connection. -/
def anotherConn (s : SessionSched) : Option (Option ℕ × SessionSched) :=
  match whoToSndFine { s with numConsecSegs := 0 } with
  | none => none
  | some (r, s) =>
    some (r, { s with
      curConn := r, numConsecSegs := if r.isSome then s.numConsecSegs + 1 else s.numConsecSegs })

/-- `who_to_snd`; a session whose weights add up to zero divides by it. -/
def whoToSnd (window : ℤ) : SchedDisp → SessionSched → Option (Option ℕ × SessionSched)
  | .fineRoundRobin, s => whoToSndFine s
  | .coarseRoundRobin, s =>
    match s.curConn with
    | none => anotherConn s
    | some i =>
      if s.wtSum = 0 then none
      else
        let s' := { s with numConsecSegs := s.numConsecSegs + 1 }
        if s.numConsecSegs < (window * (s.conn i).wt).tdiv s.wtSum ∧ (s.conn i).dataLeft then
          some (some i, s')
        else anotherConn s'

/-! ### A place of the round -/

section Place

variable {α : Type*} [Inhabited α] {l : List α} {i j : ℕ} {f : α → α}

theorem getD_modify (hj : j < l.length) :
    (l.modify j f).getD i default = if i = j then f (l.getD i default) else l.getD i default := by
  rw [List.getD_eq_getElem?_getD, List.getD_eq_getElem?_getD, List.getElem?_modify]
  by_cases hij : i = j
  · subst hij
    simp [List.getElem?_eq_getElem hj]
  · have hji : j ≠ i := Ne.symm hij
    simp [hij, hji]

theorem sum_map_modify (g : α → ℤ) (hj : j < l.length) :
    ((l.modify j f).map g).sum = (l.map g).sum + (g (f (l.getD j default)) - g (l.getD j default)) := by
  induction l generalizing j with
  | nil => cases hj
  | cons a l ih =>
    cases j with
    | zero =>
      simp only [List.modify_zero_cons, List.map_cons, List.sum_cons, List.getD_cons_zero]
      ring
    | succ j =>
      simp only [List.modify_succ_cons, List.map_cons, List.sum_cons, List.getD_cons_succ,
        ih (Nat.lt_of_succ_lt_succ hj)]
      ring

end Place

/-- The place of the connection that was passed last. -/
def standing (s : SessionSched) : ℕ := s.iter.getD (s.conns.length - 1)

/-- The iterator has moved to the place `j`. -/
def turnTo (s : SessionSched) (j : ℕ) : SessionSched :=
  { s with iter := if j + 1 = s.conns.length then none else some j }

/-- A connection that the choice stops at. -/
def Serves (s : SessionSched) (i : ℕ) : Prop := (s.conn i).dataLeft ∧ 0 < (s.conn i).dynWt

instance (s : SessionSched) (i : ℕ) : Decidable (s.Serves i) := inferInstanceAs (Decidable (_ ∧ _))

variable {s s' t : SessionSched} {i j : ℕ}

theorem conn_of_le (h : s.conns.length ≤ i) : s.conn i = default := by
  rw [conn, List.getD_eq_getElem?_getD, List.getElem?_eq_none h, Option.getD_none]

theorem lt_of_dataLeft (h : (s.conn i).dataLeft) : i < s.conns.length := by
  by_contra hi
  rw [conn_of_le (Nat.le_of_not_lt hi)] at h
  exact absurd h (by decide)

theorem lt_of_dynWt (h : 0 < (s.conn i).dynWt) : i < s.conns.length := by
  by_contra hi
  rw [conn_of_le (Nat.le_of_not_lt hi)] at h
  exact absurd h (by decide)

theorem nextConn_eq (hn : s.conns ≠ []) :
    s.nextConn = (some ((s.standing + 1) % s.conns.length),
      s.turnTo ((s.standing + 1) % s.conns.length)) := by
  have hl : s.conns.length ≠ 0 := fun h => hn (List.length_eq_zero_iff.mp h)
  cases hi : s.iter with
  | none => simp [nextConn, iterNext, iterLast, standing, turnTo, hi, hl]
  | some k => simp [nextConn, iterNext, standing, turnTo, hi]

theorem standing_turnTo : (s.turnTo j).standing = j := by
  by_cases h : j + 1 = s.conns.length
  · rw [standing, turnTo, if_pos h]
    exact (Nat.eq_sub_of_add_eq h).symm
  · rw [standing, turnTo, if_neg h]
    rfl

theorem conn_spendAt :
    (s.spendAt j).conn i
      = if i = j ∧ 0 < (s.conn j).dynWt then (s.conn i).spend else s.conn i := by
  by_cases hd : 0 < (s.conn j).dynWt
  · simp only [spendAt, hd, and_true, if_true]
    exact getD_modify (lt_of_dynWt hd)
  · simp only [spendAt, hd, and_false, if_false]

/-- The two sums are those of the weights and of the credits. -/
structure Books (s : SessionSched) : Prop where
  wtSum : s.wtSum = (s.conns.map (·.wt)).sum
  dynWtSum : s.dynWtSum = (s.conns.map (·.dynWt)).sum

/-- What a choice leaves alone: all but the credits of the connections. -/
structure Kept (s s' : SessionSched) : Prop where
  length : s'.conns.length = s.conns.length
  conn : ∀ i, { s'.conn i with dynWt := 0 } = { s.conn i with dynWt := 0 }
  wtSum : s'.wtSum = s.wtSum
  books : s.Books → s'.Books

namespace Kept

theorem trans (h : Kept s s') (h' : Kept s' t) : Kept s t :=
  ⟨h'.length.trans h.length, fun i => (h'.conn i).trans (h.conn i), h'.wtSum.trans h.wtSum,
    fun hb => h'.books (h.books hb)⟩

theorem dataLeft (h : Kept s s') (i : ℕ) : (s'.conn i).dataLeft ↔ (s.conn i).dataLeft := by
  have hc := h.conn i
  rw [IntTcpAgent.mk.injEq] at hc
  rw [IntTcpAgent.dataLeft, IntTcpAgent.dataLeft, hc.2.2.1, hc.2.2.2.1]

end Kept

/-- The iterator, the connection at work and its count are not of the books. -/
theorem kept_of_eq (h : s' = { s with
    iter := s'.iter, curConn := s'.curConn, numConsecSegs := s'.numConsecSegs }) : Kept s s' := by
  rw [h]
  exact ⟨rfl, fun _ => rfl, rfl, fun hb => ⟨hb.wtSum, hb.dynWtSum⟩⟩

theorem spendAt_kept (s : SessionSched) (j : ℕ) : Kept s (s.spendAt j) := by
  refine ⟨?_, fun i => ?_, ?_, fun hb => ?_⟩
  · rw [spendAt]
    split
    · exact List.length_modify _ _ _
    · rfl
  · rw [conn_spendAt]
    split <;> rfl
  · rw [spendAt]
    split <;> rfl
  · by_cases hd : 0 < (s.conn j).dynWt
    · have hj := lt_of_dynWt hd
      rw [spendAt, if_pos hd]
      refine ⟨?_, ?_⟩
      · simp only [sum_map_modify (·.wt) hj, hb.wtSum, IntTcpAgent.spend, sub_self, add_zero]
      · simp only [sum_map_modify (·.dynWt) hj, hb.dynWtSum, IntTcpAgent.spend]
        ring
    · rwa [spendAt, if_neg hd]

/-- A refill puts the credits right, if the weights add up. -/
theorem resetDynWeights_books (h : s.wtSum = (s.conns.map (·.wt)).sum) :
    s.resetDynWeights.Books := by
  refine ⟨?_, ?_⟩
  · rw [resetDynWeights, List.map_map]
    exact h
  · rw [resetDynWeights, List.map_map]
    exact h

theorem resetDynWeights_kept (s : SessionSched) : Kept s s.resetDynWeights := by
  refine ⟨List.length_map _, fun i => ?_, rfl, fun hb => resetDynWeights_books hb.wtSum⟩
  by_cases hi : i < s.conns.length
  · simp [conn, resetDynWeights, List.getD_eq_getElem?_getD, hi]
  · rw [conn_of_le (Nat.le_of_not_lt hi), conn_of_le]
    simpa [resetDynWeights] using hi

theorem resetDynWeights_dynWt (s : SessionSched) (i : ℕ) :
    (s.resetDynWeights.conn i).dynWt = if i < s.conns.length then (s.conn i).wt else 0 := by
  by_cases hi : i < s.conns.length
  · simp [conn, resetDynWeights, List.getD_eq_getElem?_getD, hi]
  · rw [if_neg hi, conn_of_le]
    · rfl
    · simpa [resetDynWeights] using hi

theorem spendAt_standing (s : SessionSched) (j : ℕ) : (s.spendAt j).standing = s.standing := by
  rw [standing, (spendAt_kept s j).length, spendAt]
  split <;> rfl

/-! ### The choice -/

/-- A pass of the loop. -/
theorem fineLoop_step (hn : s.conns ≠ []) (hj : j = (s.standing + 1) % s.conns.length) (m : ℕ) :
    fineLoop m s = if s.Serves j then (some j, (s.turnTo j).spendAt j) else
      match m with
      | 0 => (some j, (s.turnTo j).spendAt j)
      | m + 1 => fineLoop m ((s.turnTo j).spendAt j) := by
  rw [fineLoop, nextConn_eq hn, ← hj]
  rfl

theorem pass_serves (hij : i ≠ j) : ((s.turnTo j).spendAt j).Serves i ↔ s.Serves i := by
  rw [Serves, conn_spendAt, if_neg fun h => hij h.1]
  rfl

theorem serves_of_pass (h : ((s.turnTo j).spendAt j).Serves i) : s.Serves i := by
  rw [Serves, conn_spendAt] at h
  split at h
  next hd =>
    obtain ⟨rfl, hpos⟩ := hd
    exact ⟨h.1, hpos⟩
  next => exact h

/-- The loop stops at a connection that serves, or has passed all it was allowed to. -/
theorem fineLoop_spec {m : ℕ} (hm : m < s.conns.length) :
    ∃ j s', fineLoop m s = (some j, s') ∧ j < s.conns.length ∧ Kept s s' ∧ s'.standing = j ∧
      (s.Serves j ∨
        j = (s.standing + 1 + m) % s.conns.length ∧
          ∀ d ≤ m, ¬ s.Serves ((s.standing + 1 + d) % s.conns.length)) := by
  induction m generalizing s with
  | zero =>
    obtain ⟨j, hj⟩ : ∃ j, j = (s.standing + 1) % s.conns.length := ⟨_, rfl⟩
    have hlt : j < s.conns.length := hj ▸ Nat.mod_lt _ hm
    have hk : Kept s (s.turnTo j) := kept_of_eq rfl
    refine ⟨j, (s.turnTo j).spendAt j, ?_, hlt, hk.trans (spendAt_kept _ j), ?_, ?_⟩
    · rw [fineLoop_step (List.length_pos_iff.mp hm) hj]
      exact ite_self _
    · rw [spendAt_standing, standing_turnTo]
    · by_cases hs : s.Serves j
      · exact .inl hs
      · refine .inr ⟨hj, fun d hd => ?_⟩
        rwa [Nat.le_zero.mp hd, Nat.add_zero, ← hj]
  | succ m ih =>
    have hpos : 0 < s.conns.length := Nat.zero_lt_of_lt hm
    obtain ⟨j, hj⟩ : ∃ j, j = (s.standing + 1) % s.conns.length := ⟨_, rfl⟩
    have hlt : j < s.conns.length := hj ▸ Nat.mod_lt _ hpos
    have hk : Kept s ((s.turnTo j).spendAt j) := .trans (kept_of_eq rfl) (spendAt_kept _ j)
    have hst : ((s.turnTo j).spendAt j).standing = j := by
      rw [spendAt_standing, standing_turnTo]
    rw [fineLoop_step (List.length_pos_iff.mp hpos) hj]
    by_cases hs : s.Serves j
    · exact ⟨j, _, if_pos hs, hlt, hk, hst, .inl hs⟩
    · rw [if_neg hs]
      -- the places still to come differ from the one just passed
      have hnext : ∀ d ≤ m, (j + 1 + d) % s.conns.length
          = (s.standing + 1 + (d + 1)) % s.conns.length ∧ (j + 1 + d) % s.conns.length ≠ j := by
        intro d hd
        refine ⟨?_, ?_⟩
        · rw [hj, Nat.add_assoc, Nat.mod_add_mod]
          congr 1
          omega
        · intro he
          have h1 : (j + (1 + d)) % s.conns.length = (j + 0) % s.conns.length := by
            rw [← Nat.add_assoc, he, Nat.add_zero, Nat.mod_eq_of_lt hlt]
          have h2 := Nat.ModEq.add_left_cancel' j h1
          rw [Nat.ModEq, Nat.zero_mod, Nat.mod_eq_of_lt (by omega)] at h2
          omega
      obtain ⟨i, s', hrun, hi, hk', hi', hends⟩ :=
        ih (s := (s.turnTo j).spendAt j) (by rw [hk.length]; omega)
      rw [hk.length] at hi
      rw [hk.length, hst] at hends
      refine ⟨i, s', hrun, hi, hk.trans hk', hi', ?_⟩
      rcases hends with hserves | ⟨hlast, hnone⟩
      · exact .inl (serves_of_pass hserves)
      · refine .inr ⟨hlast.trans (hnext m le_rfl).1, fun d hd => ?_⟩
        cases d with
        | zero => rwa [Nat.add_zero, ← hj]
        | succ d =>
          have hd' : d ≤ m := by omega
          rw [← (hnext d hd').1, ← pass_serves (hnext d hd').2]
          exact hnone d hd'

def PositiveWeights (s : SessionSched) : Prop := ∀ i < s.conns.length, 0 < (s.conn i).wt

/-- A connection of the session has data left. -/
def HasData (s : SessionSched) : Prop := ∃ i < s.conns.length, (s.conn i).dataLeft

/-- The credits are due for a refill, a connection with data has credit left, or the round ends at a
connection with data. -/
def FineReady (s : SessionSched) : Prop :=
  s.dynWtSum = 0 ∨ (∃ i < s.conns.length, s.Serves i) ∨ (s.conn s.standing).dataLeft

/-- The connection at work has data and may go on, or another one can be chosen. -/
def CoarseReady (window : ℤ) (s : SessionSched) : Prop :=
  (∃ i ∈ s.curConn, s.numConsecSegs < (window * (s.conn i).wt).tdiv s.wtSum ∧
    (s.conn i).dataLeft) ∨ s.FineReady

theorem Kept.hasData (h : Kept s s') : s'.HasData ↔ s.HasData := by
  simp only [HasData, h.length, h.dataLeft]

theorem Kept.positiveWeights (h : Kept s s') (hw : s.PositiveWeights) : s'.PositiveWeights := by
  intro i hi
  have hc := h.conn i
  rw [IntTcpAgent.mk.injEq] at hc
  rw [hc.1]
  exact hw i (h.length ▸ hi)

instance (s : SessionSched) : Decidable s.PositiveWeights :=
  inferInstanceAs (Decidable (∀ i < _, _))

instance (s : SessionSched) : Decidable s.HasData := inferInstanceAs (Decidable (∃ i < _, _))

instance (s : SessionSched) : Decidable s.FineReady := inferInstanceAs (Decidable (_ ∨ _))

/-- Every place is passed in a round. -/
theorem exists_pass {n p i : ℕ} (hp : p < n) (hi : i < n) : ∃ d ≤ n - 1, (p + 1 + d) % n = i := by
  rcases Nat.lt_or_ge p i with h | h
  · exact ⟨i - p - 1, by omega, by rw [show p + 1 + (i - p - 1) = i by omega, Nat.mod_eq_of_lt hi]⟩
  · refine ⟨i + n - p - 1, by omega, ?_⟩
    rw [show p + 1 + (i + n - p - 1) = i + n by omega, Nat.add_mod_right, Nat.mod_eq_of_lt hi]

theorem whoToSndFine_spec (hst : s.standing < s.conns.length) :
    ∃ r s', s.whoToSndFine = some (r, s') ∧ Kept s s' ∧ s'.standing < s.conns.length ∧
      (∀ i, r = some i → (s.conn i).dataLeft) ∧
      (s.PositiveWeights → (r.isSome ↔ s.HasData ∧ s.FineReady)) := by
  obtain ⟨s₀, hs₀⟩ : ∃ s₀, s₀ = if s.dynWtSum = 0 then s.resetDynWeights else s := ⟨_, rfl⟩
  have hk₀ : Kept s s₀ := by
    rw [hs₀]
    split
    · exact resetDynWeights_kept s
    · exact kept_of_eq rfl
  have hst₀ : s₀.standing = s.standing := by
    rw [standing, hk₀.length, hs₀]
    split <;> rfl
  -- with the credits refilled, every connection with data serves
  have hserves : s.PositiveWeights → ∀ i < s.conns.length,
      (s.dynWtSum = 0 ∧ (s.conn i).dataLeft ∨ s.Serves i) → s₀.Serves i := by
    intro hw i hi hor
    refine ⟨(hk₀.dataLeft i).mpr (hor.elim (·.2) (·.1)), ?_⟩
    rw [hs₀]
    split
    next h0 =>
      rw [resetDynWeights_dynWt, if_pos hi]
      exact hw i hi
    next h0 => exact hor.elim (fun h => absurd h.1 h0) (·.2)
  have hpos : 0 < s.conns.length := Nat.zero_lt_of_lt hst
  obtain ⟨j, s', hrun, hj, hk, hst', hends⟩ :=
    fineLoop_spec (s := s₀) (m := s₀.conns.length - 1) (by rw [hk₀.length]; omega)
  rw [hk₀.length] at hj hends
  rw [hst₀] at hends
  have hk' := hk₀.trans hk
  refine ⟨if (s.conn j).dataLeft then some j else none, s', ?_, hk', hst' ▸ hj, fun i hi => ?_,
    fun hw => ?_⟩
  · rw [whoToSndFine, ← hs₀]
    simp only [hrun, hk'.dataLeft]
  · split at hi
    next hd =>
      cases hi
      exact hd
    next => cases hi
  · have hlast : (s.standing + 1 + (s.conns.length - 1)) % s.conns.length = s.standing := by
      rw [show s.standing + 1 + (s.conns.length - 1) = s.standing + s.conns.length by omega,
        Nat.add_mod_right, Nat.mod_eq_of_lt hst]
    rw [hlast] at hends
    have hsome : (if (s.conn j).dataLeft then some j else none).isSome ↔ (s.conn j).dataLeft := by
      split
      next hd => exact iff_of_true rfl hd
      next hd => exact iff_of_false (by decide) hd
    rw [hsome]
    constructor
    · intro hd
      refine ⟨⟨j, hj, hd⟩, ?_⟩
      rcases hends with hserve | ⟨hjs, -⟩
      · by_cases h0 : s.dynWtSum = 0
        · exact .inl h0
        · rw [hs₀, if_neg h0] at hserve
          exact .inr (.inl ⟨j, hj, hserve⟩)
      · exact .inr (.inr (hjs ▸ hd))
    · rintro ⟨⟨i, hi, hd⟩, hready⟩
      rcases hends with hserve | ⟨hjs, hnone⟩
      · exact (hk₀.dataLeft j).mp hserve.1
      · have hpassed : ∀ k < s.conns.length, ¬ s₀.Serves k := by
          intro k hk
          obtain ⟨d, hd, rfl⟩ := exists_pass hst hk
          exact hnone d hd
        rcases hready with h0 | ⟨k, hk, hserve⟩ | hstand
        · exact absurd (hserves hw i hi (.inl ⟨h0, hd⟩)) (hpassed i hi)
        · exact absurd (hserves hw k hk (.inr hserve)) (hpassed k hk)
        · exact hjs ▸ hstand

theorem anotherConn_spec (hst : s.standing < s.conns.length) :
    ∃ r s', s.anotherConn = some (r, s') ∧ Kept s s' ∧ s'.standing < s.conns.length ∧
      (∀ i, r = some i → (s.conn i).dataLeft) ∧
      (s.PositiveWeights → (r.isSome ↔ s.HasData ∧ s.FineReady)) := by
  obtain ⟨r, s', hrun, hk, hst', hr, hiff⟩ :=
    whoToSndFine_spec (s := { s with numConsecSegs := 0 }) hst
  have hk₀ : Kept s { s with numConsecSegs := 0 } := kept_of_eq rfl
  refine ⟨r, { s' with
    curConn := r, numConsecSegs := if r.isSome then s'.numConsecSegs + 1 else s'.numConsecSegs },
    ?_, (hk₀.trans hk).trans (kept_of_eq rfl), hst', hr, hiff⟩
  rw [anotherConn, hrun]

/-- What a choice needs of a session with positive weights in order to find a connection with data,
whenever there is one. -/
def Ready (window : ℤ) : SchedDisp → SessionSched → Prop
  | .fineRoundRobin, s => s.HasData → s.FineReady
  | .coarseRoundRobin, s =>
    (s.curConn ≠ none → s.wtSum ≠ 0) ∧ (s.HasData → s.CoarseReady window)

/-- A choice comes to an end, and its choice has data if any connection has. -/
def Conserving (window : ℤ) (how : SchedDisp) (s : SessionSched) : Prop :=
  ∃ r s', s.whoToSnd window how = some (r, s') ∧
    (s.HasData → ∃ i ∈ r, i < s.conns.length ∧ (s.conn i).dataLeft)

/-- The choice, whatever it is. -/
theorem whoToSnd_spec (window : ℤ) {how : SchedDisp} (hst : s.standing < s.conns.length)
    (h0 : how = .coarseRoundRobin → s.curConn ≠ none → s.wtSum ≠ 0) :
    ∃ r s', s.whoToSnd window how = some (r, s') ∧ Kept s s' ∧ s'.standing < s.conns.length ∧
      (∀ i, r = some i → (s.conn i).dataLeft) ∧
      (s.PositiveWeights → s.HasData → (r.isSome ↔ Ready window how s)) := by
  cases how with
  | fineRoundRobin =>
    obtain ⟨r, s', hrun, hk, hst', hr, hiff⟩ := whoToSndFine_spec hst
    refine ⟨r, s', hrun, hk, hst', hr, fun hw hd => ?_⟩
    rw [hiff hw, Ready]
    exact ⟨fun h _ => h.2, fun h => ⟨hd, h hd⟩⟩
  | coarseRoundRobin =>
    have hcoarse : Ready window .coarseRoundRobin s ↔ (s.HasData → s.CoarseReady window) :=
      and_iff_right (h0 rfl)
    rw [hcoarse]
    cases hc : s.curConn with
    | none =>
      obtain ⟨r, s', hrun, hk, hst', hr, hiff⟩ := anotherConn_spec hst
      refine ⟨r, s', by rw [whoToSnd, hc, hrun], hk, hst', hr, fun hw hd => ?_⟩
      rw [hiff hw, CoarseReady, hc]
      simp [hd]
    | some i =>
      have hsum : s.wtSum ≠ 0 := h0 rfl (by rw [hc]; exact nofun)
      simp only [whoToSnd, hc, if_neg hsum]
      split
      next hgo =>
        refine ⟨some i, _, rfl, kept_of_eq rfl, hst, fun k hk => ?_, fun _ hd => ?_⟩
        · cases hk
          exact hgo.2
        · exact iff_of_true rfl fun _ => .inl ⟨i, hc, hgo⟩
      next hgo =>
        obtain ⟨r, s', hrun, hk, hst', hr, hiff⟩ :=
          anotherConn_spec (s := { s with numConsecSegs := s.numConsecSegs + 1 }) hst
        simp only [hc] at hrun
        refine ⟨r, s', hrun, .trans (kept_of_eq rfl) hk, hst', hr, fun hw hd => ?_⟩
        have hcur : s.CoarseReady window ↔ s.FineReady := by
          rw [CoarseReady, hc]
          refine or_iff_right fun hex => ?_
          obtain ⟨k, hk, hgo'⟩ := hex
          cases hk
          exact hgo hgo'
        rw [hiff hw, hcur]
        exact ⟨fun h _ => h.2, fun h => ⟨hd, h hd⟩⟩

theorem whoToSnd_eq_none {window : ℤ} (hc : s.curConn ≠ none) (h0 : s.wtSum = 0) :
    s.whoToSnd window .coarseRoundRobin = none := by
  obtain ⟨i, hi⟩ := Option.ne_none_iff_exists'.mp hc
  simp only [whoToSnd, hi, if_pos h0]

/-- The iterator stands at a connection, or at the end of the list. -/
def InList (s : SessionSched) : Prop := ∀ k ∈ s.iter, k < s.conns.length

theorem InList.standing_lt (hi : s.InList) (hn : s.conns ≠ []) : s.standing < s.conns.length := by
  have hpos := List.length_pos_iff.mpr hn
  cases hk : s.iter with
  | none =>
    rw [standing, hk]
    exact Nat.sub_one_lt hpos.ne'
  | some k =>
    rw [standing, hk]
    exact hi k hk

theorem inList_of_standing (h : s.standing < s.conns.length) : s.InList := by
  intro k hk
  rwa [standing, Option.mem_def.mp hk] at h

theorem whoToSndFine_nil (hi : s.InList) (hn : s.conns = []) : s.whoToSndFine = none := by
  have hiter : s.iter = none := by
    refine Option.eq_none_iff_forall_not_mem.mpr fun k hk => ?_
    have hk' := hi k hk
    rw [hn] at hk'
    exact absurd hk' (Nat.not_lt_zero k)
  obtain ⟨s₀, hs₀⟩ : ∃ s₀, s₀ = if s.dynWtSum = 0 then s.resetDynWeights else s := ⟨_, rfl⟩
  obtain ⟨hn₀, hi₀⟩ : s₀.conns = [] ∧ s₀.iter = none := by
    rw [hs₀]
    split
    · exact ⟨by rw [resetDynWeights, hn]; rfl, hiter⟩
    · exact ⟨hn, hiter⟩
  have hrun : fineLoop (s₀.conns.length - 1) s₀ = (none, s₀) := by
    rcases s₀ with ⟨_, _, _, _, _, _⟩
    cases hn₀
    cases hi₀
    rfl
  rw [whoToSndFine, ← hs₀]
  simp only [hrun]

theorem anotherConn_nil (hi : s.InList) (hn : s.conns = []) : s.anotherConn = none := by
  have hf : whoToSndFine { s with numConsecSegs := 0 } = none := whoToSndFine_nil hi hn
  rw [anotherConn, hf]

/-- A session without connections has no choice to come to. -/
theorem whoToSnd_nil {window : ℤ} {how : SchedDisp} (hi : s.InList) (hn : s.conns = []) :
    s.whoToSnd window how = none := by
  cases how with
  | fineRoundRobin => exact whoToSndFine_nil hi hn
  | coarseRoundRobin =>
    rw [whoToSnd]
    split
    · exact anotherConn_nil hi hn
    next i hc =>
      have hdata : ¬ (s.conn i).dataLeft := fun h => by
        have hlt := lt_of_dataLeft h
        rw [hn] at hlt
        exact absurd hlt (Nat.not_lt_zero i)
      split
      · rfl
      · exact (if_neg fun h => hdata h.2).trans (anotherConn_nil hi hn)

/-- A choice that comes to an end, with any weights. -/
theorem whoToSnd_some {window : ℤ} {how : SchedDisp} {r : Option ℕ} (hi : s.InList)
    (h : s.whoToSnd window how = some (r, s')) :
    Kept s s' ∧ s'.InList ∧ ∀ i ∈ r, (s.conn i).dataLeft := by
  by_cases hn : s.conns = []
  · rw [whoToSnd_nil hi hn] at h
    cases h
  · have h0 : how = .coarseRoundRobin → s.curConn ≠ none → s.wtSum ≠ 0 := by
      rintro rfl hc hsum
      rw [whoToSnd_eq_none hc hsum] at h
      cases h
    obtain ⟨r', s'', hrun, hk, hst', hr, -⟩ := whoToSnd_spec window (hi.standing_lt hn) h0
    rw [h] at hrun
    cases hrun
    exact ⟨hk, inList_of_standing (hk.length.symm ▸ hst'), hr⟩

/-- **A choice finds a connection with data** exactly when the session is ready for it. -/
theorem conserving_iff {window : ℤ} {how : SchedDisp} (hst : s.standing < s.conns.length)
    (hw : s.PositiveWeights) : s.Conserving window how ↔ s.Ready window how := by
  by_cases h0 : how = .coarseRoundRobin → s.curConn ≠ none → s.wtSum ≠ 0
  · obtain ⟨r, s', hrun, -, -, hr, hiff⟩ := whoToSnd_spec window hst h0
    by_cases hd : s.HasData
    · rw [← hiff hw hd]
      constructor
      · rintro ⟨r', s'', hrun', hfound⟩
        rw [hrun] at hrun'
        cases hrun'
        obtain ⟨i, hi, -⟩ := hfound hd
        exact Option.isSome_iff_exists.mpr ⟨i, hi⟩
      · intro hsome
        obtain ⟨i, rfl⟩ := Option.isSome_iff_exists.mp hsome
        exact ⟨_, s', hrun, fun _ => ⟨i, rfl, lt_of_dataLeft (hr i rfl), hr i rfl⟩⟩
    · refine iff_of_true ⟨r, s', hrun, fun h => absurd h hd⟩ ?_
      cases how with
      | fineRoundRobin => exact fun h => absurd h hd
      | coarseRoundRobin => exact ⟨h0 rfl, fun h => absurd h hd⟩
  · push Not at h0
    obtain ⟨rfl, hc, hsum⟩ := h0
    refine iff_of_false ?_ fun h => h.1 hc hsum
    rintro ⟨r, s', hrun, -⟩
    rw [whoToSnd_eq_none hc hsum] at hrun
    cases hrun

end SessionSched

end Afabric
