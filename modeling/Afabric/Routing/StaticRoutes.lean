import Afabric.Routing.RouteMatrix
import Mathlib.Algebra.Order.Field.Rat

/-!
# Routing — static routes are shortest paths

A round of `computeRoutes` settles the node of least label and relaxes its edges, or does nothing
when no label is left below `INFINITY` (`settleNearest_turn`), so that the arrays of a source are
Dijkstra's labels throughout (`Rounds.step`).  A source writes its own row of the routes only, which
keeps the rows of the earlier ones (`RoutedTo.step`).  With the matrix of the inserted links the
routes are first hops of cheapest paths, and they compose (`routes_shortest`).
-/

namespace Afabric

namespace RouteLogic

open WeightedPaths Dijkstra

variable {n k : ℕ} {cost : ℕ → ℚ} {adjEntry : ℕ → ℕ} {t t' : RouteTables}

/-- The number of a node. -/
def IsNode (n v : ℕ) : Prop := 1 ≤ v ∧ v < n

instance (n v : ℕ) : Decidable (IsNode n v) := inferInstanceAs (Decidable (_ ∧ _))

/-- The links of the matrix. -/
def Edge (n : ℕ) (cost : ℕ → ℚ) (u v : ℕ) (c : ℚ) : Prop :=
  IsNode n u ∧ IsNode n v ∧ c = cost (index u v n) ∧ c ≠ infinity

/-- The costs of the matrix are positive and do not exceed `INFINITY`. -/
def Costs (n : ℕ) (cost : ℕ → ℚ) : Prop :=
  ∀ u v, IsNode n u → IsNode n v → 0 < cost (index u v n) ∧ cost (index u v n) ≤ infinity

/-- The arrays as labels of the nodes. -/
def labels (n k : ℕ) (t : RouteTables) : Labels ℕ ℚ where
  settled v := IsNode n v ∧ t.parent v = k
  dist v := if IsNode n v then t.hopcnt v else infinity
  first v := if IsNode n v then t.nextHop (index k v n) else 0

/-- The routes from the other sources are the same. -/
def OtherRows (n k : ℕ) (t t' : RouteTables) : Prop :=
  ∀ i j, i ≠ k → j < n → t'.nextHop (index i j n) = t.nextHop (index i j n)

theorem OtherRows.refl (t : RouteTables) : OtherRows n k t t := fun _ _ _ _ => rfl

theorem OtherRows.trans {t'' : RouteTables} (h : OtherRows n k t t') (h' : OtherRows n k t' t'') :
    OtherRows n k t t'' := fun i j hi hj => (h' i j hi hj).trans (h i j hi hj)

theorem update_row {f : ℕ → ℕ} {v w x : ℕ} (hv : v < n) (hw : w < n) (hne : w ≠ v) :
    Function.update f (index k v n) x (index k w n) = f (index k w n) :=
  Function.update_of_ne (fun h => hne (index_inj hw hv h).2) _ _

theorem update_otherRow {f : ℕ → ℕ} {i j v x : ℕ} (hv : v < n) (hj : j < n) (hi : i ≠ k) :
    Function.update f (index k v n) x (index i j n) = f (index i j n) :=
  Function.update_of_ne (fun h => hi (index_inj hj hv h).1) _ _

/-! ### The neighbours of the source -/

theorem setNeighbour_parent (v : ℕ) (t : RouteTables) :
    (setNeighbour n cost adjEntry k v t).parent = t.parent := by
  rw [setNeighbour]
  dsimp only
  split_ifs <;> rfl

theorem setNeighbour_hopcnt {v w : ℕ} (hv : t.parent v ≠ k) :
    (setNeighbour n cost adjEntry k v t).hopcnt w =
      if w = v then cost (index k v n) else t.hopcnt w := by
  rw [setNeighbour, if_pos hv]
  dsimp only
  split_ifs with h₁ h₂ h₂ <;> simp [Function.update, h₂]

theorem setNeighbour_nextHop {v w : ℕ} (hv : t.parent v ≠ k) (hvn : v < n) (hw : w < n) :
    (setNeighbour n cost adjEntry k v t).nextHop (index k w n) =
      if w = v ∧ cost (index k v n) ≠ infinity then v else t.nextHop (index k w n) := by
  rw [setNeighbour, if_pos hv]
  simp only [Function.update_self]
  by_cases hinf : cost (index k v n) = infinity
  · rw [if_neg (not_not.mpr hinf), if_neg fun h => h.2 hinf]
  · rw [if_pos hinf]
    by_cases hwv : w = v
    · rw [if_pos ⟨hwv, hinf⟩, hwv]
      exact Function.update_self _ _ _
    · rw [if_neg fun h => hwv h.1]
      exact update_row hvn hw hwv

theorem setNeighbour_otherRows {v : ℕ} (hvn : v < n) (t : RouteTables) :
    OtherRows n k t (setNeighbour n cost adjEntry k v t) := by
  intro i j hi hj
  rw [setNeighbour]
  dsimp only
  split_ifs
  · exact update_otherRow hvn hj hi
  all_goals rfl

/-- Before the first round the labels are those of the edges of the source. -/
structure Started (n : ℕ) (cost : ℕ → ℚ) (k : ℕ) (t : RouteTables) : Prop where
  parent : ∀ v, v < n → t.parent v = v
  hopcnt : ∀ v, IsNode n v → v ≠ k → t.hopcnt v = cost (index k v n)
  nextHop : ∀ v, IsNode n v → v ≠ k →
    t.nextHop (index k v n) = if cost (index k v n) = infinity then 0 else v

/-- The nodes before `i` have their labels, the others have none yet. -/
structure StartedTo (n : ℕ) (cost : ℕ → ℚ) (k : ℕ) (t : RouteTables) (i : ℕ) (s : RouteTables) :
    Prop where
  parent : s.parent = t.parent
  other : OtherRows n k t s
  done : ∀ v, IsNode n v → v ≠ k → v < i → s.hopcnt v = cost (index k v n) ∧
    s.nextHop (index k v n) = if cost (index k v n) = infinity then 0 else v
  todo : ∀ v, v < n → i ≤ v → s.nextHop (index k v n) = 0

theorem StartedTo.step {i : ℕ} {s : RouteTables} (hp : ∀ v, v < n → t.parent v = v) (hi : i < n)
    (h : StartedTo n cost k t i s) :
    StartedTo n cost k t (i + 1) (setNeighbour n cost adjEntry k i s) := by
  have hps : s.parent i = i := by rw [h.parent, hp i hi]
  refine ⟨(setNeighbour_parent i s).trans h.parent, h.other.trans (setNeighbour_otherRows hi s),
    fun v hv hvk hvi => ?_, fun v hv hiv => ?_⟩
  · have hvi' : v ≠ i → v < i := fun hne => lt_of_le_of_ne (Nat.le_of_lt_succ hvi) hne
    by_cases hik : i = k
    · -- the source itself is passed over
      rw [setNeighbour, if_neg (by rw [hps]; exact not_not.mpr hik)]
      exact h.done v hv hvk (hvi' fun he => hvk (he.trans hik))
    · have hpk : s.parent i ≠ k := by rwa [hps]
      rw [setNeighbour_hopcnt hpk, setNeighbour_nextHop hpk hi hv.2]
      by_cases hv' : v = i
      · subst hv'
        rw [h.todo v hi le_rfl, if_pos rfl]
        by_cases hinf : cost (index k v n) = infinity <;> simp [hinf]
      · rw [if_neg hv', if_neg fun hc => hv' hc.1]
        exact h.done v hv hvk (hvi' hv')
  · by_cases hik : i = k
    · rw [setNeighbour, if_neg (by rw [hps]; exact not_not.mpr hik)]
      exact h.todo v hv (Nat.le_of_succ_le hiv)
    · rw [setNeighbour_nextHop (by rwa [hps]) hi hv,
        if_neg fun hc => absurd hc.1 (Nat.ne_of_gt (Nat.lt_of_succ_le hiv))]
      exact h.todo v hv (Nat.le_of_succ_le hiv)

/-- The loop over the neighbours. -/
theorem neighbours_started (cost : ℕ → ℚ) (adjEntry : ℕ → ℕ) (t : RouteTables) (hk : IsNode n k)
    (hp : ∀ v, v < n → t.parent v = v) (hz : ∀ v, v < n → t.nextHop (index k v n) = 0) :
    Started n cost k (loop 1 n (setNeighbour n cost adjEntry k) t) ∧
      OtherRows n k t (loop 1 n (setNeighbour n cost adjEntry k) t) := by
  have h : StartedTo n cost k t n (loop 1 n (setNeighbour n cost adjEntry k) t) :=
    loop_induct (StartedTo n cost k t) (hk.1.trans hk.2.le)
      ⟨rfl, .refl t, fun v hv _ hlt => absurd hv.1 (not_le.mpr hlt), fun v hv _ => hz v hv⟩
      fun i s _ hi hs => hs.step hp hi
  exact ⟨⟨fun v hv => by rw [h.parent, hp v hv], fun v hv hvk => (h.done v hv hvk hv.2).1,
    fun v hv hvk => (h.done v hv hvk hv.2).2⟩, h.other⟩

theorem Started.inv (hk : IsNode n k) (hcost : Costs n cost) (h : Started n cost k t) :
    Inv (Edge n cost) k 0 infinity (labels n k t) := by
  refine Inv.init (fun u => ?_) (fun v hvk => ?_) fun v c hvk he => ?_
  · constructor
    · rintro ⟨hu, hp⟩
      rw [← hp, h.parent u hu.2]
    · rintro rfl
      exact ⟨hk, h.parent u hk.2⟩
  · by_cases hv : IsNode n v
    · have hle := (hcost k v hk hv).2
      have hhop := h.hopcnt v hv hvk
      have hnh := h.nextHop v hv hvk
      by_cases hinf : cost (index k v n) = infinity
      · refine .inr ⟨?_, ?_⟩
        · simp only [labels, if_pos hv, hhop, hinf]
        · simp only [labels, if_pos hv, hnh, if_pos hinf]
      · refine .inl ⟨?_, ?_, ?_⟩
        · simp only [labels, if_pos hv, hhop]
          exact ⟨hk, hv, rfl, hinf⟩
        · simp only [labels, if_pos hv, hhop]
          exact lt_of_le_of_ne hle hinf
        · simp only [labels, if_pos hv, hnh, if_neg hinf]
    · exact .inr ⟨if_neg hv, if_neg hv⟩
  · obtain ⟨-, hv, rfl, -⟩ := he
    simp only [labels, if_pos hv, h.hopcnt v hv hvk, le_refl]

/-! ### A round -/

/-- `o` is 0 or an unsettled node with a finite label, and no worse than the nodes before `i`. -/
structure Nearest (n k : ℕ) (t : RouteTables) (i o : ℕ) : Prop where
  node : o = 0 ∨ (IsNode n o ∧ t.parent o ≠ k ∧ t.hopcnt o < t.hopcnt 0)
  least : ∀ w, 1 ≤ w → w < i → t.parent w ≠ k → t.hopcnt o ≤ t.hopcnt w

theorem nearest_spec (k : ℕ) (t : RouteTables) (hn : 1 ≤ n) : Nearest n k t n (nearest n k t) := by
  refine loop_induct (Nearest n k t) hn
    ⟨.inl rfl, fun w h₁ h₂ => absurd h₁ (not_le.mpr h₂)⟩ fun i o hi₁ hi₂ ho => ?_
  have hole : t.hopcnt o ≤ t.hopcnt 0 := by
    rcases ho.node with rfl | ⟨-, -, hlt⟩
    · exact le_rfl
    · exact hlt.le
  split_ifs with hc
  · refine ⟨.inr ⟨⟨hi₁, hi₂⟩, hc.1, lt_of_lt_of_le hc.2 hole⟩, fun w h₁ h₂ hp => ?_⟩
    rcases Nat.lt_succ_iff_lt_or_eq.mp h₂ with h | rfl
    · exact hc.2.le.trans (ho.least w h₁ h hp)
    · exact le_rfl
  · refine ⟨ho.node, fun w h₁ h₂ hp => ?_⟩
    rcases Nat.lt_succ_iff_lt_or_eq.mp h₂ with h | rfl
    · exact ho.least w h₁ h hp
    · exact not_lt.mp fun hlt => hc ⟨hp, hlt⟩

/-- The nodes before `i` are relaxed along the edges of `o`. -/
structure RelaxedTo (n : ℕ) (cost : ℕ → ℚ) (k o : ℕ) (t : RouteTables) (i : ℕ) (s : RouteTables) :
    Prop where
  parent : s.parent = t.parent
  other : OtherRows n k t s
  label : ∀ w, w < n →
    if 1 ≤ w ∧ w < i ∧ t.parent w ≠ k ∧ t.hopcnt o + cost (index o w n) < t.hopcnt w then
      s.hopcnt w = t.hopcnt o + cost (index o w n) ∧
        s.nextHop (index k w n) = t.nextHop (index k o n)
    else s.hopcnt w = t.hopcnt w ∧ s.nextHop (index k w n) = t.nextHop (index k w n)

theorem RelaxedTo.step {i o : ℕ} {s : RouteTables} (ho : IsNode n o) (hpo : t.parent o = k)
    (hi₁ : 1 ≤ i) (hi : i < n) (h : RelaxedTo n cost k o t i s) :
    RelaxedTo n cost k o t (i + 1) (relax n cost k o i s) := by
  have hso := h.label o ho.2
  rw [if_neg fun hc => hc.2.2.1 hpo] at hso
  have hsi := h.label i hi
  rw [if_neg fun hc => lt_irrefl _ hc.2.1] at hsi
  have hps : s.parent = t.parent := h.parent
  rw [relax, hso.1, hsi.1, hps, hso.2]
  by_cases hc : t.parent i ≠ k ∧ t.hopcnt o + cost (index o i n) < t.hopcnt i
  · rw [if_pos hc]
    refine ⟨rfl, h.other.trans fun a b ha hb => update_otherRow hi hb ha, fun w hw => ?_⟩
    by_cases hwi : w = i
    · subst hwi
      rw [if_pos ⟨hi₁, Nat.lt_succ_self _, hc⟩]
      exact ⟨Function.update_self _ _ _, Function.update_self _ _ _⟩
    · have hw' := h.label w hw
      dsimp only
      rw [Function.update_of_ne hwi, update_row hi hw hwi]
      have hiff : w < i + 1 ↔ w < i := by omega
      simp only [hiff]
      exact hw'
  · rw [if_neg hc]
    refine ⟨h.parent, h.other, fun w hw => ?_⟩
    by_cases hwi : w = i
    · subst hwi
      rw [if_neg fun h' => hc h'.2.2]
      exact hsi
    · have hw' := h.label w hw
      have hiff : w < i + 1 ↔ w < i := by omega
      simp only [hiff]
      exact hw'

/-- The loop over the nodes adjacent to `o`. -/
theorem relaxed_all (cost : ℕ → ℚ) {o : ℕ} (hn : 1 ≤ n) (ho : IsNode n o) (hpo : t.parent o = k) :
    RelaxedTo n cost k o t n (loop 1 n (relax n cost k o) t) :=
  loop_induct (RelaxedTo n cost k o t) hn
    ⟨rfl, .refl t, fun w _ => by
      rw [if_neg fun hc => absurd hc.1 (not_le.mpr hc.2.1)]
      exact ⟨rfl, rfl⟩⟩
    fun i s hi₁ hi hs => hs.step ho hpo hi₁ hi

theorem labels_congr (hp : ∀ v, IsNode n v → t'.parent v = t.parent v)
    (hh : ∀ v, IsNode n v → t'.hopcnt v = t.hopcnt v)
    (hx : ∀ v, IsNode n v → t'.nextHop (index k v n) = t.nextHop (index k v n)) :
    labels n k t' = labels n k t := by
  simp only [labels, Labels.mk.injEq]
  refine ⟨?_, ?_, ?_⟩
  · funext v
    exact propext (and_congr_right fun hv => by rw [hp v hv])
  · funext v
    exact if_ctx_congr Iff.rfl (hh v) fun _ => rfl
  · funext v
    exact if_ctx_congr Iff.rfl (hx v) fun _ => rfl

/-- No unsettled node has a label below `INFINITY`. -/
def Done (s : Labels ℕ ℚ) : Prop := ∀ w, ¬ s.settled w → ¬ s.dist w < infinity

/-- What a round does: nothing if it finds no node, else it settles one of least label. -/
inductive Turn (n : ℕ) (cost : ℕ → ℚ) (s s' : Labels ℕ ℚ) : Prop
  | idle (hdone : Done s) (he : s' = s)
  | settle (o : ℕ) (ho : ¬ s.settled o) (hlt : s.dist o < infinity)
      (hmin : ∀ w, ¬ s.settled w → s.dist o ≤ s.dist w) (hr : Round (Edge n cost) s o s')

/-- Relaxing the edges of a node that has just been settled is a round. -/
theorem RelaxedTo.round {o : ℕ} (ho : IsNode n o)
    (hpo : t.parent o ≠ k) (hpos : 0 ≤ t.hopcnt o)
    (hle : ∀ w, IsNode n w → t.parent w ≠ k → t.hopcnt w ≤ infinity)
    (h : RelaxedTo n cost k o { t with parent := Function.update t.parent o k } n t') :
    Round (Edge n cost) (labels n k t) o (labels n k t') := by
  have hpar : ∀ w, t'.parent w = if w = o then k else t.parent w := by
    intro w
    rw [h.parent]
    exact Function.update_apply _ _ _ _
  have hset : ∀ u, (labels n k t').settled u ↔ (labels n k t).settled u ∨ u = o := by
    intro u
    simp only [labels, hpar]
    constructor
    · rintro ⟨hu, hp⟩
      by_cases huo : u = o
      · exact .inr huo
      · exact .inl ⟨hu, by rwa [if_neg huo] at hp⟩
    · rintro (⟨hu, hp⟩ | rfl)
      · refine ⟨hu, ?_⟩
        split_ifs
        · rfl
        · exact hp
      · exact ⟨ho, if_pos rfl⟩
  have hupd : ∀ w, IsNode n w → (labels n k t').settled w →
      t'.hopcnt w = t.hopcnt w ∧ t'.nextHop (index k w n) = t.nextHop (index k w n) := by
    intro w hw hs
    have hl := h.label w hw.2
    rwa [if_neg fun hc => hc.2.2.1 (by rw [← h.parent]; exact hs.2)] at hl
  have hopen : ∀ w, IsNode n w → ¬ (labels n k t').settled w →
      if t.hopcnt o + cost (index o w n) < t.hopcnt w then
        t'.hopcnt w = t.hopcnt o + cost (index o w n) ∧
          t'.nextHop (index k w n) = t.nextHop (index k o n)
      else t'.hopcnt w = t.hopcnt w ∧ t'.nextHop (index k w n) = t.nextHop (index k w n) := by
    intro w hw hs
    have hp : Function.update t.parent o k w ≠ k := by
      have he : t'.parent w = Function.update t.parent o k w := congrFun h.parent w
      rw [← he]
      exact fun hp => hs ⟨hw, hp⟩
    have hl := h.label w hw.2
    simp only [hw.1, hw.2, true_and, ne_eq, hp, not_false_eq_true] at hl
    exact hl
  constructor
  case settled => exact hset
  case kept =>
    intro u hu
    have hun : IsNode n u := hu.1
    have hsame := hupd u hun hu
    simp only [labels, if_pos hun]
    exact hsame
  case relax =>
    intro w hw
    by_cases hwn : IsNode n w
    · have hl := hopen w hwn hw
      have hwo : t.parent w ≠ k := fun hp => hw ((hset w).mpr (.inl ⟨hwn, hp⟩))
      simp only [labels, if_pos hwn, if_pos ho]
      split_ifs at hl with hlt
      · refine .inl ⟨cost (index o w n), ⟨ho, hwn, rfl, fun hinf => ?_⟩, hlt, hl⟩
        -- an edge of cost `INFINITY` is never taken
        rw [hinf] at hlt
        exact absurd (hlt.trans_le (hle w hwn hwo)) (not_lt.mpr (le_add_of_nonneg_left hpos))
      · exact .inr hl
    · simp only [labels, if_neg hwn, and_self, or_true]
  case tight =>
    intro w c hw he
    obtain ⟨-, hwn, rfl, -⟩ := he
    have hl := hopen w hwn hw
    simp only [labels, if_pos hwn, if_pos ho]
    split_ifs at hl with hlt
    · exact hl.1.le
    · exact hl.1.trans_le (not_lt.mp hlt)

theorem settleNearest_turn (hcost : Costs n cost) (hk : IsNode n k)
    (hi : Inv (Edge n cost) k 0 infinity (labels n k t)) :
    Turn n cost (labels n k t) (labels n k (settleNearest n cost k t)) ∧
      OtherRows n k t (settleNearest n cost k t) := by
  have hn : 1 ≤ n := hk.1.trans hk.2.le
  obtain ⟨t₁, ht₁⟩ : ∃ t₁ : RouteTables,
    t₁ = { t with hopcnt := Function.update t.hopcnt 0 infinity } := ⟨_, rfl⟩
  have hsame : labels n k t₁ = labels n k t := by
    refine labels_congr (fun v _ => by rw [ht₁]) (fun v hv => ?_) fun v _ => by rw [ht₁]
    rw [ht₁]
    have hv0 : v ≠ 0 := Nat.ne_of_gt hv.1
    exact Function.update_of_ne hv0 _ _
  have h0 : t₁.hopcnt 0 = infinity := by simp only [ht₁, Function.update_self]
  have hother : OtherRows n k t t₁ := fun i j _ _ => by rw [ht₁]
  have hs := nearest_spec (n := n) k t₁ hn
  rw [settleNearest, ← ht₁]
  rw [← hsame] at hi ⊢
  clear ht₁ hsame
  generalize nearest n k t₁ = o at hs ⊢
  -- node 0 has the label `INFINITY`: the search ends there if no node is nearer
  by_cases ho : o = 0
  · subst ho
    rw [if_pos rfl]
    refine ⟨.idle (fun w hw hlt => ?_) (labels_congr (fun v hv => ?_) (fun v _ => rfl)
      fun v _ => rfl), hother.trans fun _ _ _ _ => rfl⟩
    · by_cases hwn : IsNode n w
      · simp only [labels, if_pos hwn] at hlt
        have hle := hs.least w hwn.1 hwn.2 fun hp => hw ⟨hwn, hp⟩
        rw [h0] at hle
        exact absurd hlt (not_lt.mpr hle)
      · simp only [labels, if_neg hwn] at hlt
        exact lt_irrefl _ hlt
    · exact Function.update_of_ne (Nat.ne_of_gt hv.1) _ _
  · rw [if_neg ho]
    obtain ⟨hon, hpo, hlt⟩ := hs.node.resolve_left ho
    rw [h0] at hlt
    have hrel := relaxed_all cost (t := { t₁ with parent := Function.update t₁.parent o k })
      hn hon (Function.update_self _ _ _)
    have hopen : ¬ (labels n k t₁).settled o := fun h => hpo h.2
    have hlt' : (labels n k t₁).dist o < infinity := by
      simp only [labels, if_pos hon]
      exact hlt
    have hok : o ≠ k := fun he => hopen (he ▸ hi.source)
    have hpos : 0 ≤ t₁.hopcnt o := by
      have hp := (hi.via o hok hlt').path.nonneg fun u v c he => he.2.2.1 ▸ (hcost u v he.1 he.2.1).1
      simpa only [labels, if_pos hon] using hp
    have hle : ∀ w, IsNode n w → t₁.parent w ≠ k → t₁.hopcnt w ≤ infinity := by
      intro w hwn hpw
      have h := hi.le_inf w fun hs => hpw hs.2
      simpa only [labels, if_pos hwn] using h
    refine ⟨.settle o hopen hlt' (fun w hw => ?_) (hrel.round hon hpo hpos hle),
      hother.trans hrel.other⟩
    by_cases hwn : IsNode n w
    · simp only [labels, if_pos hon, if_pos hwn]
      exact hs.least w hwn.1 hwn.2 fun hp => hw ⟨hwn, hp⟩
    · simp only [labels, if_pos hon, if_neg hwn]
      exact hlt.le

/-! ### A source -/

/-- The routes of the source are those of its labels. -/
structure Routed (n : ℕ) (cost : ℕ → ℚ) (k : ℕ) (t : RouteTables) : Prop where
  reach : ∀ w, IsNode n w → w ≠ k → (∃ d, Path (Edge n cost) k w d ∧ d < infinity) →
    FirstHop (Edge n cost) k (t.nextHop (index k w n)) w
  unreach : ∀ w, IsNode n w → w ≠ k → (¬ ∃ d, Path (Edge n cost) k w d ∧ d < infinity) →
    t.nextHop (index k w n) = 0

/-- The settled nodes. -/
def settledNodes (n k : ℕ) (t : RouteTables) : Finset ℕ :=
  (Finset.Ico 1 n).filter fun v => t.parent v = k

theorem mem_settledNodes {v : ℕ} : v ∈ settledNodes n k t ↔ (labels n k t).settled v := by
  rw [settledNodes, Finset.mem_filter, Finset.mem_Ico]
  exact Iff.rfl

/-- What holds when `i - 1` rounds are over. -/
structure Rounds (n : ℕ) (cost : ℕ → ℚ) (k : ℕ) (t : RouteTables) (i : ℕ) (s : RouteTables) :
    Prop where
  inv : Inv (Edge n cost) k 0 infinity (labels n k s)
  other : OtherRows n k t s
  budget : Done (labels n k s) ∨ i ≤ (settledNodes n k s).card

theorem Rounds.step {i : ℕ} {s : RouteTables} (hcost : Costs n cost) (hk : IsNode n k)
    (h : Rounds n cost k t i s) : Rounds n cost k t (i + 1) (settleNearest n cost k s) := by
  have hpos : ∀ u v c, Edge n cost u v c → 0 < c := fun u v c he =>
    he.2.2.1 ▸ (hcost u v he.1 he.2.1).1
  obtain ⟨hturn, hother⟩ := settleNearest_turn hcost hk h.inv
  refine ⟨?_, h.other.trans hother, ?_⟩
  · cases hturn with
    | idle _ he =>
      rw [he]
      exact h.inv
    | settle o ho hlt hmin hr => exact h.inv.round hpos ho hlt hmin hr
  · cases hturn with
    | idle hdone he => exact .inl (he ▸ hdone)
    | settle o ho hlt hmin hr =>
      right
      have hset : settledNodes n k (settleNearest n cost k s) =
          Insert.insert o (settledNodes n k s) := by
        ext v
        rw [Finset.mem_insert, mem_settledNodes, mem_settledNodes, hr.settled, or_comm]
      have hnew : o ∉ settledNodes n k s := fun hm => ho (mem_settledNodes.mp hm)
      rw [hset, Finset.card_insert_of_notMem hnew]
      exact Nat.succ_le_succ (h.budget.resolve_left fun hdone => hdone o ho hlt)

/-- The routes from a source, which the other sources do not see. -/
theorem fromSource_routed (adjEntry : ℕ → ℕ) (hcost : Costs n cost) (hk : IsNode n k)
    (hz : ∀ v, v < n → t.nextHop (index k v n) = 0) :
    Routed n cost k (fromSource n cost adjEntry k t) ∧
      OtherRows n k t (fromSource n cost adjEntry k t) := by
  have hpos : ∀ u v c, Edge n cost u v c → 0 < c := fun u v c he =>
    he.2.2.1 ▸ (hcost u v he.1 he.2.1).1
  have hn : 1 ≤ n := hk.1.trans hk.2.le
  have hpar : ∀ v, v < n → loop 0 n (fun v p => Function.update p v v) t.parent v = v :=
    fun v hv => loop_update (fun _ _ _ _ _ _ h => h) (Nat.zero_le v) hv
  rw [fromSource]
  generalize loop 0 n (fun v p => Function.update p v v) t.parent = p at hpar ⊢
  obtain ⟨hst, hother⟩ := neighbours_started cost adjEntry { t with parent := p } hk hpar hz
  generalize loop 1 n (setNeighbour n cost adjEntry k) { t with parent := p } = s at hst hother ⊢
  have hself : k ∈ settledNodes n k s := mem_settledNodes.mpr ⟨hk, hst.parent k hk.2⟩
  have h : Rounds n cost k s n (loop 1 n (fun _ => settleNearest n cost k) s) :=
    loop_induct (Rounds n cost k s) hn
      ⟨hst.inv hk hcost, .refl s, .inr (Finset.card_pos.mpr ⟨k, hself⟩)⟩
      fun i s' _ _ hs => hs.step hcost hk
  generalize loop 1 n (fun _ => settleNearest n cost k) s = t' at h ⊢
  have hdone : Done (labels n k t') := by
    refine h.budget.resolve_right fun hcard => ?_
    have hle := hcard.trans (Finset.card_filter_le _ _)
    rw [Nat.card_Ico] at hle
    exact absurd hle (not_le.mpr (Nat.sub_lt hn Nat.one_pos))
  refine ⟨⟨fun w hw hwk hr => ?_, fun w hw hwk hu => ?_⟩, fun i j hi hj => ?_⟩
  · have hfirst := (h.inv.complete hpos hdone hwk).1 hr
    simpa only [labels, if_pos hw] using hfirst
  · have hnone := (h.inv.complete hpos hdone hwk).2 hu
    simpa only [labels, if_pos hw] using hnone
  · rw [h.other i j hi hj]
    exact hother i j hi hj

/-! ### All sources -/

theorem Routed.congr (h : Routed n cost k t)
    (he : ∀ w, IsNode n w → w ≠ k → t'.nextHop (index k w n) = t.nextHop (index k w n)) :
    Routed n cost k t' where
  reach w hw hwk hr := he w hw hwk ▸ h.reach w hw hwk hr
  unreach w hw hwk hu := (he w hw hwk).trans (h.unreach w hw hwk hu)

/-- The sources before `i` have their routes, the others have none yet. -/
structure RoutedTo (n : ℕ) (cost : ℕ → ℚ) (i : ℕ) (t : RouteTables) : Prop where
  done : ∀ k, IsNode n k → k < i → Routed n cost k t
  todo : ∀ k v, i ≤ k → v < n → t.nextHop (index k v n) = 0

theorem RoutedTo.step {i : ℕ} (hcost : Costs n cost) (hi : IsNode n i) (h : RoutedTo n cost i t) :
    RoutedTo n cost (i + 1) (fromSource n cost adjEntry i t) := by
  obtain ⟨hrow, hother⟩ := fromSource_routed adjEntry hcost hi fun v hv =>
    h.todo i v le_rfl hv
  refine ⟨fun k hk hlt => ?_, fun k v hle hv => ?_⟩
  · rcases Nat.lt_succ_iff_lt_or_eq.mp hlt with hki | rfl
    · exact (h.done k hk hki).congr fun w hw _ => hother k w hki.ne hw.2
    · exact hrow
  · rw [hother k v (Nat.ne_of_gt hle) hv]
    exact h.todo k v (Nat.le_of_succ_le hle) hv

/-- The nodes before `i` have themselves as route to themselves. -/
structure SelfTo (n : ℕ) (t : RouteTables) (i : ℕ) (s : RouteTables) : Prop where
  self : ∀ k, IsNode n k → k < i → s.nextHop (index k k n) = k
  other : ∀ k w, IsNode n k → IsNode n w → w ≠ k →
    s.nextHop (index k w n) = t.nextHop (index k w n)

theorem SelfTo.step {i : ℕ} {s : RouteTables} (hi : IsNode n i) (h : SelfTo n t i s) :
    SelfTo n t (i + 1) (setSelf n i s) := by
  constructor
  · intro k hk hlt
    by_cases hki : k = i
    · subst hki
      exact Function.update_self _ _ _
    · rw [setSelf]
      dsimp only
      rw [update_otherRow hi.2 hk.2 hki]
      exact h.self k hk (lt_of_le_of_ne (Nat.le_of_lt_succ hlt) hki)
  · intro k w hk hw hwk
    rw [← h.other k w hk hw hwk]
    refine Function.update_of_ne (fun he => hwk ?_) _ _
    obtain ⟨rfl, rfl⟩ := index_inj hw.2 hi.2 he
    rfl

theorem allRoutes_spec (adjEntry : ℕ → ℕ) (hcost : Costs n cost) (hk : IsNode n k) :
    Routed n cost k (allRoutes n cost adjEntry) ∧
      (allRoutes n cost adjEntry).nextHop (index k k n) = k := by
  have hn : 1 ≤ n := hk.1.trans hk.2.le
  rw [allRoutes]
  obtain ⟨t, ht⟩ : ∃ t : RouteTables, t = ⟨fun _ => 0, fun _ => 0, fun _ => 0, fun _ => 0⟩ :=
    ⟨_, rfl⟩
  rw [← ht]
  have h₀ : RoutedTo n cost 1 t := by
    refine ⟨fun k hk hlt => absurd hk.1 (not_le.mpr hlt), fun k v _ _ => ?_⟩
    rw [ht]
  have hrows : RoutedTo n cost n (loop 1 n (fromSource n cost adjEntry) t) :=
    loop_induct (RoutedTo n cost) hn h₀ fun i s h₁ h₂ hs => hs.step hcost ⟨h₁, h₂⟩
  generalize loop 1 n (fromSource n cost adjEntry) t = s at hrows ⊢
  have hself : SelfTo n s n (loop 1 n (setSelf n) s) :=
    loop_induct (SelfTo n s) hn
      ⟨fun k hk hlt => absurd hk.1 (not_le.mpr hlt), fun _ _ _ _ _ => rfl⟩
      fun i s' h₁ h₂ hs => hs.step ⟨h₁, h₂⟩
  exact ⟨(hrows.done k hk hk.2).congr fun w hw hwk => hself.other k w hk hw hwk,
    hself.self k hk hk.2⟩

/-! ### The routes of the inserted links -/

/-- `ROUTE(k, w)`. -/
def route (r : RouteLogic) (k w : ℕ) : ℕ := r.nextHop (index k w r.size)

/-- The routes after the links have been inserted. -/
def routesOf (links : List Link) : RouteLogic := computeRoutes (insertAll links init)

/-- A link and its cost. -/
def Linked (links : List Link) (u v : ℕ) (c : ℚ) : Prop := lastCost links u v = some c

/-- Node numbers start at 1, and costs are positive and below `INFINITY`. -/
def ValidLinks (links : List Link) : Prop :=
  ∀ l ∈ links, 1 ≤ l.src ∧ 1 ≤ l.dst ∧ 0 < l.cost ∧ l.cost < infinity

/-- There is a path that costs less than `INFINITY`. -/
def Within (links : List Link) (u w : ℕ) : Prop := ∃ d, Path (Linked links) u w d ∧ d < infinity

section Links

variable {links : List Link} (hlinks : ValidLinks links)
include hlinks

theorem Linked.valid {u v : ℕ} {c : ℚ} (h : Linked links u v c) :
    1 ≤ u ∧ 1 ≤ v ∧ 0 < c ∧ c < infinity := by
  obtain ⟨l, hl, rfl, rfl, rfl⟩ := lastCost_mem h
  exact hlinks l hl

theorem insertAll_costs : Costs (insertAll links init).size (insertAll links init).cost := by
  intro u v hu hv
  rw [(insertAll_matrix links).cost u v hu.2 hv.2]
  cases h : lastCost links u v with
  | none => exact ⟨by decide, le_rfl⟩
  | some c =>
      obtain ⟨-, -, hpos, hlt⟩ := Linked.valid hlinks h
      exact ⟨hpos, hlt.le⟩

theorem edge_eq_linked :
    Edge (insertAll links init).size (insertAll links init).cost = Linked links := by
  have hm := insertAll_matrix links
  funext u v c
  refine propext ⟨?_, fun h => ?_⟩
  · rintro ⟨hu, hv, rfl, hne⟩
    rw [hm.cost u v hu.2 hv.2] at hne ⊢
    cases h : lastCost links u v with
    | none =>
        rw [h] at hne
        exact absurd rfl hne
    | some c => exact h
  · obtain ⟨h₁, h₂, -, hlt⟩ := h.valid hlinks
    have hsome : lastCost links u v = some c := h
    obtain ⟨hu, hv⟩ := hm.bound u v (hsome ▸ Option.some_ne_none c)
    refine ⟨⟨h₁, hu⟩, ⟨h₂, hv⟩, ?_, hlt.ne⟩
    rw [hm.cost u v hu hv, hsome]
    rfl

theorem route_spec {k : ℕ} (hk : IsNode (routesOf links).size k) :
    (routesOf links).route k k = k ∧ ∀ w, IsNode (routesOf links).size w → w ≠ k →
      (Within links k w → FirstHop (Linked links) k ((routesOf links).route k w) w) ∧
        (¬ Within links k w → (routesOf links).route k w = 0) := by
  obtain ⟨hrow, hself⟩ :=
    allRoutes_spec (insertAll links init).adjEntry (insertAll_costs hlinks) hk
  refine ⟨hself, fun w hw hwk => ⟨fun hr => ?_, fun hu => ?_⟩⟩
  · have hfirst := hrow.reach w hw hwk (by rwa [edge_eq_linked hlinks])
    rwa [edge_eq_linked hlinks] at hfirst
  · exact hrow.unreach w hw hwk (by rwa [edge_eq_linked hlinks])

/-- The next hop towards `w` is a node from which `w` is within reach. -/
theorem route_within {k w : ℕ} (hk : IsNode (routesOf links).size k)
    (hw : IsNode (routesOf links).size w) (hwk : w ≠ k) (hr : Within links k w) :
    IsNode (routesOf links).size ((routesOf links).route k w) ∧
      Within links ((routesOf links).route k w) w := by
  obtain ⟨c, d, he, hp, hdist⟩ := (((route_spec hlinks hk).2 w hw hwk).1 hr).isDist
  obtain ⟨e, hpe, hlt⟩ := hr
  obtain ⟨h₁, h₂, hpos, -⟩ := he.valid hlinks
  have hbound := (insertAll_matrix links).bound _ _ (he ▸ Option.some_ne_none c)
  refine ⟨⟨h₂, hbound.2⟩, d, hp.1, ?_⟩
  calc d ≤ c + d := le_add_of_nonneg_left hpos.le
    _ ≤ e := hdist.2 e hpe
    _ < infinity := hlt

/-- **Static routes are shortest paths.**  The route from a node to itself is itself.  If a cheapest
path to another node costs less than `INFINITY`, the route is its first hop, and following the
routes leads there, past no node twice, along a cheapest path; otherwise the route is 0. -/
theorem routes_shortest {k : ℕ} (hk : IsNode (routesOf links).size k) :
    (routesOf links).route k k = k ∧ ∀ w, IsNode (routesOf links).size w → w ≠ k →
      (Within links k w →
        FirstHop (Linked links) k ((routesOf links).route k w) w ∧
        ∃ m, (fun u => (routesOf links).route u w)^[m] k = w ∧
          (∀ i j, i < j → j ≤ m → (fun u => (routesOf links).route u w)^[i] k ≠
            (fun u => (routesOf links).route u w)^[j] k) ∧
          ∃ d, IsDist (Linked links) k w d ∧
            Along (Linked links) (fun i => (fun u => (routesOf links).route u w)^[i] k) m d) ∧
      (¬ Within links k w → (routesOf links).route k w = 0) := by
  obtain ⟨hself, hspec⟩ := route_spec hlinks hk
  refine ⟨hself, fun w hw hwk => ⟨fun hr => ⟨(hspec w hw hwk).1 hr, ?_⟩, (hspec w hw hwk).2⟩⟩
  have hpos : ∀ u v c, Linked links u v c → 0 < c := fun u v c he => (he.valid hlinks).2.2.1
  have hfin : {u | IsNode (routesOf links).size u ∧ Within links u w}.Finite :=
    (Set.finite_lt_nat (routesOf links).size).subset fun u hu => hu.1.2
  refine forward_reaches hpos hfin (fun u hu huw => ?_) ⟨hk, hr⟩
  exact ⟨route_within hlinks hu.1 hw (Ne.symm huw) hu.2,
    ((route_spec hlinks hu.1).2 w hw (Ne.symm huw)).1 hu.2⟩

end Links

/-- Two links in a row, and a dearer one past both. -/
def detourLinks : List Link := [⟨1, 2, 1, none⟩, ⟨2, 3, 1, none⟩, ⟨1, 3, 5, none⟩]

theorem routes_shortest_detour :
    FirstHop (Linked detourLinks) 1 ((routesOf detourLinks).route 1 3) 3 := by
  have hlinks : ValidLinks detourLinks := by
    rw [ValidLinks]
    decide +kernel
  have hsize : (routesOf detourLinks).size = 16 := by decide +kernel
  have h₁ : IsNode (routesOf detourLinks).size 1 := by rw [hsize]; decide
  have h₃ : IsNode (routesOf detourLinks).size 3 := by rw [hsize]; decide
  refine (((routes_shortest hlinks h₁).2 3 h₃ (by decide)).1 ?_).1
  have h₁₂ : Linked detourLinks 1 2 1 := by rw [Linked]; decide +kernel
  have h₂₃ : Linked detourLinks 2 3 1 := by rw [Linked]; decide +kernel
  exact ⟨1 + (1 + 0), .cons h₁₂ (.cons h₂₃ (.nil 3)), by decide +kernel⟩

end RouteLogic

end Afabric
