import Afabric.Routing.RouteLogic

/-!
# Routing — the matrix of the inserted links

Whatever the node numbers are and however often the matrix grows, it holds for each pair of nodes
the cost of the last link that was inserted between them, and `INFINITY` if there is none
(`insertAll_matrix`).
-/

namespace Afabric

namespace RouteLogic

/-- An `insert` command. -/
structure Link where
  src : ℕ
  dst : ℕ
  cost : ℚ
  entry : Option ℕ

def insertAll (links : List Link) (r : RouteLogic) : RouteLogic :=
  links.foldl (fun r l => r.insert l.src l.dst l.cost l.entry) r

/-- The last cost inserted from `u` to `v`. -/
def lastCost (links : List Link) (u v : ℕ) : Option ℚ :=
  (links.filter fun l => l.src = u ∧ l.dst = v).getLast?.map Link.cost

/-- The matrix holds these costs. -/
structure Matrix (f : ℕ → ℕ → Option ℚ) (r : RouteLogic) : Prop where
  bound : ∀ u v, f u v ≠ none → u < r.size ∧ v < r.size
  cost : ∀ u v, u < r.size → v < r.size → r.cost (index u v r.size) = (f u v).getD infinity

/-! ### Growth -/

/-- The rows before `i` are copied. -/
theorem copied_apply {osize m : ℕ} (hle : osize ≤ m) (old new : ℕ → ℚ) {u v : ℕ} (hv : v < m) :
    copied osize m old new (index u v m) =
      if u < osize ∧ v < osize then old (index u v osize) else new (index u v m) := by
  refine loop_induct (fun i (c : ℕ → ℚ) => c (index u v m) =
    if u < i ∧ v < osize then old (index u v osize) else new (index u v m)) (Nat.zero_le osize)
    (if_neg fun h => absurd h.1 (Nat.not_lt_zero u)).symm fun i c _ hi hc => ?_
  by_cases hui : u = i
  · subst hui
    by_cases hvo : v < osize
    · rw [if_pos ⟨Nat.lt_succ_self u, hvo⟩]
      exact loop_update (fun a b _ ha _ hb he => (index_inj (ha.trans_le hle) (hb.trans_le hle) he).2)
        (Nat.zero_le v) hvo
    · rw [if_neg fun h => lt_irrefl u h.1] at hc
      rw [if_neg fun h => hvo h.2, ← hc]
      refine loop_update_of_notMem fun j _ hj he => hvo ?_
      rw [(index_inj hv (hj.trans_le hle) he).2]
      exact hj
  · have hiff : u < i + 1 ↔ u < i :=
      ⟨fun h => lt_of_le_of_ne (Nat.le_of_lt_succ h) hui, Nat.lt_succ_of_lt⟩
    simp only [hiff]
    rw [← hc]
    exact loop_update_of_notMem fun j _ hj he => hui (index_inj hv (hj.trans_le hle) he).1

variable {f : ℕ → ℕ → Option ℚ} {r : RouteLogic}

/-- The number of nodes a matrix grows from. -/
theorem check_size {n : ℕ} (h : ¬ n < r.size) :
    (check n r).size = doubled n (n + 1) (if r.size = 0 then 16 else r.size) := by
  rw [check, if_neg h]
  rfl

theorem lt_size_check (n : ℕ) (r : RouteLogic) : n < (check n r).size := by
  by_cases h : n < r.size
  · rwa [check, if_pos h]
  · rw [check_size h]
    refine lt_doubled ?_
    have hm : 1 ≤ if r.size = 0 then 16 else r.size := by
      split_ifs with h0
      · decide
      · exact Nat.pos_of_ne_zero h0
    calc n < 2 ^ (n + 1) := (Nat.lt_succ_self n).trans Nat.lt_two_pow_self
      _ ≤ _ := Nat.le_mul_of_pos_right _ hm

theorem size_le_check (n : ℕ) (r : RouteLogic) : r.size ≤ (check n r).size := by
  by_cases h : n < r.size
  · rw [check, if_pos h]
  · rw [check_size h]
    by_cases h0 : r.size = 0
    · rw [h0]
      exact Nat.zero_le _
    · rw [if_neg h0]
      exact le_doubled n (n + 1) r.size

theorem Matrix.check (h : Matrix f r) (n : ℕ) : Matrix f (check n r) := by
  have hle := size_le_check n r
  refine ⟨fun u v hf => ⟨(h.bound u v hf).1.trans_le hle, (h.bound u v hf).2.trans_le hle⟩, ?_⟩
  by_cases hn : n < r.size
  · rw [RouteLogic.check, if_pos hn]
    exact h.cost
  · intro u v hu hv
    rw [check_size hn] at hle hv ⊢
    rw [RouteLogic.check, if_neg hn]
    dsimp only [alloc]
    rw [copied_apply hle _ _ hv]
    split_ifs with huv
    · exact h.cost u v huv.1 huv.2
    · have hnone : f u v = none := by
        by_contra hf
        exact huv (h.bound u v hf)
      rw [hnone]
      rfl

theorem Matrix.insert (h : Matrix f r) (src dst : ℕ) (cost : ℚ) (entry : Option ℕ) :
    Matrix (fun u v => if src = u ∧ dst = v then some cost else f u v)
      (r.insert src dst cost entry) := by
  have hm := (h.check src).check dst
  have hsrc := (lt_size_check src r).trans_le (size_le_check dst (RouteLogic.check src r))
  have hdst := lt_size_check dst (RouteLogic.check src r)
  rw [RouteLogic.insert]
  generalize RouteLogic.check dst (RouteLogic.check src r) = q at hm hsrc hdst ⊢
  constructor
  · intro u v hf
    by_cases huv : src = u ∧ dst = v
    · obtain ⟨rfl, rfl⟩ := huv
      exact ⟨hsrc, hdst⟩
    · exact hm.bound u v (by rwa [if_neg huv] at hf)
  · intro u v hu hv
    dsimp only at hu hv ⊢
    by_cases huv : src = u ∧ dst = v
    · obtain ⟨rfl, rfl⟩ := huv
      rw [Function.update_self, if_pos ⟨rfl, rfl⟩]
      rfl
    · have hne : index u v q.size ≠ index src dst q.size := fun he =>
        huv ⟨(index_inj hv hdst he).1.symm, (index_inj hv hdst he).2.symm⟩
      rw [Function.update_of_ne hne, if_neg huv]
      exact hm.cost u v hu hv

/-! ### All links -/

theorem lastCost_concat (links : List Link) (l : Link) (u v : ℕ) :
    lastCost (links ++ [l]) u v =
      if l.src = u ∧ l.dst = v then some l.cost else lastCost links u v := by
  rw [lastCost, List.filter_append]
  split_ifs with h <;> simp [lastCost, h]

theorem lastCost_mem {links : List Link} {u v : ℕ} {c : ℚ} (h : lastCost links u v = some c) :
    ∃ l ∈ links, l.src = u ∧ l.dst = v ∧ l.cost = c := by
  obtain ⟨l, hl, rfl⟩ := Option.map_eq_some_iff.mp h
  have hm := List.mem_filter.mp (List.mem_of_getLast? hl)
  have huv : l.src = u ∧ l.dst = v := of_decide_eq_true hm.2
  exact ⟨l, hm.1, huv.1, huv.2, rfl⟩

/-- **The matrix.** -/
theorem insertAll_matrix (links : List Link) :
    Matrix (lastCost links) (insertAll links init) := by
  induction links using List.reverseRecOn with
  | nil => exact ⟨fun u v h => absurd rfl h, fun u v hu => absurd hu (Nat.not_lt_zero u)⟩
  | append_singleton links l ih =>
      have hstep := ih.insert l.src l.dst l.cost l.entry
      rw [insertAll, List.foldl_append]
      have hf : lastCost (links ++ [l]) =
          fun u v => if l.src = u ∧ l.dst = v then some l.cost else lastCost links u v := by
        funext u v
        exact lastCost_concat links l u v
      rw [hf]
      exact hstep

end RouteLogic

end Afabric
