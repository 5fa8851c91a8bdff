import Mathlib.Combinatorics.SimpleGraph.Metric

/-!
# Support — hop distances

The distance to a fixed target of a connected graph, told apart by two local properties of an
estimate: each credible value is supported by a neighbour one below it, and no value is more than
one above a neighbour that is right (`estimate_eq_dist`).  A walk each hop of which brings the
target one closer reaches it in as many hops as the distance, past no node twice (`Descends`).
-/

namespace Afabric

namespace HopDistance

variable {V : Type*} {G : SimpleGraph V} {u v d : V}

/-- `v` is a neighbour of `u` one hop closer to `d`. -/
def Closer (G : SimpleGraph V) (u v d : V) : Prop := G.Adj u v ∧ G.dist v d + 1 = G.dist u d

theorem not_closer_self : ¬ Closer G d v d := by
  rintro ⟨-, h⟩
  rw [SimpleGraph.dist_self] at h
  exact Nat.succ_ne_zero _ h

/-- The only neighbour one hop closer to a neighbour is the neighbour itself. -/
theorem Closer.eq_of_adj (hconn : G.Connected) (h : Closer G u v d) (had : G.Adj u d) : v = d := by
  have h₁ : G.dist u d = 1 := SimpleGraph.dist_eq_one_iff_adj.mpr had
  have h₀ : G.dist v d = 0 := Nat.succ.inj (h.2.trans h₁)
  exact hconn.dist_eq_zero_iff.mp h₀

/-- A node that is not the target has a neighbour one hop closer. -/
theorem exists_closer (hconn : G.Connected) (hne : u ≠ d) : ∃ v, Closer G u v d := by
  obtain ⟨w, hw⟩ := hconn.exists_walk_length_eq_dist u d
  cases w with
  | nil => exact absurd rfl hne
  | @cons _ v _ hadj p =>
      refine ⟨v, hadj, le_antisymm ?_ ?_⟩
      · rw [← hw, SimpleGraph.Walk.length_cons]
        exact Nat.succ_le_succ (SimpleGraph.dist_le p)
      · have htri := hconn.dist_triangle (u := u) (v := v) (w := d)
        rw [SimpleGraph.dist_eq_one_iff_adj.mpr hadj] at htri
        omega

/-! ### Estimates of the distance -/

section Estimate

variable {m : V → ℤ} {bound : ℤ}

/-- Every credible value but the target's is one above a credible value next to it. -/
def Supported (G : SimpleGraph V) (d : V) (bound : ℤ) (m : V → ℤ) : Prop :=
  ∀ u, u ≠ d → 0 ≤ m u → m u < bound → ∃ v, G.Adj u v ∧ 0 ≤ m v ∧ m v + 1 = m u

/-- A supported estimate is nowhere credible and too small. -/
theorem dist_le_estimate (hconn : G.Connected) (hsup : Supported G d bound m) :
    ∀ u, 0 ≤ m u → m u < bound → (G.dist u d : ℤ) ≤ m u := by
  suffices ∀ (n : ℕ) (u : V), m u = n → m u < bound → G.dist u d ≤ n by
    intro u h₀ hb
    have hn : m u = (m u).toNat := (Int.toNat_of_nonneg h₀).symm
    rw [hn]
    exact_mod_cast this _ u hn hb
  intro n
  induction n with
  | zero =>
      intro u hu hb
      by_cases hud : u = d
      · rw [hud, SimpleGraph.dist_self]
      · obtain ⟨v, -, hv₀, hv⟩ := hsup u hud (by omega) hb
        omega
  | succ n ih =>
      intro u hu hb
      by_cases hud : u = d
      · rw [hud, SimpleGraph.dist_self]
        exact Nat.zero_le _
      obtain ⟨v, hadj, -, hv⟩ := hsup u hud (by omega) hb
      have hvd : G.dist v d ≤ n := ih v (by omega) (by omega)
      have htri := hconn.dist_triangle (u := u) (v := v) (w := d)
      rw [SimpleGraph.dist_eq_one_iff_adj.mpr hadj] at htri
      omega

/-- **The distance is the only supported estimate that no right neighbour improves.** -/
theorem estimate_eq_dist (hconn : G.Connected) (hbound : ∀ u, (G.dist u d : ℤ) < bound)
    (hd : m d = 0) (hsup : Supported G d bound m)
    (hrel : ∀ u v, u ≠ d → Closer G u v d → m v = G.dist v d → 0 ≤ m u ∧ m u ≤ m v + 1) :
    ∀ u, m u = G.dist u d := by
  suffices ∀ (n : ℕ) (u : V), G.dist u d = n → m u = n from fun u => this _ u rfl
  intro n
  induction n with
  | zero =>
      intro u hu
      rw [hconn.dist_eq_zero_iff.mp hu, hd]
      rfl
  | succ n ih =>
      intro u hu
      have hne : u ≠ d := by
        rintro rfl
        rw [SimpleGraph.dist_self] at hu
        exact Nat.succ_ne_zero _ hu.symm
      obtain ⟨v, hv⟩ := exists_closer hconn hne
      have hvn : G.dist v d = n := Nat.succ.inj (hv.2.trans hu)
      have hmv : m v = n := ih v hvn
      obtain ⟨h₀, hle⟩ := hrel u v hne hv (by rw [hmv, hvn])
      have hub := hbound u
      have hge := dist_le_estimate hconn hsup u h₀ (by omega)
      omega

end Estimate

/-! ### Walks towards the target -/

/-- Every hop short of the target is to a neighbour one hop closer. -/
def Descends (G : SimpleGraph V) (d : V) (f : ℕ → V) : Prop :=
  ∀ i, f i ≠ d → Closer G (f i) (f (i + 1)) d

theorem Descends.dist_add {f : ℕ → V} (h : Descends G d f) :
    ∀ i, i ≤ G.dist (f 0) d → G.dist (f i) d + i = G.dist (f 0) d := by
  intro i
  induction i with
  | zero => intro _; rfl
  | succ i ih =>
      intro hi
      have hi' := ih (Nat.le_of_succ_le hi)
      have hne : f i ≠ d := by
        intro he
        rw [he, SimpleGraph.dist_self] at hi'
        omega
      have hstep := (h i hne).2
      omega

/-- The target is reached after as many hops as it is away. -/
theorem Descends.reaches (hconn : G.Connected) {f : ℕ → V} (h : Descends G d f) :
    f (G.dist (f 0) d) = d := by
  have hz := h.dist_add _ le_rfl
  exact hconn.dist_eq_zero_iff.mp (by omega)

/-- No node is passed twice on the way. -/
theorem Descends.no_loop {f : ℕ → V} (h : Descends G d f) {i j : ℕ} (hij : i < j)
    (hj : j ≤ G.dist (f 0) d) : f i ≠ f j := by
  intro he
  have hi := h.dist_add i (le_trans hij.le hj)
  have hj' := h.dist_add j hj
  rw [he] at hi
  omega

end HopDistance

end Afabric
