import Mathlib.Algebra.Order.Monoid.Defs
import Mathlib.Data.Set.Finite.Basic
import Mathlib.Data.Fintype.Pigeonhole

/-!
# Support — paths of least cost

A directed graph is a relation `E u v c`, an edge from `u` to `v` of cost `c`; there may be several
between two nodes.  `Path E u w d` is a path of total cost `d`, `IsDist E u w d` says that none is
cheaper, and `FirstHop E u v w` that a cheapest path from `u` to `w` begins with `v`.

First hops that are chosen at each node on its own compose (`forward_reaches`): where the costs are
positive, each hop leads to a node that is less far away, so the hops meet the target, pass no node
twice, and cost what the cheapest path costs.
-/

namespace Afabric

namespace WeightedPaths

variable {V C : Type*} [AddCommMonoid C] {E : V → V → C → Prop} {u v w : V} {c d e : C}

inductive Path (E : V → V → C → Prop) : V → V → C → Prop
  | nil (u : V) : Path E u u 0
  | cons {u v w : V} {c d : C} (he : E u v c) (hp : Path E v w d) : Path E u w (c + d)

/-- A path and the nodes on it. -/
inductive Walk (E : V → V → C → Prop) : V → List V → V → C → Prop
  | nil (u : V) : Walk E u [u] u 0
  | cons {u v w : V} {l : List V} {c d : C} (he : E u v c) (hp : Walk E v l w d) :
      Walk E u (u :: l) w (c + d)

/-- A path that passes no node twice. -/
def SimplePath (E : V → V → C → Prop) (u w : V) (d : C) : Prop := ∃ l, Walk E u l w d ∧ l.Nodup

/-- The first `n` hops of `f` follow edges whose costs add up to `d`. -/
def Along (E : V → V → C → Prop) : (ℕ → V) → ℕ → C → Prop
  | _, 0, d => d = 0
  | f, n + 1, d => ∃ c e, E (f 0) (f 1) c ∧ Along E (fun i => f (i + 1)) n e ∧ d = c + e

theorem Path.append (hp : Path E u v c) (hq : Path E v w d) : Path E u w (c + d) := by
  induction hp with
  | nil u => rwa [zero_add]
  | cons he _ ih =>
      rw [add_assoc]
      exact .cons he (ih hq)

theorem Path.concat (hp : Path E u v c) (he : E v w d) : Path E u w (c + d) := by
  have hq := hp.append (.cons he (.nil w))
  rwa [add_zero] at hq

/-- A path is empty, or a path and an edge. -/
theorem Path.last (hp : Path E u w d) :
    (u = w ∧ d = 0) ∨ ∃ y a b, Path E u y a ∧ E y w b ∧ d = a + b := by
  induction hp with
  | nil u => exact .inl ⟨rfl, rfl⟩
  | @cons u v w c d he hp ih =>
      rcases ih with ⟨rfl, rfl⟩ | ⟨y, a, b, h₁, h₂, rfl⟩
      · exact .inr ⟨u, 0, c, .nil u, he, by rw [add_zero, zero_add]⟩
      · exact .inr ⟨y, c + a, b, .cons he h₁, h₂, (add_assoc _ _ _).symm⟩

theorem Walk.path {l : List V} (hp : Walk E u l w d) : Path E u w d := by
  induction hp with
  | nil u => exact .nil u
  | cons he _ ih => exact .cons he ih

/-- A path that leaves a set has an edge that does. -/
theorem Path.exits {S : V → Prop} (hp : Path E u w d) (hu : S u) (hw : ¬ S w) :
    ∃ x y a b c, S x ∧ ¬ S y ∧ Path E u x a ∧ E x y b ∧ Path E y w c ∧ d = a + (b + c) := by
  induction hp with
  | nil u => exact absurd hu hw
  | @cons u v w c d he hp ih =>
      by_cases hv : S v
      · obtain ⟨x, y, a, b, e, hx, hy, h₁, h₂, h₃, rfl⟩ := ih hv hw
        exact ⟨x, y, c + a, b, e, hx, hy, .cons he h₁, h₂, h₃, (add_assoc _ _ _).symm⟩
      · exact ⟨u, v, 0, c, d, hu, hv, .nil u, he, hp, (zero_add _).symm⟩

variable [LinearOrder C]

/-- The least cost of a path from `u` to `w`. -/
def IsDist (E : V → V → C → Prop) (u w : V) (d : C) : Prop :=
  Path E u w d ∧ ∀ e, Path E u w e → d ≤ e

/-- A cheapest path from `u` to `w` goes to `v` first. -/
def FirstHop (E : V → V → C → Prop) (u v w : V) : Prop :=
  ∃ c d, E u v c ∧ Path E v w d ∧ IsDist E u w (c + d)

theorem IsDist.unique (h : IsDist E u w d) (h' : IsDist E u w e) : d = e :=
  le_antisymm (h.2 _ h'.1) (h'.2 _ h.1)

section Positive

variable [IsOrderedCancelAddMonoid C] (hpos : ∀ u v c, E u v c → 0 < c)
include hpos

theorem Path.nonneg (hp : Path E u w d) : 0 ≤ d := by
  induction hp with
  | nil u => exact le_rfl
  | cons he _ ih => exact add_nonneg (hpos _ _ _ he).le ih

theorem isDist_self (u : V) : IsDist E u u 0 := ⟨.nil u, fun _ hp => hp.nonneg hpos⟩

/-- The rest of a path from a node on it. -/
theorem Walk.suffix {l : List V} (hp : Walk E u l w d) {x : V} (hx : x ∈ l) :
    ∃ m e, Walk E x m w e ∧ m.Sublist l ∧ e ≤ d := by
  induction hp with
  | nil u =>
      obtain rfl := List.mem_singleton.mp hx
      exact ⟨[x], 0, .nil x, .refl _, le_rfl⟩
  | @cons u v w l c d he hp ih =>
      rcases List.mem_cons.mp hx with rfl | hx
      · exact ⟨x :: l, c + d, .cons he hp, .refl _, le_rfl⟩
      · obtain ⟨m, e, hm, hs, hle⟩ := ih hx
        exact ⟨m, e, hm, hs.cons u, hle.trans (le_add_of_nonneg_left (hpos _ _ _ he).le)⟩

/-- A path without its detours. -/
theorem Path.simple (hp : Path E u w d) : ∃ e, SimplePath E u w e ∧ e ≤ d := by
  induction hp with
  | nil u => exact ⟨0, ⟨[u], .nil u, List.nodup_singleton u⟩, le_rfl⟩
  | @cons u v w c d he _ ih =>
      obtain ⟨e, ⟨l, hl, hnd⟩, hle⟩ := ih
      by_cases hu : u ∈ l
      · obtain ⟨m, e', hm, hs, hle'⟩ := hl.suffix hpos hu
        exact ⟨e', ⟨m, hm, hnd.sublist hs⟩,
          (hle'.trans hle).trans (le_add_of_nonneg_left (hpos _ _ _ he).le)⟩
      · exact ⟨c + e, ⟨u :: l, .cons he hl, List.nodup_cons.mpr ⟨hu, hnd⟩⟩, by gcongr⟩

theorem IsDist.simple (h : IsDist E u w d) : SimplePath E u w d := by
  obtain ⟨e, ⟨l, hl, hnd⟩, hle⟩ := h.1.simple hpos
  exact le_antisymm hle (h.2 e hl.path) ▸ ⟨l, hl, hnd⟩

end Positive

variable [IsOrderedCancelAddMonoid C]

/-- What is left of a cheapest path after an edge is a cheapest path. -/
theorem IsDist.tail (he : E u v c) (hp : Path E v w d) (h : IsDist E u w (c + d)) :
    IsDist E v w d :=
  ⟨hp, fun _ hq => le_of_add_le_add_left (h.2 _ (.cons he hq))⟩

/-- What a cheapest path begins with is a cheapest path. -/
theorem IsDist.init (hp : Path E u v c) (he : E v w d) (h : IsDist E u w (c + d)) :
    IsDist E u v c :=
  ⟨hp, fun _ hq => le_of_add_le_add_right (h.2 _ (hq.concat he))⟩

theorem FirstHop.isDist (h : FirstHop E u v w) :
    ∃ c d, E u v c ∧ IsDist E v w d ∧ IsDist E u w (c + d) := by
  obtain ⟨c, d, he, hp, hd⟩ := h
  exact ⟨c, d, he, hd.tail he hp, hd⟩

/-! ### Following first hops -/

section Forward

variable (hpos : ∀ u v c, E u v c → 0 < c) {next : V → V} {S : V → Prop}
  (hS : {u | S u}.Finite)
  (hnext : ∀ u, S u → u ≠ w → S (next u) ∧ FirstHop E u (next u) w)
include hnext

omit [IsOrderedCancelAddMonoid C] in
theorem iterate_mem (hu : S u) {n : ℕ} (hn : ∀ i, i < n → next^[i] u ≠ w) : S (next^[n] u) := by
  induction n with
  | zero => exact hu
  | succ n ih =>
      rw [Function.iterate_succ_apply']
      exact (hnext _ (ih fun i hi => hn i (Nat.lt_succ_of_lt hi)) (hn n (Nat.lt_succ_self n))).1

include hpos

/-- Each hop short of the target is to a node that is less far away. -/
theorem iterate_dist_lt (hu : S u) {n : ℕ} (hn : ∀ i, i < n → next^[i] u ≠ w) {i : ℕ} (hi : i < n)
    {d : C} (hd : IsDist E (next^[i] u) w d) : ∃ e, IsDist E (next^[n] u) w e ∧ e < d := by
  induction n with
  | zero => exact absurd hi (Nat.not_lt_zero i)
  | succ n ih =>
      have hn' : ∀ i, i < n → next^[i] u ≠ w := fun i hi => hn i (Nat.lt_succ_of_lt hi)
      have hstep := (hnext _ (iterate_mem hnext hu hn') (hn n (Nat.lt_succ_self n))).2
      obtain ⟨c, b, he, hb, hcb⟩ := hstep.isDist
      rw [← Function.iterate_succ_apply' next] at he hb
      have hlt : b < c + b := lt_add_of_pos_left _ (hpos _ _ _ he)
      rcases Nat.lt_succ_iff_lt_or_eq.mp hi with h | rfl
      · obtain ⟨e, he', hlt'⟩ := ih hn' h
        exact ⟨b, hb, lt_trans hlt ((hcb.unique he').trans_lt hlt')⟩
      · exact ⟨b, hb, (hcb.unique hd) ▸ hlt⟩

theorem iterate_injective (hu : S u) {n : ℕ} (hn : ∀ i, i < n → next^[i] u ≠ w) {i j : ℕ}
    (hij : i < j) (hj : j ≤ n) : next^[i] u ≠ next^[j] u := by
  intro heq
  have hni : ∀ k, k < i → next^[k] u ≠ w := fun k hk =>
    hn k (lt_of_lt_of_le (lt_trans hk hij) hj)
  obtain ⟨c, b, -, -, hd⟩ :=
    (hnext _ (iterate_mem hnext hu hni) (hn i (lt_of_lt_of_le hij hj))).2.isDist
  obtain ⟨e, he, hlt⟩ := iterate_dist_lt hpos hnext hu
    (fun k hk => hn k (lt_of_lt_of_le hk hj)) hij hd
  rw [← heq] at he
  exact absurd (he.unique hd) hlt.ne

include hS in
theorem exists_iterate_eq (hu : S u) : ∃ n, next^[n] u = w := by
  by_contra hno
  rw [not_exists] at hno
  have hmem : ∀ n, next^[n] u ∈ {u | S u} := fun n => iterate_mem hnext hu fun i _ => hno i
  have hinj : Function.Injective fun n => next^[n] u := by
    intro i j hij
    rcases lt_trichotomy i j with h | h | h
    · exact absurd hij (iterate_injective hpos hnext hu (fun k _ => hno k) h le_rfl)
    · exact h
    · exact absurd hij.symm (iterate_injective hpos hnext hu (fun k _ => hno k) h le_rfl)
  exact Set.infinite_of_injective_forall_mem hinj hmem hS

theorem along_iterate (hu : S u) {n : ℕ} (hn : ∀ i, i < n → next^[i] u ≠ w)
    (hw : next^[n] u = w) : ∃ d, IsDist E u w d ∧ Along E (fun i => next^[i] u) n d := by
  induction n generalizing u with
  | zero =>
      have hu' : u = w := hw
      rw [hu']
      exact ⟨0, isDist_self hpos w, rfl⟩
  | succ n ih =>
      obtain ⟨hS', hstep⟩ := hnext u hu (hn 0 (Nat.succ_pos n))
      obtain ⟨c, b, he, hb, hcb⟩ := hstep.isDist
      obtain ⟨d, hd, hal⟩ := ih hS' (fun i hi => hn (i + 1) (Nat.succ_lt_succ hi)) hw
      rw [hb.unique hd] at hcb
      exact ⟨c + d, hcb, c, d, he, hal, rfl⟩

include hS in
/-- **First hops compose.**  From a node of `S` they lead to the target, past no node twice, along a
cheapest path. -/
theorem forward_reaches (hu : S u) : ∃ n, next^[n] u = w ∧
    (∀ i j, i < j → j ≤ n → next^[i] u ≠ next^[j] u) ∧
    ∃ d, IsDist E u w d ∧ Along E (fun i => next^[i] u) n d := by
  classical
  have hex := exists_iterate_eq hpos hS hnext hu
  have hn : ∀ i, i < Nat.find hex → next^[i] u ≠ w := fun i hi => Nat.find_min hex hi
  exact ⟨Nat.find hex, Nat.find_spec hex,
    fun i j hij hj => iterate_injective hpos hnext hu hn hij hj,
    along_iterate hpos hnext hu hn (Nat.find_spec hex)⟩

end Forward

end WeightedPaths

end Afabric
