import Afabric.Support.WeightedPaths

/-!
# Support — Dijkstra's labels

From a source `k`, each node has a label: the cost of the cheapest path found to it, `inf` if none
is, and the first hop of that path, `z` if there is none.  A round settles an unsettled node of
least label below `inf` and relaxes its edges (`Round`).  `Inv` holds throughout; when no unsettled
node has a label below `inf` the labels are the distances below `inf` (`Inv.complete`).
-/

namespace Afabric

namespace Dijkstra

open WeightedPaths

structure Labels (V C : Type*) where
  settled : V → Prop
  dist : V → C
  first : V → V

variable {V C : Type*} [AddCommMonoid C] [LinearOrder C]
  {E : V → V → C → Prop} {k z : V} {inf : C} {s s' : Labels V C} {o w : V}

/-- A path from `k` to `u` of cost `d` that begins with `v`. -/
def Via (E : V → V → C → Prop) (k v u : V) (d : C) : Prop :=
  ∃ c e, E k v c ∧ Path E v u e ∧ d = c + e

structure Inv (E : V → V → C → Prop) (k z : V) (inf : C) (s : Labels V C) : Prop where
  source : s.settled k
  final : ∀ u, s.settled u → u ≠ k → s.dist u < inf ∧ IsDist E k u (s.dist u)
  via : ∀ u, u ≠ k → s.dist u < inf → Via E k (s.first u) u (s.dist u)
  le_inf : ∀ u, ¬ s.settled u → s.dist u ≤ inf
  unset : ∀ u, u ≠ k → ¬ s.dist u < inf → s.first u = z
  fromSource : ∀ v c, ¬ s.settled v → E k v c → s.dist v ≤ c
  relaxed : ∀ u v c, s.settled u → u ≠ k → ¬ s.settled v → E u v c → s.dist v ≤ s.dist u + c

/-- Node `o` is settled and its edges are relaxed. -/
structure Round (E : V → V → C → Prop) (s : Labels V C) (o : V) (s' : Labels V C) : Prop where
  settled : ∀ u, s'.settled u ↔ s.settled u ∨ u = o
  kept : ∀ u, s'.settled u → s'.dist u = s.dist u ∧ s'.first u = s.first u
  relax : ∀ w, ¬ s'.settled w →
    (∃ c, E o w c ∧ s.dist o + c < s.dist w ∧ s'.dist w = s.dist o + c ∧ s'.first w = s.first o) ∨
      (s'.dist w = s.dist w ∧ s'.first w = s.first w)
  tight : ∀ w c, ¬ s'.settled w → E o w c → s'.dist w ≤ s.dist o + c

omit [LinearOrder C] in
theorem Via.path {v u : V} {d : C} (h : Via E k v u d) : Path E k u d := by
  obtain ⟨c, e, he, hp, rfl⟩ := h
  exact .cons he hp

theorem Via.firstHop {v u : V} {d : C} (h : Via E k v u d) (hd : IsDist E k u d) :
    FirstHop E k v u := by
  obtain ⟨c, e, he, hp, rfl⟩ := h
  exact ⟨c, e, he, hp, hd⟩

section Positive

variable [IsOrderedCancelAddMonoid C] (hpos : ∀ u v c, E u v c → 0 < c)
include hpos

/-- A path to an unsettled node costs no less than some unsettled label. -/
theorem Inv.frontier (h : Inv E k z inf s) (hw : ¬ s.settled w) {d : C} (hp : Path E k w d) :
    ∃ y, ¬ s.settled y ∧ s.dist y ≤ d := by
  obtain ⟨x, y, a, b, c, hx, hy, hpx, he, hpy, rfl⟩ := hp.exits h.source hw
  refine ⟨y, hy, ?_⟩
  have hrest : b ≤ b + c := le_add_of_nonneg_right (hpy.nonneg hpos)
  by_cases hxk : x = k
  · rw [hxk] at he
    calc s.dist y ≤ b := h.fromSource y b hy he
      _ ≤ b + c := hrest
      _ ≤ a + (b + c) := le_add_of_nonneg_left (hpx.nonneg hpos)
  · calc s.dist y ≤ s.dist x + b := h.relaxed x y b hx hxk hy he
      _ ≤ a + (b + c) := add_le_add ((h.final x hx hxk).2.2 a hpx) hrest

/-- The least label below `inf` is the distance. -/
theorem Inv.isDist (h : Inv E k z inf s) (ho : ¬ s.settled o) (hlt : s.dist o < inf)
    (hmin : ∀ w, ¬ s.settled w → s.dist o ≤ s.dist w) : IsDist E k o (s.dist o) := by
  have hok : o ≠ k := by
    rintro rfl
    exact ho h.source
  refine ⟨(h.via o hok hlt).path, fun d hp => ?_⟩
  obtain ⟨y, hy, hle⟩ := h.frontier hpos ho hp
  exact (hmin y hy).trans hle

theorem Inv.round (h : Inv E k z inf s) (ho : ¬ s.settled o) (hlt : s.dist o < inf)
    (hmin : ∀ w, ¬ s.settled w → s.dist o ≤ s.dist w) (hr : Round E s o s') :
    Inv E k z inf s' := by
  have hdist := h.isDist hpos ho hlt hmin
  have hok : o ≠ k := by
    rintro rfl
    exact ho h.source
  have hun : ∀ w, ¬ s'.settled w → ¬ s.settled w := fun w hw hs => hw ((hr.settled w).mpr (.inl hs))
  have hdown : ∀ w, ¬ s'.settled w → s'.dist w ≤ s.dist w := by
    intro w hw
    rcases hr.relax w hw with ⟨c, -, hc, he, -⟩ | ⟨he, -⟩
    · exact he ▸ hc.le
    · exact he.le
  constructor
  case source => exact (hr.settled k).mpr (.inl h.source)
  case final =>
    intro u hu huk
    rw [(hr.kept u hu).1]
    rcases (hr.settled u).mp hu with hs | rfl
    · exact h.final u hs huk
    · exact ⟨hlt, hdist⟩
  case via =>
    intro u huk hu
    by_cases hs : s'.settled u
    · rw [(hr.kept u hs).1] at hu ⊢
      rw [(hr.kept u hs).2]
      exact h.via u huk hu
    · rcases hr.relax u hs with ⟨c, he, -, hd, hf⟩ | ⟨hd, hf⟩
      · obtain ⟨a, b, ha, hb, hab⟩ := h.via o hok hlt
        rw [hd, hf]
        exact ⟨a, b + c, ha, hb.concat he, by rw [hab, add_assoc]⟩
      · rw [hd] at hu ⊢
        rw [hf]
        exact h.via u huk hu
  case le_inf => exact fun u hu => (hdown u hu).trans (h.le_inf u (hun u hu))
  case unset =>
    intro u huk hu
    by_cases hs : s'.settled u
    · rw [(hr.kept u hs).1] at hu
      rw [(hr.kept u hs).2]
      exact h.unset u huk hu
    · rcases hr.relax u hs with ⟨c, he, hc, hd, hf⟩ | ⟨hd, hf⟩
      · rw [hd] at hu
        exact absurd (lt_of_lt_of_le hc (h.le_inf u (hun u hs))) hu
      · rw [hd] at hu
        rw [hf]
        exact h.unset u huk hu
  case fromSource =>
    exact fun v c hv he => (hdown v hv).trans (h.fromSource v c (hun v hv) he)
  case relaxed =>
    intro u v c hu huk hv he
    rw [(hr.kept u hu).1]
    rcases (hr.settled u).mp hu with hs | rfl
    · exact (hdown v hv).trans (h.relaxed u v c hs huk (hun v hv) he)
    · exact hr.tight v c hv he

/-- **Completeness.**  With no unsettled label below `inf`, the first hops are those of cheapest
paths to all nodes that are less than `inf` away, and `z` elsewhere. -/
theorem Inv.complete (h : Inv E k z inf s) (hdone : ∀ w, ¬ s.settled w → ¬ s.dist w < inf)
    (hwk : w ≠ k) :
    ((∃ d, Path E k w d ∧ d < inf) → FirstHop E k (s.first w) w) ∧
      ((¬ ∃ d, Path E k w d ∧ d < inf) → s.first w = z) := by
  constructor
  · rintro ⟨d, hp, hd⟩
    have hs : s.settled w := by
      by_contra hs
      obtain ⟨y, hy, hle⟩ := h.frontier hpos hs hp
      exact hdone y hy (lt_of_le_of_lt hle hd)
    obtain ⟨hlt, hdist⟩ := h.final w hs hwk
    exact (h.via w hwk hlt).firstHop hdist
  · intro hno
    refine h.unset w hwk fun hlt => hno ⟨_, (h.via w hwk hlt).path, hlt⟩

end Positive

/-- The labels before the first round: those of the edges of the source. -/
theorem Inv.init (hset : ∀ u, s.settled u ↔ u = k)
    (hedge : ∀ v, v ≠ k → (E k v (s.dist v) ∧ s.dist v < inf ∧ s.first v = v) ∨
      (s.dist v = inf ∧ s.first v = z))
    (hle : ∀ v c, v ≠ k → E k v c → s.dist v ≤ c) : Inv E k z inf s where
  source := (hset k).mpr rfl
  final := fun u hu huk => absurd ((hset u).mp hu) huk
  via := fun u huk hu => by
    rcases hedge u huk with ⟨he, -, hf⟩ | ⟨hinf, -⟩
    · exact ⟨s.dist u, 0, hf.symm ▸ he, hf.symm ▸ .nil u, (add_zero _).symm⟩
    · exact absurd hu (hinf ▸ lt_irrefl _)
  le_inf := fun u hu => by
    rcases hedge u fun huk => hu ((hset u).mpr huk) with ⟨-, hlt, -⟩ | ⟨hinf, -⟩
    · exact hlt.le
    · exact hinf.le
  unset := fun u huk hu => by
    rcases hedge u huk with ⟨-, hlt, -⟩ | ⟨-, hf⟩
    · exact absurd hlt hu
    · exact hf
  fromSource := fun v c hv he => hle v c (fun hvk => hv ((hset v).mpr hvk)) he
  relaxed := fun u v c hu huk _ _ => absurd ((hset u).mp hu) huk

end Dijkstra

end Afabric
