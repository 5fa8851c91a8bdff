import Afabric.Linkstate.LsRoutes

/-!
# Linkstate — when the route computation aborts

`lookupCost` gives `LS_MAX_COST + 1` for a node that is not in the paths, and a link whose path costs
just that much is taken for a candidate.  `findMinEqualPaths` looks for a candidate that costs less,
so one of that cost is never popped: when only such candidates are left the computation aborts
(`Inv.round_none`).  With positive costs it goes through exactly when no node is at that distance,
and the reserved node id is not reached (`computes_iff`).
-/

namespace Afabric

namespace LsTopoMap

open LsPaths WeightedPaths

variable {me n x : ℕ} {ep : LsEqualPaths} {P T : LsPaths} {db : LsTopoMap} {s s' : Search}
  {nhl : List ℕ} {lsl : List LsLinkState}

/-- No node is at the distance `LS_MAX_COST + 1`, and a path to the reserved id costs more. -/
def Fits (db : LsTopoMap) (me : ℕ) : Prop :=
  ∀ x d, x ≠ me → IsDist (UpLink db) me x d →
    d ≠ lsMaxCost + 1 ∧ (x = lsInvalidNodeId → lsMaxCost + 1 < d)

/-- What the two path sets can hold. -/
structure Bounded (me : ℕ) (s : Search) : Prop where
  cost_le : ∀ x ep, s.paths.find x = some ep → ep.cost ≤ lsMaxCost
  valid : ∀ x ep, s.paths.find x = some ep → x ≠ me → x ≠ lsInvalidNodeId
  tentative : ∀ x ep, s.tentative.find x = some ep → ep.cost ≤ lsMaxCost + 1

theorem bounded_start (me : ℕ) : Bounded me ⟨OrdMap.empty.set me ⟨0, [me]⟩, .empty⟩ := by
  refine ⟨fun x ep hx => ?_, fun x ep hx hne => absurd (eq_of_find_start hx).1 hne,
    fun x ep hx => ?_⟩
  · rw [(eq_of_find_start hx).2]
    exact Nat.zero_le _
  · cases hx

/-- A link gives no tentative path that costs more than what is said of an unknown node. -/
theorem Bounded.relax (h : Bounded me ⟨P, T⟩) (l : LsLinkState) :
    Bounded me ⟨P, LsTopoMap.relax me n nhl P T l⟩ := by
  refine ⟨h.cost_le, h.valid, fun x ep hx => ?_⟩
  have hlookup : P.lookupCost l.neighborId ≤ lsMaxCost + 1 := by
    cases hP : P.find l.neighborId with
    | none => rw [lookupCost, hP]
    | some eq => exact lookupCost_eq hP ▸ (h.cost_le _ eq hP).trans (Nat.le_succ _)
  dsimp only [LsTopoMap.relax] at hx
  split_ifs at hx with hdown hlt
  · exact h.tentative x ep hx
  · exact h.tentative x ep hx
  all_goals
    by_cases hd : x = l.neighborId
    · subst hd
      rcases cost_insertNextHopList hx with hc | ho
      · exact hc ▸ (not_lt.mp hlt).trans hlookup
      · exact h.tentative _ ep ho
    · rw [find_insertNextHopList_of_ne hd] at hx
      exact h.tentative x ep hx

theorem Bounded.expand (h : Bounded me s) (he : LsTopoMap.expand me n lsl s = some s') :
    Bounded me s' := by
  obtain ⟨nhl, -, rfl⟩ := Option.map_eq_some_iff.mp he
  obtain ⟨P, T⟩ := s
  dsimp only
  clear he
  induction lsl generalizing T with
  | nil => exact h
  | cons l lsl ih => exact ih _ (h.relax l)

/-- A round that goes through. -/
theorem round_eq_some (h : round me db s = some s') :
    ∃ sp T', s.tentative.popShortestPath = some (sp, T') ∧ sp.IsValid ∧
      (s' = ⟨s.paths.insertPath sp, T'⟩ ∨
        ∃ lsl, LsTopoMap.expand me sp.destination lsl ⟨s.paths.insertPath sp, T'⟩ = some s') := by
  rw [round] at h
  cases hpop : s.tentative.popShortestPath with
  | none =>
      rw [hpop] at h
      cases h
  | some a =>
      obtain ⟨sp, T'⟩ := a
      rw [hpop] at h
      dsimp only at h
      split_ifs at h with hvalid
      refine ⟨sp, T', rfl, hvalid, ?_⟩
      cases hdb : db.find sp.destination with
      | none =>
          rw [hdb] at h
          exact .inl (Option.some.inj h).symm
      | some lsl =>
          rw [hdb] at h
          exact .inr ⟨lsl, h⟩

theorem Bounded.round (hs : Inv db me s) (hb : Bounded me s)
    (h : LsTopoMap.round me db s = some s') : Bounded me s' := by
  obtain ⟨sp, T', hpop, hvalid, hs'⟩ := round_eq_some h
  obtain ⟨-, -, hmax, -⟩ := popShortestPath_eq_some hpop
  have hb' : Bounded me ⟨s.paths.insertPath sp, T'⟩ := by
    refine ⟨fun x ep hx => (hs.base.pop_ge hpop hx).trans hmax, fun x ep hx hne => ?_,
      fun x ep hx => ?_⟩
    · by_cases hd : x = sp.destination
      · exact hd ▸ hvalid.1
      · rw [find_insertPath_of_ne hd] at hx
        exact hb.valid x ep hx hne
    · obtain ⟨old, ho, hcost, -⟩ := hs.base.pop_left hpop hx
      exact hcost ▸ hb.tentative x old ho
  rcases hs' with rfl | ⟨lsl, he⟩
  · exact hb'
  · exact hb'.expand he

/-- A round that aborts: a candidate of cost `LS_MAX_COST + 1` is left, or one to the reserved id. -/
theorem Inv.round_none (hpos : ∀ u v c, UpLink db u v c → 0 < c) (hs : Inv db me s)
    (hb : Bounded me s) (hne : s.tentative.entries ≠ [])
    (hnone : LsTopoMap.round me db s = none) : ¬ Fits db me := by
  intro hfits
  cases hpop : s.tentative.popShortestPath with
  | none =>
      -- every candidate costs `LS_MAX_COST + 1`
      have hall : ∀ x ep, s.tentative.find x = some ep → lsMaxCost < ep.cost := fun x ep hx =>
        popShortestPath_eq_none hpop hx (hs.base.tentative x ep hx).2.nonempty
      obtain ⟨⟨x, ep⟩, hx⟩ := List.exists_mem_of_ne_nil _ hne
      have hx := OrdMap.find_eq_some_iff.mpr hx
      obtain ⟨hxm, hentry⟩ := hs.base.tentative x ep hx
      have hcost : ep.cost = lsMaxCost + 1 := le_antisymm (hb.tentative x ep hx) (hall x ep hx)
      obtain ⟨h, hh⟩ := List.exists_mem_of_ne_nil _ hentry.nonempty
      refine (hfits x ep.cost hxm ⟨(hentry.via h hh).path, fun d hp => ?_⟩).1 hcost
      cases hP : s.paths.find x with
      | some eq =>
          have hagree := (hs.base.agree x eq ep hP hx).1
          have hle := hb.cost_le x eq hP
          omega
      | none =>
          rcases hs.base.frontier hs.relaxed hP hp with ⟨z, eq, hz, hle⟩ | hlt
          · exact hcost ▸ (Nat.succ_le_of_lt (hall z eq hz)).trans hle
          · exact hcost ▸ hlt.le
  | some a =>
      obtain ⟨sp, T'⟩ := a
      obtain ⟨rest, hT, hdest, hentry⟩ := hs.base.popped hpop
      obtain ⟨-, -, hmax, -⟩ := popShortestPath_eq_some hpop
      have hdist := hs.base.pop_isDist hs.relaxed hpop
      have hinvalid : ¬ sp.IsValid := by
        intro hvalid
        obtain ⟨s', hs', -⟩ := hs.round_of_valid hpos hpop hvalid
        rw [hs'] at hnone
        cases hnone
      refine hinvalid ⟨fun he => ?_, fun he => ?_, fun he => ?_⟩
      · have hlt := (hfits _ _ hdest hdist).2 he
        omega
      · rw [he] at hmax
        exact absurd hmax (by decide)
      · -- the next hop is on a cheapest path, so its distance is at most the cost
        obtain ⟨c, e, hfirst, hpath, hcost⟩ := hentry.via sp.nextHop List.mem_cons_self
        have hce : sp.cost = c + e := hcost
        have hself : sp.nextHop ≠ me := by
          intro hm
          have hle := hdist.2 e (hm ▸ hpath)
          have hc := hpos _ _ _ hfirst
          omega
        have hd : IsDist (UpLink db) me sp.nextHop c := by
          refine ⟨.cons hfirst (.nil _), fun d hp => ?_⟩
          have hle := hdist.2 _ (hp.append hpath)
          omega
        have hlt := (hfits _ _ hself hd).2 he
        omega

/-- Nothing is left: what is near enough has been found. -/
theorem Inv.fits (hs : Inv db me s) (hb : Bounded me s) (hnil : s.tentative.entries = []) :
    Fits db me := by
  intro x d hxm hd
  have hfound : d ≤ lsMaxCost + 1 → ∃ ep, s.paths.find x = some ep ∧ ep.cost = d := by
    intro hle
    cases hP : s.paths.find x with
    | some ep => exact ⟨ep, rfl, (hs.base.final x ep hP hxm).1.unique hd⟩
    | none =>
        rcases hs.base.frontier hs.relaxed hP hd.1 with ⟨z, ep, hz, -⟩ | hlt
        · rw [OrdMap.entries_eq_nil_iff.mp hnil z] at hz
          cases hz
        · exact absurd hle hlt.not_ge
  refine ⟨fun he => ?_, fun hx => not_le.mp fun hle => ?_⟩
  · obtain ⟨ep, hP, hcost⟩ := hfound he.le
    have hle := hb.cost_le x ep hP
    omega
  · obtain ⟨ep, hP, -⟩ := hfound hle
    exact hb.valid x ep hP hxm hx

/-- Enough rounds end the computation, in one way or the other. -/
theorem Inv.rounds_iff (hpos : ∀ u v c, UpLink db u v c → 0 < c) {n : ℕ} (hs : Inv db me s)
    (hb : Bounded me s) (hn : (missing db s.paths).card < n) :
    (∃ P, (∀ m, n ≤ m → LsTopoMap.rounds me db m s = some P) ∧ Fits db me) ∨
      (∀ m, LsTopoMap.rounds me db m s = none) ∧ ¬ Fits db me := by
  induction n generalizing s with
  | zero => exact absurd hn (Nat.not_lt_zero _)
  | succ n ih =>
      by_cases hnil : s.tentative.entries = []
      · refine .inl ⟨s.paths, fun m hm => ?_, hs.fits hb hnil⟩
        obtain ⟨k, rfl⟩ := Nat.exists_eq_add_of_lt (Nat.lt_of_succ_le hm)
        rw [LsTopoMap.rounds, if_pos hnil]
      · cases hround : LsTopoMap.round me db s with
        | none =>
            refine .inr ⟨fun m => ?_, hs.round_none hpos hb hnil hround⟩
            cases m with
            | zero => rfl
            | succ m => rw [LsTopoMap.rounds, if_neg hnil, hround, Option.bind_none]
        | some s₁ =>
            obtain ⟨sp, T', hpop, hvalid, -⟩ := round_eq_some hround
            obtain ⟨s₁', hround', hs₁, hless⟩ := hs.round_of_valid hpos hpop hvalid
            obtain rfl := Option.some.inj (hround.symm.trans hround')
            have hstep : ∀ m, LsTopoMap.rounds me db (m + 1) s = LsTopoMap.rounds me db m s₁ := by
              intro m
              rw [LsTopoMap.rounds, if_neg hnil, hround, Option.bind_some]
            rcases ih hs₁ (hb.round hs hround)
              ((Finset.card_lt_card hless).trans_le (Nat.le_of_lt_succ hn)) with
              ⟨P, hruns, hfits⟩ | ⟨hruns, hfits⟩
            · refine .inl ⟨P, fun m hm => ?_, hfits⟩
              obtain ⟨k, rfl⟩ := Nat.exists_eq_add_of_lt (Nat.lt_of_succ_le hm)
              exact (hstep _).trans (hruns _ (Nat.le_add_right n k))
            · refine .inr ⟨fun m => ?_, hfits⟩
              cases m with
              | zero => rfl
              | succ m => exact (hstep m).trans (hruns m)

/-- **When the computation goes through.**  With positive costs `_computeRoutes` ends without an
abort exactly if no node is at the distance `LS_MAX_COST + 1` and the reserved id is not reached. -/
theorem computes_iff (db : LsTopoMap) (me : ℕ) (hpos : ∀ u v c, UpLink db u v c → 0 < c) :
    (∃ n P, ∀ m, n ≤ m → computeRoutes me db m = some P) ↔ Fits db me := by
  obtain ⟨s, hs, ⟨hP, hT⟩, hstart⟩ := exists_start me hpos
  have hb : Bounded me s := by
    rcases hT with hT | ⟨lsl, he⟩
    · obtain ⟨P, T⟩ := s
      obtain rfl : P = _ := hP
      obtain rfl : T = _ := hT
      exact bounded_start me
    · exact (bounded_start me).expand he
  rcases hstart with ⟨hnil, hm⟩ | hm
  · exact iff_of_true ⟨0, s.paths, fun m _ => hm m⟩ (hs.fits hb hnil)
  · rcases hs.rounds_iff hpos hb (Nat.lt_succ_self _) with ⟨P, hruns, hfits⟩ | ⟨hruns, hfits⟩
    · exact iff_of_true ⟨_, P, fun m hle => (hm m).trans (hruns m hle)⟩ hfits
    · refine iff_of_false ?_ hfits
      rintro ⟨n, P, hn⟩
      have hsome := (hm n).symm.trans (hn n le_rfl)
      rw [hruns n] at hsome
      cases hsome

/-- One link that is up, from 0 to 1. -/
def pair (cost : ℕ) : LsTopoMap := ⟨[(0, [⟨1, .up, cost, 1⟩])], List.pairwise_singleton _ _⟩

theorem upLink_pair {cost u v c : ℕ} (he : UpLink (pair cost) u v c) :
    u = 0 ∧ v = 1 ∧ c = cost := by
  obtain ⟨lsl, hu, l, hl, -, rfl, rfl⟩ := he
  have hmem := OrdMap.find_eq_some_iff.mp hu
  simp only [pair, List.mem_singleton, Prod.mk.injEq] at hmem
  obtain ⟨rfl, rfl⟩ := hmem
  obtain rfl := List.mem_singleton.mp hl
  exact ⟨rfl, rfl, rfl⟩

theorem computes_iff_pair : (∃ n P, ∀ m, n ≤ m → computeRoutes 0 (pair 65534) m = some P) ↔
    Fits (pair 65534) 0 :=
  computes_iff (pair 65534) 0 fun _ _ _ he => (upLink_pair he).2.2 ▸ by decide

/-- A link that costs 65535. -/
theorem pair_aborts : (∀ u v c, UpLink (pair 65535) u v c → 0 < c) ∧
    ∀ n, computeRoutes 0 (pair 65535) n = none := by
  refine ⟨fun u v c he => (upLink_pair he).2.2 ▸ by decide, fun n => ?_⟩
  cases n with
  | zero => rfl
  | succ n => rfl

end LsTopoMap

end Afabric
