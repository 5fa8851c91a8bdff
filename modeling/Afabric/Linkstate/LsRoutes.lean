import Afabric.Linkstate.LsPaths
import Afabric.Support.Dijkstra
import Mathlib.Data.Finset.Prod

/-!
# Linkstate — all cheapest routes

What `_computeRoutes` finds.  A tentative path is popped once for each of its next hops, and each
time the links of its destination are expanded again with the next hops found so far.  `Base` says
what the entries of both path sets stand for, and `Relaxed` that each link of a destination in the
paths is accounted for with each next hop: in the paths or in the tentative ones there is an entry
that is cheaper, or as cheap and with that next hop.  A next hop that is popped is cheapest and new
(`Base.pop`), and when nothing is left each first hop of a cheapest path has been found
(`computes_routes`).

A path to `LS_INVALID_NODE_ID` is not valid: a link that is up and leads there makes the computation
abort (`invalid_neighbor_aborts`).
-/

namespace Afabric

namespace LsTopoMap

open LsPaths WeightedPaths Dijkstra

variable {E : ℕ → ℕ → ℕ → Prop} {me x y z h c d : ℕ} {ep eq : LsEqualPaths} {P T T' : LsPaths}
  {sp : LsPath}

/-- What an entry stands for: paths of its cost that begin with its next hops. -/
structure Entry (E : ℕ → ℕ → ℕ → Prop) (me x : ℕ) (ep : LsEqualPaths) : Prop where
  nonempty : ep.nextHopList ≠ []
  nodup : ep.nextHopList.Nodup
  via : ∀ h ∈ ep.nextHopList, Dijkstra.Via E me h x ep.cost

structure Base (E : ℕ → ℕ → ℕ → Prop) (me : ℕ) (P T : LsPaths) : Prop where
  source : P.find me = some ⟨0, [me]⟩
  final : ∀ x ep, P.find x = some ep → x ≠ me → IsDist E me x ep.cost ∧ Entry E me x ep
  tentative : ∀ x ep, T.find x = some ep → x ≠ me ∧ Entry E me x ep
  le : ∀ z ep x eq, P.find z = some ep → T.find x = some eq → ep.cost ≤ eq.cost
  agree : ∀ x ep eq, P.find x = some ep → T.find x = some eq →
    ep.cost = eq.cost ∧ ∀ h ∈ ep.nextHopList, h ∉ eq.nextHopList

/-- A path to `x` of cost `c` that begins with `h` need not be looked for any more. -/
def Accounted (P T : LsPaths) (x h c : ℕ) : Prop :=
  P.Covers x h c ∨ T.Covers x h c ∨ lsMaxCost + 1 < c

/-- The next hops with which a link from `y` to `x` is used. -/
def hopsOver (me y x : ℕ) (ep : LsEqualPaths) : List ℕ := if y = me then [x] else ep.nextHopList

def Relaxed (E : ℕ → ℕ → ℕ → Prop) (me : ℕ) (P T : LsPaths) (y : ℕ) : Prop :=
  ∀ ep x c, P.find y = some ep → E y x c → ∀ h ∈ hopsOver me y x ep,
    Accounted P T x h (c + ep.cost)

theorem Base.cost_le (hb : Base E me P T) (hy : P.find y = some ep) (hp : Path E me y d) :
    ep.cost ≤ d := by
  by_cases hne : y = me
  · subst hne
    rw [hb.source] at hy
    cases hy
    exact Nat.zero_le d
  · exact (hb.final y ep hy hne).1.2 d hp

theorem Base.exists_hop (hb : Base E me P T) (hy : P.find y = some ep) (x : ℕ) :
    ∃ h, h ∈ hopsOver me y x ep := by
  rw [hopsOver]
  split_ifs with hne
  · exact ⟨x, List.mem_singleton_self x⟩
  · exact List.exists_mem_of_ne_nil _ (hb.final y ep hy hne).2.nonempty

/-- A path to a destination that is not in the paths costs no less than a tentative one. -/
theorem Base.frontier (hb : Base E me P T) (hr : ∀ y, Relaxed E me P T y) (hx : P.find x = none)
    (hp : Path E me x d) : (∃ z ep, T.find z = some ep ∧ ep.cost ≤ d) ∨ lsMaxCost + 1 < d := by
  have hme : P.find me ≠ none := by
    rw [hb.source]
    exact Option.some_ne_none _
  obtain ⟨y, z, a, b, e, hy, hz, hpy, hyz, -, rfl⟩ :=
    hp.exits (S := fun u => P.find u ≠ none) hme (not_not.mpr hx)
  obtain ⟨ep, hy⟩ := Option.ne_none_iff_exists'.mp hy
  obtain ⟨h, hh⟩ := hb.exists_hop hy z
  have hle : b + ep.cost ≤ a + (b + e) := by
    have := hb.cost_le hy hpy
    omega
  rcases hr y ep z b hy hyz h hh with ⟨eq, hP, -⟩ | ⟨eq, hT, hc⟩ | hc
  · exact absurd (hP ▸ Option.some_ne_none eq) hz
  · refine .inl ⟨z, eq, hT, le_trans ?_ hle⟩
    rcases hc with hc | ⟨hc, -⟩
    · exact hc.le
    · exact hc.le
  · exact .inr (hc.trans_le hle)

/-! ### A pop -/

section Pop

variable (hb : Base E me P T) (hr : ∀ y, Relaxed E me P T y)
  (hpop : T.popShortestPath = some (sp, T'))
include hb hpop

/-- The next hop that is popped, and the rest of its entry. -/
theorem Base.popped : ∃ rest, T.find sp.destination = some ⟨sp.cost, sp.nextHop :: rest⟩ ∧
    sp.destination ≠ me ∧ Entry E me sp.destination ⟨sp.cost, sp.nextHop :: rest⟩ := by
  obtain ⟨rest, hT, -⟩ := popShortestPath_eq_some hpop
  exact ⟨rest, hT, hb.tentative _ _ hT⟩

theorem Base.pop_le (hx : T.find x = some ep) : sp.cost ≤ ep.cost := by
  obtain ⟨rest, -, -, hmin, -⟩ := popShortestPath_eq_some hpop
  exact hmin x ep hx (hb.tentative x ep hx).2.nonempty

theorem Base.pop_old (hx : P.find sp.destination = some ep) :
    ep.cost = sp.cost ∧ sp.nextHop ∉ ep.nextHopList := by
  obtain ⟨rest, hT, -, -⟩ := hb.popped hpop
  obtain ⟨hcost, hdis⟩ := hb.agree _ _ _ hx hT
  exact ⟨hcost, fun hm => hdis _ hm List.mem_cons_self⟩

theorem Base.pop_find : (P.insertPath sp).find sp.destination =
    some ⟨sp.cost, P.hops sp.destination ++ [sp.nextHop]⟩ :=
  find_insertPath_self fun _ hx => hb.pop_old hpop hx

theorem Base.pop_notMem : sp.nextHop ∉ P.hops sp.destination := by
  cases hP : P.find sp.destination with
  | none =>
      rw [hops, hP]
      exact List.not_mem_nil
  | some ep =>
      rw [hops_eq hP]
      exact (hb.pop_old hpop hP).2

/-- No path in the set costs more than the one that is popped. -/
theorem Base.pop_ge (hx : (P.insertPath sp).find x = some ep) : ep.cost ≤ sp.cost := by
  by_cases hd : x = sp.destination
  · subst hd
    rw [hb.pop_find hpop] at hx
    cases hx
    exact le_rfl
  · obtain ⟨rest, hT, -⟩ := hb.popped hpop
    rw [find_insertPath_of_ne hd] at hx
    exact hb.le x ep _ _ hx hT

/-- What is left of the tentative paths. -/
theorem Base.pop_left (hx : T'.find x = some ep) : ∃ old, T.find x = some old ∧
    old.cost = ep.cost ∧ ep.nextHopList.Sublist old.nextHopList ∧ ep.nextHopList ≠ [] ∧
      (x = sp.destination → sp.nextHop ∉ ep.nextHopList) := by
  obtain ⟨rest, hT, -, -, hne, hself⟩ := popShortestPath_eq_some hpop
  by_cases hd : x = sp.destination
  · subst hd
    rw [hself] at hx
    split_ifs at hx with hrest
    cases hx
    have hnd := (hb.tentative _ _ hT).2.nodup
    exact ⟨_, hT, rfl, List.sublist_cons_self _ _, hrest, fun _ => (List.nodup_cons.mp hnd).1⟩
  · rw [hne x hd] at hx
    exact ⟨ep, hx, rfl, List.Sublist.refl _, (hb.tentative x ep hx).2.nonempty,
      fun he => absurd he hd⟩

theorem Base.pop_covers (hc : T.Covers x h c) :
    (P.insertPath sp).Covers x h c ∨ T'.Covers x h c := by
  obtain ⟨rest, hT, -, -, hne, hself⟩ := popShortestPath_eq_some hpop
  obtain ⟨old, ho, hold⟩ := hc
  by_cases hd : x = sp.destination
  · subst hd
    rw [hT] at ho
    cases ho
    have hfind := hb.pop_find hpop
    rcases hold with hlt | ⟨heq, hh⟩
    · exact .inl ⟨_, hfind, .inl hlt⟩
    · rcases List.mem_cons.mp hh with rfl | hh
      · exact .inl ⟨_, hfind, .inr ⟨heq, List.mem_append_right _ (List.mem_singleton_self _)⟩⟩
      · rw [if_neg (List.ne_nil_of_mem hh)] at hself
        exact .inr ⟨_, hself, .inr ⟨heq, hh⟩⟩
  · exact .inr ⟨old, (hne x hd).trans ho, hold⟩

theorem Base.pop_covers_paths (hc : P.Covers x h c) : (P.insertPath sp).Covers x h c := by
  obtain ⟨old, ho, hold⟩ := hc
  by_cases hd : x = sp.destination
  · subst hd
    refine ⟨_, hb.pop_find hpop, ?_⟩
    rw [hops_eq ho]
    rcases hold with hlt | ⟨heq, hh⟩
    · exact .inl ((hb.pop_old hpop ho).1 ▸ hlt)
    · exact .inr ⟨(hb.pop_old hpop ho).1 ▸ heq, List.mem_append_left _ hh⟩
  · exact ⟨old, (find_insertPath_of_ne hd).trans ho, hold⟩

theorem Base.pop_accounted (ha : Accounted P T x h c) : Accounted (P.insertPath sp) T' x h c := by
  rcases ha with hP | hT | hc
  · exact .inl (hb.pop_covers_paths hpop hP)
  · rcases hb.pop_covers hpop hT with hP | hT
    · exact .inl hP
    · exact .inr (.inl hT)
  · exact .inr (.inr hc)

include hr

/-- **The path that is popped is a cheapest one.** -/
theorem Base.pop_isDist : IsDist E me sp.destination sp.cost := by
  obtain ⟨rest, hT, hne, hentry⟩ := hb.popped hpop
  cases hP : P.find sp.destination with
  | some ep => exact (hb.pop_old hpop hP).1 ▸ (hb.final _ _ hP hne).1
  | none =>
      refine ⟨(hentry.via _ List.mem_cons_self).path, fun d hp => ?_⟩
      rcases hb.frontier hr hP hp with ⟨z, ep, hz, hle⟩ | hlt
      · exact (hb.pop_le hpop hz).trans hle
      · obtain ⟨-, -, hmax, -⟩ := popShortestPath_eq_some hpop
        exact (hmax.trans (Nat.le_succ _)).trans hlt.le

theorem Base.pop : Base E me (P.insertPath sp) T' := by
  obtain ⟨rest, hT, hne, hentry⟩ := hb.popped hpop
  have hfind := hb.pop_find hpop
  constructor
  case source => exact (find_insertPath_of_ne (Ne.symm hne)).trans hb.source
  case final =>
    intro x ep hx hxm
    by_cases hd : x = sp.destination
    · subst hd
      rw [hfind] at hx
      cases hx
      refine ⟨hb.pop_isDist hr hpop, by simp, ?_, fun h hh => ?_⟩
      · cases hP : P.find sp.destination with
        | none =>
            rw [hops, hP]
            exact List.nodup_singleton _
        | some ep =>
            rw [hops_eq hP]
            refine List.nodup_append.mpr ⟨(hb.final _ _ hP hxm).2.nodup, List.nodup_singleton _,
              fun a ha b hb' hab => (hb.pop_old hpop hP).2 ?_⟩
            exact List.mem_singleton.mp hb' ▸ hab ▸ ha
      · rcases List.mem_append.mp hh with hh | hh
        · cases hP : P.find sp.destination with
          | none =>
              rw [hops, hP] at hh
              exact absurd hh List.not_mem_nil
          | some ep =>
              rw [hops_eq hP] at hh
              exact (hb.pop_old hpop hP).1 ▸ (hb.final _ _ hP hxm).2.via h hh
        · exact hentry.via h (List.mem_singleton.mp hh ▸ List.mem_cons_self)
    · rw [find_insertPath_of_ne hd] at hx
      exact hb.final x ep hx hxm
  case tentative =>
    intro x ep hx
    obtain ⟨old, ho, hcost, hsub, hnil, -⟩ := hb.pop_left hpop hx
    obtain ⟨hxm, hold⟩ := hb.tentative x old ho
    exact ⟨hxm, hnil, hold.nodup.sublist hsub, fun h hh => hcost ▸ hold.via h (hsub.subset hh)⟩
  case le =>
    intro z ep x eq hz hx
    obtain ⟨old, ho, hcost, -⟩ := hb.pop_left hpop hx
    exact (hb.pop_ge hpop hz).trans (hcost ▸ hb.pop_le hpop ho)
  -- what is left of the popped entry has the hops that were not popped
  case agree =>
    intro x ep eq hx hx'
    obtain ⟨old, ho, hcost, hsub, -, hnew⟩ := hb.pop_left hpop hx'
    by_cases hd : x = sp.destination
    · subst hd
      rw [hT] at ho
      cases ho
      rw [hfind] at hx
      cases hx
      refine ⟨hcost, fun h hh => ?_⟩
      rcases List.mem_append.mp hh with hh | hh
      · cases hP : P.find sp.destination with
        | none =>
            rw [hops, hP] at hh
            exact absurd hh List.not_mem_nil
        | some ep =>
            rw [hops_eq hP] at hh
            exact fun hm => (hb.agree _ _ _ hP hT).2 h hh (hsub.subset hm)
      · exact List.mem_singleton.mp hh ▸ hnew rfl
    · rw [find_insertPath_of_ne hd] at hx
      obtain ⟨hcost', hdis⟩ := hb.agree x ep old hx ho
      exact ⟨hcost'.trans hcost, fun h hh hm => hdis h hh (hsub.subset hm)⟩

theorem Base.pop_relaxed (hy : y ≠ sp.destination) : Relaxed E me (P.insertPath sp) T' y := by
  intro ep x c hP he h hh
  rw [find_insertPath_of_ne hy] at hP
  exact hb.pop_accounted hpop (hr y ep x c hP he h hh)

end Pop

/-! ### Expanding a destination -/

section Expand

variable {n : ℕ} {epn : LsEqualPaths} {nhl : List ℕ} {l : LsLinkState}

theorem lookupCost_eq (hx : P.find x = some ep) : P.lookupCost x = ep.cost := by
  rw [lookupCost, hx]

theorem Accounted.insertNextHopList (ha : Accounted P T x h c) (dest cost : ℕ) (nhl : List ℕ) :
    Accounted P (T.insertNextHopList dest cost nhl) x h c := by
  rcases ha with hP | hT | hc
  · exact .inl hP
  · exact .inr (.inl hT.insertNextHopList)
  · exact .inr (.inr hc)

/-- A better path is in the set already. -/
theorem accounted_of_lookupCost_lt (hlt : P.lookupCost x < c) : Accounted P T x h c := by
  cases hP : P.find x with
  | some ep => exact .inl ⟨ep, hP, .inl (lookupCost_eq hP ▸ hlt)⟩
  | none =>
      rw [lookupCost, hP] at hlt
      exact .inr (.inr hlt)

theorem Entry.insertNextHopList (hnew : Entry E me z ⟨c, nhl⟩)
    (hold : ∀ old, T.find z = some old → Entry E me z old)
    (hx : (T.insertNextHopList z c nhl).find z = some ep) : Entry E me z ep := by
  obtain ⟨ep', he, ⟨rfl, -⟩ | ⟨ho, -⟩ | ⟨old, ho, rfl, rfl⟩⟩ := find_insertNextHopList_self T z c nhl
  · rw [hx] at he
    cases he
    exact hnew
  · rw [hx] at he
    cases he
    exact hold _ ho
  · rw [hx] at he
    cases he
    have h := hold old ho
    constructor
    case nonempty =>
      obtain ⟨a, ha⟩ := List.exists_mem_of_ne_nil _ h.nonempty
      exact List.ne_nil_of_mem (mem_appendUnique.mpr (.inl ha))
    case nodup => exact nodup_appendUnique h.nodup
    case via =>
      intro a ha
      rcases mem_appendUnique.mp ha with ha | ha
      · exact h.via a ha
      · exact hnew.via a ha

theorem cost_insertNextHopList (hx : (T.insertNextHopList z c nhl).find z = some ep) :
    ep.cost = c ∨ T.find z = some ep := by
  obtain ⟨ep', he, ⟨rfl, -⟩ | ⟨ho, -⟩ | ⟨old, ho, rfl, rfl⟩⟩ := find_insertNextHopList_self T z c nhl
  · rw [hx] at he
    cases he
    exact .inl rfl
  · rw [hx] at he
    cases he
    exact .inr ho
  · rw [hx] at he
    cases he
    exact .inl rfl

/-- The entry that a link from `n` gives to its end. -/
theorem Base.entry_over (hb : Base E me P T) (hn : P.find n = some epn) (he : E n z c) :
    Entry E me z ⟨c + epn.cost, hopsOver me n z epn⟩ := by
  by_cases hnm : n = me
  · subst hnm
    rw [hb.source] at hn
    cases hn
    rw [hopsOver, if_pos rfl]
    refine ⟨List.cons_ne_nil _ _, List.nodup_singleton z, fun h hh => ?_⟩
    obtain rfl := List.mem_singleton.mp hh
    exact ⟨c, 0, he, .nil h, rfl⟩
  · obtain ⟨hnil, hnd, hvia⟩ := (hb.final n epn hn hnm).2
    rw [hopsOver, if_neg hnm]
    refine ⟨hnil, hnd, fun h hh => ?_⟩
    obtain ⟨a, b, ha, hp, hab⟩ := hvia h hh
    exact ⟨a, b + c, ha, hp.concat he, by dsimp only; omega⟩

/-- A new tentative path, to a destination that is not in the paths, that costs no less than what
is there. -/
theorem Base.insertNextHopList (hb : Base E me P T) (hz : P.find z = none)
    (hentry : Entry E me z ⟨c, nhl⟩) (hmax : ∀ x ep, P.find x = some ep → ep.cost ≤ c) :
    Base E me P (T.insertNextHopList z c nhl) := by
  have hzm : z ≠ me := by
    rintro rfl
    rw [hb.source] at hz
    cases hz
  constructor
  case source => exact hb.source
  case final => exact hb.final
  case tentative =>
    intro x ep hx
    by_cases hd : x = z
    · subst hd
      exact ⟨hzm, hentry.insertNextHopList (fun old ho => (hb.tentative x old ho).2) hx⟩
    · rw [find_insertNextHopList_of_ne hd] at hx
      exact hb.tentative x ep hx
  case le =>
    intro y ep x eq hy hx
    by_cases hd : x = z
    · subst hd
      rcases cost_insertNextHopList hx with hc | ho
      · exact hc.symm ▸ hmax y ep hy
      · exact hb.le y ep x eq hy ho
    · rw [find_insertNextHopList_of_ne hd] at hx
      exact hb.le y ep x eq hy hx
  case agree =>
    intro x ep eq hx hx'
    have hd : x ≠ z := by
      rintro rfl
      rw [hz] at hx
      cases hx
    rw [find_insertNextHopList_of_ne hd] at hx'
    exact hb.agree x ep eq hx hx'

variable (hpos : ∀ u v c, E u v c → 0 < c) (hn : P.find n = some epn)
  (hmax : ∀ x ep, P.find x = some ep → ep.cost ≤ epn.cost)
  (hnhl : n ≠ me → nhl = epn.nextHopList)
include hpos hn hmax hnhl

/-- One link: it is accounted for, and what was so stays so. -/
theorem Base.relax (hb : Base E me P T) (hl : l.status = .up → E n l.neighborId l.cost) :
    Base E me P (relax me n nhl P T l) ∧
      (l.status = .up → ∀ h ∈ hopsOver me n l.neighborId epn,
        Accounted P (LsTopoMap.relax me n nhl P T l) l.neighborId h (l.cost + epn.cost)) ∧
      ∀ x h c, Accounted P T x h c → Accounted P (LsTopoMap.relax me n nhl P T l) x h c := by
  have hhops : (if n = me then [l.neighborId] else nhl) = hopsOver me n l.neighborId epn := by
    rw [hopsOver]
    split_ifs with hnm
    · rfl
    · exact hnhl hnm
  rw [LsTopoMap.relax, lookupCost_eq hn, hhops]
  by_cases hup : l.status = .up
  · rw [if_neg (not_not.mpr hup)]
    by_cases hlt : P.lookupCost l.neighborId < l.cost + epn.cost
    · rw [if_pos hlt]
      exact ⟨hb, fun _ h _ => accounted_of_lookupCost_lt hlt, fun _ _ _ => id⟩
    · rw [if_neg hlt]
      have hc := hpos _ _ _ (hl hup)
      have hz : P.find l.neighborId = none := by
        cases hP : P.find l.neighborId with
        | none => rfl
        | some ep =>
            rw [lookupCost_eq hP] at hlt
            have := hmax _ ep hP
            omega
      refine ⟨hb.insertNextHopList hz (hb.entry_over hn (hl hup)) fun x ep hx => ?_,
        fun _ h hh => .inr (.inl (covers_insertNextHopList hh)),
        fun x h c ha => ha.insertNextHopList _ _ _⟩
      exact (hmax x ep hx).trans (Nat.le_add_left _ _)
  · rw [if_pos hup]
    exact ⟨hb, fun h => absurd h hup, fun _ _ _ => id⟩

/-- All links: the induction is on those that are left. -/
theorem Base.relax_all {lsl : List LsLinkState} (hb : Base E me P T)
    (hl : ∀ l ∈ lsl, l.status = .up → E n l.neighborId l.cost) :
    Base E me P (lsl.foldl (LsTopoMap.relax me n nhl P) T) ∧
      (∀ l ∈ lsl, l.status = .up → ∀ h ∈ hopsOver me n l.neighborId epn,
        Accounted P (lsl.foldl (LsTopoMap.relax me n nhl P) T) l.neighborId h
          (l.cost + epn.cost)) ∧
      ∀ x h c, Accounted P T x h c →
        Accounted P (lsl.foldl (LsTopoMap.relax me n nhl P) T) x h c := by
  induction lsl generalizing T with
  | nil => exact ⟨hb, fun l hl => absurd hl List.not_mem_nil, fun _ _ _ => id⟩
  | cons l lsl ih =>
      obtain ⟨hb', hdone, hkeep⟩ := hb.relax hpos hn hmax hnhl (hl l List.mem_cons_self)
      obtain ⟨hb'', hdone', hkeep'⟩ := ih hb' fun k hk => hl k (List.mem_cons_of_mem _ hk)
      refine ⟨hb'', fun k hk hup h hh => ?_, fun x h c ha => hkeep' x h c (hkeep x h c ha)⟩
      rcases List.mem_cons.mp hk with rfl | hk
      · exact hkeep' _ h _ (hdone hup h hh)
      · exact hdone' k hk hup h hh

omit hnhl in
theorem Base.expand {lsl : List LsLinkState} (hb : Base E me P T)
    (hr : ∀ y, y ≠ n → Relaxed E me P T y)
    (hl : ∀ v c, E n v c ↔ ∃ l ∈ lsl, l.status = .up ∧ l.neighborId = v ∧ l.cost = c) :
    ∃ T', LsTopoMap.expand me n lsl ⟨P, T⟩ = some ⟨P, T'⟩ ∧ Base E me P T' ∧
      ∀ y, Relaxed E me P T' y := by
  obtain ⟨nhl, hto, hnhl⟩ : ∃ nhl, hopsTo me n P = some nhl ∧ (n ≠ me → nhl = epn.nextHopList) := by
    rw [hopsTo]
    split_ifs with hnm
    · exact ⟨[], rfl, fun h => absurd hnm h⟩
    · exact ⟨epn.nextHopList, by rw [hn]; rfl, fun _ => rfl⟩
  obtain ⟨hb', hdone, hkeep⟩ := hb.relax_all hpos hn hmax hnhl
    fun l hm hup => (hl l.neighborId l.cost).mpr ⟨l, hm, hup, rfl, rfl⟩
  refine ⟨_, by rw [LsTopoMap.expand, hto]; rfl, hb', fun y ep x c hy he h hh => ?_⟩
  by_cases hyn : y = n
  · subst hyn
    rw [hn] at hy
    cases hy
    obtain ⟨l, hm, hup, rfl, rfl⟩ := (hl x c).mp he
    exact hdone l hm hup h hh
  · exact hkeep x h _ (hr y hyn ep x c hy he h hh)

end Expand

/-! ### The rounds -/

/-- The links that are up, of the nodes whose link states are known. -/
def UpLink (db : LsTopoMap) (u v c : ℕ) : Prop :=
  ∃ lsl, db.find u = some lsl ∧ ∃ l ∈ lsl, l.status = .up ∧ l.neighborId = v ∧ l.cost = c

/-- The ends of links. -/
def neighborIds (db : LsTopoMap) : Finset ℕ :=
  (db.entries.flatMap fun e => e.2.map LsLinkState.neighborId).toFinset

/-- The destinations and next hops that are not in the paths. -/
def missing (db : LsTopoMap) (P : LsPaths) : Finset (ℕ × ℕ) :=
  (neighborIds db ×ˢ neighborIds db).filter fun a => a.2 ∉ P.hops a.1

structure Inv (db : LsTopoMap) (me : ℕ) (s : Search) : Prop where
  base : Base (UpLink db) me s.paths s.tentative
  relaxed : ∀ y, Relaxed (UpLink db) me s.paths s.tentative y

variable {db : LsTopoMap} {s : Search} {v : ℕ}

theorem UpLink.mem_neighborIds (he : UpLink db x v c) : v ∈ neighborIds db := by
  obtain ⟨lsl, hx, l, hl, -, rfl, -⟩ := he
  exact List.mem_toFinset.mpr (List.mem_flatMap.mpr
    ⟨_, OrdMap.find_eq_some_iff.mp hx, List.mem_map_of_mem hl⟩)

theorem upLink_iff {lsl : List LsLinkState} (hx : db.find x = some lsl) :
    UpLink db x v c ↔ ∃ l ∈ lsl, l.status = .up ∧ l.neighborId = v ∧ l.cost = c := by
  constructor
  · rintro ⟨lsl', hx', hl⟩
    rw [hx] at hx'
    cases hx'
    exact hl
  · exact fun hl => ⟨lsl, hx, hl⟩

/-- What the routes of a database need: its links cost something, no simple path costs too much, and
no link of a node that is reached leads to the invalid id. -/
structure WellFormed (db : LsTopoMap) (me : ℕ) : Prop where
  pos : ∀ u v c, UpLink db u v c → 0 < c
  cost_le : ∀ v d, SimplePath (UpLink db) me v d → d ≤ lsMaxCost
  valid : ∀ u d c, Path (UpLink db) me u d → ¬ UpLink db u lsInvalidNodeId c

theorem WellFormed.cheap (hw : WellFormed db me) {d : ℕ} (hp : Path (UpLink db) me x d) :
    ∃ e, Path (UpLink db) me x e ∧ e ≤ lsMaxCost := by
  obtain ⟨e, hs, -⟩ := hp.simple hw.pos
  obtain ⟨l, hl, hnd⟩ := hs
  exact ⟨e, hl.path, hw.cost_le x e ⟨l, hl, hnd⟩⟩

/-- Something tentative is within the largest cost. -/
theorem Inv.exists_cheap (hw : WellFormed db me) (hs : Inv db me s)
    (hx : s.tentative.find x = some ep) :
    ∃ z eq, s.tentative.find z = some eq ∧ eq.cost ≤ lsMaxCost := by
  obtain ⟨hxm, hentry⟩ := hs.base.tentative x ep hx
  obtain ⟨h, hh⟩ := List.exists_mem_of_ne_nil _ hentry.nonempty
  obtain ⟨e, hp, he⟩ := hw.cheap (hentry.via h hh).path
  cases hP : s.paths.find x with
  | some eq =>
      have hle := (hs.base.final x eq hP hxm).1.2 e hp
      exact ⟨x, ep, hx, (hs.base.agree x eq ep hP hx).1 ▸ hle.trans he⟩
  | none =>
      rcases hs.base.frontier hs.relaxed hP hp with ⟨z, eq, hz, hle⟩ | hlt
      · exact ⟨z, eq, hz, hle.trans he⟩
      · omega

/-- What is popped is the end of a link, as its next hop is. -/
theorem Inv.pop_links (hs : Inv db me s) {sp : LsPath} {T' : LsPaths}
    (hpop : s.tentative.popShortestPath = some (sp, T')) :
    (∃ y a b, Path (UpLink db) me y a ∧ UpLink db y sp.destination b) ∧
      ∃ c, UpLink db me sp.nextHop c := by
  obtain ⟨rest, -, hne, hentry⟩ := hs.base.popped hpop
  obtain ⟨c, e, hfirst, -⟩ := hentry.via sp.nextHop List.mem_cons_self
  refine ⟨?_, c, hfirst⟩
  rcases (hs.base.pop_isDist hs.relaxed hpop).1.last with ⟨heq, -⟩ | ⟨y, a, b, hy, he, -⟩
  · exact absurd heq.symm hne
  · exact ⟨y, a, b, hy, he⟩

/-- The round does not stop at what is popped. -/
theorem Inv.pop_isValid (hw : WellFormed db me) (hs : Inv db me s) {sp : LsPath} {T' : LsPaths}
    (hpop : s.tentative.popShortestPath = some (sp, T')) : sp.IsValid := by
  obtain ⟨⟨y, a, b, hy, hlast⟩, c, hfirst⟩ := hs.pop_links hpop
  obtain ⟨-, -, hmax, -⟩ := popShortestPath_eq_some hpop
  refine ⟨fun he => hw.valid y a b hy (he ▸ hlast), fun he => ?_, fun he => ?_⟩
  · rw [he] at hmax
    exact absurd hmax (by decide)
  · have he' : sp.nextHop = lsInvalidNodeId := he
    exact hw.valid me 0 c (.nil me) (he' ▸ hfirst)

/-- The next hop that is popped is missing no more. -/
theorem Inv.pop_missing (hs : Inv db me s) {sp : LsPath} {T' : LsPaths}
    (hpop : s.tentative.popShortestPath = some (sp, T')) :
    missing db (s.paths.insertPath sp) ⊂ missing db s.paths := by
  obtain ⟨⟨y, a, b, -, hlast⟩, c, hfirst⟩ := hs.pop_links hpop
  have hfind := hs.base.pop_find hpop
  refine Finset.ssubset_iff_of_subset (fun a ha => ?_) |>.mpr
    ⟨(sp.destination, sp.nextHop), ?_, fun hm => ?_⟩
  · obtain ⟨hmem, hnot⟩ := Finset.mem_filter.mp ha
    refine Finset.mem_filter.mpr ⟨hmem, fun hin => hnot ?_⟩
    by_cases hd : a.1 = sp.destination
    · rw [hops, hd, hfind]
      exact List.mem_append_left _ (hd ▸ hin)
    · rw [hops, find_insertPath_of_ne hd]
      exact hin
  · exact Finset.mem_filter.mpr ⟨Finset.mem_product.mpr
      ⟨hlast.mem_neighborIds, hfirst.mem_neighborIds⟩, hs.base.pop_notMem hpop⟩
  · refine (Finset.mem_filter.mp hm).2 ?_
    rw [hops, hfind]
    exact List.mem_append_right _ (List.mem_singleton_self _)

/-- A round with a valid path leaves fewer next hops to be found. -/
theorem Inv.round_of_valid (hpos : ∀ u v c, UpLink db u v c → 0 < c) (hs : Inv db me s)
    {sp : LsPath} {T' : LsPaths} (hpop : s.tentative.popShortestPath = some (sp, T'))
    (hvalid : sp.IsValid) : ∃ s', LsTopoMap.round me db s = some s' ∧ Inv db me s' ∧
      missing db s'.paths ⊂ missing db s.paths := by
  have hb := hs.base
  rw [LsTopoMap.round, hpop]
  dsimp only
  rw [if_pos hvalid]
  have hfind := hb.pop_find hpop
  have hless := hs.pop_missing hpop
  have hb' := hb.pop hs.relaxed hpop
  have hr' : ∀ y, y ≠ sp.destination → Relaxed (UpLink db) me (s.paths.insertPath sp) T' y :=
    fun y hy => hb.pop_relaxed hs.relaxed hpop hy
  cases hdb : db.find sp.destination with
  | none =>
      -- a node that has sent no LSA has no links to relax
      refine ⟨_, rfl, ⟨hb', fun y => ?_⟩, hless⟩
      by_cases hy : y = sp.destination
      · rintro ep x c - ⟨lsl, hl, -⟩
        rw [hy, hdb] at hl
        cases hl
      · exact hr' y hy
  | some lsl =>
      obtain ⟨T'', hexp, hb'', hr''⟩ := hb'.expand hpos hfind
        (fun x ep hx => hb.pop_ge hpop hx) hr' fun v c => upLink_iff hdb
      exact ⟨_, hexp, ⟨hb'', hr''⟩, hless⟩

/-- A round goes well and leaves fewer next hops to be found. -/
theorem Inv.round (hw : WellFormed db me) (hs : Inv db me s)
    (hne : s.tentative.entries ≠ []) : ∃ s', LsTopoMap.round me db s = some s' ∧ Inv db me s' ∧
      missing db s'.paths ⊂ missing db s.paths := by
  obtain ⟨⟨x, ep⟩, hx⟩ := List.exists_mem_of_ne_nil _ hne
  obtain ⟨z, eq, hz, hle⟩ := hs.exists_cheap hw (OrdMap.find_eq_some_iff.mpr hx)
  cases hpop : s.tentative.popShortestPath with
  | none =>
      have hnil := (hs.base.tentative z eq hz).2.nonempty
      exact absurd (popShortestPath_eq_none hpop hz hnil) hle.not_gt
  | some a => exact hs.round_of_valid hw.pos hpop (hs.pop_isValid hw hpop)

/-- Enough rounds leave nothing tentative. -/
theorem Inv.rounds (hw : WellFormed db me) {n : ℕ} (hs : Inv db me s)
    (hn : (missing db s.paths).card < n) :
    ∃ s', (∀ m, n ≤ m → LsTopoMap.rounds me db m s = some s'.paths) ∧ Inv db me s' ∧
      s'.tentative.entries = [] := by
  induction n generalizing s with
  | zero => exact absurd hn (Nat.not_lt_zero _)
  | succ n ih =>
      by_cases hnil : s.tentative.entries = []
      · refine ⟨s, fun m hm => ?_, hs, hnil⟩
        obtain ⟨k, rfl⟩ := Nat.exists_eq_add_of_lt (Nat.lt_of_succ_le hm)
        rw [LsTopoMap.rounds, if_pos hnil]
      · obtain ⟨s₁, hround, hs₁, hless⟩ := hs.round hw hnil
        obtain ⟨s', hruns, hs', hnil'⟩ :=
          ih hs₁ ((Finset.card_lt_card hless).trans_le (Nat.le_of_lt_succ hn))
        refine ⟨s', fun m hm => ?_, hs', hnil'⟩
        obtain ⟨k, rfl⟩ := Nat.exists_eq_add_of_lt (Nat.lt_of_succ_le hm)
        rw [LsTopoMap.rounds, if_neg hnil, hround]
        exact hruns _ (Nat.le_add_right n k)

/-! ### What has been found -/

/-- A path set that is complete: what is reachable, at least cost, with all its first hops. -/
def Exact (db : LsTopoMap) (me : ℕ) (P : LsPaths) : Prop :=
  ∀ v, ((∃ ep, P.find v = some ep) ↔ ∃ d, Path (UpLink db) me v d) ∧
    ∀ ep, P.find v = some ep → IsDist (UpLink db) me v ep.cost ∧
      (v ≠ me → ep.nextHopList.Nodup ∧
        ∀ h, h ∈ ep.nextHopList ↔ FirstHop (UpLink db) me h v)

section Complete

variable (hw : WellFormed db me) (hs : Inv db me s) (hnil : s.tentative.entries = [])
include hw hs hnil

theorem Inv.reachable {d : ℕ} (hp : Path (UpLink db) me v d) :
    ∃ ep, s.paths.find v = some ep := by
  obtain ⟨e, hp', he⟩ := hw.cheap hp
  cases hP : s.paths.find v with
  | some ep => exact ⟨ep, rfl⟩
  | none =>
      rcases hs.base.frontier hs.relaxed hP hp' with ⟨z, ep, hz, -⟩ | hlt
      · rw [OrdMap.entries_eq_nil_iff.mp hnil z] at hz
        cases hz
      · omega

/-- An entry that is accounted for at the distance has the next hop. -/
theorem Inv.mem_of_accounted (hv : s.paths.find v = some ep) (hd : IsDist (UpLink db) me v c)
    (hvm : v ≠ me) (ha : Accounted s.paths s.tentative v h c) : h ∈ ep.nextHopList := by
  have hdist := (hs.base.final v ep hv hvm).1
  have hcost : ep.cost = c := hdist.unique hd
  rcases ha with ⟨eq, he, hc⟩ | ⟨eq, he, -⟩ | hc
  · rw [hv] at he
    cases he
    rcases hc with hc | ⟨-, hh⟩
    · exact absurd hcost hc.ne
    · exact hh
  · rw [OrdMap.entries_eq_nil_iff.mp hnil v] at he
    cases he
  · have := hw.cost_le v c (hd.simple hw.pos)
    omega

/-- The induction is on the cost of the path after the first hop, whose last link is taken off. -/
theorem Inv.mem_of_firstHop {b : ℕ} (hf : UpLink db me h c) (hp : Path (UpLink db) h v b)
    (hd : IsDist (UpLink db) me v (c + b)) (hv : s.paths.find v = some ep) (hvm : v ≠ me) :
    h ∈ ep.nextHopList := by
  induction b using Nat.strong_induction_on generalizing v ep with
  | _ b ih =>
      rcases hp.last with ⟨rfl, rfl⟩ | ⟨y, a, e, hpy, he, rfl⟩
      · refine hs.mem_of_accounted hw hnil hv hd hvm ?_
        refine hs.relaxed me _ h c hs.base.source hf h ?_
        rw [hopsOver, if_pos rfl]
        exact List.mem_singleton_self h
      · have hpos := hw.pos _ _ _ he
        rw [← Nat.add_assoc] at hd
        have hdy : IsDist (UpLink db) me y (c + a) := hd.init (.cons hf hpy) he
        have hym : y ≠ me := by
          rintro rfl
          have hself := hdy.unique (isDist_self hw.pos y)
          have := hw.pos _ _ _ hf
          omega
        obtain ⟨epy, hy⟩ := hs.reachable hw hnil hdy.1
        have hmem := ih a (by omega) hpy hdy hy hym
        refine hs.mem_of_accounted hw hnil hv hd hvm ?_
        have hcost : epy.cost = c + a := (hs.base.final y epy hy hym).1.unique hdy
        have ha := hs.relaxed y epy v e hy he h (by rw [hopsOver, if_neg hym]; exact hmem)
        rwa [hcost, Nat.add_comm e] at ha

theorem Inv.exact : Exact db me s.paths := by
  intro v
  refine ⟨⟨fun ⟨ep, hv⟩ => ?_, fun ⟨d, hp⟩ => hs.reachable hw hnil hp⟩, fun ep hv => ?_⟩
  · by_cases hvm : v = me
    · exact ⟨0, hvm ▸ .nil v⟩
    · exact ⟨ep.cost, (hs.base.final v ep hv hvm).1.1⟩
  · by_cases hvm : v = me
    · subst hvm
      rw [hs.base.source] at hv
      cases hv
      exact ⟨isDist_self hw.pos v, fun hne => absurd rfl hne⟩
    · obtain ⟨hdist, hentry⟩ := hs.base.final v ep hv hvm
      refine ⟨hdist, fun _ => ⟨hentry.nodup, fun h =>
        ⟨fun hh => (hentry.via h hh).firstHop hdist, fun hf => ?_⟩⟩⟩
      obtain ⟨c, d, he, hp, hd⟩ := hf
      exact hs.mem_of_firstHop hw hnil he hp hd hv hvm

end Complete

/-- The source is the only node with a path at the start. -/
theorem eq_of_find_start {me x : ℕ} {ep : LsEqualPaths}
    (hx : (OrdMap.empty.set me (⟨0, [me]⟩ : LsEqualPaths)).find x = some ep) :
    x = me ∧ ep = ⟨0, [me]⟩ := by
  rw [OrdMap.find_set] at hx
  split_ifs at hx with hxm
  · cases hx
    exact ⟨hxm, rfl⟩
  · cases hx

/-- Where the computation starts: at the end already, or with the links of the source. -/
theorem exists_start (me : ℕ) (hpos : ∀ u v c, UpLink db u v c → 0 < c) :
    ∃ s, Inv db me s ∧
      (s.paths = OrdMap.empty.set me ⟨0, [me]⟩ ∧ (s.tentative = .empty ∨
        ∃ lsl, expand me me lsl ⟨OrdMap.empty.set me ⟨0, [me]⟩, .empty⟩ = some s)) ∧
      (s.tentative.entries = [] ∧ (∀ m, computeRoutes me db m = some s.paths) ∨
        ∀ m, computeRoutes me db m = LsTopoMap.rounds me db m s) := by
  have hself : (OrdMap.empty.set me (⟨0, [me]⟩ : LsEqualPaths)).find me = some ⟨0, [me]⟩ := by
    rw [OrdMap.find_set, if_pos rfl]
  have honly : ∀ x ep, (OrdMap.empty.set me (⟨0, [me]⟩ : LsEqualPaths)).find x = some ep →
      x = me ∧ ep = ⟨0, [me]⟩ := fun _ _ => eq_of_find_start
  obtain ⟨P, hP⟩ : ∃ P, P = OrdMap.empty.set me (⟨0, [me]⟩ : LsEqualPaths) := ⟨_, rfl⟩
  rw [← hP] at hself honly ⊢
  have hb : Base (UpLink db) me P .empty := by
    refine ⟨hself, fun x ep hx hxm => absurd (honly x ep hx).1 hxm, fun x ep hx => ?_,
      fun z ep x eq _ hx => ?_, fun x ep eq _ hx => ?_⟩
    · cases hx
    · cases hx
    · cases hx
  have hr : ∀ y, y ≠ me → Relaxed (UpLink db) me P .empty y :=
    fun y hy ep x c hP => absurd (honly y ep hP).1 hy
  cases hdb : db.find me with
  | none =>
      have hno : ∀ y, Relaxed (UpLink db) me P .empty y := by
        rintro y ep x c hy ⟨lsl, hl, -⟩
        rw [(honly y ep hy).1, hdb] at hl
        cases hl
      exact ⟨⟨P, .empty⟩, ⟨hb, hno⟩, ⟨rfl, .inl rfl⟩,
        .inl ⟨rfl, fun m => by rw [computeRoutes, hdb, hP]⟩⟩
  | some lsl =>
      obtain ⟨T, hexp, hb', hr'⟩ := hb.expand hpos hself
        (fun x ep hx => by rw [(honly x ep hx).2]) hr fun v c => upLink_iff hdb
      refine ⟨⟨P, T⟩, ⟨hb', hr'⟩, ⟨rfl, .inr ⟨lsl, hexp⟩⟩, .inr fun m => ?_⟩
      rw [computeRoutes, hdb]
      dsimp only
      rw [← hP, hexp]
      rfl

/-- **The routes are exact.**  The computation ends, and finds what is reachable over links that are
up, at least cost and with all next hops of least cost. -/
theorem computes_routes (db : LsTopoMap) (me : ℕ) (hw : WellFormed db me) :
    ∃ n P, (∀ m, n ≤ m → computeRoutes me db m = some P) ∧ Exact db me P := by
  obtain ⟨s, hs, -, ⟨hnil, hm⟩ | hm⟩ := exists_start me hw.pos
  · exact ⟨0, s.paths, fun m _ => hm m, hs.exact hw hnil⟩
  · obtain ⟨s', hruns, hs', hnil⟩ := hs.rounds hw (Nat.lt_succ_self _)
    exact ⟨_, s'.paths, fun m hle => (hm m).trans (hruns m hle), hs'.exact hw hnil⟩

/-! ### Two databases -/

/-- A path costs what a rank rises, if every edge raises it by its cost. -/
theorem rank_of_path {E : ℕ → ℕ → ℕ → Prop} (rank : ℕ → ℕ) (hrank : ∀ u v c, E u v c →
    rank v = rank u + c) {u w : ℕ} (hp : Path E u w d) : rank w = rank u + d := by
  induction hp with
  | nil u => rfl
  | cons he _ ih => rw [ih, hrank _ _ _ he, Nat.add_assoc]

/-- Links from 0 to 1 and 2, and from both to 3, each of cost 1. -/
def diamond : LsTopoMap where
  entries := [(0, [⟨1, .up, 1, 1⟩, ⟨2, .up, 1, 1⟩]), (1, [⟨3, .up, 1, 1⟩]), (2, [⟨3, .up, 1, 1⟩])]
  sorted := by decide

theorem upLink_diamond {u v c : ℕ} (he : UpLink diamond u v c) :
    (u, v, c) ∈ [(0, 1, 1), (0, 2, 1), (1, 3, 1), (2, 3, 1)] := by
  obtain ⟨lsl, hu, l, hl, -, rfl, rfl⟩ := he
  have hmem := OrdMap.find_eq_some_iff.mp hu
  simp only [diamond, List.mem_cons, Prod.mk.injEq, List.not_mem_nil, or_false] at hmem
  rcases hmem with ⟨rfl, rfl⟩ | ⟨rfl, rfl⟩ | ⟨rfl, rfl⟩
  · simp only [List.mem_cons, List.not_mem_nil, or_false] at hl
    rcases hl with rfl | rfl <;> simp
  · obtain rfl := List.mem_singleton.mp hl
    simp
  · obtain rfl := List.mem_singleton.mp hl
    simp

theorem wellFormed_diamond : WellFormed diamond 0 where
  pos := fun u v c he => by
    have h := upLink_diamond he
    simp only [List.mem_cons, Prod.mk.injEq, List.not_mem_nil, or_false] at h
    omega
  cost_le := fun v d ⟨l, hl, _⟩ => by
    have h := rank_of_path (fun u => if u = 0 then 0 else if u = 3 then 2 else 1)
      (fun u v c he => by
        have h := upLink_diamond he
        simp only [List.mem_cons, Prod.mk.injEq, List.not_mem_nil, or_false] at h
        rcases h with ⟨rfl, rfl, rfl⟩ | ⟨rfl, rfl, rfl⟩ | ⟨rfl, rfl, rfl⟩ | ⟨rfl, rfl, rfl⟩ <;> rfl)
      hl.path
    rw [lsMaxCost]
    split_ifs at h <;> omega
  valid := fun u _ c _ he => by
    have h := upLink_diamond he
    simp [lsInvalidNodeId] at h

/-- Two equal paths to 3. -/
theorem computes_routes_diamond : WellFormed diamond 0 ∧
    ∃ n P, (∀ m, n ≤ m → computeRoutes 0 diamond m = some P) ∧ Exact diamond 0 P :=
  ⟨wellFormed_diamond, computes_routes diamond 0 wellFormed_diamond⟩

/-- One link that is up, from 0 to the invalid id. -/
def invalidNeighbor : LsTopoMap := ⟨[(0, [⟨lsInvalidNodeId, .up, 1, 1⟩])], by decide⟩

/-- Positive costs, no simple path that costs too much, and no routes. -/
theorem invalid_neighbor_aborts : (∀ u v c, UpLink invalidNeighbor u v c → 0 < c) ∧
    (∀ u v d, SimplePath (UpLink invalidNeighbor) u v d → d ≤ lsMaxCost) ∧
    ∀ n, computeRoutes 0 invalidNeighbor n = none := by
  have hlink : ∀ u v c, UpLink invalidNeighbor u v c → u = 0 ∧ v = lsInvalidNodeId ∧ c = 1 := by
    rintro u v c ⟨lsl, hu, l, hl, -, rfl, rfl⟩
    have hmem := OrdMap.find_eq_some_iff.mp hu
    simp only [invalidNeighbor, List.mem_singleton, Prod.mk.injEq] at hmem
    obtain ⟨rfl, rfl⟩ := hmem
    obtain rfl := List.mem_singleton.mp hl
    exact ⟨rfl, rfl, rfl⟩
  refine ⟨fun u v c he => (hlink u v c he).2.2 ▸ Nat.one_pos, fun u v d hp => ?_, fun n => ?_⟩
  · obtain ⟨l, hl, -⟩ := hp
    have h := rank_of_path (fun u => if u = 0 then 0 else 1)
      (fun u v c he => by
        obtain ⟨rfl, rfl, rfl⟩ := hlink u v c he
        rfl) hl.path
    rw [lsMaxCost]
    split_ifs at h <;> omega
  · induction n with
    | zero => rfl
    | succ n => rfl

end LsTopoMap

end Afabric
