import Afabric.Routing.RouteProto
import Mathlib.Algebra.Order.Ring.Int
import Mathlib.Data.List.Nodup

/-!
# Routing — the tables of a node

What one computation leaves in the table of each protocol and in that of `rtObject`, when every
link is up and costs one hop.  `DV` keeps, for each destination, next hops among the neighbours
that told it the least valid metric, all of them with `multiPath_` (`DV.Current`); `rtObject` has
the direct link where there is one and the route of `DV` elsewhere (`RtObject.chosen`).
-/

namespace Afabric

variable {V : Type*}

/-- Every link is up and costs one hop. -/
structure Topology.UnitUp (T : Topology V) : Prop where
  up : ∀ u v, v ∈ T.nbrs u → T.up u v = true
  cost : ∀ u v, v ∈ T.nbrs u → T.cost u v = 1

variable [DecidableEq V] {T : Topology V} {u : V}

/-! ### `Direct` -/

namespace Direct

/-- The route of `Direct` once it has computed its routes. -/
def entry (T : Topology V) (u d : V) : ProtoRoute V :=
  if d ∈ T.nbrs u then { nextHop := [d], rtpref := 100, metric := 1 }
  else { nextHop := [], rtpref := 255, metric := -1 }

theorem entry_of_ne_nil {d : V} (hne : (entry T u d).nextHop ≠ []) :
    d ∈ T.nbrs u ∧ entry T u d = { nextHop := [d], rtpref := 100, metric := 1 } := by
  rw [entry] at hne ⊢
  split_ifs at hne ⊢ with hd
  · exact ⟨hd, rfl⟩
  · exact absurd rfl hne

/-- The route of `Direct` once it has seen the state of the links. -/
def entryFor (T : Topology V) (u : V) (ifstat : V → Bool) (d : V) : ProtoRoute V :=
  if d ∈ T.nbrs u then
    if ifstat d = true then { nextHop := [d], rtpref := 100, metric := T.cost u d }
    else { nextHop := [], rtpref := 100, metric := -1 }
  else { nextHop := [], rtpref := 255, metric := -1 }

variable {ifstat : V → Bool} {d : V}

theorem entryFor_of_up (hd : d ∈ T.nbrs u) (hup : ifstat d = true) :
    entryFor T u ifstat d = { nextHop := [d], rtpref := 100, metric := T.cost u d } := by
  rw [entryFor, if_pos hd, if_pos hup]

theorem entryFor_of_ne_nil (hne : (entryFor T u ifstat d).nextHop ≠ []) :
    d ∈ T.nbrs u ∧ ifstat d = true := by
  rw [entryFor] at hne
  split_ifs at hne with hd hup
  · exact ⟨hd, hup⟩
  · exact absurd rfl hne
  · exact absurd rfl hne

theorem entryFor_eq_entry (hT : T.UnitUp) (u d : V) :
    entryFor T u (T.up u) d = entry T u d := by
  rw [entry]
  by_cases hd : d ∈ T.nbrs u
  · rw [entryFor_of_up hd (hT.up u d hd), if_pos hd, hT.cost u d hd]
  · rw [entryFor, if_neg hd, if_neg hd]

theorem init_eq (T : Topology V) (u : V) : init T u = entryFor T u fun _ => false := by
  funext d
  rw [init, entryFor]
  split_ifs with hd hup
  · cases hup
  · rfl
  · rfl

/-- Whatever `Direct` had seen of the links, its routes are those of the links as they are. -/
theorem computeRoutes_entryFor (T : Topology V) (u : V) (ifstat : V → Bool) :
    (computeRoutes T u (entryFor T u ifstat)).1 = entryFor T u (T.up u) := by
  funext d
  by_cases hd : d ∈ T.nbrs u
  · obtain ⟨c, hc⟩ := sweep_of_mem (route T u) (T.nbrs_nodup u) hd (entryFor T u ifstat, 0)
    rw [computeRoutes, hc]
    simp only [route, entryFor, if_pos hd]
    cases ifstat d <;> cases T.up u d <;> simp
  · rw [computeRoutes, sweep_of_notMem hd]
    simp only [entryFor, if_neg hd]

omit [DecidableEq V] in
theorem route_counted (T : Topology V) (u nbr : V) (r : ProtoRoute V) (c : ℕ) :
    c < (route T u nbr r c).2 ∨ ((route T u nbr r c).1 = r ∧ (route T u nbr r c).2 = c) := by
  rw [route]
  split_ifs
  · exact .inl (Nat.lt_succ_self c)
  · exact .inl (Nat.lt_succ_self c)
  · exact .inr ⟨rfl, rfl⟩

/-- With `rtsChanged_` at 0 the routes are as before. -/
theorem computeRoutes_unchanged {t : V → ProtoRoute V} (h : (computeRoutes T u t).2 = 0) :
    (computeRoutes T u t).1 = t := by
  rcases sweep_unchanged (fun c => c) (T.nbrs_nodup u) (t, 0)
    (fun k _ s => route_counted T u k (t k) s) with hlt | ⟨he, -⟩
  · exact absurd h hlt.ne'
  · exact he

end Direct

/-! ### `DV` -/

namespace DV

variable {infinity : ℤ} {peers : V → Peer V} {dst : V} {r : ProtoRoute V}

/-- A metric that is neither negative nor infinite. -/
def Valid (infinity m : ℤ) : Prop := 0 ≤ m ∧ m < infinity

/-- What `pf`, `mt` and `nh` are once the peers of `ps` are considered. -/
inductive Scanned (infinity : ℤ) (met : V → ℤ) (ps : List V) (s : Scan V) : Prop
  | nothing (hpf : s.pf = maxpref) (hmt : s.mt = infinity)
      (hnone : ∀ v ∈ ps, ¬ Valid infinity (met v))
  | some (hpf : s.pf = Proto.dv.preference) (hmt : Valid infinity s.mt) (hne : s.nh ≠ [])
      (hnd : s.nh.Nodup) (hmin : ∀ v ∈ ps, Valid infinity (met v) → s.mt ≤ met v)
      (hmem : ∀ v, v ∈ s.nh ↔ v ∈ ps ∧ met v = s.mt)

/-- The three things a neighbour can do: it is passed over, it is the new best, or it is as good as
the best. -/
theorem consider_cases (infinity : ℤ) {s : Scan V} {nbr : V}
    (hpref : (peers nbr).rtpref dst = Proto.dv.preference)
    (hpf : s.pf = maxpref ∨ s.pf = Proto.dv.preference) :
    ((Valid infinity ((peers nbr).metric dst) → s.mt < (peers nbr).metric dst) ∧
        consider infinity peers dst s nbr = s) ∨
    (Valid infinity ((peers nbr).metric dst) ∧
        (s.pf = maxpref ∨ (peers nbr).metric dst < s.mt) ∧
        consider infinity peers dst s nbr =
          { pf := Proto.dv.preference, mt := (peers nbr).metric dst, nh := [nbr] }) ∨
    (Valid infinity ((peers nbr).metric dst) ∧ s.pf = Proto.dv.preference ∧
        (peers nbr).metric dst = s.mt ∧
        consider infinity peers dst s nbr =
          { s with nh := if nbr ∈ s.nh then s.nh else s.nh ++ [nbr] }) := by
  have hle : ¬ (peers nbr).rtpref dst > s.pf := by
    rw [hpref]
    cases hpf with
    | inl h => rw [h]; decide
    | inr h => rw [h]; decide
  rw [consider]
  dsimp only
  by_cases hval : Valid infinity ((peers nbr).metric dst)
  · obtain ⟨h₀, hlt⟩ := hval
    by_cases hmt : (peers nbr).metric dst > s.mt
    · exact .inl ⟨fun _ => hmt, if_pos (.inr (.inr (.inr hmt)))⟩
    · rw [if_neg (by omega)]
      by_cases hnew : (peers nbr).rtpref dst < s.pf ∨ (peers nbr).metric dst < s.mt
      · refine .inr (.inl ⟨⟨h₀, hlt⟩, ?_, by rw [if_pos hnew, hpref]; simp⟩)
        refine hnew.imp_left fun h => hpf.resolve_right fun he => ?_
        rw [hpref, he] at h
        exact lt_irrefl _ h
      · rw [not_or] at hnew
        have hpf' : s.pf = Proto.dv.preference := by
          refine hpf.resolve_left fun he => hnew.1 ?_
          rw [hpref, he]
          decide
        exact .inr (.inr ⟨⟨h₀, hlt⟩, hpf', by omega, by rw [if_neg (by tauto)]⟩)
  · refine .inl ⟨fun h => absurd h hval, if_pos ?_⟩
    by_contra hno
    exact hval ⟨by omega, by omega⟩

omit [DecidableEq V] in
/-- A neighbour whose metric is no valid one, or worse than the best. -/
theorem Scanned.pass {m : V → Int} {ps : List V} {s : Scan V} {nbr : V} (h : Scanned infinity m ps s)
    (hpass : Valid infinity (m nbr) → s.mt < m nbr) : Scanned infinity m (ps ++ [nbr]) s := by
  cases h with
  | nothing hpf hmt hnone =>
      refine .nothing hpf hmt fun v hv hvv => ?_
      rcases List.mem_append.mp hv with h | h
      · exact hnone v h hvv
      · rw [List.mem_singleton.mp h] at hvv
        have := hpass hvv
        exact absurd hvv.2 (by omega)
  | some hpf hmt hne hnd hmin hmem =>
      refine .some hpf hmt hne hnd (fun v hv hvv => ?_) fun v => ?_
      · rcases List.mem_append.mp hv with h | h
        · exact hmin v h hvv
        · rw [List.mem_singleton.mp h] at hvv ⊢
          exact (hpass hvv).le
      · rw [hmem, List.mem_append, List.mem_singleton]
        refine ⟨fun h => ⟨.inl h.1, h.2⟩, fun h => ⟨h.1.resolve_right ?_, h.2⟩⟩
        rintro rfl
        have := hpass (by rw [h.2]; exact hmt)
        omega

omit [DecidableEq V] in
/-- A neighbour that is better than all the ones before. -/
theorem Scanned.better {m : V → Int} {ps : List V} {s : Scan V} {nbr : V}
    (h : Scanned infinity m ps s) (hval : Valid infinity (m nbr))
    (hbetter : s.pf = maxpref ∨ m nbr < s.mt) :
    Scanned infinity m (ps ++ [nbr]) ⟨Proto.dv.preference, m nbr, [nbr]⟩ := by
  have hless : ∀ v ∈ ps, Valid infinity (m v) → m nbr < m v := by
    intro v hv hvv
    cases h with
    | nothing hpf hmt hnone => exact absurd hvv (hnone v hv)
    | some hpf hmt hne hnd hmin hmem =>
        refine lt_of_lt_of_le (hbetter.resolve_left ?_) (hmin v hv hvv)
        rw [hpf]
        decide
  refine .some rfl hval (List.cons_ne_nil _ _) (List.nodup_singleton _) (fun v hv hvv => ?_)
    fun v => ?_
  · rcases List.mem_append.mp hv with h | h
    · exact (hless v h hvv).le
    · rw [List.mem_singleton.mp h]
  · rw [List.mem_append, List.mem_singleton]
    refine ⟨fun h => ⟨.inr h, by rw [h]⟩, fun h => h.1.resolve_left fun hv => ?_⟩
    have := hless v hv (by rw [h.2]; exact hval)
    exact absurd h.2 this.ne'

/-- A neighbour that is as good as the best. -/
theorem Scanned.tie {m : V → Int} {ps : List V} {s : Scan V} {nbr : V} (h : Scanned infinity m ps s)
    (hnew : nbr ∉ ps) (hdv : s.pf = Proto.dv.preference) (heq : m nbr = s.mt) :
    Scanned infinity m (ps ++ [nbr]) { s with nh := if nbr ∈ s.nh then s.nh else s.nh ++ [nbr] } := by
  cases h with
  | nothing hpf => rw [hpf] at hdv; exact absurd hdv (by decide)
  | some hpf hmt hne hnd hmin hmem =>
      have hn : nbr ∉ s.nh := fun h => hnew ((hmem nbr).mp h).1
      rw [if_neg hn]
      refine .some hpf hmt (by simp) ?_ (fun v hv hvv => ?_) fun v => ?_
      · exact List.nodup_append'.mpr ⟨hnd, List.nodup_singleton _, by simpa using hn⟩
      · rcases List.mem_append.mp hv with h | h
        · exact hmin v h hvv
        · rw [List.mem_singleton.mp h, heq]
      · rw [List.mem_append, List.mem_append, List.mem_singleton, hmem]
        constructor
        · rintro (h | rfl)
          · exact ⟨.inl h.1, h.2⟩
          · exact ⟨.inr rfl, heq⟩
        · rintro ⟨h | h, hv⟩
          · exact .inl ⟨h, hv⟩
          · exact .inr h

theorem consider_scanned {ps : List V} {s : Scan V} {nbr : V}
    (hpref : (peers nbr).rtpref dst = Proto.dv.preference) (hnew : nbr ∉ ps)
    (h : Scanned infinity (fun v => (peers v).metric dst) ps s) :
    Scanned infinity (fun v => (peers v).metric dst) (ps ++ [nbr])
      (consider infinity peers dst s nbr) := by
  have hpf : s.pf = maxpref ∨ s.pf = Proto.dv.preference := by
    cases h with
    | nothing hpf => exact .inl hpf
    | some hpf => exact .inr hpf
  rcases consider_cases infinity hpref hpf with
    ⟨hpass, he⟩ | ⟨hval, hbetter, he⟩ | ⟨hval, hdv, heq, he⟩
  · rw [he]
    exact h.pass hpass
  · rw [he]
    exact h.better hval hbetter
  · rw [he]
    exact h.tie hnew hdv heq

theorem foldl_consider_scanned (hpref : ∀ v, (peers v).rtpref dst = Proto.dv.preference)
    (ps : List V) {qs : List V} {s : Scan V} (hnd : (ps ++ qs).Nodup)
    (h : Scanned infinity (fun v => (peers v).metric dst) ps s) :
    Scanned infinity (fun v => (peers v).metric dst) (ps ++ qs)
      (qs.foldl (consider infinity peers dst) s) := by
  induction qs generalizing ps s with
  | nil => rwa [List.append_nil]
  | cons q qs ih =>
      rw [List.append_cons] at hnd ⊢
      have hq : q ∉ ps := by
        intro hq
        have hdis := List.disjoint_of_nodup_append (List.nodup_append'.mp hnd).1
        exact hdis hq (List.mem_singleton_self q)
      exact ih _ hnd (consider_scanned (hpref q) hq h)

/-- What the loop over the peers computes, whatever was left in `nh`. -/
theorem scan_scanned (hpref : ∀ v, (peers v).rtpref dst = Proto.dv.preference) {nbrs : List V}
    (hnd : nbrs.Nodup) (nh : List V) :
    Scanned infinity (fun v => (peers v).metric dst) nbrs (scan infinity peers dst nbrs nh) :=
  foldl_consider_scanned hpref [] hnd
    (.nothing rfl rfl fun _ hv => absurd hv List.not_mem_nil)

/-! #### The next hops -/

theorem mem_keep {l nh : List V} (hnd : nh.Nodup) (x : V) :
    (x ∈ (keep l nh).1 ↔ x ∈ l ∧ x ∈ nh) ∧ (x ∈ (keep l nh).2 ↔ x ∈ nh ∧ x ∉ l) := by
  induction l generalizing nh with
  | nil => simp [keep]
  | cons a l ih =>
      rw [keep]
      split_ifs with ha
      · have ih' := ih (hnd.erase a)
        rw [hnd.mem_erase_iff] at ih'
        constructor
        · rw [List.mem_cons, ih'.1, List.mem_cons]
          by_cases hx : x = a
          · simp [hx, ha]
          · tauto
        · rw [ih'.2, List.mem_cons]
          tauto
      · have ih' := ih hnd
        rw [ih'.1, ih'.2, List.mem_cons]
        by_cases hx : x = a
        · simp [hx, ha]
        · tauto

theorem nodup_keep {l nh : List V} (hnd : nh.Nodup) :
    (keep l nh).1.Nodup ∧ (keep l nh).2.Nodup := by
  induction l generalizing nh with
  | nil => exact ⟨List.nodup_nil, hnd⟩
  | cons a l ih =>
      rw [keep]
      split_ifs with ha
      · obtain ⟨h₁, h₂⟩ := ih (hnd.erase a)
        refine ⟨List.nodup_cons.mpr ⟨fun h => ?_, h₁⟩, h₂⟩
        exact hnd.not_mem_erase (((mem_keep (hnd.erase a) a).1.mp h).2)
      · exact ih hnd

omit [DecidableEq V] in
/-- The next hops that are set from `array names nh`. -/
theorem taken_names {names : List V} {b : Bool} {nh : List V} (hperm : names.Perm nh)
    (hnd : nh.Nodup) :
    (taken b names).Nodup ∧ taken b names ⊆ nh ∧ (nh ≠ [] → taken b names ≠ []) ∧
      (b = true → nh ⊆ taken b names) := by
  have hnd' : names.Nodup := hperm.nodup_iff.mpr hnd
  have hne : nh ≠ [] → names ≠ [] := by
    rintro h rfl
    exact h hperm.nil_eq.symm
  cases b with
  | true => exact ⟨hnd', hperm.subset, hne, fun _ => hperm.symm.subset⟩
  | false =>
      refine ⟨hnd'.sublist (List.take_sublist _ _),
        List.Subset.trans (List.take_subset _ _) hperm.subset, fun h => ?_, fun h => ?_⟩
      · cases names with
        | nil => exact absurd rfl (hne h)
        | cons x l => exact List.cons_ne_nil _ _
      · cases h

/-! #### A route -/

/-- What the routes of `DV` keep whatever the peers tell. -/
structure Stored (nbrs : List V) (r : ProtoRoute V) : Prop where
  rtpref : r.rtpref = Proto.dv.preference
  nodup : r.nextHop.Nodup
  nbrs : ∀ v ∈ r.nextHop, v ∈ nbrs
  unreach : r.nextHop = [] → r.metric = unreach

/-- A route computed from what the peers told last. -/
structure Current (T : Topology V) (u : V) (peers : V → Peer V) (dst : V) (r : ProtoRoute V) :
    Prop extends Stored (T.nbrs u) r where
  told : r.nextHop ≠ [] → ∃ v ∈ r.nextHop, (peers v).metric dst = r.metric
  reached : ∀ v ∈ T.nbrs u, Valid T.infinity ((peers v).metric dst) → r.nextHop ≠ []
  least : ∀ v ∈ T.nbrs u, Valid T.infinity ((peers v).metric dst) →
    r.metric ≤ (peers v).metric dst
  equal : ∀ v ∈ T.nbrs u, Valid T.infinity ((peers v).metric dst) →
    ∀ w ∈ r.nextHop, (peers w).metric dst = r.metric
  all : T.multiPath u = true → ∀ v ∈ T.nbrs u, Valid T.infinity ((peers v).metric dst) →
    (peers v).metric dst = r.metric → v ∈ r.nextHop

omit [DecidableEq V] in
theorem heard_eq (hpref : ∀ v, (peers v).rtpref dst = Proto.dv.preference) {nbrs : List V}
    (h : Stored nbrs r) :
    Stored nbrs (heard peers dst r) ∧ (heard peers dst r).nextHop = r.nextHop ∧
      (r.nextHop ≠ [] → ∃ v ∈ r.nextHop, (peers v).metric dst = (heard peers dst r).metric) := by
  rw [heard]
  split
  next hnil => exact ⟨h, rfl, fun hne => absurd hnil hne⟩
  next p l hcons =>
      refine ⟨⟨hpref p, h.nodup, h.nbrs, fun hnil => ?_⟩, rfl, fun _ => ⟨p, ?_, rfl⟩⟩
      · exact absurd (hcons.symm.trans hnil) (List.cons_ne_nil _ _)
      · rw [hcons]
        exact List.mem_cons_self

omit [DecidableEq V] in
/-- Next hops taken from those of the least metric, all of them with `multiPath_`. -/
theorem current_of_scanned {s : Scan V} (hpf : s.pf = Proto.dv.preference)
    (hmin : ∀ v ∈ T.nbrs u, Valid T.infinity ((peers v).metric dst) → s.mt ≤ (peers v).metric dst)
    (hmem : ∀ v, v ∈ s.nh ↔ v ∈ T.nbrs u ∧ (peers v).metric dst = s.mt) {l : List V}
    (hne : l ≠ []) (hnd : l.Nodup) (hsub : l ⊆ s.nh)
    (hall : T.multiPath u = true → s.nh ⊆ l) :
    Current T u peers dst { nextHop := l, rtpref := s.pf, metric := s.mt } where
  rtpref := hpf
  nodup := hnd
  nbrs := fun v hv => ((hmem v).mp (hsub hv)).1
  unreach := fun hnil => absurd hnil hne
  told := fun _ => by
    obtain ⟨v, hv⟩ := List.exists_mem_of_ne_nil l hne
    exact ⟨v, hv, ((hmem v).mp (hsub hv)).2⟩
  reached := fun _ _ _ => hne
  least := hmin
  equal := fun _ _ _ w hw => ((hmem w).mp (hsub hw)).2
  all := fun hm v hv _ he => hall hm ((hmem v).mpr ⟨hv, he⟩)

section Merged

variable {l nh added : List V} {k : List V × List V} {b : Bool}

omit [DecidableEq V] in
theorem merged_ne_nil (hne : nh ≠ [])
    (hk : ∀ x, (x ∈ k.1 ↔ x ∈ l ∧ x ∈ nh) ∧ (x ∈ k.2 ↔ x ∈ nh ∧ x ∉ l))
    (hadd : k.2 ≠ [] → added ≠ []) :
    (k.1 ++ if b = true ∨ k.1 = [] then added else []) ≠ [] := by
  by_cases hk₁ : k.1 = []
  · obtain ⟨x, hx⟩ := List.exists_mem_of_ne_nil nh hne
    have hxl : x ∉ l := by
      intro hxl
      have hx₁ := (hk x).1.mpr ⟨hxl, hx⟩
      rw [hk₁] at hx₁
      cases hx₁
    rw [if_pos (.inr hk₁), hk₁, List.nil_append]
    exact hadd (List.ne_nil_of_mem ((hk x).2.mpr ⟨hx, hxl⟩))
  · exact List.append_ne_nil_of_left_ne_nil hk₁ _

omit [DecidableEq V] in
theorem merged_nodup (hnd : k.1.Nodup)
    (hk : ∀ x, (x ∈ k.1 ↔ x ∈ l ∧ x ∈ nh) ∧ (x ∈ k.2 ↔ x ∈ nh ∧ x ∉ l)) (hadd : added.Nodup)
    (hsub : added ⊆ k.2) : (k.1 ++ if b = true ∨ k.1 = [] then added else []).Nodup := by
  split_ifs with h
  · refine List.nodup_append'.mpr ⟨hnd, hadd, fun x hx₁ hx₂ => ?_⟩
    exact ((hk x).2.mp (hsub hx₂)).2 ((hk x).1.mp hx₁).1
  · rwa [List.append_nil]

omit [DecidableEq V] in
theorem merged_subset (hk : ∀ x, (x ∈ k.1 ↔ x ∈ l ∧ x ∈ nh) ∧ (x ∈ k.2 ↔ x ∈ nh ∧ x ∉ l))
    (hsub : added ⊆ k.2) : (k.1 ++ if b = true ∨ k.1 = [] then added else []) ⊆ nh := by
  intro x hx
  rcases List.mem_append.mp hx with h | h
  · exact ((hk x).1.mp h).2
  · split_ifs at h with hb
    · exact ((hk x).2.mp (hsub h)).1
    · cases h

omit [DecidableEq V] in
theorem merged_all (hk : ∀ x, (x ∈ k.1 ↔ x ∈ l ∧ x ∈ nh) ∧ (x ∈ k.2 ↔ x ∈ nh ∧ x ∉ l))
    (hall : b = true → k.2 ⊆ added) (hb : b = true) :
    nh ⊆ k.1 ++ if b = true ∨ k.1 = [] then added else [] := by
  intro x hx
  rw [if_pos (.inl hb), List.mem_append]
  by_cases hxl : x ∈ l
  · exact .inl ((hk x).1.mpr ⟨hxl, hx⟩)
  · exact .inr (hall hb ((hk x).2.mpr ⟨hx, hxl⟩))

end Merged

/-- The two things that can happen to a destination: no peer has a valid metric, and its next hops
stay as they are; or it gets next hops of the least metric. -/
theorem route_cases {names : V → List V → List V} (hperm : ∀ dst l, (names dst l).Perm l)
    (hpref : ∀ v, (peers v).rtpref dst = Proto.dv.preference) (h : Stored (T.nbrs u) r)
    (st : List V × ℕ) :
    ((∀ v ∈ T.nbrs u, ¬ Valid T.infinity ((peers v).metric dst)) ∧
        (route T u names peers dst r st).1 = heard peers dst r ∧
        (route T u names peers dst r st).2.2 = st.2) ∨
    ∃ (s : Scan V) (l : List V), s.pf = Proto.dv.preference ∧ Valid T.infinity s.mt ∧
      (∀ v ∈ T.nbrs u, Valid T.infinity ((peers v).metric dst) → s.mt ≤ (peers v).metric dst) ∧
      (∀ v, v ∈ s.nh ↔ v ∈ T.nbrs u ∧ (peers v).metric dst = s.mt) ∧
      (l ≠ [] ∧ l.Nodup ∧ l ⊆ s.nh ∧ (T.multiPath u = true → s.nh ⊆ l)) ∧
      (route T u names peers dst r st).1 = { nextHop := l, rtpref := s.pf, metric := s.mt } ∧
      (route T u names peers dst r st).2.2 = st.2 + 1 := by
  obtain ⟨hst, hnh, htold⟩ := heard_eq hpref h
  have hscan : Scanned T.infinity (fun v => (peers v).metric dst) (T.nbrs u)
      (scan T.infinity peers dst (T.nbrs u) st.1) := scan_scanned hpref (T.nbrs_nodup u) st.1
  rw [route]
  dsimp only
  generalize scan T.infinity peers dst (T.nbrs u) st.1 = s at hscan ⊢
  generalize heard peers dst r = r' at hst hnh htold ⊢
  cases hscan with
  | nothing hpf hmt hnone =>
      rw [if_pos ⟨hpf, hmt⟩]
      exact .inl ⟨hnone, rfl, rfl⟩
  | some hpf hmt hne hnd hmin hmem =>
      have hworse : ¬ (s.pf > r'.rtpref ∨ (r'.metric ≥ 0 ∧ s.mt > r'.metric)) := by
        rw [hpf, hst.rtpref]
        rintro (hlt | ⟨h₀, hlt⟩)
        · exact lt_irrefl _ hlt
        · -- the first next hop is a neighbour, so its metric is invalid or not below the least
          have hr : r.nextHop ≠ [] := by
            intro hnil
            rw [hst.unreach (hnh.trans hnil)] at h₀
            exact absurd h₀ (by decide)
          obtain ⟨v, hv, hvm⟩ := htold hr
          have hval : Valid T.infinity ((peers v).metric dst) :=
            ⟨hvm ▸ h₀, hvm ▸ lt_trans hlt hmt.2⟩
          have hle := hmin v (h.nbrs v hv) hval
          omega
      rw [if_neg (by rw [hpf]; rintro ⟨h, -⟩; exact absurd h (by decide)), if_neg hworse,
        if_neg (not_le.mpr hmt.2)]
      split
      · obtain ⟨htnd, hsub, htne, hall⟩ := taken_names (b := T.multiPath u) (hperm dst s.nh) hnd
        exact .inr ⟨s, _, hpf, hmt, hmin, hmem, ⟨htne hne, htnd, hsub, hall⟩, rfl, rfl⟩
      · have hk := mem_keep (l := r'.nextHop) hnd
        have hknd := nodup_keep (l := r'.nextHop) hnd
        generalize keep r'.nextHop s.nh = k at hk hknd ⊢
        obtain ⟨htnd, hsub, htne, hall⟩ := taken_names (b := T.multiPath u) (hperm dst k.2) hknd.2
        exact .inr ⟨s, _, hpf, hmt, hmin, hmem, ⟨merged_ne_nil hne hk htne,
          merged_nodup hknd.1 hk htnd hsub, merged_subset hk hsub, merged_all hk hall⟩, rfl, rfl⟩

/-- **A destination of `compute-routes`.** -/
theorem route_current {names : V → List V → List V} (hperm : ∀ dst l, (names dst l).Perm l)
    (hpref : ∀ v, (peers v).rtpref dst = Proto.dv.preference) (h : Stored (T.nbrs u) r)
    (st : List V × ℕ) : Current T u peers dst (route T u names peers dst r st).1 := by
  rcases route_cases hperm hpref h st with
    ⟨hnone, he, -⟩ | ⟨s, l, hpf, -, hmin, hmem, ⟨hne, hnd, hsub, hall⟩, he, -⟩
  · obtain ⟨hst, hnh, htold⟩ := heard_eq hpref h
    rw [he]
    exact { hst with
      told := fun hne => by
        rw [hnh] at hne ⊢
        exact htold hne
      reached := fun v hv hval => absurd hval (hnone v hv)
      least := fun v hv hval => absurd hval (hnone v hv)
      equal := fun v hv hval => absurd hval (hnone v hv)
      all := fun _ v hv hval => absurd hval (hnone v hv) }
  · rw [he]
    exact current_of_scanned hpf hmin hmem hne hnd hsub hall

/-- Every destination is computed from what the peers told. -/
theorem computeRoutes_current {names : V → List V → List V}
    (hperm : ∀ dst l, (names dst l).Perm l)
    (hpref : ∀ v dst, (peers v).rtpref dst = Proto.dv.preference) {t : V → ProtoRoute V}
    (h : ∀ dst, Stored (T.nbrs u) (t dst)) (dst : V) :
    Current T u peers dst ((computeRoutes T u names peers t).1 dst) := by
  obtain ⟨st, hst⟩ := sweep_of_mem (route T u names peers) T.nodes_nodup (T.mem_nodes dst)
    (t, [], 0)
  rw [computeRoutes]
  dsimp only
  rw [hst]
  exact route_current hperm (fun v => hpref v dst) (h dst) st

omit [DecidableEq V] in
/-- No peer has told anything yet. -/
theorem init_current : Current T u
    (fun _ => Peer.init T.infinity) dst (init dst) where
  rtpref := rfl
  nodup := List.nodup_nil
  nbrs := fun _ hv => absurd hv List.not_mem_nil
  unreach := fun _ => rfl
  told := fun hne => absurd rfl hne
  reached := fun _ _ hval => absurd hval.2 (lt_irrefl _)
  least := fun _ _ hval => absurd hval.2 (lt_irrefl _)
  equal := fun _ _ hval => absurd hval.2 (lt_irrefl _)
  all := fun _ _ _ hval => absurd hval.2 (lt_irrefl _)

end DV

/-! ### `rtObject` -/

namespace RtObject

variable {protos : List Proto} {tab tab₀ : Proto → V → ProtoRoute V} {dst : V}

/-- An entry with no route. -/
def none : RtEntry V :=
  { nextHop := [], rtpref := maxpref, metric := unreach, rtVia := .unset }

/-- The route of a protocol as an entry. -/
def via (tab : Proto → V → ProtoRoute V) (dst : V) (p : Proto) : RtEntry V :=
  { nextHop := (tab p dst).nextHop, rtpref := (tab p dst).rtpref, metric := (tab p dst).metric,
    rtVia := .proto p }

omit [DecidableEq V] in
@[simp] theorem none_nextHop : (none : RtEntry V).nextHop = [] := rfl

omit [DecidableEq V] in
@[simp] theorem none_rtVia : (none : RtEntry V).rtVia = .unset := rfl

omit [DecidableEq V] in
@[simp] theorem via_nextHop (p : Proto) : (via tab dst p).nextHop = (tab p dst).nextHop := rfl

omit [DecidableEq V] in
@[simp] theorem via_rtVia (p : Proto) : (via tab dst p).rtVia = .proto p := rfl

/-- The direct link where there is one, else the route of `DV`, else none. -/
def chosen (tab : Proto → V → ProtoRoute V) (dst : V) : RtEntry V :=
  if (tab .direct dst).nextHop ≠ [] then via tab dst .direct
  else if (tab .dv dst).nextHop ≠ [] then via tab dst .dv
  else none

/-- The protocols keep to their preferences. -/
structure Ranked (tab : Proto → V → ProtoRoute V) (dst : V) : Prop where
  direct : (tab .direct dst).nextHop ≠ [] →
    (tab .direct dst).rtpref = Proto.direct.preference ∧ 0 ≤ (tab .direct dst).metric
  dv : (tab .dv dst).rtpref = Proto.dv.preference

omit [DecidableEq V] in
theorem protos_cases (hprotos : protos.Perm [.direct, .dv]) :
    protos = [.direct, .dv] ∨ protos = [.dv, .direct] := by
  obtain ⟨a, b, rfl⟩ := List.length_eq_two.mp hprotos.length_eq
  revert hprotos
  cases a <;> cases b <;> decide

omit [DecidableEq V] in
/-- The choice does not depend on the order of the protocols. -/
theorem best_eq_chosen (hprotos : protos.Perm [.direct, .dv]) (h : Ranked tab dst) :
    best protos tab dst = chosen tab dst := by
  have hdv := h.dv
  have hlt : Proto.dv.preference < maxpref := by decide
  rw [chosen]
  by_cases hd : (tab .direct dst).nextHop = []
  · rw [if_neg (not_not.mpr hd)]
    cases protos_cases hprotos with
    | inl he => simp [he, best, hd, hdv, hlt, via, none]
    | inr he => simp [he, best, hd, hdv, hlt, via, none]
  · obtain ⟨hpref, hmet⟩ := h.direct hd
    have hlt' : Proto.direct.preference < maxpref := by decide
    have hord : Proto.direct.preference < Proto.dv.preference := by decide
    have hmet' : ¬ (tab .direct dst).metric < 0 := not_lt.mpr hmet
    rw [if_pos hd]
    cases protos_cases hprotos with
    | inl he => simp [he, best, hd, hdv, hpref, hlt', hord.not_gt, hord.ne', hmet', via]
    | inr he =>
      by_cases hv : (tab .dv dst).nextHop = []
      · simp [he, best, hd, hv, hpref, hlt', via]
      · simp [he, best, hd, hv, hdv, hpref, hlt, hord, via]

omit [DecidableEq V] in
theorem chosen_of_direct (h : (tab .direct dst).nextHop ≠ []) :
    chosen tab dst = via tab dst .direct := if_pos h

omit [DecidableEq V] in
theorem chosen_of_dv (hd : (tab .direct dst).nextHop = []) (h : (tab .dv dst).nextHop ≠ []) :
    chosen tab dst = via tab dst .dv := by
  rw [chosen, if_neg (not_not.mpr hd), if_pos h]

omit [DecidableEq V] in
theorem chosen_of_none (hd : (tab .direct dst).nextHop = []) (h : (tab .dv dst).nextHop = []) :
    chosen tab dst = none := by
  rw [chosen, if_neg (not_not.mpr hd), if_neg (not_not.mpr h)]

omit [DecidableEq V] in
theorem eq_none_of_nil (h : (chosen tab dst).nextHop = []) : chosen tab dst = none := by
  rw [chosen] at h ⊢
  split_ifs at h ⊢ with hd hdv
  · exact absurd h hd
  · exact absurd h hdv
  · rfl

/-- **A destination of `compute-routes`**: the entry follows the tables of the protocols. -/
theorem route_chosen (hprotos : protos.Perm [.direct, .dv]) (hne : dst ≠ u) (h : Ranked tab dst)
    (hd : (tab .direct dst).nextHop = [] → (tab₀ .direct dst).nextHop ≠ [] →
      (tab .direct dst).rtpref ≠ Proto.dv.preference) (c : ℕ) :
    (route u protos tab dst (chosen tab₀ dst) c).1 = chosen tab dst := by
  have hmax : maxpref ≠ Proto.dv.preference := by decide
  have hmax' : maxpref ≠ Proto.direct.preference := by decide
  have hord : Proto.dv.preference ≠ Proto.direct.preference := by decide
  rw [route]
  dsimp only
  rw [best_eq_chosen hprotos h, if_neg hne]
  by_cases hdir : (tab .direct dst).nextHop = []
  · by_cases hdv : (tab .dv dst).nextHop = []
    · rw [chosen_of_none hdir hdv, if_pos none_nextHop]
      by_cases he : (chosen tab₀ dst).nextHop = []
      · rw [if_neg (not_not.mpr he)]
        exact eq_none_of_nil he
      · rw [if_pos he]
    · rw [chosen_of_dv hdir hdv, if_neg (by simpa using hdv)]
      by_cases hdir₀ : (tab₀ .direct dst).nextHop = []
      · by_cases hdv₀ : (tab₀ .dv dst).nextHop = []
        · -- the first route to `dst`: the preference of no route is another one
          have hpref : (none : RtEntry V).rtpref ≠ (via tab dst .dv).rtpref := by
            simpa [none, via, h.dv] using hmax
          rw [chosen_of_none hdir₀ hdv₀, if_neg (by simp)]
          exact congrArg Prod.fst (if_pos (.inl hpref))
        · rw [chosen_of_dv hdir₀ hdv₀, if_pos (by simp)]
      · -- the link went down, and `Direct` keeps its preference
        have hpref : (refreshed tab dst (via tab₀ dst .direct)).rtpref ≠
            (via tab dst .dv).rtpref := by
          simpa [refreshed, via, h.dv] using hd hdir hdir₀
        rw [chosen_of_direct hdir₀, if_neg (by simp)]
        exact congrArg Prod.fst (if_pos (.inl hpref))
  · rw [chosen_of_direct hdir, if_neg (by simpa using hdir)]
    have hdirpref := (h.direct hdir).1
    by_cases hdir₀ : (tab₀ .direct dst).nextHop = []
    · -- the link came up, and the route was that of `DV` or none
      by_cases hdv₀ : (tab₀ .dv dst).nextHop = []
      · have hpref : (none : RtEntry V).rtpref ≠ (via tab dst .direct).rtpref := by
          simpa [none, via, hdirpref] using hmax'
        rw [chosen_of_none hdir₀ hdv₀, if_neg (by simp)]
        exact congrArg Prod.fst (if_pos (.inl hpref))
      · have hpref : (refreshed tab dst (via tab₀ dst .dv)).rtpref ≠
            (via tab dst .direct).rtpref := by
          simpa [refreshed, via, h.dv, hdirpref] using hord
        rw [chosen_of_dv hdir₀ hdv₀, if_neg (by simp)]
        exact congrArg Prod.fst (if_pos (.inl hpref))
    · rw [chosen_of_direct hdir₀, if_pos (by simp)]

/-- The table of `rtObject` follows those of the protocols. -/
structure Follows (u : V) (n : RtNode V) : Prop where
  self : n.rt u = init u u
  chosen : ∀ dst, dst ≠ u → n.rt dst = chosen n.tab dst

theorem computeRoutes_tab (n : RtNode V) : (computeRoutes T u protos n).1.tab = n.tab := by
  rw [computeRoutes]
  dsimp only
  split <;> rfl

theorem computeRoutes_peers (n : RtNode V) : (computeRoutes T u protos n).1.peers = n.peers := by
  rw [computeRoutes]
  dsimp only
  split <;> rfl

/-- What becomes of an entry once a protocol has something new. -/
theorem computeRoutes_rt {n : RtNode V} {p : Proto} (hp : p ∈ protos) (hch : n.rtsChanged p ≠ 0)
    (dst : V) :
    ∃ c, (computeRoutes T u protos n).1.rt dst = (route u protos n.tab dst (n.rt dst) c).1 := by
  have hpos : protos.countP (fun p => n.rtsChanged p ≠ 0) ≠ 0 := by
    rw [Ne, List.countP_eq_zero]
    intro h
    exact h p hp (by simpa using hch)
  obtain ⟨c, hc⟩ := sweep_of_mem (route u protos n.tab) T.nodes_nodup (T.mem_nodes dst)
    (n.rt, 0)
  refine ⟨c, ?_⟩
  rw [computeRoutes]
  dsimp only
  rw [if_neg hpos]
  exact hc

theorem route_self (e : RtEntry V) (c : ℕ) : (route u protos tab u e c).1 = e := by
  rw [route]
  dsimp only
  rw [if_pos rfl]

/-- The entries follow the tables through a computation in which a protocol has something new. -/
theorem computeRoutes_follows {n₀ n : RtNode V} {p : Proto}
    (hprotos : protos.Perm [.direct, .dv]) (h₀ : Follows u n₀) (hrt : n.rt = n₀.rt)
    (hdir : ∀ dst, (n.tab .direct dst).nextHop = [] → (n₀.tab .direct dst).nextHop ≠ [] →
      (n.tab .direct dst).rtpref ≠ Proto.dv.preference)
    (hch : n.rtsChanged p ≠ 0) (hrank : ∀ dst, Ranked n.tab dst) :
    Follows u (computeRoutes T u protos n).1 := by
  have hmem : p ∈ protos := hprotos.symm.subset (by cases p <;> simp)
  constructor
  · obtain ⟨c, hc⟩ := computeRoutes_rt (T := T) (u := u) hmem hch u
    rw [hc, route_self, hrt, h₀.self]
  · intro dst hne
    obtain ⟨c, hc⟩ := computeRoutes_rt (T := T) (u := u) hmem hch dst
    rw [hc, computeRoutes_tab, hrt, h₀.chosen dst hne]
    exact route_chosen hprotos hne (hrank dst) (hdir dst) c

end RtObject

/-! ### Nodes -/

namespace Direct

theorem ranked {tab : Proto → V → ProtoRoute V} {dst : V}
    (hdir : tab .direct dst = entry T u dst)
    (hdv : (tab .dv dst).rtpref = Proto.dv.preference) : RtObject.Ranked tab dst where
  direct := fun hne => by
    rw [hdir] at hne ⊢
    rw [(entry_of_ne_nil hne).2]
    exact ⟨rfl, zero_le_one⟩
  dv := hdv

end Direct

namespace RtNode

/-- Each table of a node is what the peers and the links make it. -/
structure Ok (T : Topology V) (u : V) (n : RtNode V) : Prop where
  direct : ∀ dst, n.tab .direct dst = Direct.entry T u dst
  dv : ∀ dst, DV.Current T u n.peers dst (n.tab .dv dst)
  rtpref : ∀ v dst, (n.peers v).rtpref dst = Proto.dv.preference
  follows : RtObject.Follows u n

omit [DecidableEq V] in
/-- `Direct` alone is chosen from before `DV` has a route. -/
theorem best_direct {tab : Proto → V → ProtoRoute V} {dst : V}
    (hdir : (tab .direct dst).nextHop ≠ [] → (tab .direct dst).rtpref = 100)
    (hdv : (tab .dv dst).nextHop = []) :
    RtObject.best [.direct] tab dst = RtObject.chosen tab dst := by
  by_cases hd : (tab .direct dst).nextHop = []
  · rw [RtObject.chosen_of_none hd hdv]
    simp [RtObject.best, hd, RtObject.none]
  · have hpref := hdir hd
    have hlt : (100 : ℤ) < maxpref := by decide
    rw [RtObject.chosen_of_direct hd]
    simp [RtObject.best, hd, hpref, hlt, RtObject.via]

/-- The entries `rtObject` starts with, once `Direct` has told its routes. -/
theorem route_init {tab : Proto → V → ProtoRoute V} {dst : V} (hne : dst ≠ u)
    (hdir : (tab .direct dst).nextHop ≠ [] → (tab .direct dst).rtpref = 100)
    (hdv : (tab .dv dst).nextHop = []) (c : ℕ) :
    (RtObject.route u [.direct] tab dst (RtObject.init u dst) c).1 = RtObject.chosen tab dst := by
  have hinit : RtObject.init u dst = RtObject.none := if_neg hne
  rw [RtObject.route]
  dsimp only
  rw [best_direct hdir hdv, if_neg hne, hinit]
  by_cases hd : (tab .direct dst).nextHop = []
  · rw [RtObject.chosen_of_none hd hdv, if_pos RtObject.none_nextHop, if_neg (by simp)]
  · have hpref : (RtObject.none : RtEntry V).rtpref ≠ (RtObject.via tab dst .direct).rtpref := by
      have hmax : maxpref ≠ (100 : ℤ) := by decide
      rw [RtObject.via, hdir hd]
      exact hmax
    rw [RtObject.chosen_of_direct hd, if_neg (by simpa using hd), if_neg (by simp)]
    exact congrArg Prod.fst (if_pos (.inl hpref))

theorem init_direct (T : Topology V) (u : V) :
    (init T u).tab .direct = Direct.entryFor T u (T.up u) := by
  rw [← Direct.computeRoutes_entryFor T u fun _ => false, ← Direct.init_eq, init,
    RtObject.computeRoutes_tab]
  rfl

theorem init_dv (T : Topology V) (u : V) : (init T u).tab .dv = DV.init := by
  rw [init, RtObject.computeRoutes_tab]
  rfl

theorem init_peers (T : Topology V) (u : V) :
    (init T u).peers = fun _ => Peer.init T.infinity := by
  rw [init, RtObject.computeRoutes_peers]

theorem init_follows (T : Topology V) (u : V) : RtObject.Follows u (init T u) := by
  have hdir := init_direct T u
  have hdv : ∀ dst, ((init T u).tab .dv dst).nextHop = [] := fun dst => by rw [init_dv]; rfl
  rw [init] at hdir hdv ⊢
  generalize hn : RtNode.mk (RtObject.init u) _ _ _ = n at hdir hdv ⊢
  have hrt : n.rt = RtObject.init u := by rw [← hn]
  have hch : n.rtsChanged .direct = (Direct.computeRoutes T u (Direct.init T u)).2 := by
    rw [← hn]
    rfl
  have htab : n.tab .direct = (Direct.computeRoutes T u (Direct.init T u)).1 := by
    rw [← hn]
    rfl
  rw [RtObject.computeRoutes_tab] at hdir hdv
  by_cases hz : n.rtsChanged .direct = 0
  · -- no link is up, and there is nothing to compute
    have hrt' : (RtObject.computeRoutes T u [.direct] n).1.rt = RtObject.init u := by
      rw [RtObject.computeRoutes]
      dsimp only
      rw [if_pos (by simp [hz]), hrt]
    refine ⟨by rw [hrt'], fun dst hne => ?_⟩
    have hd : (n.tab .direct dst).nextHop = [] := by
      rw [htab, Direct.computeRoutes_unchanged (hch ▸ hz)]
      rfl
    rw [hrt', RtObject.computeRoutes_tab, RtObject.chosen_of_none hd (hdv dst)]
    exact if_neg hne
  · constructor
    · obtain ⟨c, hc⟩ := RtObject.computeRoutes_rt (T := T) (u := u)
        (List.mem_singleton_self Proto.direct) hz u
      rw [hc, RtObject.route_self, hrt]
    · intro dst hne
      obtain ⟨c, hc⟩ := RtObject.computeRoutes_rt (T := T) (u := u)
        (List.mem_singleton_self Proto.direct) hz dst
      rw [hc, RtObject.computeRoutes_tab, hrt]
      refine route_init hne (fun hd => ?_) (hdv dst) c
      rw [hdir] at hd ⊢
      obtain ⟨hnbr, hup⟩ := Direct.entryFor_of_ne_nil hd
      rw [Direct.entryFor_of_up hnbr hup]

theorem init_ok (hT : T.UnitUp) (u : V) : Ok T u (init T u) where
  direct := fun dst => by rw [init_direct, Direct.entryFor_eq_entry hT]
  dv := fun dst => by
    rw [init_dv, init_peers]
    exact DV.init_current
  rtpref := fun v dst => by
    rw [init_peers]
    rfl
  follows := init_follows T u

/-- The two outcomes of an update from a neighbour: nothing in it is news, or both `DV` and
`rtObject` compute their routes. -/
theorem recvUpdate_cases {n n' : RtNode V} {ord : ArrayOrder V} {nbr : V} {msg : V → ℤ} {c : ℕ}
    (hn : recvUpdate T u ord n nbr msg = some (n', c)) :
    nbr ∈ T.nbrs u ∧
      ((n' = n ∧ (n.peers nbr).metric = told T u nbr msg) ∨
        ∃ k ≠ 0, ∃ peers, peers = Function.update n.peers nbr
            { n.peers nbr with metric := told T u nbr msg } ∧
          n' = (RtObject.computeRoutes T u ord.protos
            { n with
              peers := peers
              tab := Function.update n.tab .dv
                (DV.computeRoutes T u ord.names peers (n.tab .dv)).1
              rtsChanged := Function.update n.rtsChanged .dv k }).1) := by
  rw [recvUpdate] at hn
  dsimp only at hn
  split_ifs at hn with hnbr hch
  · rw [Option.some.injEq] at hn
    exact ⟨hnbr, .inr ⟨_, mt (fun hz => (Nat.add_eq_zero_iff.mp hz).2) hch, _, rfl,
      (congrArg Prod.fst hn).symm⟩⟩
  · rw [Option.some.injEq, Prod.mk.injEq] at hn
    refine ⟨hnbr, .inl ⟨hn.1.symm, ?_⟩⟩
    rw [not_not, List.countP_eq_zero] at hch
    funext dest
    have := hch dest (T.mem_nodes dest)
    simpa using (Eq.symm (by simpa using this))

/-- An update changes the metrics of its sender, and no preference. -/
theorem update_rtpref {peers : V → Peer V} {nbr : V} (metric : V → ℤ)
    (h : ∀ v dst, (peers v).rtpref dst = Proto.dv.preference) (v dst : V) :
    ((Function.update peers nbr { peers nbr with metric := metric } : V → Peer V) v).rtpref dst =
      Proto.dv.preference := by
  by_cases hv : v = nbr
  · rw [hv, Function.update_self]
    exact h nbr dst
  · rw [Function.update_of_ne hv]
    exact h v dst

theorem recvUpdate_ok {n : RtNode V} (h : Ok T u n) {ord : ArrayOrder V} {nbr : V} {msg : V → ℤ}
    {n' : RtNode V} {c : ℕ} (hn : recvUpdate T u ord n nbr msg = some (n', c)) :
    Ok T u n' ∧ (n'.peers nbr).metric = told T u nbr msg ∧
      ∀ v, v ≠ nbr → n'.peers v = n.peers v := by
  obtain ⟨-, ⟨rfl, htold⟩ | ⟨k, hk, peers, hpeers, rfl⟩⟩ := recvUpdate_cases hn
  · exact ⟨h, htold, fun v _ => rfl⟩
  · have hpref : ∀ v dst, (peers v).rtpref dst = Proto.dv.preference := fun v dst => by
      rw [hpeers]
      exact update_rtpref _ h.rtpref v dst
    have hcur := DV.computeRoutes_current (T := T) (u := u) ord.names_perm hpref
      fun dst => (h.dv dst).toStored
    refine ⟨⟨fun dst => ?_, fun dst => ?_, fun v dst => ?_, ?_⟩, ?_, fun v hv => ?_⟩
    · rw [RtObject.computeRoutes_tab]
      exact h.direct dst
    · rw [RtObject.computeRoutes_tab, RtObject.computeRoutes_peers]
      exact hcur dst
    · rw [RtObject.computeRoutes_peers]
      exact hpref v dst
    · refine RtObject.computeRoutes_follows (p := .dv) ord.protos_perm h.follows rfl
        (fun dst h₁ h₂ => absurd h₁ h₂) ?_ fun dst => ?_
      · dsimp only
        rwa [Function.update_self]
      · exact Direct.ranked (h.direct dst) (hcur dst).rtpref
    · rw [RtObject.computeRoutes_peers, hpeers]
      simp
    · rw [RtObject.computeRoutes_peers, hpeers]
      simp [hv]

end RtNode

end Afabric
