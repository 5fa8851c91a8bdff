import Afabric.Queue.CbqPasses

/-!
# Queue — the classes that have been inserted

`Configured` is a queue that classes have been inserted into, each of them once, and whose classes
may have been changed in between in all but their links, their priorities and whether they have a
queue.  Then the classes with a queue are in the circles of their priorities, and all are in the
lists of the levels (`Rings`).
-/

namespace Afabric

namespace CBQueue

variable {q q' : CBQueue} {c e p : ℕ} {l : List ℕ} {ring : ℤ → List ℕ} {ins : List ℕ}

/-- The classes that have been inserted are in the circles and in the lists of the levels. -/
structure Rings (ring : ℤ → List ℕ) (ins : List ℕ) (q : CBQueue) : Prop where
  circle : ∀ prio, Circle q prio (ring prio)
  mem : ∀ prio c, c ∈ ring prio ↔
    c ∈ ins ∧ (q.classes c).hasQ = true ∧ (q.classes c).pri = prio
  prio : ∀ c ∈ ins, (q.classes c).hasQ = true →
    0 ≤ (q.classes c).pri ∧ (q.classes c).pri ≤ q.maxprio
  levels : ∀ level, ∃ l, SLL (fun c => (q.classes c).levelPeer) (q.levels level) l ∧ l.Nodup ∧
    l ⊆ ins

theorem Rings.same (h : Rings ring ins q) (hs : SameSearch q q') : Rings ring ins q' where
  circle prio := (h.circle prio).same hs
  mem prio c := by
    rw [(hs.classes c).hasQ, (hs.classes c).pri]
    exact h.mem prio c
  prio c hc := by
    rw [(hs.classes c).hasQ, (hs.classes c).pri, hs.maxprio]
    exact h.prio c hc
  levels level := by
    rw [hs.levelPeer_eq, hs.levels]
    exact h.levels level

theorem Rings.length_le (h : Rings ring ins q) (prio : ℤ) : (ring prio).length ≤ ins.length :=
  (List.subperm_of_subset (h.circle prio).circle.nodup fun c hc =>
    ((h.mem prio c).mp hc).1).length_le

/-! ### Changes to the classes -/

/-- What is not changed of the classes of `ins`; a circle may go on from another class of its. -/
structure SameLinks (ins : List ℕ) (q q' : CBQueue) : Prop where
  wrr : q'.wrr = q.wrr
  maxprio : q'.maxprio = q.maxprio
  levels : q'.levels = q.levels
  active : ∀ prio, q'.active prio = q.active prio ∨ ∃ c ∈ ins,
    (q.classes c).hasQ = true ∧ (q.classes c).pri = prio ∧ q'.active prio = some c
  peer : ∀ c ∈ ins, (q'.classes c).peer = (q.classes c).peer
  levelPeer : ∀ c ∈ ins, (q'.classes c).levelPeer = (q.classes c).levelPeer
  hasQ : ∀ c ∈ ins, (q'.classes c).hasQ = (q.classes c).hasQ
  pri : ∀ c ∈ ins, (q'.classes c).pri = (q.classes c).pri

theorem SameSearch.links (h : SameSearch q q') (ins : List ℕ) : SameLinks ins q q' where
  wrr := h.wrr
  maxprio := h.maxprio
  levels := h.levels
  active prio := .inl (congrFun h.active prio)
  peer c _ := (h.classes c).peer
  levelPeer c _ := (h.classes c).levelPeer
  hasQ c _ := (h.classes c).hasQ
  pri c _ := (h.classes c).pri

theorem SameLinks.trans {q'' : CBQueue} (h : SameLinks ins q q') (h' : SameLinks ins q' q'') :
    SameLinks ins q q'' where
  wrr := h'.wrr.trans h.wrr
  maxprio := h'.maxprio.trans h.maxprio
  levels := h'.levels.trans h.levels
  active prio := by
    rcases h'.active prio with hsame | ⟨c, hc, hq, hpri, hactive⟩
    · rw [hsame]
      exact h.active prio
    · exact .inr ⟨c, hc, (h.hasQ c hc).symm.trans hq, (h.pri c hc).symm.trans hpri, hactive⟩
  peer c hc := (h'.peer c hc).trans (h.peer c hc)
  levelPeer c hc := (h'.levelPeer c hc).trans (h.levelPeer c hc)
  hasQ c hc := (h'.hasQ c hc).trans (h.hasQ c hc)
  pri c hc := (h'.pri c hc).trans (h.pri c hc)

/-- A circle that goes on from one of its classes. -/
theorem Rings.circle_links (h : Rings ring ins q) (hs : SameLinks ins q q') (prio : ℤ) :
    ∃ l, Circle q' prio l ∧ ∀ c, c ∈ l ↔ c ∈ ring prio := by
  have hpeer : ∀ l : List ℕ, (∀ c ∈ l, c ∈ ring prio) → ∀ c ∈ l,
      (q'.classes c).peer = (q.classes c).peer := fun l hl c hc =>
    hs.peer c ((h.mem prio c).mp (hl c hc)).1
  have hcircle := h.circle prio
  rcases hs.active prio with hsame | ⟨c, hc, hq, hpri, hactive⟩
  · exact ⟨ring prio, ⟨hsame.trans hcircle.active,
      hcircle.circle.congr (hpeer _ fun _ hc => hc)⟩, fun _ => Iff.rfl⟩
  · obtain ⟨a, b, hab⟩ := List.append_of_mem ((h.mem prio c).mpr ⟨hc, hq, hpri⟩)
    have hmem : ∀ x, x ∈ c :: b ++ a ↔ x ∈ ring prio := by
      intro x
      rw [hab, List.mem_append, List.mem_append, or_comm]
    have hround := hcircle.circle
    rw [hab] at hround
    exact ⟨c :: b ++ a, ⟨hactive, hround.rotate.congr (hpeer _ fun x hx => (hmem x).mp hx)⟩, hmem⟩

theorem Rings.links (h : Rings ring ins q) (hs : SameLinks ins q q') :
    ∃ ring', Rings ring' ins q' := by
  choose ring' hcircle hmem using h.circle_links hs
  refine ⟨ring', hcircle, fun prio c => ?_, fun c hc => ?_, fun level => ?_⟩
  · rw [hmem, h.mem]
    exact and_congr_right fun hc => by rw [hs.hasQ c hc, hs.pri c hc]
  · rw [hs.hasQ c hc, hs.pri c hc, hs.maxprio]
    exact h.prio c hc
  · obtain ⟨l, hl, hnodup, hsub⟩ := h.levels level
    refine ⟨l, ?_, hnodup, hsub⟩
    rw [hs.levels]
    exact hl.congr fun c hc => hs.levelPeer c (hsub hc)

/-- The class after a class of a circle. -/
theorem Rings.peer (h : Rings ring ins q) (he : e ∈ ins) (hq : (q.classes e).hasQ = true) :
    ∃ d ∈ ins, (q.classes e).peer = some d ∧ (q.classes d).hasQ = true ∧
      (q.classes d).pri = (q.classes e).pri := by
  have hcircle := (h.circle (q.classes e).pri).circle
  obtain ⟨a, b, hab⟩ := List.append_of_mem ((h.mem _ e).mpr ⟨he, hq, rfl⟩)
  rw [hab] at hcircle
  have hnext : (q.classes e).peer = b.head?.or (a ++ e :: b).head? := hcircle.next_eq
  obtain ⟨d, hd⟩ : ∃ d, (q.classes e).peer = some d := by
    rw [hnext]
    cases b with
    | nil =>
        cases a with
        | nil => exact ⟨e, rfl⟩
        | cons x a => exact ⟨x, rfl⟩
    | cons x b => exact ⟨x, rfl⟩
  have hmem : d ∈ ring (q.classes e).pri := by
    rw [hab]
    rcases Option.or_eq_some_iff.mp (hnext.symm.trans hd) with hd | ⟨-, hd⟩
    · exact List.mem_append_right _ (List.mem_cons_of_mem _ (List.mem_of_mem_head? hd))
    · exact List.mem_of_mem_head? hd
  obtain ⟨hd', hqd, hpri⟩ := (h.mem _ d).mp hmem
  exact ⟨d, hd', hd, hqd, hpri⟩

/-! ### Insertion -/

/-- A field that is not written. -/
theorem modify_field {β : Type*} (g : CBQClass → β) {f : CBQClass → CBQClass}
    (hg : ∀ c, g (f c) = g c) (p c : ℕ) (q : CBQueue) :
    g ((modify p f q).classes c) = g (q.classes c) := by
  by_cases hc : c = p
  · rw [hc, modify_self, hg]
  · rw [modify_of_ne _ hc]

/-- The circles know of no other field than `peer_`. -/
theorem entered_field {β : Type*} (g : CBQClass → β) (hg : ∀ c x, g { c with peer := x } = g c)
    (p c : ℕ) (q : CBQueue) : g ((entered p q).classes c) = g (q.classes c) := by
  rw [entered]
  split_ifs
  · cases ha : q.active (q.classes p).pri with
    | none =>
        simp only [activate, ha]
        exact modify_field g (fun c => hg c _) p c _
    | some a =>
        simp only [activate, ha]
        exact (modify_field g (fun c => hg c _) a c _).trans
          (modify_field g (fun c => hg c _) p c q)
  · rfl

theorem entered_levels (p : ℕ) (q : CBQueue) : (entered p q).levels = q.levels := by
  rw [entered]
  split_ifs
  · exact (activate_rest p q).2.2.1
  · rfl

theorem addLevel_classes (p : ℕ) (q : CBQueue) : (addLevel p q).classes =
    (modify p (fun c => { c with levelPeer := q.levels (q.classes p).level }) q).classes := rfl

theorem addLevel_field {β : Type*} (g : CBQClass → β)
    (hg : ∀ c x, g { c with levelPeer := x } = g c) (p c : ℕ) (q : CBQueue) :
    g ((addLevel p q).classes c) = g (q.classes c) := by
  rw [addLevel_classes]
  exact modify_field g (fun c => hg c _) p c q

theorem addallot_rest {prio : ℤ} {diff : ℚ} (h : addallot prio diff q = some q') :
    q'.classes = q.classes ∧ q'.active = q.active ∧ q'.levels = q.levels ∧
      q'.maxprio = q.maxprio := by
  rw [addallot] at h
  split_ifs at h
  · obtain rfl := setM_eq_some h
    exact ⟨rfl, rfl, rfl, rfl⟩
  · obtain rfl := Option.some.inj h
    exact ⟨rfl, rfl, rfl, rfl⟩

/-- A class that is not turned away. -/
theorem insertBase_accepted {r : ℤ} (h : insertBase p q = some (r, q')) (hr : 0 ≤ r) :
    0 ≤ (q.classes p).pri ∧ ∃ rate q₁,
      addallot (q.classes p).pri (q.classes p).allotment
        (modify p (fun c => { c with maxrate := rate }) (entered p q)) = some q₁ ∧
      q' = addLevel p q₁ := by
  have hneg : ¬ (0 : ℤ) ≤ -1 := by decide
  simp only [insertBase] at h
  split_ifs at h with hpri hallot
  · obtain ⟨rfl, -⟩ := Prod.mk.inj (Option.some.inj h)
    exact absurd hr hneg
  · obtain ⟨rfl, -⟩ := Prod.mk.inj (Option.some.inj h)
    exact absurd hr hneg
  · refine ⟨not_lt.mp (not_or.mp hpri).1, ?_⟩
    cases hl : (entered p q).link with
    | none =>
        simp only [hl] at h
        obtain ⟨rfl, -⟩ := Prod.mk.inj (Option.some.inj h)
        exact absurd hr hneg
    | some bandwidth =>
        simp only [hl] at h
        split_ifs at h
        · obtain ⟨rfl, -⟩ := Prod.mk.inj (Option.some.inj h)
          exact absurd hr hneg
        · obtain ⟨q₁, hq₁, hleveled⟩ := Option.map_eq_some_iff.mp h
          rw [leveled] at hleveled
          split_ifs at hleveled
          · obtain ⟨rfl, -⟩ := Prod.mk.inj hleveled
            exact absurd hr hneg
          · obtain ⟨-, rfl⟩ := Prod.mk.inj hleveled
            exact ⟨_, q₁, hq₁, rfl⟩

/-- The class `p` has been put into its circle and its list. -/
structure Accepted (p : ℕ) (q q' : CBQueue) : Prop where
  pri_nonneg : 0 ≤ (q.classes p).pri
  active : q'.active = (entered p q).active
  maxprio : q'.maxprio = (entered p q).maxprio
  levels : q'.levels = Function.update q.levels (q.classes p).level (some p)
  levelPeer : (fun c => (q'.classes c).levelPeer) =
    Function.update (fun c => (q.classes c).levelPeer) p (q.levels (q.classes p).level)
  peer : ∀ c, (q'.classes c).peer = ((entered p q).classes c).peer
  hasQ : ∀ c, (q'.classes c).hasQ = (q.classes c).hasQ
  pri : ∀ c, (q'.classes c).pri = (q.classes c).pri

theorem insertClass_accepted (h : insertClass p q = some (0, q')) : Accepted p q q' := by
  obtain ⟨r, q₂, hbase, hr, hclasses, hactive, hlevels, hmaxprio⟩ : ∃ r q₂,
      insertBase p q = some (r, q₂) ∧ 0 ≤ r ∧ q'.classes = q₂.classes ∧ q'.active = q₂.active ∧
        q'.levels = q₂.levels ∧ q'.maxprio = q₂.maxprio := by
    rw [insertClass] at h
    obtain ⟨⟨r, q₂⟩, hbase, hrest⟩ := Option.bind_eq_some_iff.mp h
    dsimp only at hrest
    split_ifs at hrest with hw hr
    · obtain ⟨rfl, rfl⟩ := Prod.mk.inj (Option.some.inj hrest)
      exact ⟨0, _, hbase, le_refl _, rfl, rfl, rfl, rfl⟩
    · exact absurd (Prod.mk.inj (Option.some.inj hrest)).1 (by decide)
    · obtain ⟨q₃, hset, hq₃⟩ := Option.bind_eq_some_iff.mp hrest
      obtain ⟨-, rfl⟩ := Prod.mk.inj (Option.some.inj hq₃)
      obtain rfl := setM_eq_some hset
      exact ⟨r, q₂, hbase, not_lt.mp hr, rfl, rfl, rfl, rfl⟩
  obtain ⟨hpri, rate, q₁, hadd, rfl⟩ := insertBase_accepted hbase hr
  obtain ⟨hclasses₁, hactive₁, hlevels₁, hmaxprio₁⟩ := addallot_rest hadd
  have hfield : ∀ {β : Type} (g : CBQClass → β), (∀ c x, g { c with maxrate := x } = g c) →
      ∀ c, g (q₁.classes c) = g ((entered p q).classes c) := by
    intro β g hg c
    rw [hclasses₁]
    exact modify_field g (fun c => hg c rate) p c _
  have hlevel : q₁.levels (q₁.classes p).level = q.levels (q.classes p).level := by
    rw [hfield CBQClass.level (fun _ _ => rfl),
      entered_field CBQClass.level (fun _ _ => rfl), hlevels₁]
    exact congrFun (entered_levels p q) _
  refine ⟨hpri, hactive.trans hactive₁, hmaxprio.trans hmaxprio₁, ?_, ?_, fun c => ?_, fun c => ?_,
    fun c => ?_⟩
  · rw [hlevels, ← entered_field CBQClass.level (fun _ _ => rfl) p,
      ← hfield CBQClass.level (fun _ _ => rfl), ← entered_levels p q]
    exact congrArg (fun levels => Function.update levels (q₁.classes p).level (some p)) hlevels₁
  · rw [hclasses, addLevel_classes]
    funext c
    by_cases hc : c = p
    · rw [hc, Function.update_self, modify_self, hlevel]
    · rw [Function.update_of_ne hc, modify_of_ne _ hc, hfield CBQClass.levelPeer fun _ _ => rfl]
      exact entered_field CBQClass.levelPeer (fun _ _ => rfl) p c q
  · rw [hclasses, addLevel_field CBQClass.peer fun _ _ => rfl]
    exact hfield CBQClass.peer (fun _ _ => rfl) c
  · rw [hclasses, addLevel_field CBQClass.hasQ fun _ _ => rfl]
    exact (hfield CBQClass.hasQ (fun _ _ => rfl) c).trans
      (entered_field CBQClass.hasQ (fun _ _ => rfl) p c q)
  · rw [hclasses, addLevel_field CBQClass.pri fun _ _ => rfl]
    exact (hfield CBQClass.pri (fun _ _ => rfl) c).trans
      (entered_field CBQClass.pri (fun _ _ => rfl) p c q)

theorem modify_peer (x : ℕ) (y : Option ℕ) (q : CBQueue) :
    (fun c => ((modify x (fun c => { c with peer := y }) q).classes c).peer) =
      Function.update (fun c => (q.classes c).peer) x y := by
  funext c
  by_cases hc : c = x
  · rw [hc, modify_self, Function.update_self]
  · rw [modify_of_ne _ hc, Function.update_of_ne hc]

/-- The first class of a circle. -/
theorem activate_none (ha : q.active (q.classes p).pri = none) :
    (activate p q).active = Function.update q.active (q.classes p).pri (some p) ∧
      (fun c => ((activate p q).classes c).peer) =
        Function.update (fun c => (q.classes c).peer) p (some p) := by
  simp only [activate, ha]
  exact ⟨rfl, modify_peer p (some p) { q with active := Function.update q.active _ (some p) }⟩

/-- Another class of a circle. -/
theorem activate_some {a : ℕ} (ha : q.active (q.classes p).pri = some a) :
    (activate p q).active = q.active ∧ (fun c => ((activate p q).classes c).peer) =
      Function.update (Function.update (fun c => (q.classes c).peer) p (q.classes a).peer) a
        (some p) := by
  simp only [activate, ha]
  refine ⟨rfl, ?_⟩
  rw [← modify_peer p (q.classes a).peer q]
  exact modify_peer a (some p) _

/-- The circles, with the class `p` in its own. -/
theorem Rings.circle_insert (h : Rings ring ins q) (hp : p ∉ ins)
    (hq : (q.classes p).hasQ = true) (prio : ℤ) :
    ∃ l, Circle (entered p q) prio l ∧
      ∀ c, c ∈ l ↔ c ∈ ring prio ∨ c = p ∧ (q.classes p).pri = prio := by
  have hnot : p ∉ ring prio := fun hm => hp ((h.mem prio p).mp hm).1
  have hcircle := h.circle prio
  rw [entered, if_pos hq]
  by_cases hprio : prio = (q.classes p).pri
  · subst hprio
    cases hring : ring (q.classes p).pri with
    | nil =>
        have hactive : q.active (q.classes p).pri = none := by
          rw [hcircle.active, hring]
          rfl
        obtain ⟨hfirst, hpeer⟩ := activate_none hactive
        refine ⟨[p], ⟨?_, ?_⟩, fun c => ?_⟩
        · rw [hfirst, Function.update_self]
          rfl
        · rw [hpeer]
          exact .single
        · simp
    | cons a l =>
        have hactive : q.active (q.classes p).pri = some a := by
          rw [hcircle.active, hring]
          rfl
        obtain ⟨hsame, hpeer⟩ := activate_some hactive
        rw [hring] at hnot
        have hround := hcircle.circle
        rw [hring] at hround
        refine ⟨a :: p :: l, ⟨?_, ?_⟩, fun c => ?_⟩
        · rw [hsame, hactive]
          rfl
        · rw [hpeer]
          exact hround.second hnot
        · simp only [List.mem_cons, and_true]
          tauto
  · have hcp : ∀ c ∈ ring prio, c ≠ p := fun c hc he => hnot (he ▸ hc)
    refine ⟨ring prio, ?_, fun c => ?_⟩
    · cases ha : q.active (q.classes p).pri with
      | none =>
          obtain ⟨hfirst, hpeer⟩ := activate_none ha
          refine ⟨?_, ?_⟩
          · rw [hfirst, Function.update_of_ne hprio]
            exact hcircle.active
          · rw [hpeer]
            exact hcircle.circle.congr fun c hc => Function.update_of_ne (hcp c hc) _ _
      | some a =>
          obtain ⟨hsame, hpeer⟩ := activate_some ha
          refine ⟨?_, ?_⟩
          · rw [hsame]
            exact hcircle.active
          · rw [hpeer]
            refine hcircle.circle.congr fun c hc => ?_
            -- the first class of the other circle has another priority
            have hca : c ≠ a := by
              rintro rfl
              have hm : c ∈ ring (q.classes p).pri :=
                List.mem_of_mem_head? ((h.circle _).active.symm.trans ha)
              exact hprio (((h.mem prio c).mp hc).2.2.symm.trans ((h.mem _ c).mp hm).2.2)
            rw [Function.update_of_ne hca, Function.update_of_ne (hcp c hc)]
    · simp [Ne.symm hprio]

theorem entered_maxprio (p : ℕ) (q : CBQueue) : q.maxprio ≤ (entered p q).maxprio ∧
    ((q.classes p).hasQ = true → (q.classes p).pri ≤ (entered p q).maxprio) := by
  rw [entered]
  split_ifs with hq
  · have hmax : (activate p q).maxprio =
        if q.maxprio < (q.classes p).pri then (q.classes p).pri else q.maxprio := by
      cases ha : q.active (q.classes p).pri with
      | none =>
          simp only [activate, ha]
          rfl
      | some a =>
          simp only [activate, ha]
          rfl
    rw [hmax]
    split_ifs with hlt
    · exact ⟨hlt.le, fun _ => le_refl _⟩
    · exact ⟨le_refl _, fun _ => not_lt.mp hlt⟩
  · exact ⟨le_refl _, fun hc => absurd hc hq⟩

/-- **A class that is accepted is in its circle and its list.** -/
theorem Rings.insert (h : Rings ring ins q) (hp : p ∉ ins) (ha : Accepted p q q') :
    ∃ ring', Rings ring' (p :: ins) q' := by
  have hcircles : ∀ prio, ∃ l, Circle (entered p q) prio l ∧ ∀ c, c ∈ l ↔
      c ∈ p :: ins ∧ (q.classes c).hasQ = true ∧ (q.classes c).pri = prio := by
    intro prio
    by_cases hq : (q.classes p).hasQ = true
    · obtain ⟨l, hl, hmem⟩ := h.circle_insert hp hq prio
      refine ⟨l, hl, fun c => ?_⟩
      rw [hmem, h.mem, List.mem_cons]
      constructor
      · rintro (⟨hc, hrest⟩ | ⟨rfl, hpri⟩)
        · exact ⟨.inr hc, hrest⟩
        · exact ⟨.inl rfl, hq, hpri⟩
      · rintro ⟨rfl | hc, hrest⟩
        · exact .inr ⟨rfl, hrest.2⟩
        · exact .inl ⟨hc, hrest⟩
    · refine ⟨ring prio, ?_, fun c => ?_⟩
      · rw [entered, if_neg hq]
        exact h.circle prio
      · rw [h.mem, List.mem_cons]
        refine ⟨fun hc => ⟨.inr hc.1, hc.2⟩, ?_⟩
        rintro ⟨rfl | hc, hrest⟩
        · exact absurd hrest.1 hq
        · exact ⟨hc, hrest⟩
  choose ring' hcircle hmem using hcircles
  refine ⟨ring', fun prio => ?_, fun prio c => ?_, fun c hc hq => ?_, fun level => ?_⟩
  · exact ⟨(congrFun ha.active prio).trans (hcircle prio).active,
      (hcircle prio).circle.congr fun c _ => ha.peer c⟩
  · rw [ha.hasQ, ha.pri]
    exact hmem prio c
  · rw [ha.hasQ] at hq
    rw [ha.pri, ha.maxprio]
    obtain ⟨hmax, hself⟩ := entered_maxprio p q
    rcases List.mem_cons.mp hc with rfl | hc
    · exact ⟨ha.pri_nonneg, hself hq⟩
    · obtain ⟨hlow, hhigh⟩ := h.prio c hc hq
      exact ⟨hlow, hhigh.trans hmax⟩
  · have hcongr : ∀ l : List ℕ, l ⊆ ins → ∀ c ∈ l,
        Function.update (fun c => (q.classes c).levelPeer) p (q.levels (q.classes p).level) c =
          (q.classes c).levelPeer := fun l hl c hc =>
      Function.update_of_ne (fun he : c = p => hp (he ▸ hl hc)) _ _
    rw [ha.levels, ha.levelPeer]
    by_cases hlevel : level = (q.classes p).level
    · subst hlevel
      obtain ⟨l, hl, hnodup, hsub⟩ := h.levels (q.classes p).level
      refine ⟨p :: l, ⟨Function.update_self _ _ _, ?_⟩,
        List.nodup_cons.mpr ⟨fun hm => hp (hsub hm), hnodup⟩, List.cons_subset_cons p hsub⟩
      rw [Function.update_self]
      exact hl.congr (hcongr l hsub)
    · obtain ⟨l, hl, hnodup, hsub⟩ := h.levels level
      refine ⟨l, ?_, hnodup, fun c hc => List.mem_cons_of_mem _ (hsub hc)⟩
      rw [Function.update_of_ne hlevel]
      exact hl.congr (hcongr l hsub)

/-! ### Configurations -/

/-- A queue with the classes `ins`. -/
inductive Configured : List ℕ → CBQueue → Prop where
  | created (maxpkt : ℤ) (classes : ℕ → CBQClass) : Configured [] (created true maxpkt classes)
  | inserted {ins : List ℕ} {q q' : CBQueue} {p : ℕ} (h : Configured ins q) (hp : p ∉ ins)
      (hi : insertClass p q = some (0, q')) : Configured (p :: ins) q'
  | assigned {ins : List ℕ} {q q' : CBQueue} (h : Configured ins q) (hs : SameLinks ins q q') :
      Configured ins q'

theorem Configured.rings (h : Configured ins q) : ∃ ring, Rings ring ins q := by
  induction h with
  | created maxpkt classes =>
      refine ⟨fun _ => [], fun _ => ⟨rfl, .nil⟩, fun prio c => ?_, fun c hc => ?_, fun level => ?_⟩
      · exact iff_of_false List.not_mem_nil fun h => List.not_mem_nil h.1
      · exact absurd hc List.not_mem_nil
      · exact ⟨[], rfl, List.nodup_nil, fun _ h => h⟩
  | inserted _ hp hi ih =>
      obtain ⟨ring, hring⟩ := ih
      exact hring.insert hp (insertClass_accepted hi)
  | assigned _ hs ih =>
      obtain ⟨ring, hring⟩ := ih
      exact hring.links hs

/-! ### Classes that can be inserted -/

/-- A queue on a link, whose classes have valid priorities, allotments and levels. -/
structure Accepting (q : CBQueue) : Prop where
  wrr : q.wrr = true
  link : ∃ bandwidth > 0, q.link = some bandwidth
  cnt : ∀ prio, 0 ≤ q.cnt prio
  maxpkt : 0 ≤ q.maxpkt
  pri : ∀ p, 0 ≤ (q.classes p).pri ∧ (q.classes p).pri ≤ maxPrio - 1
  allotment : ∀ p, 0 ≤ (q.classes p).allotment ∧ (q.classes p).allotment ≤ 1
  level : ∀ p, 0 < (q.classes p).level ∧ (q.classes p).level ≤ maxLevel

/-- What insertion leaves of the settings. -/
structure SameSettings (q q' : CBQueue) : Prop where
  wrr : q'.wrr = q.wrr
  link : q'.link = q.link
  maxpkt : q'.maxpkt = q.maxpkt
  eligible : q'.eligible = q.eligible
  classes : ∀ c, q'.classes c = { q.classes c with
    peer := (q'.classes c).peer
    levelPeer := (q'.classes c).levelPeer
    maxrate := (q'.classes c).maxrate }

theorem SameSettings.trans {q'' : CBQueue} (h : SameSettings q q') (h' : SameSettings q' q'') :
    SameSettings q q'' where
  wrr := h'.wrr.trans h.wrr
  link := h'.link.trans h.link
  maxpkt := h'.maxpkt.trans h.maxpkt
  eligible := h'.eligible.trans h.eligible
  classes c := by
    rw [h'.classes c, h.classes c]

theorem SameSettings.accepting (h : SameSettings q q') (ha : Accepting q)
    (hcnt : ∀ prio, 0 ≤ q'.cnt prio) : Accepting q' where
  wrr := h.wrr.trans ha.wrr
  link := by
    rw [h.link]
    exact ha.link
  cnt := hcnt
  maxpkt := by
    rw [h.maxpkt]
    exact ha.maxpkt
  pri p := by
    rw [h.classes p]
    exact ha.pri p
  allotment p := by
    rw [h.classes p]
    exact ha.allotment p
  level p := by
    rw [h.classes p]
    exact ha.level p

theorem setM_accepts (hcnt : ∀ prio, 0 ≤ q.cnt prio) (hmax : 0 ≤ q.maxpkt) :
    setM q = some { q with M := q.newM } := by
  rw [setM, if_neg]
  simp only [List.any_eq_true, List.mem_range, decide_eq_true_eq, not_exists, not_and, not_lt]
  intro i hi
  rw [newM, if_pos ⟨by omega, by omega⟩]
  split_ifs with halloc
  · have hc : (0 : ℚ) ≤ q.cnt i := by exact_mod_cast hcnt i
    have hm : (0 : ℚ) ≤ q.maxpkt := by exact_mod_cast hmax
    positivity
  · exact le_refl _

theorem SameSettings.modify {f : CBQClass → CBQClass} (h : SameSettings q q') (p : ℕ)
    (hf : ∀ c, f c = { c with
      peer := (f c).peer
      levelPeer := (f c).levelPeer
      maxrate := (f c).maxrate }) : SameSettings q (modify p f q') where
  wrr := h.wrr
  link := h.link
  maxpkt := h.maxpkt
  eligible := h.eligible
  classes c := by
    by_cases hc : c = p
    · subst hc
      rw [modify_self, hf, h.classes c]
    · rw [modify_of_ne _ hc]
      exact h.classes c

theorem entered_settings (p : ℕ) (q : CBQueue) :
    SameSettings q (entered p q) ∧ (entered p q).cnt = q.cnt := by
  have hrefl : SameSettings q q := ⟨rfl, rfl, rfl, rfl, fun _ => rfl⟩
  rw [entered]
  split_ifs
  · refine ⟨?_, (activate_rest p q).2.2.2.2.2⟩
    cases ha : q.active (q.classes p).pri with
    | none =>
        simp only [activate, ha]
        have h := hrefl.modify p (f := fun c => { c with peer := some p }) fun _ => rfl
        exact ⟨h.wrr, h.link, h.maxpkt, h.eligible, h.classes⟩
    | some a =>
        simp only [activate, ha]
        have h := (hrefl.modify p (f := fun c => { c with peer := (q.classes a).peer })
          fun _ => rfl).modify a (f := fun c => { c with peer := some p }) fun _ => rfl
        exact ⟨h.wrr, h.link, h.maxpkt, h.eligible, h.classes⟩
  · exact ⟨hrefl, rfl⟩

/-- **A class with a valid priority, allotment and level is accepted.** -/
theorem Accepting.insert (h : Accepting q) (p : ℕ) :
    ∃ q', insertClass p q = some (0, q') ∧ Accepting q' ∧ SameSettings q q' := by
  obtain ⟨bandwidth, hpos, hlink⟩ := h.link
  obtain ⟨hentered, hcnt⟩ := entered_settings p q
  have hrated := hentered.modify p (f := fun c => { c with
    maxrate := c.allotment * (bandwidth / 8) }) fun _ => rfl
  -- the allotment is added, and the class is put into its list
  obtain ⟨q₁, hadd, hq₁, hcnt₁⟩ : ∃ q₁, addallot (q.classes p).pri (q.classes p).allotment
      (CBQueue.modify p (fun c => { c with
        maxrate := c.allotment * (bandwidth / 8) }) (entered p q)) = some q₁ ∧
      SameSettings q q₁ ∧ q₁.cnt = q.cnt := by
    rw [addallot, if_pos (hrated.wrr.trans h.wrr), setM_accepts]
    · exact ⟨_, rfl, ⟨hrated.wrr, hrated.link, hrated.maxpkt, hrated.eligible, hrated.classes⟩,
        hcnt⟩
    · exact fun prio => (congrFun hcnt prio) ▸ h.cnt prio
    · exact hrated.maxpkt ▸ h.maxpkt
  have hadded : SameSettings q (addLevel p q₁) := by
    have hset := hq₁.modify p (f := fun c => { c with
      levelPeer := q₁.levels (q₁.classes p).level }) fun _ => rfl
    exact ⟨hset.wrr, hset.link, hset.maxpkt, hset.eligible, hset.classes⟩
  have hbase : insertBase p q = some (0, addLevel p q₁) := by
    have hlevel : ¬ ((q₁.classes p).level ≤ 0 ∨ maxLevel < (q₁.classes p).level) := by
      rw [hq₁.classes p]
      exact not_or.mpr ⟨(h.level p).1.not_ge, (h.level p).2.not_gt⟩
    simp only [insertBase]
    rw [if_neg (not_or.mpr ⟨(h.pri p).1.not_gt, (h.pri p).2.not_gt⟩),
      if_neg (not_or.mpr ⟨(h.allotment p).1.not_gt, (h.allotment p).2.not_gt⟩), hentered.link,
      hlink]
    dsimp only
    rw [if_neg hpos.not_ge, hadd, Option.map_some, leveled, if_neg hlevel]
  -- the classes of its priority are counted
  have hpri : ((addLevel p q₁).classes p).pri = (q.classes p).pri := by
    rw [hadded.classes p]
  obtain ⟨q₂, hset, hsettings, hcnt₂⟩ : ∃ q₂, setM { addLevel p q₁ with
      cnt := Function.update q.cnt (q.classes p).pri (q.cnt (q.classes p).pri + 1) } = some q₂ ∧
      SameSettings q q₂ ∧ ∀ prio, 0 ≤ q₂.cnt prio := by
    have hcnt' : ∀ prio,
        0 ≤ Function.update q.cnt (q.classes p).pri (q.cnt (q.classes p).pri + 1) prio := by
      intro prio
      rw [Function.update_apply]
      split_ifs
      · exact (h.cnt _).trans (lt_add_one _).le
      · exact h.cnt prio
    rw [setM_accepts hcnt' (hadded.maxpkt ▸ h.maxpkt)]
    exact ⟨_, rfl, ⟨hadded.wrr, hadded.link, hadded.maxpkt, hadded.eligible, hadded.classes⟩, hcnt'⟩
  have hwrr : ¬ (addLevel p q₁).wrr = false := by
    rw [hadded.wrr, h.wrr]
    exact Bool.noConfusion
  have hcnt₃ : (addLevel p q₁).cnt = q.cnt := hcnt₁
  refine ⟨q₂, ?_, hsettings.accepting h hcnt₂, hsettings⟩
  rw [insertClass, hbase]
  simp only [Option.bind_eq_bind, Option.bind_some]
  rw [if_neg hwrr, if_neg (lt_irrefl 0), hpri, hcnt₃, hset]
  rfl

/-- The classes of a list are inserted, one after the other. -/
def insertAll : List ℕ → CBQueue → Option CBQueue
  | [], q => some q
  | p :: ps, q => (insertClass p q).bind fun r => if r.1 = 0 then insertAll ps r.2 else none

theorem Accepting.insertAll (h : Accepting q) (ps : List ℕ) :
    ∃ q', insertAll ps q = some q' ∧ SameSettings q q' := by
  induction ps generalizing q with
  | nil => exact ⟨q, rfl, rfl, rfl, rfl, rfl, fun _ => rfl⟩
  | cons p ps ih =>
      obtain ⟨q₁, hq₁, ha, hs⟩ := h.insert p
      obtain ⟨q', hq', hs'⟩ := ih ha
      refine ⟨q', ?_, hs.trans hs'⟩
      rw [CBQueue.insertAll, hq₁]
      exact hq'

theorem Configured.insertAll {ps : List ℕ} (h : Configured ins q) (hnd : ps.Nodup)
    (hnew : ∀ p ∈ ps, p ∉ ins) (hi : insertAll ps q = some q') :
    Configured (ps.reverse ++ ins) q' := by
  induction ps generalizing q ins with
  | nil => exact Option.some.inj hi ▸ h
  | cons p ps ih =>
      obtain ⟨hp, hnd⟩ := List.nodup_cons.mp hnd
      rw [CBQueue.insertAll] at hi
      obtain ⟨⟨r, q₁⟩, hq₁, hrest⟩ := Option.bind_eq_some_iff.mp hi
      dsimp only at hrest
      split_ifs at hrest with hr
      subst hr
      rw [List.reverse_cons, List.append_assoc]
      refine ih (h.inserted (hnew p List.mem_cons_self) hq₁) hnd (fun c hc hm => ?_) hrest
      rcases List.mem_cons.mp hm with rfl | hm
      · exact hp hc
      · exact hnew c (List.mem_cons_of_mem _ hc) hm

end CBQueue

end Afabric
