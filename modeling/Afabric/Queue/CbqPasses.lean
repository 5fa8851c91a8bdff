import Afabric.Queue.CbqSearch

/-!
# Queue — two passes over a circle

A class that is permitted to send, but has no weight left, makes the search go round once more.  A
permission can have been lost by then only where a class that was delayed has got under its limit,
and that class is permitted to send itself: the second pass finds some class (`second_finds`).  So
the search ends at the first priority at which `send_permitted` has answered yes (`select_spec`).
-/

namespace Afabric

namespace CBQueue

variable {q q' : CBQueue} {now : ℚ} {fuel n c : ℕ} {w w' : Walk} {l a b : List ℕ} {r : Option ℕ}

/-! ### The second pass -/

/-- In a pass that finds nothing and ends with a deficit, a first class lacked weight. -/
theorem scan_short (h : scan now fuel l w = some (none, w')) (hl : l.Nodup) (h0 : w.deficit = 0)
    (h1 : w'.deficit = 1) :
    ∃ a A b w₁, l = a ++ A :: b ∧ SameSearch w.q w₁.q ∧ w.q.demand A = true ∧
      permits now (topped A w₁) fuel A = some true ∧
      (∀ c ∈ a, w.q.demand c = true → Settled now (w'.q.classes c)) ∧
      ∀ c, c ∉ b ∨ w.q.demand c = false →
        (w'.q.classes c).undertime = (w₁.q.classes c).undertime := by
  induction l generalizing w with
  | nil =>
      obtain ⟨-, rfl⟩ := Prod.mk.inj (Option.some.inj h)
      omega
  | cons x l ih =>
      obtain ⟨hx, hl⟩ := List.nodup_cons.mp hl
      obtain ⟨found, w₁, hkept, hv, ⟨-, hr, -⟩ | ⟨rfl, hrest⟩⟩ := scan_cons h
      · cases hr
      · have hpassed := scan_passed hrest
        -- a class before the first one that lacked weight
        have hbefore : w₁.deficit = 0 →
            (w.q.demand x = true → Settled now (w₁.q.classes x)) → ∃ a A b w₁,
              x :: l = a ++ A :: b ∧ SameSearch w.q w₁.q ∧ w.q.demand A = true ∧
              permits now (topped A w₁) fuel A = some true ∧
              (∀ c ∈ a, w.q.demand c = true → Settled now (w'.q.classes c)) ∧
              ∀ c, c ∉ b ∨ w.q.demand c = false →
                (w'.q.classes c).undertime = (w₁.q.classes c).undertime := by
          intro hdef hs
          obtain ⟨a, A, b, w₂, rfl, hsame, hA, hp, ha, hu⟩ := ih hrest hl hdef
          refine ⟨x :: a, A, b, w₂, rfl, hkept.same.trans hsame,
            (hkept.same.demand A).symm.trans hA, hp, fun c hc hd => ?_, fun c hc => ?_⟩
          · rcases List.mem_cons.mp hc with rfl | hc
            · rw [hpassed.others c hx]
              exact hs hd
            · exact ha c hc ((hkept.same.demand c).trans hd)
          · rw [← hkept.same.demand c] at hc
            exact hu c hc
        cases hv with
        | idle hd _ hdef =>
            exact hbefore (hdef.trans h0) fun hd' => absurd (hd'.symm.trans hd) Bool.noConfusion
        | refused _ _ _ hdef hs => exact hbefore (hdef.trans h0) fun _ => hs
        | short hd hp _ _ _ hu =>
            refine ⟨[], x, l, w, rfl, .refl _, hd, hp, fun c hc => absurd hc List.not_mem_nil,
              fun c hc => ?_⟩
            have hone : (w₁.q.classes c).undertime = (w.q.classes c).undertime := by
              by_cases hcx : c = x
              · rw [hcx, hu]
              · rw [hkept.others c hcx]
            rw [← hone]
            rcases hc with hc | hc
            · rw [hpassed.others c hc]
            · exact hpassed.idle c ((hkept.same.demand c).trans hc)

/-- A pass that lacks no weight keeps its deficit, or finds a class. -/
theorem Visited.deficit_eq (h : Visited now fuel c w w' false) (hdef : 1 < w.deficit) :
    w'.deficit = w.deficit := by
  cases h with
  | idle _ _ h => exact h
  | refused _ _ _ h => exact h
  | short _ _ _ _ hle => exact absurd hdef hle.not_gt

/-- The second pass finds a class that is under its limit. -/
theorem scan_under (h : scan now fuel l w = some (none, w')) (hl : l.Nodup) (hdef : 1 < w.deficit) :
    ∀ c ∈ l, w.q.demand c = true → ¬ (w.q.classes c).undertime < now := by
  induction l generalizing w with
  | nil => exact fun c hc => absurd hc List.not_mem_nil
  | cons x l ih =>
      obtain ⟨hx, hl⟩ := List.nodup_cons.mp hl
      obtain ⟨found, w₁, hkept, hv, ⟨-, hr, -⟩ | ⟨rfl, hrest⟩⟩ := scan_cons h
      · cases hr
      · intro c hc hd hunder
        rcases List.mem_cons.mp hc with rfl | hc
        · have hp : permits now (topped c w) fuel c = some true := by
            rw [permits, sendPermitted, topped_undertime, if_pos hunder]
            rfl
          exact Bool.noConfusion (hv.found_of_permits hdef hd hp)
        · have hcx : c ≠ x := fun e => hx (e ▸ hc)
          refine ih hrest hl (hv.deficit_eq hdef ▸ hdef) c hc ((hkept.same.demand c).trans hd) ?_
          rwa [hkept.others c hcx]

/-- Classes that are settled stay as they are in the second pass. -/
theorem scan_settled (h : scan now fuel l w = some (none, w')) (hl : l.Nodup)
    (hdef : 1 < w.deficit) (hs : ∀ c ∈ l, w.q.demand c = true → Settled now (w.q.classes c)) :
    w'.deficit = w.deficit ∧
      ∀ c, (w'.q.classes c).undertime = (w.q.classes c).undertime := by
  induction l generalizing w with
  | nil =>
      obtain ⟨-, rfl⟩ := Prod.mk.inj (Option.some.inj h)
      exact ⟨rfl, fun _ => rfl⟩
  | cons x l ih =>
      obtain ⟨hx, hl⟩ := List.nodup_cons.mp hl
      obtain ⟨found, w₁, hkept, hv, ⟨-, hr, -⟩ | ⟨rfl, hrest⟩⟩ := scan_cons h
      · cases hr
      · have hkeep := hv.deficit_eq hdef
        have hs₁ : ∀ c ∈ l, w₁.q.demand c = true → Settled now (w₁.q.classes c) := by
          intro c hc hd
          rw [hkept.others c fun e => hx (e ▸ hc)]
          exact hs c (List.mem_cons_of_mem _ hc) ((hkept.same.demand c).symm.trans hd)
        obtain ⟨hdef', hu'⟩ := ih hrest hl (hkeep ▸ hdef) hs₁
        refine ⟨hdef'.trans hkeep, fun c => (hu' c).trans ?_⟩
        by_cases hcx : c = x
        · subst hcx
          cases hv with
          | idle _ _ _ hu => exact hu
          | refused hd _ _ _ _ hu => exact hu (hs c List.mem_cons_self hd)
          | short _ _ _ _ _ hu => exact hu
        · rw [hkept.others c hcx]

/-- The lenders of the classes of `l` have no queue of their own. -/
def LendersIdle (l : List ℕ) (q : CBQueue) : Prop :=
  ∀ c ∈ l, ∀ x, Lends q c x → (q.classes x).hasQ = false

theorem LendersIdle.same (h : LendersIdle l q) (hs : SameSearch q q') : LendersIdle l q' := by
  intro c hc x hx
  rw [(hs.classes x).hasQ]
  exact h c hc x (hs.lends ▸ hx)

/-- **The second pass finds a class**, when the first has ended with a deficit. -/
theorem second_finds {w₂ : Walk} (he : Enough fuel w.q) (hidle : LendersIdle l w.q) (hl : l.Nodup)
    (hq : ∀ c ∈ l, (w.q.classes c).hasQ = true)
    (hends : ∀ c ∈ l, Ends (fun c => (w.q.classes c).lender) fuel (w.q.classes c).lender)
    (h : scan now fuel l w = some (none, w')) (h0 : w.deficit = 0) (h1 : w'.deficit = 1) :
    scan now fuel l { w' with deficit := 2 } ≠ some (none, w₂) := by
  intro hsecond
  have hsame := (scan_passed h).same
  have hunder := scan_under hsecond hl (Nat.lt_succ_self 1)
  obtain ⟨a, A, b, w₁, rfl, hsame₁, hA, hp, ha, hu⟩ := scan_short h hl h0 h1
  -- the second pass comes to `A` with every class as the first one left it
  rw [scan_append] at hsecond
  obtain ⟨⟨r, u⟩, hscan, hrest⟩ := Option.bind_eq_some_iff.mp hsecond
  cases r with
  | some e =>
      rw [if_neg (Option.some_ne_none e)] at hrest
      cases Option.some.inj hrest
  | none =>
      rw [if_pos rfl] at hrest
      have hnodup := List.nodup_append.mp hl
      have hsameu : SameSearch w'.q u.q := (scan_passed hscan).same
      obtain ⟨hdefu, huu⟩ := scan_settled hscan hnodup.1 (Nat.lt_succ_self 1) fun c hc hd =>
        ha c hc ((hsame.demand c).symm.trans hd)
      obtain ⟨found, w₃, hkept, hv, ⟨-, hr, -⟩ | ⟨rfl, -⟩⟩ := scan_cons hrest
      · cases hr
      · have hA' : A ∉ b := (List.nodup_cons.mp hnodup.2.1).1
        have hchain : SameSearch (topped A w₁) (topped A u) :=
          ((((topped_same A w₁).symm.trans hsame₁.symm).trans hsame).trans hsameu).trans
            (topped_same A u)
        have hto : SameSearch w.q (topped A u) := (hsame.trans hsameu).trans (topped_same A u)
        have hfrom : SameSearch w.q (topped A w₁) := hsame₁.trans (topped_same A w₁)
        have hundertime : ∀ c, c ∉ b ∨ w.q.demand c = false →
            ((topped A u).classes c).undertime = ((topped A w₁).classes c).undertime := by
          intro c hc
          rw [topped_undertime, topped_undertime, huu, hu c hc]
        have hfewer : FewerUnder now (topped A w₁) (topped A u) := by
          intro c hc
          by_cases hcb : c ∉ b ∨ w.q.demand c = false
          · rwa [← hundertime c hcb]
          · obtain ⟨hmem, hd⟩ := not_or.mp hcb
            rw [topped_undertime, huu] at hc
            exact absurd hc (hunder c (by simp [not_not.mp hmem])
              ((hsame.demand c).trans (Bool.not_eq_false _ ▸ hd)))
        have hlenders : LendersKept A (topped A w₁) (topped A u) := by
          intro x hx
          refine hundertime x (.inl fun hm => ?_)
          have hnone := hidle.same hfrom A (by simp) x hx
          rw [(hfrom.classes x).hasQ, hq x (by simp [hm])] at hnone
          exact Bool.noConfusion hnone
        have hends' := hfrom.ends (hends A (by simp))
        have hpermits : permits now (topped A u) fuel A = some true :=
          permits_mono hchain (he.same hto) hfewer hlenders (hundertime A (.inl hA')) hends' hp
        have hd : u.q.demand A = true :=
          ((hsame.trans hsameu).demand A).trans hA
        have hdef : 1 < u.deficit := by
          rw [hdefu]
          exact Nat.lt_succ_self 1
        exact Bool.noConfusion (hv.found_of_permits hdef hd hpermits)

/-! ### What is asked -/

/-- What a search for a class among those of `l` has logged, and whether it has found one. -/
structure Asked (l : List ℕ) (q : CBQueue) (new : List (ℕ × Bool)) (r : Option ℕ) : Prop where
  mem : ∀ c b, (c, b) ∈ new → c ∈ l ∧ q.demand c = true
  found : ∀ e, r = some e → (e, true) ∈ new
  asked : r = none → ∀ c ∈ l, q.demand c = true → ∃ b, (c, b) ∈ new

theorem scan_asked (h : scan now fuel l w = some (r, w')) :
    ∃ new, w'.log = w.log ++ new ∧ Asked l w.q new r ∧
      (r = none → w'.deficit = w.deficit ∧ (∀ c, (c, true) ∉ new) ∨ w'.deficit = 1) := by
  induction l generalizing w with
  | nil =>
      obtain ⟨rfl, rfl⟩ := Prod.mk.inj (Option.some.inj h)
      refine ⟨[], (List.append_nil _).symm, ⟨fun c b hm => absurd hm List.not_mem_nil,
        fun e he => (by cases he), fun _ c hc => absurd hc List.not_mem_nil⟩,
        fun _ => .inl ⟨rfl, fun c => List.not_mem_nil⟩⟩
  | cons x l ih =>
      obtain ⟨found, w₁, hkept, hv, ⟨rfl, rfl, rfl⟩ | ⟨rfl, hrest⟩⟩ := scan_cons h
      · cases hv with
        | found hd _ hlog =>
            refine ⟨_, hlog, ⟨fun c b hm => ?_, fun e he => ?_, fun hr => (by cases hr)⟩,
              fun hr => (by cases hr)⟩
            · obtain ⟨rfl, -⟩ := Prod.mk.inj (List.mem_singleton.mp hm)
              exact ⟨List.mem_cons_self, hd⟩
            · rw [← Option.some.inj he]
              exact List.mem_singleton_self _
      · obtain ⟨new, hlog, hasked, hdef⟩ := ih hrest
        have hmem : ∀ c b, (c, b) ∈ new → c ∈ x :: l ∧ w.q.demand c = true := fun c b hm =>
          ⟨List.mem_cons_of_mem _ (hasked.mem c b hm).1,
            (hkept.same.demand c).symm.trans (hasked.mem c b hm).2⟩
        have hall : r = none → ∀ c ∈ l, w.q.demand c = true → ∃ b, (c, b) ∈ new :=
          fun hr c hc hd => hasked.asked hr c hc ((hkept.same.demand c).trans hd)
        -- the class itself has been asked
        have hself : ∀ b, w.q.demand x = true → w₁.log = w.log ++ [(x, b)] →
            w'.log = w.log ++ (x, b) :: new ∧ Asked (x :: l) w.q ((x, b) :: new) r := by
          intro b hd hone
          refine ⟨by rw [hlog, hone, List.append_assoc]; rfl, fun c b' hm => ?_,
            fun e he => List.mem_cons_of_mem _ (hasked.found e he), fun hr c hc hdc => ?_⟩
          · rcases List.mem_cons.mp hm with heq | hm
            · obtain ⟨rfl, -⟩ := Prod.mk.inj heq
              exact ⟨List.mem_cons_self, hd⟩
            · exact hmem c b' hm
          · rcases List.mem_cons.mp hc with rfl | hc
            · exact ⟨b, List.mem_cons_self⟩
            · obtain ⟨b', hb'⟩ := hall hr c hc hdc
              exact ⟨b', List.mem_cons_of_mem _ hb'⟩
        cases hv with
        | idle hd hone hdef₁ =>
            refine ⟨new, by rw [hlog, hone], ⟨hmem, hasked.found, fun hr c hc hdc => ?_⟩,
              fun hr => ?_⟩
            · rcases List.mem_cons.mp hc with rfl | hc
              · exact absurd (hdc.symm.trans hd) Bool.noConfusion
              · exact hall hr c hc hdc
            · rw [← hdef₁]
              exact hdef hr
        | refused hd _ hone hdef₁ =>
            obtain ⟨hlog', hasked'⟩ := hself false hd hone
            refine ⟨_, hlog', hasked', fun hr => ?_⟩
            rw [← hdef₁]
            refine (hdef hr).imp_left fun hkeep => ⟨hkeep.1, fun c hm => ?_⟩
            rcases List.mem_cons.mp hm with heq | hm
            · cases heq
            · exact hkeep.2 c hm
        | short hd _ hone hdef₁ =>
            obtain ⟨hlog', hasked'⟩ := hself true hd hone
            refine ⟨_, hlog', hasked', fun hr => .inr ?_⟩
            rcases hdef hr with hkeep | hone'
            · exact hkeep.1.trans hdef₁
            · exact hone'

theorem scan_isSome (he : Enough fuel w.q) (now : ℚ)
    (hends : ∀ c ∈ l, Ends (fun c => (w.q.classes c).lender) fuel (w.q.classes c).lender) :
    (scan now fuel l w).isSome := by
  induction l generalizing w with
  | nil => rfl
  | cons x l ih =>
      obtain ⟨⟨found, w₁⟩, hvisit⟩ := Option.isSome_iff_exists.mp
        (he.visit_isSome now (hends x List.mem_cons_self))
      rw [scan, hvisit, Option.bind_some]
      have hsame := (visit_eq hvisit).1.same
      cases found with
      | true => rfl
      | false =>
          refine ih (he.same hsame) fun c hc => ?_
          exact hsame.ends (hends c (List.mem_cons_of_mem _ hc))

/-! ### Circles -/

/-- The classes of a priority are linked in a circle, of which `l` is a round. -/
structure Circle (q : CBQueue) (prio : ℤ) (l : List ℕ) : Prop where
  active : q.active prio = l.head?
  circle : TailCircle (fun c => (q.classes c).peer) l.getLast? l

theorem Circle.same {prio : ℤ} (h : Circle q prio l) (hs : SameSearch q q') : Circle q' prio l where
  active := (congrFun hs.active prio).trans h.active
  circle := by
    rw [show (fun c => (q'.classes c).peer) = fun c => (q.classes c).peer from
      funext fun c => (hs.classes c).peer]
    exact h.circle

/-- The inner loop, from a class of the circle, is a scan of the classes that are left. -/
theorem round_eq {prio : ℤ} (h : Circle w.q prio (a ++ c :: b)) (hn : b.length < n) :
    round now fuel prio n c w =
      (scan now fuel (c :: b) w).map fun r =>
        (r.1.isSome, r.1.or (a ++ c :: b).head?, r.2) := by
  induction b generalizing a c w n with
  | nil =>
      obtain ⟨n, rfl⟩ := exists_fuel hn
      rw [round, scan]
      cases hvisit : visit now fuel c w with
      | none => rfl
      | some r =>
          obtain ⟨found, w₁⟩ := r
          have hcircle := h.same (visit_eq hvisit).1.same
          cases found with
          | true => rfl
          | false =>
              obtain ⟨y, hy⟩ : ∃ y, (a ++ [c]).head? = some y := by
                cases a with
                | nil => exact ⟨c, rfl⟩
                | cons y a => exact ⟨y, rfl⟩
              have hpeer : (w₁.q.classes c).peer = some y := hcircle.circle.next_eq.trans hy
              have hactive : w₁.q.active prio = some y := hcircle.active.trans hy
              simp only [Option.bind_some, hpeer, hactive, if_true, scan, hy]
              rfl
  | cons x b ih =>
      obtain ⟨n, rfl⟩ := exists_fuel hn
      have happend : a ++ c :: x :: b = (a ++ [c]) ++ x :: b := by simp
      rw [round, scan]
      cases hvisit : visit now fuel c w with
      | none => rfl
      | some r =>
          obtain ⟨found, w₁⟩ := r
          have hcircle := h.same (visit_eq hvisit).1.same
          cases found with
          | true => rfl
          | false =>
              have hpeer : (w₁.q.classes c).peer = some x := hcircle.circle.next_eq
              have hactive : w₁.q.active prio ≠ some x := by
                rw [hcircle.active, happend, List.head?_append_of_ne_nil _ (by simp)]
                intro he
                have hmem : x ∈ a ++ [c] := List.mem_of_mem_head? he
                rw [happend] at hcircle
                exact hcircle.circle.not_mem.1 hmem
              simp only [Option.bind_some, hpeer, if_neg hactive]
              rw [happend] at hcircle ⊢
              exact ih hcircle (Nat.lt_of_succ_lt_succ hn)

/-- **The passes over one circle**: they find a class that is permitted to send, or every class with
demand has been asked and none is. -/
theorem passes_spec (now : ℚ) {prio : ℤ} (h : Circle w.q prio l) (hne : l ≠ [])
    (he : Enough fuel w.q) (hidle : LendersIdle l w.q) (hq : ∀ c ∈ l, (w.q.classes c).hasQ = true)
    (hends : ∀ c ∈ l, Ends (fun c => (w.q.classes c).lender) fuel (w.q.classes c).lender)
    (h0 : w.deficit = 0) (hf : l.length < fuel) :
    ∃ r w' new, passes now fuel prio fuel (w.q.active prio) w = some (r, w') ∧ Passed l w w' ∧
      w'.log = w.log ++ new ∧ Asked l w.q new r ∧ (r = none → ∀ c, (c, true) ∉ new) := by
  obtain ⟨x, b, rfl⟩ := List.exists_cons_of_ne_nil hne
  rw [List.length_cons] at hf
  obtain ⟨n, rfl⟩ : ∃ m, fuel = m + 2 := ⟨fuel - 2, by omega⟩
  have hround : ∀ v : Walk, SameSearch w.q v.q → round now (n + 2) prio (n + 2) x v =
      (scan now (n + 2) (x :: b) v).map fun r => (r.1.isSome, r.1.or (some x), r.2) := by
    intro v hv
    have hcircle : Circle v.q prio ([] ++ x :: b) := h.same hv
    rw [round_eq hcircle (by omega)]
    rfl
  obtain ⟨⟨r₁, w₁⟩, hscan⟩ := Option.isSome_iff_exists.mp (scan_isSome he now hends)
  have hpassed := scan_passed hscan
  obtain ⟨new, hlog, hasked, hdef⟩ := scan_asked hscan
  rw [h.active, List.head?_cons, passes, hround w (.refl _), hscan]
  simp only [Option.map_some, Option.bind_some]
  cases r₁ with
  | some e => exact ⟨some e, w₁, new, rfl, hpassed, hlog, hasked, fun hr => (by cases hr)⟩
  | none =>
      simp only [Option.isSome_none, if_neg Bool.false_ne_true, Option.none_or]
      by_cases h1 : w₁.deficit = 1
      · rw [if_pos h1]
        have hends₁ : ∀ c ∈ x :: b,
            Ends (fun c => (w₁.q.classes c).lender) (n + 2) (w₁.q.classes c).lender :=
          fun c hc => hpassed.same.ends (hends c hc)
        obtain ⟨⟨r₂, w₂⟩, hsecond⟩ := Option.isSome_iff_exists.mp
          (scan_isSome (w := { w₁ with deficit := 2 }) (he.same hpassed.same) now hends₁)
        obtain ⟨e, rfl⟩ : ∃ e, r₂ = some e := by
          cases r₂ with
          | some e => exact ⟨e, rfl⟩
          | none =>
              exact absurd hsecond (second_finds he hidle h.circle.nodup hq hends hscan h0 h1)
        have hpassed₂ : Passed (x :: b) w₁ w₂ := by
          have hp := scan_passed hsecond
          exact ⟨hp.same, hp.others, hp.idle, hp.first⟩
        obtain ⟨new₂, hlog₂, hasked₂, -⟩ := scan_asked hsecond
        refine ⟨some e, w₂, new ++ new₂, ?_, hpassed.trans hpassed₂ (fun _ h => h) fun _ h => h,
          ?_, ⟨fun c b hm => ?_, fun e he => ?_, fun hr => (by cases hr)⟩,
          fun hr => (by cases hr)⟩
        · rw [passes, hround { w₁ with deficit := 2 } hpassed.same, hsecond]
          rfl
        · rw [hlog₂, ← List.append_assoc, ← hlog]
        · rcases List.mem_append.mp hm with hm | hm
          · exact hasked.mem c b hm
          · exact ⟨(hasked₂.mem c b hm).1,
              (hpassed.same.demand c).symm.trans (hasked₂.mem c b hm).2⟩
        · exact List.mem_append_right _ (hasked₂.found e he)
      · rw [if_neg h1]
        exact ⟨none, w₁, new, rfl, hpassed, hlog, hasked, fun _ =>
          ((hdef rfl).resolve_right h1).2⟩

end CBQueue

end Afabric
