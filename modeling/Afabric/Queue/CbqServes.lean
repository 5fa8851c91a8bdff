import Afabric.Queue.CbqRings

/-!
# Queue — whom weighted round robin serves

A search answers for all the classes with a queue, priority by priority (`select_spec`).  `deque`
returns where the lenders of every class come to an end, and serves a class of the first priority at
which `send_permitted` has answered yes (`deque_serves`); two classes that lend to each other, or a
class that has been inserted twice, make it run for ever.
-/

namespace Afabric

namespace CBQueue

variable {q q' : CBQueue} {now : ℚ} {fuel n c p : ℕ} {w w' : Walk} {l : List ℕ} {ring : ℤ → List ℕ}
  {ins : List ℕ}

/-- What a search that is not over needs. -/
structure Ready (fuel : ℕ) (ring : ℤ → List ℕ) (ins : List ℕ) (q : CBQueue) : Prop where
  rings : Rings ring ins q
  enough : Enough fuel q
  idle : LendersIdle ins q
  ends : ∀ c ∈ ins, Ends (fun c => (q.classes c).lender) fuel (q.classes c).lender
  fuel : ins.length < fuel

theorem Ready.same (h : Ready fuel ring ins q) (hs : SameSearch q q') :
    Ready fuel ring ins q' where
  rings := h.rings.same hs
  enough := h.enough.same hs
  idle := h.idle.same hs
  ends c hc := hs.ends (h.ends c hc)
  fuel := h.fuel

/-- A class that is scheduled: one with a queue. -/
def Scheduled (ins : List ℕ) (q : CBQueue) (c : ℕ) : Prop :=
  c ∈ ins ∧ (q.classes c).hasQ = true

theorem SameSearch.scheduled_iff (h : SameSearch q q') (ins : List ℕ) (c : ℕ) :
    Scheduled ins q' c ↔ Scheduled ins q c := by
  rw [Scheduled, Scheduled, (h.classes c).hasQ]

/-- What a search over the priorities `ps` has logged, and whether it has found a class. -/
structure Answered (ring : ℤ → List ℕ) (ins : List ℕ) (ps : List ℤ) (q : CBQueue)
    (new : List (ℕ × Bool)) (r : Option ℕ) : Prop where
  mem : ∀ c b, (c, b) ∈ new → Scheduled ins q c ∧ q.demand c = true
  found : ∀ e, r = some e → (e, true) ∈ new ∧
    ∀ c, (c, true) ∈ new → (q.classes c).pri = (q.classes e).pri
  refused : r = none → (∀ c, (c, true) ∉ new) ∧
    ∀ prio ∈ ps, ∀ c ∈ ring prio, q.demand c = true → (c, false) ∈ new

theorem prios_spec (now : ℚ) (h : Ready fuel ring ins w.q) (ps : List ℤ) :
    ∃ r w' new, prios now fuel ps w = some (r, w') ∧ SameSearch w.q w'.q ∧
      (∀ f, w'.first = some f → w.first = some f ∨ Scheduled ins w.q f ∧ Borrows w.q f) ∧
      w'.log = w.log ++ new ∧ Answered ring ins ps w.q new r := by
  induction ps generalizing w with
  | nil =>
      refine ⟨none, w, [], rfl, .refl _, fun f hf => .inl hf, (List.append_nil _).symm,
        fun c b hm => absurd hm List.not_mem_nil, fun e he => (by cases he), fun _ =>
          ⟨fun c => List.not_mem_nil, fun prio hp => absurd hp List.not_mem_nil⟩⟩
  | cons prio ps ih =>
      have hcircle := h.rings.circle prio
      cases hring : ring prio with
      | nil =>
          have hnone : w.q.active prio = none := by
            rw [hcircle.active, hring]
            rfl
          obtain ⟨r, w', new, hrun, hsame, hfirst, hlog, hans⟩ := ih h
          refine ⟨r, w', new, ?_, hsame, hfirst, hlog, hans.mem, hans.found, fun hr => ?_⟩
          · rw [prios, hnone]
            exact hrun
          · refine ⟨(hans.refused hr).1, fun prio' hp c hc hd => ?_⟩
            rcases List.mem_cons.mp hp with rfl | hp
            · rw [hring] at hc
              exact absurd hc List.not_mem_nil
            · exact (hans.refused hr).2 prio' hp c hc hd
      | cons x b =>
          have hactive : w.q.active prio = some x := by
            rw [hcircle.active, hring]
            rfl
          have hmem : ∀ c ∈ ring prio, Scheduled ins w.q c := fun c hc =>
            ⟨((h.rings.mem prio c).mp hc).1, ((h.rings.mem prio c).mp hc).2.1⟩
          have hlen := (h.rings.length_le prio).trans_lt h.fuel
          obtain ⟨r₁, w₁, new₁, hrun₁, hpassed, hlog₁, hasked, hnone₁⟩ :=
            passes_spec (w := { w with deficit := 0 }) now hcircle (by simp [hring])
              h.enough (fun c hc => h.idle c (hmem c hc).1) (fun c hc => (hmem c hc).2)
              (fun c hc => h.ends c (hmem c hc).1) rfl hlen
          rw [prios, hactive]
          rw [show ({ w with deficit := 0 } : Walk).q.active prio = some x from hactive] at hrun₁
          simp only [hrun₁, Option.bind_some]
          have hfirst₁ : ∀ f, w₁.first = some f →
              w.first = some f ∨ Scheduled ins w.q f ∧ Borrows w.q f := fun f hf =>
            (hpassed.first f hf).imp_right fun hb => ⟨hmem f hb.1, hb.2⟩
          have hmem₁ : ∀ c b, (c, b) ∈ new₁ → Scheduled ins w.q c ∧ w.q.demand c = true :=
            fun c b hm => ⟨hmem c (hasked.mem c b hm).1, (hasked.mem c b hm).2⟩
          have hpri : ∀ c b, (c, b) ∈ new₁ → (w.q.classes c).pri = prio := fun c b hm =>
            ((h.rings.mem prio c).mp (hasked.mem c b hm).1).2.2
          cases r₁ with
          | some e =>
              refine ⟨some e, w₁, new₁, rfl, hpassed.same, hfirst₁, hlog₁, hmem₁, fun e' he' => ?_,
                fun hr => (by cases hr)⟩
              obtain rfl := Option.some.inj he'
              have hfound := hasked.found e rfl
              exact ⟨hfound, fun c hm => (hpri c true hm).trans (hpri e true hfound).symm⟩
          | none =>
              rw [if_pos rfl]
              have hsame₁ : SameSearch w.q w₁.q := hpassed.same
              obtain ⟨r, w', new, hrun, hsame, hfirst, hlog, hans⟩ := ih (h.same hsame₁)
              refine ⟨r, w', new₁ ++ new, hrun, hsame₁.trans hsame, fun f hf => ?_, ?_,
                fun c b hm => ?_, fun e he => ?_, fun hr => ?_⟩
              · rcases hfirst f hf with hf | ⟨hf, hborrows⟩
                · exact hfirst₁ f hf
                · exact .inr ⟨(hsame₁.scheduled_iff ins f).mp hf,
                    (hsame₁.borrows_iff f).mp hborrows⟩
              · rw [hlog, hlog₁, List.append_assoc]
              · rcases List.mem_append.mp hm with hm | hm
                · exact hmem₁ c b hm
                · obtain ⟨hscheduled, hd⟩ := hans.mem c b hm
                  exact ⟨(hsame₁.scheduled_iff ins c).mp hscheduled,
                    (hsame₁.demand c).symm.trans hd⟩
              · obtain ⟨hfound, hall⟩ := hans.found e he
                refine ⟨List.mem_append_right _ hfound, fun c hm => ?_⟩
                rcases List.mem_append.mp hm with hm | hm
                · exact absurd hm (hnone₁ rfl c)
                · rw [← (hsame₁.classes c).pri, hall c hm, (hsame₁.classes e).pri]
              · refine ⟨fun c hm => ?_, fun prio' hp c hc hd => ?_⟩
                · rcases List.mem_append.mp hm with hm | hm
                  · exact hnone₁ rfl c hm
                  · exact (hans.refused hr).1 c hm
                · rcases List.mem_cons.mp hp with rfl | hp
                  · obtain ⟨b, hb⟩ := hasked.asked rfl c hc hd
                    cases b with
                    | true => exact absurd hb (hnone₁ rfl c)
                    | false => exact List.mem_append_left _ hb
                  · exact List.mem_append_right _
                      ((hans.refused hr).2 prio' hp c hc ((hsame₁.demand c).trans hd))

/-- **The search for a class.** -/
theorem select_spec (now : ℚ) (h : Ready fuel ring ins q) :
    ∃ r w', select now fuel q = some (r, w') ∧ SameSearch q w'.q ∧
      (∀ f, w'.first = some f → Scheduled ins q f ∧ Borrows q f) ∧
      (∀ c b, (c, b) ∈ w'.log → Scheduled ins q c ∧ q.demand c = true) ∧
      (∀ e, r = some e → (e, true) ∈ w'.log ∧
        ∀ c, (c, true) ∈ w'.log → (q.classes c).pri = (q.classes e).pri) ∧
      (r = none → (∀ c, (c, true) ∉ w'.log) ∧
        ∀ c, Scheduled ins q c → q.demand c = true → (c, false) ∈ w'.log) := by
  obtain ⟨r, w', new, hrun, hsame, hfirst, hlog, hans⟩ :=
    prios_spec (w := ⟨q, none, 0, []⟩) now h
      ((List.range (q.maxprio + 1).toNat).map fun i : ℕ => (i : ℤ))
  rw [List.nil_append] at hlog
  subst hlog
  refine ⟨r, w', hrun, hsame, fun f hf => (hfirst f hf).resolve_left fun hc => (by cases hc),
    hans.mem, hans.found, fun hr => ⟨(hans.refused hr).1, fun c ⟨hc, hq⟩ hd => ?_⟩⟩
  obtain ⟨hlow, hhigh⟩ := h.rings.prio c hc hq
  refine (hans.refused hr).2 (q.classes c).pri ?_ c ((h.rings.mem _ c).mpr ⟨hc, hq, rfl⟩) hd
  refine List.mem_map.mpr ⟨(q.classes c).pri.toNat, List.mem_range.mpr ?_, ?_⟩
  · omega
  · omega

/-! ### The accounting -/

theorem update_spec (stats : CBQClass → ℤ → ℚ × ℚ) (size : ℤ)
    (hl : SLL (fun c => (q.classes c).lender) (some c) l) (hn : l.length < n) :
    ∃ q', update stats size n c q = some q' ∧ SameSearch q q' := by
  induction l generalizing c n q with
  | nil => cases hl
  | cons x l ih =>
      obtain ⟨n, rfl⟩ := exists_fuel hn
      obtain ⟨hx, hrest⟩ := hl
      obtain rfl := Option.some.inj hx
      have hsame : SameSearch q (modify c (fun x => { x with
          avgidle := (stats x size).1
          undertime := (stats x size).2 }) q) :=
        .modify c q fun _ => ⟨rfl, rfl, rfl, rfl, rfl, rfl, rfl, rfl⟩
      have hlender := (hsame.classes c).lender
      simp only [update, hlender]
      cases hnext : (q.classes c).lender with
      | none => exact ⟨_, rfl, hsame⟩
      | some y =>
          have htail : SLL (fun c => (q.classes c).lender) (q.classes c).lender l := hrest
          rw [hnext] at htail
          obtain ⟨q', hq', hsame'⟩ := ih (htail.congr fun x _ => (hsame.classes x).lender)
            (Nat.lt_of_succ_lt_succ hn)
          exact ⟨q', hq', hsame.trans hsame'⟩

theorem SameLinks.modify {f : CBQClass → CBQClass} (p : ℕ) (q : CBQueue)
    (hf : ∀ c, (f c).peer = c.peer ∧ (f c).levelPeer = c.levelPeer ∧ (f c).hasQ = c.hasQ ∧
      (f c).pri = c.pri) : SameLinks ins q (modify p f q) where
  wrr := rfl
  maxprio := rfl
  levels := rfl
  active _ := .inl rfl
  peer c _ := modify_field CBQClass.peer (fun c => (hf c).1) p c q
  levelPeer c _ := modify_field CBQClass.levelPeer (fun c => (hf c).2.1) p c q
  hasQ c _ := modify_field CBQClass.hasQ (fun c => (hf c).2.2.1) p c q
  pri c _ := modify_field CBQClass.pri (fun c => (hf c).2.2.2) p c q

theorem SameLinks.toplevelDeparture (h : SameLinks ins q q') (now : ℚ) (c : ℕ) :
    SameLinks ins q (toplevelDeparture now c q') := by
  rw [CBQueue.toplevelDeparture]
  cases q'.lastLender with
  | none => exact h
  | some l =>
      dsimp only
      by_cases hle : (q'.classes l).level ≤ q'.toplevel
      · rw [if_pos hle]
        exact ⟨h.wrr, h.maxprio, h.levels, h.active, h.peer, h.levelPeer, h.hasQ, h.pri⟩
      · rw [if_neg hle]
        exact h

/-- The circle goes on from the class `d`. -/
theorem SameLinks.goOn {d : ℕ} (h : SameLinks ins q q') (he : c ∈ ins) (hd : d ∈ ins)
    (hq : (q.classes d).hasQ = true) (hpri : (q.classes d).pri = (q.classes c).pri) :
    SameLinks ins q
      { q' with active := Function.update q'.active (q'.classes c).pri (some d) } where
  wrr := h.wrr
  maxprio := h.maxprio
  levels := h.levels
  active prio := by
    by_cases hp : prio = (q'.classes c).pri
    · subst hp
      refine .inr ⟨d, hd, hq, hpri.trans (h.pri c he).symm, Function.update_self _ _ _⟩
    · have hother : Function.update q'.active (q'.classes c).pri (some d) prio = q'.active prio :=
        Function.update_of_ne hp _ _
      simp only [hother]
      exact h.active prio
  peer := h.peer
  levelPeer := h.levelPeer
  hasQ := h.hasQ
  pri := h.pri

theorem account_spec {e : ℕ} (now : ℚ) (stats : CBQClass → ℤ → ℚ × ℚ)
    (resume : ℕ → ℕ × Option ℤ) (granted : Bool) (h : Rings ring ins q) (he : e ∈ ins)
    (hq : (q.classes e).hasQ = true)
    (hends : Ends (fun c => (q.classes c).lender) fuel (some e)) :
    ∃ q', account now stats resume fuel granted e q = some q' ∧ SameLinks ins q q' := by
  obtain ⟨d, hd, hpeer, hqd, hpri⟩ := h.peer he hq
  have hnext : ∀ (q₁ : CBQueue) (o : Option ℕ), SameLinks ins q q₁ → o = some d ∨ o = some e →
      SameLinks ins q { q₁ with active := Function.update q₁.active (q₁.classes e).pri o } := by
    rintro q₁ o hlinks (rfl | rfl)
    · exact hlinks.goOn he hd hqd hpri
    · exact hlinks.goOn he he hq rfl
  have hresumed : SameLinks ins q (modify e (fun c => { c with pkts := (resume e).1 }) q) :=
    .modify e q fun _ => ⟨rfl, rfl, rfl, rfl⟩
  simp only [account]
  cases (resume e).2 with
  | none => exact ⟨_, rfl, hnext _ _ hresumed (.inl hpeer)⟩
  | some size =>
      cases granted with
      | false => exact ⟨_, rfl, hnext _ _ hresumed (.inl hpeer)⟩
      | true =>
          have hpaid : SameSearch (modify e (fun c => { c with pkts := (resume e).1 }) q)
              (modify e (fun c => { c with
                bytesAlloc := if 0 < c.bytesAlloc then c.bytesAlloc - size else c.bytesAlloc })
                (modify e (fun c => { c with pkts := (resume e).1 }) q)) :=
            .modify e _ fun _ => ⟨rfl, rfl, rfl, rfl, rfl, rfl, rfl, rfl⟩
          obtain ⟨l, hl, hlen⟩ := hends
          have hlender : ∀ c, ((modify e (fun c => { c with
              bytesAlloc := if 0 < c.bytesAlloc then c.bytesAlloc - size else c.bytesAlloc })
              (modify e (fun c => { c with pkts := (resume e).1 }) q)).classes c).lender =
                (q.classes c).lender := fun c =>
            (hpaid.classes c).lender.trans (modify_field CBQClass.lender
              (f := fun c => { c with pkts := (resume e).1 }) (fun _ => rfl) e c q)
          obtain ⟨q₃, hq₃, hupdated⟩ := update_spec stats size
            (hl.congr fun c _ => hlender c) hlen
          have hlinks := (hresumed.trans (hpaid.links ins)).trans (hupdated.links ins)
          simp only [if_true, hq₃, Option.bind_eq_bind, Option.bind_some]
          refine ⟨_, rfl, hnext _ _ ?_ ?_⟩
          · split_ifs
            · exact hlinks.toplevelDeparture now e
            · exact hlinks
          · split_ifs
            · exact .inr rfl
            · exact .inl hpeer

/-! ### Enough fuel -/

theorem Ends.mono {next : ℕ → Option ℕ} {hd : Option ℕ} {m : ℕ} (h : Ends next n hd) (hle : n ≤ m) :
    Ends next m hd := by
  obtain ⟨l, hl, hlen⟩ := h
  exact ⟨l, hl, hlen.trans_le hle⟩

theorem Ends.next {next : ℕ → Option ℕ} (h : Ends next n (some c)) : Ends next n (next c) := by
  obtain ⟨l, hl, hlen⟩ := h
  cases l with
  | nil => cases hl
  | cons x l =>
      obtain ⟨hx, hrest⟩ := hl
      obtain rfl := Option.some.inj hx
      exact ⟨l, hrest, (Nat.lt_succ_self _).trans hlen⟩

/-- Finitely many chains that come to an end do so within some fuel. -/
theorem exists_ends {next : ℕ → Option ℕ} (ins : List ℕ)
    (h : ∀ c ∈ ins, ∃ l, SLL next (some c) l) : ∃ n, ∀ c ∈ ins, Ends next n (some c) := by
  induction ins with
  | nil => exact ⟨0, fun c hc => absurd hc List.not_mem_nil⟩
  | cons x ins ih =>
      obtain ⟨n, hn⟩ := ih fun c hc => h c (List.mem_cons_of_mem _ hc)
      obtain ⟨l, hl⟩ := h x List.mem_cons_self
      refine ⟨max n (l.length + 1), fun c hc => ?_⟩
      rcases List.mem_cons.mp hc with rfl | hc
      · exact ⟨l, hl, (Nat.lt_succ_self _).trans_le (le_max_right _ _)⟩
      · exact (hn c hc).mono (le_max_left _ _)

theorem Rings.ready (h : Rings ring ins q) (hidle : LendersIdle ins q) (halg : q.eligible ≠ .none)
    (hends : ∀ c ∈ ins, Ends (fun c => (q.classes c).lender) fuel (some c))
    (hf : ins.length < fuel) : Ready fuel ring ins q where
  rings := h
  enough := by
    refine ⟨fun level => ?_, halg⟩
    obtain ⟨l, hl, hnodup, hsub⟩ := h.levels level
    exact ⟨l, hl, (List.subperm_of_subset hnodup hsub).length_le.trans_lt hf,
      fun c hc => hends c (hsub hc)⟩
  idle := hidle
  ends c hc := (hends c hc).next
  fuel := hf

/-! ### The service -/

/-- What a call has done: a class that was permitted to send is served, of the first priority that
has one; or none was, all were asked, and a class that may borrow is served, if there is one. -/
structure Served (ins : List ℕ) (q : CBQueue) (out : Dequeued) : Prop where
  asked : ∀ c b, (c, b) ∈ out.log → Scheduled ins q c ∧ q.demand c = true
  permitted : ∀ c, (c, true) ∈ out.log → ∃ e, out.resumed = some e ∧ (e, true) ∈ out.log ∧
    (q.classes e).pri ≤ (q.classes c).pri
  refused : (∀ c, (c, true) ∉ out.log) →
    (∀ c, Scheduled ins q c → q.demand c = true → (c, false) ∈ out.log) ∧
      ∀ e, out.resumed = some e → Scheduled ins q e ∧ Borrows q e

theorem Ready.deque_spec (h : Ready fuel ring ins q) (now : ℚ) (stats : CBQClass → ℤ → ℚ × ℚ)
    (resume : ℕ → ℕ × Option ℤ)
    (hends : ∀ c ∈ ins, Ends (fun c => (q.classes c).lender) fuel (some c)) :
    ∃ out, deque now stats resume fuel q = some out ∧ SameLinks ins q out.q ∧ Served ins q out := by
  obtain ⟨r, w', hrun, hsame, hfirst, hmem, hfound, hnone⟩ := select_spec now h
  rw [deque, hrun, Option.bind_some]
  -- the class that is served, granted or not
  have haccount : ∀ (granted : Bool) (e : ℕ), Scheduled ins q e → ∃ q',
      account now stats resume fuel granted e w'.q = some q' ∧ SameLinks ins q q' := by
    intro granted e he
    have hq : (w'.q.classes e).hasQ = true := (hsame.classes e).hasQ.trans he.2
    obtain ⟨q', hq', hlinks⟩ := account_spec now stats resume granted (h.rings.same hsame) he.1 hq
      (hsame.lender_eq ▸ hends e he.1)
    exact ⟨q', hq', (hsame.links ins).trans hlinks⟩
  cases r with
  | some e =>
      obtain ⟨hlog, hpri⟩ := hfound e rfl
      obtain ⟨q', hq', hlinks⟩ := haccount true e (hmem e true hlog).1
      simp only [Option.some_or, Option.isSome_some, hq', Option.map_some]
      refine ⟨_, rfl, hlinks, hmem, fun c hc => ⟨e, rfl, hlog, (hpri c hc).ge⟩, fun hn => ?_⟩
      exact absurd hlog (hn e)
  | none =>
      obtain ⟨hno, hall⟩ := hnone rfl
      cases hf : w'.first with
      | none =>
          refine ⟨_, rfl, hsame.links ins, hmem, fun c hc => absurd hc (hno c), fun _ => ⟨hall, ?_⟩⟩
          exact fun e he => (by cases he)
      | some e =>
          obtain ⟨hscheduled, hborrows⟩ := hfirst e hf
          obtain ⟨q', hq', hlinks⟩ := haccount false e hscheduled
          simp only [Option.none_or, Option.isSome_none, hq', Option.map_some]
          refine ⟨_, rfl, hlinks, hmem, fun c hc => absurd hc (hno c), fun _ => ⟨hall, ?_⟩⟩
          intro e' he'
          obtain rfl := Option.some.inj he'
          exact ⟨hscheduled, hborrows⟩

/-- **Weighted round robin serves a class that may send.**  Where the lenders of the classes have no
queue and come to an end, a call returns, with a class of the first priority at which some class was
permitted to send; a class that borrows without permission, or none, is left if none was. -/
theorem deque_serves (h : Configured ins q) (hidle : LendersIdle ins q) (halg : q.eligible ≠ .none)
    (hends : ∀ c ∈ ins, ∃ l, SLL (fun c => (q.classes c).lender) (some c) l) (now : ℚ)
    (stats : CBQClass → ℤ → ℚ × ℚ) (resume : ℕ → ℕ × Option ℤ) :
    ∃ n, ∀ fuel ≥ n, ∃ out, deque now stats resume fuel q = some out ∧ Configured ins out.q ∧
      Served ins q out := by
  obtain ⟨ring, hrings⟩ := h.rings
  obtain ⟨n, hn⟩ := exists_ends ins hends
  refine ⟨max n (ins.length + 1), fun fuel hfuel => ?_⟩
  have hends' : ∀ c ∈ ins, Ends (fun c => (q.classes c).lender) fuel (some c) := fun c hc =>
    (hn c hc).mono ((le_max_left _ _).trans hfuel)
  have hready := hrings.ready hidle halg hends' ((le_max_right n _).trans hfuel)
  obtain ⟨out, hout, hlinks, hserved⟩ := hready.deque_spec now stats resume hends'
  exact ⟨out, hout, h.assigned hlinks, hserved⟩

/-- A queue on a link, before any class is inserted. -/
def onLink (classes : ℕ → CBQClass) : CBQueue :=
  { created true 1000 classes with
    link := some 8000
    eligible := .ancestors }

/-- The class 1 has a packet, the class 2 lends to it and the class 3 to 2, and all have to wait. -/
def threeClasses (lender : Option ℕ) (p : ℕ) : CBQClass :=
  { halfClass (p = 1) with
    lender := if p = 1 then some 2 else if p = 2 then some 3 else lender
    level := if p = 1 then 1 else if p = 2 then 2 else 3
    pkts := if p = 1 then 1 else 0
    undertime := 1 }

theorem onLink_accepting {classes : ℕ → CBQClass}
    (h : ∀ p, (classes p).pri = 0 ∧ (classes p).allotment = 1 / 2 ∧ 0 < (classes p).level ∧
      (classes p).level ≤ maxLevel) : Accepting (onLink classes) where
  wrr := rfl
  link := ⟨8000, by norm_num, rfl⟩
  cnt _ := le_refl _
  maxpkt := Int.natCast_nonneg 1000
  pri p := by
    change 0 ≤ (classes p).pri ∧ (classes p).pri ≤ maxPrio - 1
    rw [(h p).1]
    decide
  allotment p := by
    change 0 ≤ (classes p).allotment ∧ (classes p).allotment ≤ 1
    rw [(h p).2.1]
    norm_num
  level p := (h p).2.2

theorem onLink_configured (classes : ℕ → CBQClass) : Configured [] (onLink classes) :=
  .assigned (.created 1000 classes) ⟨rfl, rfl, rfl, fun _ => .inl rfl, by simp, by simp, by simp,
    by simp⟩

/-- The three classes can be inserted, whatever the lender of the class 3 is. -/
theorem threeClasses_configured (lender : Option ℕ) : ∃ q,
    insertAll [3, 2, 1] (onLink (threeClasses lender)) = some q ∧ Configured [1, 2, 3] q ∧
      SameSettings (onLink (threeClasses lender)) q := by
  have hlevel : ∀ p, 0 < (threeClasses lender p).level ∧
      (threeClasses lender p).level ≤ maxLevel := by
    intro p
    simp only [threeClasses, maxLevel]
    split_ifs <;> decide
  have haccepting : Accepting (onLink (threeClasses lender)) :=
    onLink_accepting fun p => ⟨rfl, rfl, hlevel p⟩
  obtain ⟨q, hq, hs⟩ := haccepting.insertAll [3, 2, 1]
  exact ⟨q, hq, (onLink_configured _).insertAll (by decide) (by simp) hq, hs⟩

theorem threeClasses_idle {lender : Option ℕ} (hl : lender ≠ some 1)
    (hs : SameSettings (onLink (threeClasses lender)) q) : LendersIdle [1, 2, 3] q := by
  intro c _ x hx
  obtain ⟨y, hy⟩ : ∃ y, (q.classes y).lender = some x := by
    cases hx with
    | single h => exact ⟨c, h⟩
    | tail _ h => exact ⟨_, h⟩
  rw [hs.classes y] at hy
  rw [hs.classes x]
  change (threeClasses lender y).lender = some x at hy
  refine decide_eq_false fun he => ?_
  subst he
  simp only [threeClasses] at hy
  split_ifs at hy
  · cases hy
  · cases hy
  · exact hl hy

/-- A class whose lenders are over their limits, and have no lenders in the end, is served so. -/
theorem deque_serves_three : ∃ q, insertAll [3, 2, 1] (onLink (threeClasses none)) = some q ∧
    ∃ n, ∀ fuel ≥ n, ∃ out,
      deque 0 (fun _ _ => (0, 0)) (fun _ => (0, some 1000)) fuel q = some out ∧
        Configured [1, 2, 3] out.q ∧ Served [1, 2, 3] q out := by
  obtain ⟨q, hq, hconf, hs⟩ := threeClasses_configured none
  have hlender : (fun c => (q.classes c).lender) = fun c => (threeClasses none c).lender :=
    funext fun c => by rw [hs.classes c]; rfl
  refine ⟨q, hq, deque_serves hconf (threeClasses_idle (by simp) hs) ?_ ?_ _ _ _⟩
  · rw [hs.eligible]
    exact fun h => by cases h
  · intro c hc
    rw [hlender]
    simp only [List.mem_cons, List.not_mem_nil, or_false] at hc
    rcases hc with rfl | rfl | rfl
    · exact ⟨[1, 2, 3], rfl, rfl, rfl, rfl⟩
    · exact ⟨[2, 3], rfl, rfl, rfl⟩
    · exact ⟨[3], rfl, rfl⟩

/-! ### Calls that do not return -/

/-- Lenders that wait, and come to no end. -/
theorem findLenderFrom_never {s : Set ℕ} {x : ℕ} (halg : q.eligible ≠ .toplevel)
    (hs : ∀ x ∈ s, now < (q.classes x).undertime ∧ ∃ y ∈ s, (q.classes x).lender = some y)
    (hx : x ∈ s) : findLenderFrom now q fuel n (some x) = none := by
  induction n generalizing x with
  | zero => rfl
  | succ n ih =>
      obtain ⟨hover, y, hy, hlender⟩ := hs x hx
      rw [findLenderFrom, if_pos hover, if_neg fun h => halg h.1, hlender]
      exact ih hy

/-- Classes without demand that are not linked back to the first one. -/
theorem round_never {s : Set ℕ} {prio : ℤ} (hs : ∀ c ∈ s, w.q.demand c = false ∧
    ∃ d ∈ s, (w.q.classes c).peer = some d ∧ w.q.active prio ≠ some d) (hc : c ∈ s) :
    round now fuel prio n c w = none := by
  induction n generalizing c w with
  | zero => rfl
  | succ n ih =>
      obtain ⟨hd, d, hds, hpeer, hactive⟩ := hs c hc
      have hd' : ¬ (topped c w).demand c = true := by
        rw [(topped_same c w).demand, hd]
        exact Bool.false_ne_true
      have hvisit : visit now fuel c w = some (false, { w with q := zeroed c (topped c w) }) :=
        if_neg hd'
      have hsame : SameSearch w.q (zeroed c (topped c w)) :=
        (topped_same c w).trans (zeroed_same c _)
      have hpeer' : ((zeroed c (topped c w)).classes c).peer = some d :=
        (hsame.classes c).peer.trans hpeer
      have hactive' : (zeroed c (topped c w)).active prio ≠ some d := by
        rw [hsame.active]
        exact hactive
      rw [round, hvisit, Option.bind_some, if_neg Bool.false_ne_true]
      simp only [hpeer', if_neg hactive']
      refine ih (fun x hx => ?_) hds
      obtain ⟨hdx, y, hy, hpeery, hactivey⟩ := hs x hx
      exact ⟨(hsame.demand x).trans hdx, y, hy, (hsame.classes x).peer.trans hpeery,
        fun he => hactivey ((congrFun hsame.active prio).symm.trans he)⟩

/-- A call that does not come round the first circle. -/
theorem deque_never {stats : CBQClass → ℤ → ℚ × ℚ} {resume : ℕ → ℕ × Option ℤ}
    (hactive : q.active 0 = some c) (hmax : 0 ≤ q.maxprio)
    (hround : ∀ n, round now fuel 0 n c ⟨q, none, 0, []⟩ = none) :
    deque now stats resume fuel q = none := by
  obtain ⟨m, hm⟩ : ∃ m, (q.maxprio + 1).toNat = m + 1 := ⟨q.maxprio.toNat, by omega⟩
  have hpasses : passes now fuel 0 fuel (some c) ⟨q, none, 0, []⟩ = none := by
    cases fuel with
    | zero => rfl
    | succ fuel =>
        rw [passes, hround]
        rfl
  rw [deque, select, hm, List.range_succ_eq_map, List.map_cons, Nat.cast_zero, prios]
  simp only [hactive, hpasses]
  rfl

/-- A class behind the first one of its circle. -/
theorem Accepted.behind {a : ℕ} (h : Accepted p q q') (hq : (q.classes p).hasQ = true)
    (ha : q.active (q.classes p).pri = some a) (hne : p ≠ a) :
    q'.active = q.active ∧ (q'.classes a).peer = some p ∧
      (q'.classes p).peer = (q.classes a).peer := by
  obtain ⟨hsame, hpeer⟩ := activate_some ha
  have hentered : entered p q = activate p q := if_pos hq
  refine ⟨?_, ?_, ?_⟩
  · rw [h.active, hentered, hsame]
  · rw [h.peer, hentered]
    exact (congrFun hpeer a).trans (Function.update_self _ _ _)
  · rw [h.peer, hentered]
    refine (congrFun hpeer p).trans ?_
    rw [Function.update_of_ne hne, Function.update_self]

/-- Two classes that lend to each other, both over their limits. -/
theorem deque_lenders_cycle : ∃ q, insertAll [3, 2, 1] (onLink (threeClasses (some 2))) = some q ∧
    LendersIdle [1, 2, 3] q ∧ ∀ stats resume fuel, deque 0 stats resume fuel q = none := by
  obtain ⟨q, hq, hconf, hs⟩ := threeClasses_configured (some 2)
  refine ⟨q, hq, threeClasses_idle (by simp) hs, fun stats resume fuel => ?_⟩
  have hclass : ∀ c, (q.classes c).lender = (threeClasses (some 2) c).lender ∧
      (q.classes c).undertime = 1 ∧ (q.classes c).permitBorrowing = true ∧
      (q.classes c).hasQ = decide (c = 1) ∧ (q.classes c).pri = 0 ∧
      (q.classes c).pkts = (threeClasses (some 2) c).pkts := by
    intro c
    rw [hs.classes c]
    exact ⟨rfl, rfl, rfl, rfl, rfl, rfl⟩
  obtain ⟨ring, hrings⟩ := hconf.rings
  have hmem : ∀ c, c ∈ ring 0 ↔ c = 1 := by
    intro c
    rw [hrings.mem, (hclass c).2.2.2.1, (hclass c).2.2.2.2.1, decide_eq_true_iff]
    constructor
    · exact fun h => h.2.1
    · rintro rfl
      exact ⟨by simp, rfl, rfl⟩
  have hactive : q.active 0 = some 1 := by
    rw [(hrings.circle 0).active]
    cases hring : ring 0 with
    | nil => exact absurd ((hmem 1).mpr rfl) (hring ▸ List.not_mem_nil)
    | cons x l => exact congrArg some ((hmem x).mp (hring ▸ List.mem_cons_self))
  have hmax : 0 ≤ q.maxprio :=
    ((hclass 1).2.2.2.2.1).ge.trans (hrings.prio 1 (by simp) (by rw [(hclass 1).2.2.2.1]; rfl)).2
  refine deque_never hactive hmax fun n => ?_
  cases n with
  | zero => rfl
  | succ n =>
      have htop := topped_same 1 ⟨q, none, 0, []⟩
      have hunder : ∀ c, ((topped 1 ⟨q, none, 0, []⟩).classes c).undertime = 1 := fun c =>
        (topped_undertime 1 ⟨q, none, 0, []⟩ c).trans (hclass c).2.1
      have hlender : ∀ c, ((topped 1 ⟨q, none, 0, []⟩).classes c).lender =
          (threeClasses (some 2) c).lender := fun c => (htop.classes c).lender.trans (hclass c).1
      have hnever : findLenderFrom 0 (topped 1 ⟨q, none, 0, []⟩) fuel fuel (some 2) = none := by
        refine findLenderFrom_never (s := {2, 3}) ?_ (fun x hx => ⟨?_, ?_⟩) (by simp)
        · rw [htop.eligible, hs.eligible]
          exact fun h => by cases h
        · rw [hunder]
          norm_num
        · rw [hlender]
          rcases hx with rfl | rfl
          · exact ⟨3, by simp, rfl⟩
          · exact ⟨2, by simp, rfl⟩
      have hborrows : ((topped 1 ⟨q, none, 0, []⟩).classes 1).permitBorrowing = true :=
        (htop.classes 1).permitBorrowing.trans (hclass 1).2.2.1
      have hdemand : (topped 1 ⟨q, none, 0, []⟩).demand 1 = true := by
        rw [htop.demand, demand, (hclass 1).2.2.2.2.2]
        rfl
      have hfind : findLender 0 (topped 1 ⟨q, none, 0, []⟩) fuel 1 = none := by
        have hno : ¬ (((topped 1 ⟨q, none, 0, []⟩).classes 1).permitBorrowing = false ∨
            ((topped 1 ⟨q, none, 0, []⟩).classes 1).lender = none) := by
          rw [hborrows, hlender]
          decide
        rw [findLender, if_neg hno, hlender]
        exact hnever
      have hsend : sendPermitted 0 (topped 1 ⟨q, none, 0, []⟩) fuel 1 = none := by
        rw [sendPermitted, hunder, if_neg (by norm_num), if_pos hborrows, hfind]
        rfl
      have hvisit : visit 0 fuel 1 ⟨q, none, 0, []⟩ = none := by
        refine (if_pos hdemand).trans ?_
        rw [Option.map_eq_none_iff]
        exact hsend
      rw [round, hvisit]
      rfl

/-- A class that is inserted twice. -/
theorem deque_inserted_twice : ∃ q,
    insertAll [1, 2, 2] (onLink fun _ => halfClass true) = some q ∧ LendersIdle [1, 2] q ∧
      ∀ stats resume fuel, deque 0 stats resume fuel q = none := by
  have haccepting : Accepting (onLink fun _ => halfClass true) :=
    onLink_accepting fun _ => ⟨rfl, rfl, by decide⟩
  obtain ⟨q₁, hq₁, hacc₁, hs₁⟩ := haccepting.insert 1
  obtain ⟨q₂, hq₂, hacc₂, hs₂⟩ := hacc₁.insert 2
  obtain ⟨q₃, hq₃, -, hs₃⟩ := hacc₂.insert 2
  have hall : insertAll [1, 2, 2] (onLink fun _ => halfClass true) = some q₃ := by
    simp only [insertAll, hq₁, hq₂, hq₃, Option.bind_some, if_true]
  have hclass₁ : ∀ c, (q₁.classes c).hasQ = true ∧ (q₁.classes c).pri = 0 := fun c => by
    rw [hs₁.classes c]
    exact ⟨rfl, rfl⟩
  have hs := (hs₁.trans hs₂).trans hs₃
  have hclass₂ : ∀ c, (q₂.classes c).hasQ = true ∧ (q₂.classes c).pri = 0 := fun c => by
    rw [(hs₁.trans hs₂).classes c]
    exact ⟨rfl, rfl⟩
  have hclass : ∀ c, (q₃.classes c).pkts = 0 ∧ (q₃.classes c).lender = none := fun c => by
    rw [hs.classes c]
    exact ⟨rfl, rfl⟩
  -- 1 goes on to 2, and 2 to 1; then 1 to 2, and 2 to where 1 went
  have h₁ := insertClass_accepted hq₁
  have hactive₁ : q₁.active 0 = some 1 := by
    rw [h₁.active]
    rfl
  have hmax₁ : 0 ≤ q₁.maxprio := by
    rw [h₁.maxprio]
    exact (entered_maxprio 1 _).2 rfl
  obtain ⟨hactive₂, hpeer₂, -⟩ := (insertClass_accepted hq₂).behind (hclass₁ 2).1
    ((hclass₁ 2).2 ▸ hactive₁) (by decide)
  obtain ⟨hactive₃, hpeer₃, hself₃⟩ := (insertClass_accepted hq₃).behind (hclass₂ 2).1
    ((hclass₂ 2).2 ▸ hactive₂ ▸ hactive₁) (by decide)
  have hactive : q₃.active 0 = some 1 := by
    rw [hactive₃, hactive₂, hactive₁]
  have hmax : 0 ≤ q₃.maxprio := by
    rw [(insertClass_accepted hq₃).maxprio]
    refine le_trans ?_ (entered_maxprio 2 q₂).1
    rw [(insertClass_accepted hq₂).maxprio]
    exact hmax₁.trans (entered_maxprio 2 q₁).1
  refine ⟨q₃, hall, fun c _ x hx => ?_, fun stats resume fuel => ?_⟩
  · exfalso
    cases hx with
    | single h => exact Option.some_ne_none x (h.symm.trans (hclass c).2)
    | tail _ h => exact Option.some_ne_none x (h.symm.trans (hclass _).2)
  · refine deque_never hactive hmax fun n => ?_
    refine round_never (s := {1, 2}) (fun c hc => ⟨?_, 2, by simp, ?_, ?_⟩) (by simp)
    · rw [demand, (hclass c).1]
      rfl
    · rcases hc with rfl | rfl
      · exact hpeer₃
      · exact hself₃.trans hpeer₂
    · rw [hactive]
      decide

/-- **A call does not return where two classes lend to each other, or a class is inserted twice.**
-/
theorem deque_cycles :
    (∃ q, insertAll [3, 2, 1] (onLink (threeClasses (some 2))) = some q ∧
      LendersIdle [1, 2, 3] q ∧ ∀ stats resume fuel, deque 0 stats resume fuel q = none) ∧
    ∃ q, insertAll [1, 2, 2] (onLink fun _ => halfClass true) = some q ∧
      LendersIdle [1, 2] q ∧ ∀ stats resume fuel, deque 0 stats resume fuel q = none :=
  ⟨deque_lenders_cycle, deque_inserted_twice⟩

end CBQueue

end Afabric
