import Afabric.Queue.CbqDeque

/-!
# Queue — the search for a class

What a search may change.  It moves the `undertime_` of classes that it delays, and nothing else
that a permission depends on (`SameSearch`); so a permission is lost only where some class becomes
unsatisfied (`permits_mono`).  A visit of one class has four ends (`Visited`), and a pass is a scan
of the circle from the class it starts at (`scan`).
-/

namespace Afabric

namespace CBQueue

/-- What no search changes of a class. -/
structure SameClass (c c' : CBQClass) : Prop where
  peer : c'.peer = c.peer
  levelPeer : c'.levelPeer = c.levelPeer
  lender : c'.lender = c.lender
  hasQ : c'.hasQ = c.hasQ
  pkts : c'.pkts = c.pkts
  pri : c'.pri = c.pri
  level : c'.level = c.level
  permitBorrowing : c'.permitBorrowing = c.permitBorrowing

theorem SameClass.refl (c : CBQClass) : SameClass c c := ⟨rfl, rfl, rfl, rfl, rfl, rfl, rfl, rfl⟩

theorem SameClass.trans {a b c : CBQClass} (h : SameClass a b) (h' : SameClass b c) :
    SameClass a c where
  peer := h'.peer.trans h.peer
  levelPeer := h'.levelPeer.trans h.levelPeer
  lender := h'.lender.trans h.lender
  hasQ := h'.hasQ.trans h.hasQ
  pkts := h'.pkts.trans h.pkts
  pri := h'.pri.trans h.pri
  level := h'.level.trans h.level
  permitBorrowing := h'.permitBorrowing.trans h.permitBorrowing

theorem SameClass.symm {a b : CBQClass} (h : SameClass a b) : SameClass b a :=
  ⟨h.peer.symm, h.levelPeer.symm, h.lender.symm, h.hasQ.symm, h.pkts.symm, h.pri.symm,
    h.level.symm, h.permitBorrowing.symm⟩

/-- What no search changes of the queue. -/
structure SameSearch (q q' : CBQueue) : Prop where
  wrr : q'.wrr = q.wrr
  active : q'.active = q.active
  levels : q'.levels = q.levels
  maxprio : q'.maxprio = q.maxprio
  toplevel : q'.toplevel = q.toplevel
  eligible : q'.eligible = q.eligible
  classes : ∀ c, SameClass (q.classes c) (q'.classes c)

variable {q q' q'' : CBQueue} {now : ℚ} {fuel n : ℕ} {c p cl this : ℕ} {w w' : Walk}

theorem SameSearch.refl (q : CBQueue) : SameSearch q q :=
  ⟨rfl, rfl, rfl, rfl, rfl, rfl, fun _ => .refl _⟩

theorem SameSearch.trans (h : SameSearch q q') (h' : SameSearch q' q'') : SameSearch q q'' where
  wrr := h'.wrr.trans h.wrr
  active := h'.active.trans h.active
  levels := h'.levels.trans h.levels
  maxprio := h'.maxprio.trans h.maxprio
  toplevel := h'.toplevel.trans h.toplevel
  eligible := h'.eligible.trans h.eligible
  classes c := (h.classes c).trans (h'.classes c)

theorem SameSearch.symm (h : SameSearch q q') : SameSearch q' q :=
  ⟨h.wrr.symm, h.active.symm, h.levels.symm, h.maxprio.symm, h.toplevel.symm, h.eligible.symm,
    fun c => (h.classes c).symm⟩

theorem SameSearch.modify {f : CBQClass → CBQClass} (cl : ℕ) (q : CBQueue)
    (hf : ∀ c, SameClass c (f c)) : SameSearch q (modify cl f q) := by
  refine ⟨rfl, rfl, rfl, rfl, rfl, rfl, fun c => ?_⟩
  by_cases hc : c = cl
  · rw [hc, modify_self]
    exact hf _
  · rw [modify_of_ne f hc]
    exact .refl _

theorem SameSearch.demand (h : SameSearch q q') (c : ℕ) : q'.demand c = q.demand c := by
  rw [CBQueue.demand, CBQueue.demand, (h.classes c).pkts]

/-! ### Permissions -/

theorem SameSearch.lender_eq (h : SameSearch q q') :
    (fun c => (q'.classes c).lender) = fun c => (q.classes c).lender :=
  funext fun c => (h.classes c).lender

theorem SameSearch.levelPeer_eq (h : SameSearch q q') :
    (fun c => (q'.classes c).levelPeer) = fun c => (q.classes c).levelPeer :=
  funext fun c => (h.classes c).levelPeer

theorem SameSearch.ancestor (h : SameSearch q q') (this fuel p : ℕ) :
    ancestor q' this fuel p = ancestor q this fuel p := by
  induction fuel generalizing p with
  | zero => rfl
  | succ fuel ih =>
      rw [CBQueue.ancestor, CBQueue.ancestor, (h.classes p).permitBorrowing, (h.classes p).lender]
      simp only [ih]

/-- A loop over a level that finds nothing finds nothing with fewer to find. -/
theorem anyFrom_mono {f f' : ℕ → Option Bool} (h : SameSearch q q')
    (hf : ∀ p, f p = some false → f' p = some false) {hd : Option ℕ}
    (hq : anyFrom q f n hd = some false) : anyFrom q' f' n hd = some false := by
  induction n generalizing hd with
  | zero => cases hq
  | succ n ih =>
      cases hd with
      | none => rfl
      | some p =>
          rw [anyFrom] at hq ⊢
          obtain ⟨b, hb, hrest⟩ := Option.bind_eq_some_iff.mp hq
          cases b with
          | true => cases hrest
          | false =>
              rw [if_neg Bool.false_ne_true] at hrest
              rw [hf p hb, Option.bind_some, if_neg Bool.false_ne_true, (h.classes p).levelPeer]
              exact ih hrest

theorem anyFrom_congr {f f' : ℕ → Option Bool} (h : SameSearch q q') (hf : ∀ p, f' p = f p)
    (n : ℕ) (hd : Option ℕ) : anyFrom q' f' n hd = anyFrom q f n hd := by
  induction n generalizing hd with
  | zero => rfl
  | succ n ih =>
      cases hd with
      | none => rfl
      | some p =>
          rw [anyFrom, anyFrom, hf, (h.classes p).levelPeer]
          simp only [ih]

theorem SameSearch.descWithDemand (h : SameSearch q q') (fuel this : ℕ) :
    descWithDemand q' fuel this = descWithDemand q fuel this := by
  rw [CBQueue.descWithDemand, CBQueue.descWithDemand, h.levels]
  exact anyFrom_congr h (fun p => by rw [h.demand, h.ancestor]) _ _

/-- No class gets under its limit. -/
def FewerUnder (now : ℚ) (q q' : CBQueue) : Prop :=
  ∀ c, (q'.classes c).undertime < now → (q.classes c).undertime < now

theorem satisfied_mono (h : SameSearch q q') (hu : FewerUnder now q q')
    (hs : satisfied now q fuel p = some true) : satisfied now q' fuel p = some true := by
  rw [satisfied] at hs ⊢
  rw [(h.classes p).level, h.demand, h.descWithDemand]
  by_cases hlevel : (q.classes p).level = 1
  · rw [if_pos hlevel] at hs ⊢
    by_cases hunder : (q'.classes p).undertime < now
    · rw [decide_eq_true (hu p hunder)] at hs
      rwa [decide_eq_true hunder]
    · rw [decide_eq_false hunder]
      rfl
  · rw [if_neg hlevel] at hs ⊢
    by_cases hunder : (q'.classes p).undertime < now
    · rw [if_pos (hu p hunder)] at hs
      rwa [if_pos hunder]
    · rw [if_neg hunder]

theorem anyUnsatisfied_mono (h : SameSearch q q') (hu : FewerUnder now q q') {ls : List ℤ}
    (hs : anyUnsatisfied now q fuel ls = some false) :
    anyUnsatisfied now q' fuel ls = some false := by
  induction ls with
  | nil => rfl
  | cons level ls ih =>
      rw [anyUnsatisfied] at hs ⊢
      obtain ⟨b, hb, hrest⟩ := Option.bind_eq_some_iff.mp hs
      cases b with
      | true => cases hrest
      | false =>
          have hf : ∀ p, (satisfied now q fuel p).map not = some false →
              (satisfied now q' fuel p).map not = some false := by
            intro p hp
            obtain ⟨b, hsat, hnot⟩ := Option.map_eq_some_iff.mp hp
            obtain rfl : b = true := by simpa using hnot
            rw [satisfied_mono h hu hsat]
            rfl
          rw [h.levels, anyFrom_mono h hf hb]
          exact ih hrest

theorem eligibleFormal_mono (h : SameSearch q q') (hu : FewerUnder now q q')
    (hs : eligibleFormal now q fuel cl = some true) :
    eligibleFormal now q' fuel cl = some true := by
  rw [eligibleFormal] at hs ⊢
  obtain ⟨b, hb, hnot⟩ := Option.map_eq_some_iff.mp hs
  obtain rfl : b = false := by simpa using hnot
  rw [(h.classes cl).level, anyUnsatisfied_mono h hu hb]
  rfl

/-- A chain of lenders, or of classes on a level, that the fuel is enough for. -/
def Ends (next : ℕ → Option ℕ) (fuel : ℕ) (hd : Option ℕ) : Prop :=
  ∃ l, SLL next hd l ∧ l.length < fuel

/-- The lists of the levels and the lenders of their classes end, and a link-sharing algorithm has
been set. -/
structure Enough (fuel : ℕ) (q : CBQueue) : Prop where
  levels : ∀ level, ∃ l, SLL (fun c => (q.classes c).levelPeer) (q.levels level) l ∧
    l.length < fuel ∧ ∀ c ∈ l, Ends (fun c => (q.classes c).lender) fuel (some c)
  algorithm : q.eligible ≠ .none

/-- The lenders of a class still end. -/
theorem SameSearch.ends (h : SameSearch q q')
    (hends : Ends (fun c => (q.classes c).lender) fuel (q.classes cl).lender) :
    Ends (fun c => (q'.classes c).lender) fuel (q'.classes cl).lender := by
  rw [h.lender_eq, (h.classes cl).lender]
  exact hends

theorem Enough.same (h : Enough fuel q) (hs : SameSearch q q') : Enough fuel q' := by
  refine ⟨?_, ?_⟩
  · rw [hs.levelPeer_eq, hs.lender_eq, hs.levels]
    exact h.levels
  · rw [hs.eligible]
    exact h.algorithm

theorem ancestor_isSome {l : List ℕ} (hl : SLL (fun c => (q.classes c).lender) (some p) l)
    (hf : l.length < n) : (ancestor q this n p).isSome := by
  induction l generalizing p n with
  | nil => cases hl
  | cons x l ih =>
      obtain ⟨n, rfl⟩ := exists_fuel hf
      obtain ⟨hx, hrest⟩ := hl
      obtain rfl := Option.some.inj hx
      rw [ancestor]
      split_ifs
      · rfl
      · cases hlender : (q.classes p).lender with
        | none => rfl
        | some y =>
            dsimp only
            split_ifs
            · rfl
            · exact ih (hlender ▸ hrest) (Nat.lt_of_succ_lt_succ hf)

theorem anyFrom_isSome {f : ℕ → Option Bool} {hd : Option ℕ} {l : List ℕ}
    (hl : SLL (fun c => (q.classes c).levelPeer) hd l) (hf : ∀ p ∈ l, (f p).isSome)
    (hn : l.length < n) : (anyFrom q f n hd).isSome := by
  induction l generalizing hd n with
  | nil =>
      obtain ⟨n, rfl⟩ := exists_fuel hn
      cases hl
      rfl
  | cons x l ih =>
      obtain ⟨n, rfl⟩ := exists_fuel hn
      obtain ⟨rfl, hrest⟩ := hl
      obtain ⟨b, hb⟩ := Option.isSome_iff_exists.mp (hf x List.mem_cons_self)
      rw [anyFrom, hb, Option.bind_some]
      split_ifs
      · rfl
      · exact ih hrest (fun p hp => hf p (List.mem_cons_of_mem _ hp)) (Nat.lt_of_succ_lt_succ hn)

theorem Enough.satisfied_isSome (h : Enough fuel q) (now : ℚ) (p : ℕ) :
    (satisfied now q fuel p).isSome := by
  obtain ⟨l, hl, hlen, hends⟩ := h.levels 1
  have hdesc : (descWithDemand q fuel p).isSome := by
    refine anyFrom_isSome hl (fun x hx => ?_) hlen
    split_ifs
    · obtain ⟨l', hl', hlen'⟩ := hends x hx
      exact ancestor_isSome hl' hlen'
    · rfl
  rw [satisfied]
  split_ifs
  · rfl
  · rwa [Option.isSome_map]
  · rfl

theorem Enough.anyUnsatisfied_isSome (h : Enough fuel q) (now : ℚ) (ls : List ℤ) :
    (anyUnsatisfied now q fuel ls).isSome := by
  induction ls with
  | nil => rfl
  | cons level ls ih =>
      obtain ⟨l, hl, hlen, -⟩ := h.levels level
      have hany : (anyFrom q (fun p => (satisfied now q fuel p).map not) fuel
          (q.levels level)).isSome := by
        refine anyFrom_isSome hl (fun x _ => ?_) hlen
        rw [Option.isSome_map]
        exact h.satisfied_isSome now x
      obtain ⟨b, hb⟩ := Option.isSome_iff_exists.mp hany
      rw [anyUnsatisfied, hb, Option.bind_some]
      split_ifs
      · rfl
      · exact ih

theorem Enough.eligibleFormal_isSome (h : Enough fuel q) (now : ℚ) (cl : ℕ) :
    (eligibleFormal now q fuel cl).isSome := by
  rw [eligibleFormal, Option.isSome_map]
  exact h.anyUnsatisfied_isSome now _

theorem Enough.findLenderFrom_isSome (h : Enough fuel q) {hd : Option ℕ} {l : List ℕ}
    (hl : SLL (fun c => (q.classes c).lender) hd l) (hn : l.length < n) :
    (findLenderFrom now q fuel n hd).isSome := by
  induction l generalizing hd n with
  | nil =>
      obtain ⟨n, rfl⟩ := exists_fuel hn
      cases hl
      rfl
  | cons x l ih =>
      obtain ⟨n, rfl⟩ := exists_fuel hn
      obtain ⟨rfl, hrest⟩ := hl
      have hnext := ih hrest (Nat.lt_of_succ_lt_succ hn)
      rw [findLenderFrom]
      by_cases hover : now < (q.classes x).undertime
      · rw [if_pos hover]
        split_ifs
        · rfl
        · exact hnext
      · rw [if_neg hover]
        cases heq : q.eligible with
        | none => exact absurd heq h.algorithm
        | ancestors => rfl
        | toplevel =>
            dsimp only
            split_ifs
            · rfl
            · exact hnext
        | formal =>
            obtain ⟨b, hb⟩ := Option.isSome_iff_exists.mp (h.eligibleFormal_isSome now x)
            simp only [hb, Option.bind_some]
            split_ifs
            · rfl
            · exact hnext

/-- The answer of `send_permitted`. -/
def permits (now : ℚ) (q : CBQueue) (fuel cl : ℕ) : Option Bool :=
  (sendPermitted now q fuel cl).map Prod.fst

theorem Enough.permits_isSome (h : Enough fuel q) (now : ℚ)
    (hc : Ends (fun c => (q.classes c).lender) fuel (q.classes cl).lender) :
    (permits now q fuel cl).isSome := by
  obtain ⟨l, hl, hlen⟩ := hc
  have hlender : (findLender now q fuel cl).isSome := by
    rw [findLender]
    split_ifs
    · rfl
    · exact h.findLenderFrom_isSome hl hlen
  rw [permits, Option.isSome_map, sendPermitted]
  split_ifs
  · rfl
  · rwa [Option.isSome_map]
  · rfl

/-- The class `l` lends to the class `c`, or to one that lends to it. -/
def Lends (q : CBQueue) : ℕ → ℕ → Prop :=
  Relation.TransGen fun c l => (q.classes c).lender = some l

theorem SameSearch.lends (h : SameSearch q q') : Lends q' = Lends q := by
  have hlender : (fun c l => (q'.classes c).lender = some l) =
      fun c l => (q.classes c).lender = some l := by
    funext c l
    rw [(h.classes c).lender]
  rw [Lends, Lends, hlender]

/-- The classes that lend are not regulated. -/
def LendersKept (cl : ℕ) (q q' : CBQueue) : Prop :=
  ∀ l, Lends q cl l → (q'.classes l).undertime = (q.classes l).undertime

theorem findLenderFrom_mono (h : SameSearch q q') (he : Enough fuel q')
    (hu : FewerUnder now q q') {hd : Option ℕ} {l : ℕ}
    (hk : ∀ x, hd = some x →
      (q'.classes x).undertime = (q.classes x).undertime ∧ LendersKept x q q')
    (hl : findLenderFrom now q fuel n hd = some (some l))
    (hsome : (findLenderFrom now q' fuel n hd).isSome) :
    ∃ l', findLenderFrom now q' fuel n hd = some (some l') := by
  induction n generalizing hd with
  | zero => cases hl
  | succ n ih =>
      cases hd with
      | none => cases hl
      | some x =>
          obtain ⟨hx, hkx⟩ := hk x rfl
          have hlenders : ∀ y, (q.classes x).lender = some y →
              (q'.classes y).undertime = (q.classes y).undertime ∧ LendersKept y q q' :=
            fun y hy => ⟨hkx y (.single hy), fun z hz => hkx z (.head hy hz)⟩
          have hnext := ih hlenders
          rw [findLenderFrom] at hl hsome ⊢
          rw [hx, (h.classes x).lender, (h.classes x).level, h.eligible, h.toplevel]
            at hsome ⊢
          by_cases hover : now < (q.classes x).undertime
          · rw [if_pos hover] at hl hsome ⊢
            split_ifs at hl hsome ⊢
            · cases hl
            · exact hnext hl hsome
          · rw [if_neg hover] at hl hsome ⊢
            cases heq : q.eligible with
            | none =>
                rw [heq] at hl
                cases hl
            | ancestors => exact ⟨x, rfl⟩
            | toplevel =>
                simp only [heq] at hl hsome ⊢
                split_ifs at hl hsome ⊢
                · exact ⟨x, rfl⟩
                · exact hnext hl hsome
            | formal =>
                simp only [heq] at hl hsome ⊢
                obtain ⟨b', hb'⟩ :=
                  Option.isSome_iff_exists.mp (he.eligibleFormal_isSome now x)
                obtain ⟨b, hb, hrest⟩ := Option.bind_eq_some_iff.mp hl
                rw [hb', Option.bind_some] at hsome ⊢
                cases b' with
                | true => exact ⟨x, rfl⟩
                | false =>
                    rw [if_neg Bool.false_ne_true] at hsome ⊢
                    cases b with
                    | true =>
                        rw [eligibleFormal_mono h hu hb] at hb'
                        cases hb'
                    | false => exact hnext hrest hsome

/-- **A permission is kept** where no class gets under its limit, but that of the class itself and
those of its lenders stay. -/
theorem permits_mono (h : SameSearch q q') (he : Enough fuel q') (hu : FewerUnder now q q')
    (hk : LendersKept cl q q') (hcl : (q'.classes cl).undertime = (q.classes cl).undertime)
    (hends : Ends (fun c => (q.classes c).lender) fuel (q.classes cl).lender)
    (hp : permits now q fuel cl = some true) : permits now q' fuel cl = some true := by
  have hsome : (findLender now q' fuel cl).isSome := by
    obtain ⟨l, hl, hlen⟩ := hends
    rw [findLender, (h.classes cl).lender]
    split_ifs
    · rfl
    · exact he.findLenderFrom_isSome (h.lender_eq ▸ hl) hlen
  rw [permits, sendPermitted] at hp ⊢
  rw [hcl, (h.classes cl).permitBorrowing]
  by_cases hunder : (q.classes cl).undertime < now
  · rw [if_pos hunder]
    rfl
  · rw [if_neg hunder] at hp ⊢
    by_cases hborrow : (q.classes cl).permitBorrowing = true
    · rw [if_pos hborrow] at hp ⊢
      rw [Option.map_map, Option.map_eq_some_iff] at hp
      obtain ⟨l, hl, hfound⟩ := hp
      obtain ⟨y, rfl⟩ := Option.isSome_iff_exists.mp hfound
      rw [findLender] at hl
      rw [findLender, (h.classes cl).permitBorrowing, (h.classes cl).lender] at hsome ⊢
      split_ifs at hl hsome ⊢
      · cases hl
      · obtain ⟨l', hl'⟩ := findLenderFrom_mono h he hu (fun x hx =>
          ⟨hk x (.single hx), fun y hy => hk y (.head hx hy)⟩) hl hsome
        rw [hl']
        rfl
    · rw [if_neg hborrow] at hp
      cases hp

/-! ### One visit -/

/-- Being delayed again would change nothing. -/
def Settled (now : ℚ) (c : CBQClass) : Prop :=
  ¬ (0 < c.undertime - now + c.extradelay ∧ c.delayed = false)

/-- A class that may borrow from another. -/
def Borrows (q : CBQueue) (c : ℕ) : Prop :=
  q.demand c = true ∧ (q.classes c).permitBorrowing = true ∧ (q.classes c).lender ≠ none

/-- The queue when the class `cl` is asked for. -/
def topped (cl : ℕ) (w : Walk) : CBQueue := modify cl (topUp w.q.M w.deficit) w.q

/-- What a visit of the class `cl` has done, and whether it has found it. -/
inductive Visited (now : ℚ) (fuel cl : ℕ) (w w' : Walk) : Bool → Prop where
  | idle (hd : w.q.demand cl = false) (hlog : w'.log = w.log) (hdef : w'.deficit = w.deficit)
      (hu : (w'.q.classes cl).undertime = (w.q.classes cl).undertime) :
      Visited now fuel cl w w' false
  | refused (hd : w.q.demand cl = true) (hp : permits now (topped cl w) fuel cl = some false)
      (hlog : w'.log = w.log ++ [(cl, false)]) (hdef : w'.deficit = w.deficit)
      (hs : Settled now (w'.q.classes cl))
      (hu : Settled now (w.q.classes cl) →
        (w'.q.classes cl).undertime = (w.q.classes cl).undertime) : Visited now fuel cl w w' false
  | short (hd : w.q.demand cl = true) (hp : permits now (topped cl w) fuel cl = some true)
      (hlog : w'.log = w.log ++ [(cl, true)]) (hdef : w'.deficit = 1) (hle : w.deficit ≤ 1)
      (hu : (w'.q.classes cl).undertime = (w.q.classes cl).undertime) :
      Visited now fuel cl w w' false
  | found (hd : w.q.demand cl = true) (hp : permits now (topped cl w) fuel cl = some true)
      (hlog : w'.log = w.log ++ [(cl, true)]) : Visited now fuel cl w w' true

/-- What no visit changes, but of the class itself. -/
structure Kept (cl : ℕ) (w w' : Walk) : Prop where
  same : SameSearch w.q w'.q
  others : ∀ c ≠ cl, w'.q.classes c = w.q.classes c
  first : ∀ f, w'.first = some f → w.first = some f ∨ f = cl ∧ Borrows w.q cl

theorem sameClass_topUp (M : ℤ → ℚ) (deficit : ℕ) (c : CBQClass) :
    SameClass c (topUp M deficit c) := by
  rw [topUp]
  split_ifs
  · exact ⟨rfl, rfl, rfl, rfl, rfl, rfl, rfl, rfl⟩
  · exact .refl c

theorem sameClass_afterDelay (now : ℚ) (c : CBQClass) : SameClass c (afterDelay now c) := by
  rw [afterDelay]
  split_ifs
  · exact ⟨rfl, rfl, rfl, rfl, rfl, rfl, rfl, rfl⟩
  · exact .refl c

theorem topUp_undertime (M : ℤ → ℚ) (deficit : ℕ) (c : CBQClass) :
    (topUp M deficit c).undertime = c.undertime ∧ (topUp M deficit c).delayed = c.delayed ∧
      (topUp M deficit c).extradelay = c.extradelay := by
  rw [topUp]
  split_ifs
  · exact ⟨rfl, rfl, rfl⟩
  · exact ⟨rfl, rfl, rfl⟩

/-- Asking for a class changes its `delayed_` at most. -/
theorem sendPermitted_kept {b : Bool} (h : sendPermitted now q fuel cl = some (b, q')) :
    SameSearch q q' ∧ (∀ c ≠ cl, q'.classes c = q.classes c) ∧
      (q'.classes cl).undertime = (q.classes cl).undertime ∧
      (b = false → q'.classes cl = q.classes cl) := by
  rw [sendPermitted] at h
  split_ifs at h
  · obtain ⟨rfl, rfl⟩ := Prod.mk.inj (Option.some.inj h)
    have hmod : SameSearch q (modify cl (fun c => { c with delayed := false }) q) :=
      .modify cl q fun c => ⟨rfl, rfl, rfl, rfl, rfl, rfl, rfl, rfl⟩
    refine ⟨⟨hmod.wrr, hmod.active, hmod.levels, hmod.maxprio, hmod.toplevel, hmod.eligible,
      hmod.classes⟩, fun c hc => Function.update_of_ne hc _ _, ?_, fun hb => by cases hb⟩
    change (Function.update q.classes cl _ cl).undertime = _
    rw [Function.update_self]
  · obtain ⟨l, -, hl⟩ := Option.map_eq_some_iff.mp h
    obtain ⟨rfl, rfl⟩ := Prod.mk.inj hl
    exact ⟨⟨rfl, rfl, rfl, rfl, rfl, rfl, fun c => .refl _⟩, fun _ _ => rfl, rfl, fun _ => rfl⟩
  · obtain ⟨rfl, rfl⟩ := Prod.mk.inj (Option.some.inj h)
    exact ⟨.refl q, fun _ _ => rfl, rfl, fun _ => rfl⟩

theorem topped_same (cl : ℕ) (w : Walk) : SameSearch w.q (topped cl w) :=
  .modify cl w.q (sameClass_topUp w.q.M w.deficit)

theorem topped_undertime (cl : ℕ) (w : Walk) (c : ℕ) :
    ((topped cl w).classes c).undertime = (w.q.classes c).undertime := by
  by_cases hc : c = cl
  · rw [hc, topped, modify_self, (topUp_undertime _ _ _).1]
  · rw [topped, modify_of_ne _ hc]

theorem settled_afterDelay (now : ℚ) (c : CBQClass) : Settled now (afterDelay now c) := by
  rw [afterDelay]
  split_ifs with h
  · exact fun hc => Bool.noConfusion hc.2
  · exact h

theorem Settled.afterDelay {c : CBQClass} (h : Settled now c) : afterDelay now c = c := if_neg h

/-- `bytes_alloc_` is set to 0. -/
def zeroed (cl : ℕ) (q : CBQueue) : CBQueue := modify cl (fun c => { c with bytesAlloc := 0 }) q

theorem zeroed_same (cl : ℕ) (q : CBQueue) : SameSearch q (zeroed cl q) :=
  .modify cl q fun _ => ⟨rfl, rfl, rfl, rfl, rfl, rfl, rfl, rfl⟩

theorem zeroed_of_ne {cl c : ℕ} (hc : c ≠ cl) (q : CBQueue) :
    (zeroed cl q).classes c = q.classes c := modify_of_ne _ hc

theorem zeroed_self (cl : ℕ) (q : CBQueue) :
    (zeroed cl q).classes cl = { q.classes cl with bytesAlloc := 0 } := modify_self _ _ _

/-- **What a visit does.** -/
theorem visit_eq {b : Bool} (h : visit now fuel cl w = some (b, w')) :
    Kept cl w w' ∧ Visited now fuel cl w w' b := by
  have htop := topped_same cl w
  have hothers : ∀ c ≠ cl, (topped cl w).classes c = w.q.classes c := fun c hc => modify_of_ne _ hc
  have hself : (topped cl w).classes cl = topUp w.q.M w.deficit (w.q.classes cl) :=
    modify_self _ _ _
  have hunder := topped_undertime cl w cl
  simp only [visit] at h
  change (if (topped cl w).demand cl = true then _ else some (false, _)) = _ at h
  by_cases hd : w.q.demand cl = true
  · rw [if_pos ((htop.demand cl).trans hd)] at h
    obtain ⟨⟨ok, q₁⟩, hsend, hr⟩ := Option.map_eq_some_iff.mp h
    obtain ⟨hsame, hkept, hu, hrefused⟩ := sendPermitted_kept hsend
    have hp : permits now (topped cl w) fuel cl = some ok := by
      rw [permits]
      exact congrArg (Option.map Prod.fst) hsend
    have hfirst : ∀ f, (if w.first = none ∧ ((topped cl w).classes cl).permitBorrowing = true ∧
        ((topped cl w).classes cl).lender ≠ none then some cl else w.first) = some f →
        w.first = some f ∨ f = cl ∧ Borrows w.q cl := by
      intro f hf
      rw [(htop.classes cl).permitBorrowing, (htop.classes cl).lender] at hf
      split_ifs at hf with hb
      · exact .inr ⟨(Option.some.inj hf).symm, hd, hb.2⟩
      · exact .inl hf
    have hsame₁ := htop.trans hsame
    have hother₁ : ∀ c ≠ cl, q₁.classes c = w.q.classes c := fun c hc =>
      (hkept c hc).trans (hothers c hc)
    cases ok with
    | false =>
        rw [if_pos rfl] at hr
        obtain ⟨rfl, rfl⟩ := Prod.mk.inj hr
        have hdelay : SameSearch q₁ (modify cl (afterDelay now) q₁) :=
          .modify cl q₁ (sameClass_afterDelay now)
        refine ⟨⟨(hsame₁.trans hdelay).trans (zeroed_same cl _), fun c hc => ?_, hfirst⟩,
          .refused hd hp rfl rfl ?_ ?_⟩
        · exact (zeroed_of_ne hc _).trans ((modify_of_ne _ hc).trans (hother₁ c hc))
        · change Settled now ((zeroed cl (modify cl (afterDelay now) q₁)).classes cl)
          rw [zeroed_self, modify_self]
          exact settled_afterDelay now (q₁.classes cl)
        · intro hs
          change ((zeroed cl (modify cl (afterDelay now) q₁)).classes cl).undertime = _
          have hclass : q₁.classes cl = topUp w.q.M w.deficit (w.q.classes cl) :=
            (hrefused rfl).trans hself
          obtain ⟨hu₁, hdelayed, hextra⟩ := topUp_undertime w.q.M w.deficit (w.q.classes cl)
          have hs₁ : Settled now (q₁.classes cl) := by
            rwa [hclass, Settled, hu₁, hdelayed, hextra]
          rw [zeroed_self, modify_self, hs₁.afterDelay]
          exact hu.trans hunder
    | true =>
        rw [if_neg (fun hc => Bool.noConfusion hc)] at hr
        by_cases hweight : 0 < (q₁.classes cl).bytesAlloc ∨ 1 < w.deficit
        · rw [if_pos hweight] at hr
          obtain ⟨rfl, rfl⟩ := Prod.mk.inj hr
          exact ⟨⟨hsame₁, hother₁, hfirst⟩, .found hd hp rfl⟩
        · rw [if_neg hweight] at hr
          obtain ⟨rfl, rfl⟩ := Prod.mk.inj hr
          have hle : w.deficit ≤ 1 := not_lt.mp (not_or.mp hweight).2
          refine ⟨⟨hsame₁.trans (zeroed_same cl _), fun c hc => ?_, hfirst⟩,
            .short hd hp rfl rfl hle ?_⟩
          · exact (zeroed_of_ne hc _).trans (hother₁ c hc)
          · change ((zeroed cl q₁).classes cl).undertime = _
            rw [zeroed_self]
            exact hu.trans hunder
  · rw [if_neg fun hc => hd ((htop.demand cl).symm.trans hc)] at h
    obtain ⟨rfl, rfl⟩ := Prod.mk.inj (Option.some.inj h)
    refine ⟨⟨htop.trans (zeroed_same cl _), fun c hc => ?_, fun f hf => .inl hf⟩,
      .idle (Bool.eq_false_iff.mpr hd) rfl rfl ?_⟩
    · exact (zeroed_of_ne hc _).trans (hothers c hc)
    · change ((zeroed cl (topped cl w)).classes cl).undertime = _
      rw [zeroed_self]
      exact hunder

/-- A visit in the second pass finds a class that may send. -/
theorem Visited.found_of_permits {b : Bool} (h : Visited now fuel cl w w' b)
    (hdef : 1 < w.deficit) (hd : w.q.demand cl = true)
    (hp : permits now (topped cl w) fuel cl = some true) : b = true := by
  cases h with
  | idle hd' => exact absurd (hd.symm.trans hd') Bool.noConfusion
  | refused _ hp' => exact absurd (hp.symm.trans hp') (by simp)
  | short _ _ _ _ hle => exact absurd hdef hle.not_gt
  | found => rfl

theorem Enough.visit_isSome (h : Enough fuel w.q) (now : ℚ)
    (hends : Ends (fun c => (w.q.classes c).lender) fuel (w.q.classes cl).lender) :
    (visit now fuel cl w).isSome := by
  have htop := topped_same cl w
  have hsome := (h.same htop).permits_isSome now (htop.ends hends)
  rw [permits, Option.isSome_map] at hsome
  simp only [visit]
  change (if (topped cl w).demand cl = true then Option.map _ (sendPermitted now (topped cl w) _ _)
    else some (false, _)).isSome = true
  by_cases hd : (topped cl w).demand cl = true
  · rw [if_pos hd, Option.isSome_map]
    exact hsome
  · rw [if_neg hd]
    rfl

/-! ### A pass -/

/-- The classes of a list are visited, until one is found. -/
def scan (now : ℚ) (fuel : ℕ) : List ℕ → Walk → Option (Option ℕ × Walk)
  | [], w => some (none, w)
  | c :: l, w =>
      (visit now fuel c w).bind fun r =>
        if r.1 then some (some c, r.2) else scan now fuel l r.2

variable {l a b : List ℕ} {r : Option ℕ}

/-- A scan that begins with the class `c`. -/
theorem scan_cons (h : scan now fuel (c :: l) w = some (r, w')) :
    ∃ found w₁, Kept c w w₁ ∧ Visited now fuel c w w₁ found ∧
      (found = true ∧ r = some c ∧ w' = w₁ ∨
        found = false ∧ scan now fuel l w₁ = some (r, w')) := by
  rw [scan] at h
  obtain ⟨⟨found, w₁⟩, hvisit, hrest⟩ := Option.bind_eq_some_iff.mp h
  obtain ⟨hkept, hvisited⟩ := visit_eq hvisit
  refine ⟨found, w₁, hkept, hvisited, ?_⟩
  cases found with
  | true =>
      obtain ⟨rfl, rfl⟩ := Prod.mk.inj (Option.some.inj hrest)
      exact .inl ⟨rfl, rfl, rfl⟩
  | false => exact .inr ⟨rfl, hrest⟩

theorem scan_append (a b : List ℕ) (w : Walk) : scan now fuel (a ++ b) w =
    (scan now fuel a w).bind fun r => if r.1 = none then scan now fuel b r.2 else some r := by
  induction a generalizing w with
  | nil => rfl
  | cons c a ih =>
      rw [List.cons_append, scan, scan, Option.bind_assoc]
      congr 1
      funext r
      split_ifs
      · rfl
      · exact ih r.2

/-- What no pass changes, but of its classes. -/
structure Passed (l : List ℕ) (w w' : Walk) : Prop where
  same : SameSearch w.q w'.q
  others : ∀ c ∉ l, w'.q.classes c = w.q.classes c
  idle : ∀ c, w.q.demand c = false → (w'.q.classes c).undertime = (w.q.classes c).undertime
  first : ∀ f, w'.first = some f → w.first = some f ∨ f ∈ l ∧ Borrows w.q f

theorem SameSearch.borrows_iff (h : SameSearch q q') (c : ℕ) : Borrows q' c ↔ Borrows q c := by
  rw [Borrows, Borrows, h.demand, (h.classes c).permitBorrowing, (h.classes c).lender]

theorem Passed.refl (l : List ℕ) (w : Walk) : Passed l w w :=
  ⟨.refl _, fun _ _ => rfl, fun _ _ => rfl, fun _ h => .inl h⟩

theorem Passed.trans {w'' : Walk} (h : Passed a w w') (h' : Passed b w' w'') (ha : a ⊆ l)
    (hb : b ⊆ l) : Passed l w w'' where
  same := h.same.trans h'.same
  others c hc := (h'.others c fun hm => hc (hb hm)).trans (h.others c fun hm => hc (ha hm))
  idle c hd := (h'.idle c ((h.same.demand c).trans hd)).trans (h.idle c hd)
  first f hf := by
    rcases h'.first f hf with hf | ⟨hm, hborrows⟩
    · rcases h.first f hf with hf | ⟨hm, hborrows⟩
      · exact .inl hf
      · exact .inr ⟨ha hm, hborrows⟩
    · exact .inr ⟨hb hm, (h.same.borrows_iff f).mp hborrows⟩

theorem Kept.passed {found : Bool} (h : Kept c w w') (hv : Visited now fuel c w w' found) :
    Passed [c] w w' where
  same := h.same
  others x hx := h.others x fun e => hx (List.mem_singleton.mpr e)
  idle x hd := by
    by_cases hx : x = c
    · subst hx
      cases hv with
      | idle _ _ _ hu => exact hu
      | refused hd' => exact absurd (hd'.symm.trans hd) Bool.noConfusion
      | short hd' => exact absurd (hd'.symm.trans hd) Bool.noConfusion
      | found hd' => exact absurd (hd'.symm.trans hd) Bool.noConfusion
    · rw [h.others x hx]
  first f hf := by
    rcases h.first f hf with hf | ⟨rfl, hborrows⟩
    · exact .inl hf
    · exact .inr ⟨List.mem_singleton_self _, hborrows⟩

theorem scan_passed (h : scan now fuel l w = some (r, w')) : Passed l w w' := by
  induction l generalizing w with
  | nil =>
      obtain ⟨-, rfl⟩ := Prod.mk.inj (Option.some.inj h)
      exact .refl [] _
  | cons c l ih =>
      obtain ⟨found, w₁, hkept, hv, ⟨-, -, rfl⟩ | ⟨-, hrest⟩⟩ := scan_cons h
      · exact (hkept.passed hv).trans (.refl l _) (by simp) (by simp)
      · exact (hkept.passed hv).trans (ih hrest) (by simp) (by simp)

end CBQueue

end Afabric
