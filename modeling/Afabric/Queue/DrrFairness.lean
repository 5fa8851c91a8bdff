import Afabric.Queue.DrrBooks

/-!
# Queue — fairness of deficit round robin

A log keeps, for each bucket since it last got its first packet, what it was credited and what it
sent in each complete visit, and in the visit that is on.  As long as the turn of a bucket ends with
it, every visit gets one quantum and the deficit counter is what is left over (`Account`).

Service ends the turn of a bucket that it empties; a drop does not.  When an overflow empties the
current bucket during its turn, the bucket keeps `turn` and misses a quantum later on.  `Clean` says
that this does not happen.
-/

namespace Afabric

namespace DRR

variable {v : DrrVars} {d d' : DRR} {l : List ℕ} {M : ℤ} {x c : ℕ} {p : DrrPacket}
  {rest : List DrrPacket}

/-- What a bucket was credited and what it sent, in the complete visits and in the one that is
on. -/
structure VisitLog where
  visits : ℕ → List (ℤ × ℤ)
  credit : ℕ → ℤ
  sent : ℕ → ℤ

namespace VisitLog

def init : VisitLog where
  visits := fun _ => []
  credit := fun _ => 0
  sent := fun _ => 0

/-- Bucket `x` gets its first packet. -/
def activated (x : ℕ) (g : VisitLog) : VisitLog where
  visits := Function.update g.visits x []
  credit := Function.update g.credit x 0
  sent := Function.update g.sent x 0

def accepted (v : DrrVars) (p : DrrPacket) (d : DRR) (g : VisitLog) : VisitLog :=
  if (d.drr (bucketOf v p)).queue = [] then g.activated (bucketOf v p) else g

/-- A round at bucket `c`, which sends a packet or ends the visit. -/
def served (v : DrrVars) (c : ℕ) (b : PacketDRR) (o : Option DrrPacket) (g : VisitLog) : VisitLog :=
  let credit := if b.turn = 0 then g.credit c + v.quantum else g.credit c
  match o with
  | some p => { g with credit := Function.update g.credit c credit
                       sent := Function.update g.sent c (g.sent c + p.size) }
  | none =>
      { visits := Function.update g.visits c (g.visits c ++ [(credit, g.sent c)])
        credit := Function.update g.credit c 0
        sent := Function.update g.sent c 0 }

end VisitLog

/-- `serveLoop` with a log. -/
def serveLog (v : DrrVars) : ℕ → DRR → VisitLog → Option (DrrPacket × DRR × VisitLog)
  | 0, _, _ => none
  | fuel + 1, d, g =>
      d.curr.bind fun c => (serve v d).bind fun r =>
        let g := g.served v c (d.drr c) r.1
        match r.1 with
        | some p => some (p, r.2, g)
        | none => serveLog v fuel r.2 g

/-- `deque` with a log. -/
def dequeLog (v : DrrVars) (fuel : ℕ) (d : DRR) (g : VisitLog) :
    Option (Option DrrPacket × DRR × VisitLog) :=
  if d.bytecnt = 0 then some (none, d, g)
  else (serveLog v fuel d g).map fun r => (some r.1, r.2)

theorem serveLog_fst (v : DrrVars) (fuel : ℕ) (d : DRR) (g : VisitLog) :
    (serveLog v fuel d g).map (fun r => (r.1, r.2.1)) = serveLoop v fuel d := by
  induction fuel generalizing d g with
  | zero => rfl
  | succ fuel ih =>
      rw [serveLog, serveLoop]
      cases hc : d.curr with
      | none => rw [serve, hc]; rfl
      | some c =>
          rw [Option.bind_some]
          cases hs : serve v d with
          | none => rfl
          | some r =>
              obtain ⟨o, d₁⟩ := r
              cases o with
              | some p => rfl
              | none => exact ih d₁ _

/-- The log does not change what `deque` does. -/
theorem dequeLog_fst (v : DrrVars) (fuel : ℕ) (d : DRR) (g : VisitLog) :
    (dequeLog v fuel d g).map (fun r => (r.1, r.2.1)) = deque v fuel d := by
  rw [dequeLog, deque]
  split_ifs
  · rfl
  · rw [← serveLog_fst v fuel d g, Option.map_map, Option.map_map]
    rfl

/-- The next drop empties the current bucket during its turn. -/
def EmptiesTurn (d : DRR) : Prop :=
  ∃ x, d.curr = some x ∧ d.getMaxflow = some x ∧ (d.drr x).pkts = 1 ∧ (d.drr x).turn ≠ 0

def CleanShrink (v : DrrVars) : ℕ → DRR → Prop
  | 0, _ => True
  | fuel + 1, d =>
      v.blimit < d.bytecnt → ¬ EmptiesTurn d ∧ ∀ r, dropOne d = some r → CleanShrink v fuel r.2

/-- No drop on the arrival of `p` empties the current bucket during its turn. -/
def Clean (v : DrrVars) (fuel : ℕ) (p : DrrPacket) (d : DRR) : Prop :=
  CleanShrink v fuel (accept v p d)

instance (d : DRR) : Decidable (EmptiesTurn d) :=
  match h : d.curr with
  | none => isFalse fun ⟨x, hx, _⟩ => by rw [h] at hx; cases hx
  | some c =>
      decidable_of_iff (d.getMaxflow = some c ∧ (d.drr c).pkts = 1 ∧ (d.drr c).turn ≠ 0)
        (by simp [EmptiesTurn, h])

instance decidableCleanShrink (v : DrrVars) : ∀ fuel d, Decidable (CleanShrink v fuel d)
  | 0, _ => isTrue trivial
  | fuel + 1, d =>
      match h : dropOne d with
      | none => decidable_of_iff (v.blimit < d.bytecnt → ¬ EmptiesTurn d) (by simp [CleanShrink, h])
      | some r =>
          have := decidableCleanShrink v fuel r.2
          decidable_of_iff (v.blimit < d.bytecnt → ¬ EmptiesTurn d ∧ CleanShrink v fuel r.2)
            (by simp [CleanShrink, h])

instance (v : DrrVars) (fuel : ℕ) (p : DrrPacket) (d : DRR) : Decidable (Clean v fuel p d) :=
  decidableCleanShrink v fuel (accept v p d)

/-- A run of clean arrivals, of packets of at most `M` bytes, and departures. -/
inductive CleanRun (v : DrrVars) (M : ℤ) : DRR → VisitLog → Prop
  | init : CleanRun v M init .init
  | enque {d d' g} (fuel : ℕ) (p : DrrPacket) (ps : List DrrPacket) (h : CleanRun v M d g)
      (hp : 0 < p.size) (hM : p.size ≤ M) (he : enque v fuel p d = some (ps, d'))
      (hclean : Clean v fuel p d) : CleanRun v M d' (g.accepted v p d)
  | deque {d d' g g'} (fuel : ℕ) (o : Option DrrPacket) (h : CleanRun v M d g)
      (he : dequeLog v fuel d g = some (o, d', g')) : CleanRun v M d' g'

/-! ### The account of a bucket -/

/-- The bytes of some visits. -/
def sentIn (vs : List (ℤ × ℤ)) : ℤ := (vs.map Prod.snd).sum

theorem sentIn_append (a b : List (ℤ × ℤ)) : sentIn (a ++ b) = sentIn a + sentIn b := by
  simp [sentIn]

/-- What is left over after some visits. -/
def leftOver (v : DrrVars) (vs : List (ℤ × ℤ)) : ℤ := vs.length * v.quantum - sentIn vs

theorem leftOver_nil : leftOver v [] = 0 := by simp [leftOver, sentIn]

structure Account (v : DrrVars) (M : ℤ) (b : PacketDRR) (visits : List (ℤ × ℤ)) (credit sent : ℤ) :
    Prop where
  full : ∀ e ∈ visits, e.1 = v.quantum
  bounded : ∀ a b, visits = a ++ b → 0 ≤ leftOver v a ∧ leftOver v a < M
  balance : b.deficitCounter = leftOver v visits + credit - sent
  nonneg : 0 ≤ b.deficitCounter
  visit : (b.turn = 0 ∧ credit = 0 ∧ sent = 0) ∨ (b.turn ≠ 0 ∧ credit = v.quantum)

theorem Account.new {b : PacketDRR} (hM : 0 < M) (hturn : b.turn = 0) (hdef : b.deficitCounter = 0) :
    Account v M b [] 0 0 where
  full := fun e he => absurd he List.not_mem_nil
  bounded := fun a b hab => by
    obtain ⟨rfl, rfl⟩ := List.append_eq_nil_iff.mp hab.symm
    rw [leftOver_nil]
    exact ⟨le_rfl, hM⟩
  balance := by rw [hdef, leftOver_nil, add_zero, sub_zero]
  nonneg := hdef.ge
  visit := .inl ⟨hturn, rfl, rfl⟩

/-- The deficit between visits. -/
theorem Account.deficit {b : PacketDRR} {visits : List (ℤ × ℤ)} {credit sent : ℤ}
    (h : Account v M b visits credit sent) (hturn : b.turn = 0) :
    0 ≤ b.deficitCounter ∧ b.deficitCounter < M := by
  obtain ⟨-, rfl, rfl⟩ := h.visit.resolve_right fun hc => hc.1 hturn
  have hb := h.bounded visits [] (List.append_nil _).symm
  have hbal := h.balance
  omega

/-- **The bytes of consecutive visits.** -/
theorem Account.infix {b : PacketDRR} {visits : List (ℤ × ℤ)} {credit sent : ℤ}
    (h : Account v M b visits credit sent) {a k z : List (ℤ × ℤ)} (hv : visits = a ++ k ++ z) :
    k.length * v.quantum - M < sentIn k ∧ sentIn k < k.length * v.quantum + M := by
  have ha := h.bounded a (k ++ z) (by rw [hv, List.append_assoc])
  have hk := h.bounded (a ++ k) z hv
  have hsplit : leftOver v (a ++ k) = leftOver v a + (k.length * v.quantum - sentIn k) := by
    rw [leftOver, leftOver, List.length_append, sentIn_append]
    push_cast
    ring
  omega

/-- The account once the visit has had its quantum. -/
theorem Account.credited {b : PacketDRR} {visits : List (ℤ × ℤ)} {credit sent : ℤ}
    (h : Account v M b visits credit sent) (hquantum : 0 < v.quantum) :
    (DRR.credited v b).turn ≠ 0 ∧ (if b.turn = 0 then credit + v.quantum else credit) = v.quantum ∧
      (DRR.credited v b).deficitCounter = leftOver v visits + v.quantum - sent ∧
      0 ≤ (DRR.credited v b).deficitCounter := by
  have hbal := h.balance
  have hnn := h.nonneg
  rw [DRR.credited]
  rcases h.visit with ⟨ht, rfl, rfl⟩ | ⟨ht, rfl⟩
  · simp only [if_pos ht]
    refine ⟨one_ne_zero, zero_add _, ?_, ?_⟩ <;> omega
  · simp only [if_neg ht]
    exact ⟨ht, trivial, hbal, hnn⟩

theorem Account.send {b : PacketDRR} {visits : List (ℤ × ℤ)} {credit sent : ℤ}
    (h : Account v M b visits credit sent) (hquantum : 0 < v.quantum) (hrest : rest ≠ [])
    (hle : p.size ≤ (DRR.credited v b).deficitCounter) :
    Account v M (DRR.served v b p rest) visits
      (if b.turn = 0 then credit + v.quantum else credit) (sent + p.size) := by
  obtain ⟨hturn, hcredit, hdef, -⟩ := h.credited hquantum
  rw [hcredit]
  refine ⟨h.full, h.bounded, ?_, ?_, .inr ⟨?_, rfl⟩⟩
  · simp only [DRR.served, if_neg hrest, hdef]
    ring
  · simp only [DRR.served, if_neg hrest]
    omega
  · simp only [DRR.served, if_neg hrest]
    exact hturn

theorem Account.pass {b : PacketDRR} {visits : List (ℤ × ℤ)} {credit sent : ℤ}
    (h : Account v M b visits credit sent) (hquantum : 0 < v.quantum) (hM : p.size ≤ M)
    (hlt : ¬ p.size ≤ (DRR.credited v b).deficitCounter) :
    Account v M (passed v b)
      (visits ++ [(if b.turn = 0 then credit + v.quantum else credit, sent)]) 0 0 := by
  obtain ⟨-, hcredit, hdef, hnn⟩ := h.credited hquantum
  rw [hcredit]
  have hleft : leftOver v (visits ++ [(v.quantum, sent)]) = (DRR.credited v b).deficitCounter := by
    rw [hdef, leftOver, leftOver, List.length_append, sentIn_append]
    simp only [sentIn, List.map_cons, List.map_nil, List.sum_cons, List.sum_nil,
      List.length_singleton]
    push_cast
    ring
  refine ⟨fun e he => ?_, fun a z haz => ?_, ?_, hnn, .inl ⟨rfl, rfl, rfl⟩⟩
  · rcases List.mem_append.mp he with he | he
    · exact h.full e he
    · rw [List.mem_singleton.mp he]
  · rcases List.eq_nil_or_concat z with rfl | ⟨z, y, rfl⟩
    · rw [List.append_nil] at haz
      rw [← haz, hleft]
      omega
    · have haz' : visits ++ [(v.quantum, sent)] = a ++ z ++ [y] := by
        rw [haz, List.append_assoc]
        simp
      exact h.bounded a z (List.append_inj_left' haz' rfl)
  · rw [hleft]
    simp [passed]

/-! ### Runs -/

structure Fair (v : DrrVars) (M : ℤ) (d : DRR) (g : VisitLog) (l : List ℕ) : Prop where
  books : Books v d l
  small : ∀ x, ∀ p ∈ (d.drr x).queue, p.size ≤ M
  turn : ∀ x, d.curr ≠ some x → (d.drr x).turn = 0
  account : ∀ x, x ∈ l → Account v M (d.drr x) (g.visits x) (g.credit x) (g.sent x)

theorem fair_init (v : DrrVars) (M : ℤ) : Fair v M init .init [] where
  books := books_init v
  small := fun _ _ hp => absurd hp List.not_mem_nil
  turn := fun _ _ => rfl
  account := fun _ hx => absurd hx List.not_mem_nil

variable {g g' : VisitLog}

/-- Bucket `x` becomes `b`, with its log; the others keep theirs. -/
theorem Fair.set (h : Fair v M d g l) {b : PacketDRR} {l' : List ℕ}
    (hdrr : d'.drr = Function.update d.drr x b) (hbooks : Books v d' l')
    (hsmall : ∀ p ∈ b.queue, p.size ≤ M) (hturn : d'.curr ≠ some x → b.turn = 0)
    (hothers : ∀ y, y ≠ x → d'.curr ≠ some y → (d.drr y).turn = 0)
    (hlog : ∀ y, y ≠ x →
      g'.visits y = g.visits y ∧ g'.credit y = g.credit y ∧ g'.sent y = g.sent y)
    (hmem : ∀ y, y ≠ x → y ∈ l' → y ∈ l)
    (haccount : x ∈ l' → Account v M b (g'.visits x) (g'.credit x) (g'.sent x)) :
    Fair v M d' g' l' := by
  have hself : d'.drr x = b := by rw [hdrr, Function.update_self]
  have hother : ∀ y, y ≠ x → d'.drr y = d.drr y := fun y hy => by
    rw [hdrr, Function.update_of_ne hy]
  refine ⟨hbooks, fun y => ?_, fun y hy => ?_, fun y hy => ?_⟩
  all_goals by_cases hyx : y = x
  · subst hyx
    rwa [hself]
  · rw [hother y hyx]
    exact h.small y
  · subst hyx
    rw [hself]
    exact hturn hy
  · rw [hother y hyx]
    exact hothers y hyx hy
  · subst hyx
    rw [hself]
    exact haccount hy
  · obtain ⟨h₁, h₂, h₃⟩ := hlog y hyx
    rw [hother y hyx, h₁, h₂, h₃]
    exact h.account y (hmem y hyx hy)

theorem Fair.accept (h : Fair v M d g l) (hb : 0 < v.buckets) (hp : 0 < p.size) (hM : p.size ≤ M) :
    ∃ l', Fair v M (accept v p d) (g.accepted v p d) l' := by
  have hbooks := h.books.accept hb hp
  have hdrr := accept_drr (v := v) (p := p) h.books.pkts
  have hmem := h.books.backlogged (bucketOf v p)
  rw [VisitLog.accepted]
  generalize bucketOf v p = x at hbooks hdrr hmem ⊢
  have hsmall : ∀ q ∈ (DRR.accepted v (d.drr x) p).queue, q.size ≤ M := by
    intro q hq
    rcases List.mem_append.mp hq with hq | hq
    · exact h.small x q hq
    · rw [List.mem_singleton.mp hq]
      exact hM
  by_cases hq : (d.drr x).queue = []
  · rw [if_pos hq] at hbooks ⊢
    have hx : x ∉ l := fun hx => hmem.mp hx hq
    have hturn : (d.drr x).turn = 0 := by
      refine h.turn x fun hc => hx ?_
      rw [h.books.ring.head_eq] at hc
      exact List.mem_of_mem_head? hc
    refine ⟨_, h.set hdrr hbooks hsmall (fun _ => hturn) (fun y hyx hc => h.turn y fun hcy => hc ?_)
      (fun y hyx => ?_) (fun y hyx hy => ?_) fun _ => ?_⟩
    · -- the new bucket comes last, so the current one stays
      rw [hbooks.ring.head_eq]
      rw [h.books.ring.head_eq] at hcy
      rw [List.head?_append, hcy, Option.some_or]
    · simp only [VisitLog.activated, Function.update_of_ne hyx, and_self]
    · exact (List.mem_append.mp hy).resolve_right fun hm => hyx (List.mem_singleton.mp hm)
    · simp only [VisitLog.activated, Function.update_self]
      exact .new (hp.trans_le hM) hturn (by simp only [DRR.accepted, if_pos hq])
  · rw [if_neg hq] at hbooks ⊢
    have hcurr : (DRR.accept v p d).curr = d.curr := by
      rw [hbooks.ring.head_eq, h.books.ring.head_eq]
    refine ⟨_, h.set hdrr hbooks hsmall (fun hc => h.turn x (hcurr ▸ hc))
      (fun y _ hc => h.turn y (hcurr ▸ hc)) (fun _ _ => ⟨rfl, rfl, rfl⟩) (fun _ _ hy => hy)
      fun hx => ?_⟩
    have hacc := h.account x hx
    exact ⟨hacc.full, hacc.bounded, by simpa only [DRR.accepted, if_neg hq] using hacc.balance,
      by simpa only [DRR.accepted, if_neg hq] using hacc.nonneg, hacc.visit⟩

theorem Fair.drop (h : Fair v M d g l) (hne : l ≠ []) (hclean : ¬ EmptiesTurn d) :
    ∃ p d' l', dropOne d = some (p, d') ∧ Fair v M d' g l' := by
  obtain ⟨x, p, rest, d', hx, hq, hdrop, hdrr, -, hmax, hbooks⟩ := h.books.dropOne hne
  have hsmall : ∀ q ∈ rest, q.size ≤ M := fun q hm =>
    h.small x q (by rw [hq]; exact List.mem_cons_of_mem p hm)
  have hhead := h.books.ring.head_eq
  by_cases hr : rest = []
  · rw [if_pos hr] at hbooks
    refine ⟨p, d', l.erase x, hdrop, ?_⟩
    have hone : (d.drr x).pkts = 1 := by
      rw [h.books.pkts, hq, hr]
      rfl
    -- a bucket that is emptied has no turn
    have hturn : (d.drr x).turn = 0 := by
      by_contra ht
      exact hclean ⟨x, not_imp_comm.mp (h.turn x) ht, hmax, hone, ht⟩
    refine h.set hdrr hbooks hsmall (fun _ => hturn) (fun y hyx hc => h.turn y fun hcy => hc ?_)
      (fun _ _ => ⟨rfl, rfl, rfl⟩) (fun y hyx hy => List.mem_of_mem_erase hy) fun hm =>
        absurd hm (h.books.ring.nodup.not_mem_erase)
    rw [hhead] at hcy
    rw [hbooks.ring.head_eq]
    cases l with
    | nil => cases hcy
    | cons c l =>
        obtain rfl : c = y := Option.some.inj hcy
        rw [List.erase_cons_tail (by simpa using hyx)]
        rfl
  · rw [if_neg hr] at hbooks
    refine ⟨p, d', l, hdrop, ?_⟩
    have hcurr : d'.curr = d.curr := by rw [hbooks.ring.head_eq, hhead]
    have hacc := h.account x hx
    exact h.set hdrr hbooks hsmall (fun hc => h.turn x (hcurr ▸ hc))
      (fun y _ hc => h.turn y (hcurr ▸ hc)) (fun _ _ => ⟨rfl, rfl, rfl⟩) (fun _ _ hy => hy)
      fun _ => ⟨hacc.full, hacc.bounded, hacc.balance, hacc.nonneg, hacc.visit⟩

theorem Fair.shrink {fuel : ℕ} {ps : List DrrPacket} (h : Fair v M d g l) (hlim : 0 ≤ v.blimit)
    (hs : shrink v fuel d = some (ps, d')) (hclean : CleanShrink v fuel d) :
    ∃ l', Fair v M d' g l' := by
  induction fuel generalizing d l ps with
  | zero => cases hs
  | succ fuel ih =>
      rw [DRR.shrink] at hs
      by_cases hlt : v.blimit < d.bytecnt
      · obtain ⟨hno, hrest⟩ := hclean hlt
        obtain ⟨p, d₁, l₁, hdrop, h₁⟩ := h.drop (h.books.bytecnt_pos.mpr (hlim.trans_lt hlt)) hno
        rw [if_pos hlt, hdrop, Option.bind_some] at hs
        obtain ⟨r, hr, he⟩ := Option.map_eq_some_iff.mp hs
        obtain ⟨-, rfl⟩ := Prod.mk.inj he
        exact ih h₁ hr (hrest _ hdrop)
      · rw [if_neg hlt] at hs
        obtain ⟨-, rfl⟩ := Prod.mk.inj (Option.some.inj hs)
        exact ⟨l, h⟩

theorem Fair.send (h : Fair v M d g (c :: l)) (hquantum : 0 < v.quantum)
    (hq : (d.drr c).queue = p :: rest) (hle : p.size ≤ (credited v (d.drr c)).deficitCounter)
    (hbooks : Books v (sendOne v c p rest d) (if rest = [] then l else c :: l)) :
    ∃ l', Fair v M (sendOne v c p rest d) (g.served v c (d.drr c) (some p)) l' := by
  have hcurr : d.curr = some c := h.books.ring.head_eq
  have hc : c ∉ l := (List.nodup_cons.mp h.books.ring.nodup).1
  have hsmall : ∀ q ∈ rest, q.size ≤ M := fun q hm =>
    h.small c q (by rw [hq]; exact List.mem_cons_of_mem p hm)
  have hothers : ∀ y, y ≠ c → (d.drr y).turn = 0 := fun y hyc => h.turn y fun he =>
    hyc (Option.some.inj (he.symm.trans hcurr))
  have hlog : ∀ y, y ≠ c → (g.served v c (d.drr c) (some p)).visits y = g.visits y ∧
      (g.served v c (d.drr c) (some p)).credit y = g.credit y ∧
      (g.served v c (d.drr c) (some p)).sent y = g.sent y := fun y hyc => by
    simp only [VisitLog.served, Function.update_of_ne hyc, and_self]
  have hturn : (sendOne v c p rest d).curr ≠ some c → (DRR.served v (d.drr c) p rest).turn = 0 := by
    intro hne
    by_cases hr : rest = []
    · simp only [DRR.served, if_pos hr]
    · rw [if_neg hr] at hbooks
      exact absurd hbooks.ring.head_eq hne
  by_cases hr : rest = []
  · rw [if_pos hr] at hbooks
    exact ⟨l, h.set sendOne_drr hbooks hsmall hturn (fun y hyc _ => hothers y hyc) hlog
      (fun y _ hy => List.mem_cons_of_mem c hy) fun hm => absurd hm hc⟩
  · rw [if_neg hr] at hbooks
    refine ⟨c :: l, h.set sendOne_drr hbooks hsmall hturn (fun y hyc _ => hothers y hyc) hlog
      (fun y _ hy => hy) fun hm => ?_⟩
    simp only [VisitLog.served, Function.update_self]
    exact (h.account c hm).send hquantum hr hle

theorem Fair.pass (h : Fair v M d g (c :: l)) (hquantum : 0 < v.quantum)
    (hq : (d.drr c).queue = p :: rest) (hlt : ¬ p.size ≤ (credited v (d.drr c)).deficitCounter)
    (hdrr : d'.drr = Function.update d.drr c (passed v (d.drr c)))
    (hbooks : Books v d' (l ++ [c])) :
    Fair v M d' (g.served v c (d.drr c) none) (l ++ [c]) := by
  have hcurr : d.curr = some c := h.books.ring.head_eq
  have hsmall : ∀ q ∈ (passed v (d.drr c)).queue, q.size ≤ M := by
    rw [passed, credited_queue]
    exact h.small c
  refine h.set hdrr hbooks hsmall (fun _ => rfl)
    (fun y hyc _ => h.turn y fun he => hyc (Option.some.inj (he.symm.trans hcurr)))
    (fun y hyc => ?_) (fun y hyc hy => ?_) fun _ => ?_
  · simp only [VisitLog.served, Function.update_of_ne hyc, and_self]
  · rcases List.mem_append.mp hy with hy | hy
    · exact List.mem_cons_of_mem c hy
    · exact absurd (List.mem_singleton.mp hy) hyc
  · simp only [VisitLog.served, Function.update_self]
    exact (h.account c List.mem_cons_self).pass hquantum
      (h.small c p (by rw [hq]; exact List.mem_cons_self)) hlt

theorem Fair.serveLog {fuel : ℕ} (hquantum : 0 < v.quantum) (h : Fair v M d g l)
    (hs : serveLog v fuel d g = some (p, d', g')) : ∃ l', Fair v M d' g' l' := by
  induction fuel generalizing d g l with
  | zero => cases hs
  | succ fuel ih =>
      rw [DRR.serveLog, h.books.ring.head_eq] at hs
      cases l with
      | nil => cases hs
      | cons c l =>
          obtain ⟨q, rest, hq⟩ := h.books.head
          obtain ⟨hsend, hpass⟩ := h.books.serve hq
          rw [List.head?_cons, Option.bind_some] at hs
          by_cases hle : q.size ≤ (credited v (d.drr c)).deficitCounter
          · obtain ⟨hserve, hbooks⟩ := hsend hle
            rw [hserve] at hs
            obtain ⟨-, hs⟩ := Prod.mk.inj (Option.some.inj hs)
            obtain ⟨rfl, rfl⟩ := Prod.mk.inj hs
            exact h.send hquantum hq hle hbooks
          · obtain ⟨d₁, hserve, hdrr, -, hbooks⟩ := hpass hle
            rw [hserve] at hs
            exact ih (h.pass hquantum hq hle hdrr hbooks) hs

theorem CleanRun.fair (hb : 0 < v.buckets) (hquantum : 0 < v.quantum) (hlim : 0 ≤ v.blimit)
    (h : CleanRun v M d g) : ∃ l, Fair v M d g l := by
  induction h with
  | init => exact ⟨[], fair_init v M⟩
  | enque fuel p ps _ hp hM he hclean ih =>
      obtain ⟨l, hl⟩ := ih
      obtain ⟨l', hl'⟩ := hl.accept hb hp hM
      exact hl'.shrink hlim he hclean
  | deque fuel o _ he ih =>
      obtain ⟨l, hl⟩ := ih
      rw [dequeLog] at he
      split_ifs at he
      · obtain ⟨-, he⟩ := Prod.mk.inj (Option.some.inj he)
        obtain ⟨rfl, rfl⟩ := Prod.mk.inj he
        exact ⟨l, hl⟩
      · obtain ⟨r, hr, he⟩ := Option.map_eq_some_iff.mp he
        obtain ⟨-, he⟩ := Prod.mk.inj he
        obtain ⟨rfl, rfl⟩ := Prod.mk.inj he
        exact hl.serveLog hquantum hr

/-- Whatever `deque` does in a clean run has a log. -/
theorem CleanRun.deque_logged {fuel : ℕ} {o : Option DrrPacket} (h : CleanRun v M d g)
    (he : DRR.deque v fuel d = some (o, d')) : ∃ g', CleanRun v M d' g' := by
  rw [← dequeLog_fst v fuel d g] at he
  obtain ⟨⟨o', d₁, g'⟩, hr, hrd⟩ := Option.map_eq_some_iff.mp he
  obtain ⟨rfl, rfl⟩ := Prod.mk.inj hrd
  exact ⟨g', h.deque fuel o' hr⟩

/-- **Fairness.**  In a clean run only the current bucket has the turn, the deficits of the others
with packets are below `M`, each visit is credited one quantum, and the bytes that a bucket sends in
`k` consecutive complete visits differ from `k` quanta by less than `M`. -/
theorem run_fair (hb : 0 < v.buckets) (hquantum : 0 < v.quantum) (hlim : 0 ≤ v.blimit)
    (h : CleanRun v M d g) :
    (∀ x, d.curr ≠ some x → (d.drr x).turn = 0) ∧
    (∀ x, (d.drr x).queue ≠ [] → d.curr ≠ some x →
      0 ≤ (d.drr x).deficitCounter ∧ (d.drr x).deficitCounter < M) ∧
    (∀ x, (d.drr x).queue ≠ [] →
      (g.credit x = if (d.drr x).turn = 0 then 0 else v.quantum) ∧
      (∀ e ∈ g.visits x, e.1 = v.quantum) ∧
      ∀ a k z, g.visits x = a ++ k ++ z →
        k.length * v.quantum - M < sentIn k ∧ sentIn k < k.length * v.quantum + M) ∧
    ∀ fuel o d', deque v fuel d = some (o, d') → ∃ g', CleanRun v M d' g' := by
  obtain ⟨l, hl⟩ := h.fair hb hquantum hlim
  refine ⟨hl.turn, fun x hx hc => ?_, fun x hx => ?_, fun fuel o d' he => h.deque_logged he⟩
  · exact (hl.account x ((hl.books.backlogged x).mpr hx)).deficit (hl.turn x hc)
  · have hacc := hl.account x ((hl.books.backlogged x).mpr hx)
    refine ⟨?_, hacc.full, fun a k z hv => hacc.infix hv⟩
    rcases hacc.visit with ⟨ht, hcredit, -⟩ | ⟨ht, hcredit⟩
    · rw [hcredit, if_pos ht]
    · rw [hcredit, if_neg ht]

/-- An operation, if it is clean: an arrival, or a departure. -/
def cleanStep (v : DrrVars) (fuel : ℕ) (s : DRR × VisitLog) :
    Option DrrPacket → Option (DRR × VisitLog)
  | some p =>
      if Clean v fuel p s.1 then
        (enque v fuel p s.1).map fun r => (r.2, s.2.accepted v p s.1)
      else none
  | none => (dequeLog v fuel s.1 s.2).map Prod.snd

theorem CleanRun.steps {fuel : ℕ} {ops : List (Option DrrPacket)} {s s' : DRR × VisitLog}
    (h : CleanRun v M s.1 s.2) (hops : ∀ p, some p ∈ ops → 0 < p.size ∧ p.size ≤ M)
    (he : ops.foldlM (cleanStep v fuel) s = some s') : CleanRun v M s'.1 s'.2 := by
  induction ops generalizing s with
  | nil =>
      obtain rfl := Option.some.inj he
      exact h
  | cons op ops ih =>
      rw [List.foldlM_cons] at he
      obtain ⟨s₁, h₁, he⟩ := Option.bind_eq_some_iff.mp he
      refine ih ?_ (fun p hp => hops p (List.mem_cons_of_mem _ hp)) he
      cases op with
      | some p =>
          obtain ⟨hp, hM⟩ := hops p List.mem_cons_self
          rw [cleanStep] at h₁
          split_ifs at h₁ with hclean
          obtain ⟨⟨ps, d'⟩, hr, rfl⟩ := Option.map_eq_some_iff.mp h₁
          exact h.enque fuel p ps hp hM hr hclean
      | none =>
          obtain ⟨⟨o, s₂⟩, hr, rfl⟩ := Option.map_eq_some_iff.mp h₁
          exact h.deque fuel o hr

/-- Four small packets of one source and two large ones of another, three departures, and an arrival
that overflows. -/
def twoSources : List (Option DrrPacket) :=
  [some ⟨0, 10, 1⟩, some ⟨1, 10, 1⟩, some ⟨2, 10, 1⟩, some ⟨3, 10, 1⟩, some ⟨4, 40, 2⟩,
    some ⟨5, 40, 2⟩, none, none, none, some ⟨6, 40, 3⟩]

/-- The first source sends its quantum in each of two visits, while the other saves up. -/
theorem run_fair_two :
    ∃ s, twoSources.foldlM (cleanStep ⟨16, 120, 10, 0⟩ 9) (init, .init) = some s ∧
      (∀ x, s.1.curr ≠ some x → (s.1.drr x).turn = 0) ∧
      s.2.visits 1 = [(10, 10), (10, 10)] ∧ s.2.visits 2 = [(10, 0), (10, 0)] ∧
      ∀ x ∈ [1, 2], 2 * 10 - 40 < sentIn (s.2.visits x) ∧ sentIn (s.2.visits x) < 2 * 10 + 40 := by
  have hsome : (twoSources.foldlM (cleanStep ⟨16, 120, 10, 0⟩ 9) (init, .init)).isSome := by
    decide +kernel
  have hall : (twoSources.foldlM (cleanStep ⟨16, 120, 10, 0⟩ 9) (init, .init)).all fun s =>
      s.2.visits 1 = [(10, 10), (10, 10)] ∧ s.2.visits 2 = [(10, 0), (10, 0)] ∧
        ∀ x ∈ [1, 2], (s.1.drr x).queue.length = 1 ∧ (s.2.visits x).length = 2 := by
    decide +kernel
  obtain ⟨s, hs⟩ := Option.isSome_iff_exists.mp hsome
  rw [hs, Option.all_some, decide_eq_true_eq] at hall
  obtain ⟨h₁, h₂, hlen⟩ := hall
  have hrun : CleanRun ⟨16, 120, 10, 0⟩ 40 s.1 s.2 :=
    CleanRun.init.steps (by simp [twoSources]) hs
  obtain ⟨hturn, -, hbytes, -⟩ := run_fair (by decide) (by decide) (by decide) hrun
  refine ⟨s, hs, hturn, h₁, h₂, fun x hx => ?_⟩
  obtain ⟨hq, hv⟩ := hlen x hx
  have hne : (s.1.drr x).queue ≠ [] := by
    rw [← List.length_pos_iff, hq]
    exact one_pos
  have hk := (hbytes x hne).2.2 [] (s.2.visits x) [] (by simp)
  rwa [hv] at hk

theorem turn_left_behind : ∃ d arrived gone, Run ⟨16, 120, 10, 0⟩ d arrived gone ∧
    (∀ p ∈ arrived, p.size ≤ 100) ∧ ∃ x, d.curr ≠ some x ∧ (d.drr x).turn ≠ 0 := by
  have hsome : turnLeftBehind.isSome := by decide +kernel
  obtain ⟨r, hr⟩ := Option.isSome_iff_exists.mp hsome
  have hturn : turnLeftBehind.all fun r => r.1.curr ≠ some 1 ∧ (r.1.drr 1).turn ≠ 0 := by
    decide +kernel
  rw [hr, Option.all_some, decide_eq_true_eq] at hturn
  exact ⟨r.1, _, _, turnLeftBehind_run hr, by simp, 1, hturn⟩

end DRR

end Afabric
