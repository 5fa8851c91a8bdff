import Afabric.Queue.Sfq
import Afabric.Support.MachineInt
import Afabric.Support.Windows

/-!
# Queue — the rounds of stochastic fair queueing

`Books s l` says that `l` is the circle of the buckets with packets, and that the counters are what
they count.  An arrival leaves the circle or puts one bucket at its end (`Books.enque`), and a
service takes its first bucket away or to the end (`Books.deque`).  So the buckets before a bucket
`b` are those that have their turn before `b` has it again (`Books.turns`).

The command `buckets` goes through only as long as there is no array (`setBuckets_iff`).
-/

namespace Afabric

namespace SFQ

variable {s t : SFQ} {l : List ℕ} {x b c : ℕ} {p : SfqPacket} {ops : List SfqOp}
  {outs : List SfqOut}

/-! ### Addresses -/

theorem hash_nonneg (hp : 0 < p.saddr + p.daddr) : 0 ≤ hash p := by
  rw [hash]
  generalize p.saddr + p.daddr = k at hp ⊢
  obtain ⟨i, rfl⟩ := Int.eq_ofNat_of_zero_le hp.le
  have h₈ : (i : ℤ) >>> (8 : ℕ) = i / 256 := Int.shiftRight_eq_div_pow _ _
  have h₄ : ~~~((i : ℤ) >>> (4 : ℕ)) = -(i / 16) - 1 := not_shiftRight i 4
  rw [h₈, h₄]
  exact Int.tmod_nonneg _ (by omega)

theorem which_nonneg (s : SFQ) (hp : 0 < p.saddr + p.daddr) : 0 ≤ s.which p :=
  Int.tmod_nonneg _ (hash_nonneg hp)

theorem which_lt (hb : 0 < s.buckets) : s.which p < s.buckets :=
  Int.tmod_lt_of_pos _ (Int.natCast_pos.mpr hb)

/-! ### The circle -/

theorem activate_ring (h : Circular s.next s.prev s.active l) (hx : x ∉ l) :
    ∃ nxt prv hd, activate x s = { s with next := nxt, prev := prv, active := hd } ∧
      Circular nxt prv hd (l ++ [x]) := by
  have hh := h.head_eq
  rw [activate]
  cases l with
  | nil =>
      have hnone : s.active = none := hh
      rw [hnone]
      exact ⟨_, _, _, rfl, .single⟩
  | cons z l =>
      have hsome : s.active = some z := hh
      rw [hsome] at h ⊢
      exact ⟨_, _, _, rfl, hsome ▸ h.insert hx⟩

theorem idle_ring (h : Circular s.next s.prev s.active (x :: l)) :
    ∃ nxt prv hd, idle x s = { s with next := nxt, prev := prv, active := hd } ∧
      Circular nxt prv hd l := by
  have hactive : s.active = some x := h.head_eq
  rw [idle, if_pos hactive]
  by_cases hl : l = []
  · subst hl
    have hself : s.next x = some x := h.linked.2.1
    rw [if_pos hself]
    exact ⟨_, _, _, rfl, .nil⟩
  · have hne : s.next x ≠ some x := by
      intro he
      have hh := (h.removeHead hl).head_eq
      rw [he] at hh
      exact (List.nodup_cons.mp h.nodup).1 (List.mem_of_mem_head? hh.symm)
    rw [if_neg hne]
    exact ⟨_, _, _, rfl, h.removeHead hl⟩

/-! ### The books -/

structure Books (s : SFQ) (l : List ℕ) : Prop where
  ring : Circular s.next s.prev s.active l
  backlogged : ∀ x, x ∈ l ↔ (s.bucket x).queue ≠ []
  bound : ∀ x ∈ l, x < s.buckets
  pkts : ∀ x, (s.bucket x).pkts = (s.bucket x).queue.length
  which : ∀ x, ∀ p ∈ (s.bucket x).queue, s.which p = x
  fresh : s.allocated = false → l = []
  occupied : s.allocated = true →
    s.occupied = ∑ x ∈ Finset.range s.buckets, ((s.bucket x).queue.length : ℤ)
  limit : s.allocated = true → s.occupied ≤ max s.maxqueue 0

theorem books_new (maxqueue : ℤ) (buckets : ℕ) (occupied fairshare : ℤ) :
    Books (new maxqueue buckets occupied fairshare) [] where
  ring := .nil
  backlogged := fun x => by simp [new]
  bound := fun x hx => absurd hx List.not_mem_nil
  pkts := fun x => rfl
  which := fun x p hp => absurd hp List.not_mem_nil
  fresh := fun _ => rfl
  occupied := fun h => Bool.noConfusion h
  limit := fun h => Bool.noConfusion h

theorem Books.queue_nil_iff (h : Books s l) : l = [] ↔ ∀ x, (s.bucket x).queue = [] := by
  rw [List.eq_nil_iff_forall_not_mem]
  simp only [h.backlogged, not_not]

/-- The array is made, and nothing is queued in it if it was not there. -/
theorem Books.ready (h : Books s l) : Books (ready s) l ∧ (SFQ.ready s).allocated = true ∧
    (SFQ.ready s).bucket = s.bucket := by
  rw [SFQ.ready]
  split_ifs with ha
  · exact ⟨h, ha, rfl⟩
  · have hl := h.fresh (Bool.eq_false_iff.mpr ha)
    have hempty := h.queue_nil_iff.mp hl
    have hbucket : (initsfq s).bucket = s.bucket := by
      funext x
      have hpkts := h.pkts x
      rw [hempty x] at hpkts
      rw [show s.bucket x = ⟨(s.bucket x).queue, (s.bucket x).pkts⟩ from rfl, hempty x, hpkts]
      rfl
    subst hl
    refine ⟨⟨.nil, fun x => ?_, fun x hx => absurd hx List.not_mem_nil, fun x => rfl,
      fun x p hp => absurd hp List.not_mem_nil, fun _ => rfl, fun _ => ?_, fun _ => ?_⟩, rfl, hbucket⟩
    · simp [initsfq]
    · simp [initsfq]
    · exact le_max_right _ _

@[simp] theorem ready_buckets (s : SFQ) : (ready s).buckets = s.buckets := by
  rw [ready]
  split_ifs <;> rfl

@[simp] theorem ready_maxqueue (s : SFQ) : (ready s).maxqueue = s.maxqueue := by
  rw [ready]
  split_ifs <;> rfl

@[simp] theorem ready_which (s : SFQ) : (ready s).which = s.which := by
  funext p
  rw [SFQ.which, ready_buckets]
  rfl

/-- The books after the queue of bucket `x` has become `q`. -/
theorem Books.set (h : Books s l) (ha : s.allocated = true) {l' : List ℕ} {q : List SfqPacket}
    (hx : x < s.buckets) (hq : ∀ p ∈ q, s.which p = x)
    (hbucket : t.bucket = Function.update s.bucket x ⟨q, q.length⟩)
    (hsame : t.buckets = s.buckets ∧ t.maxqueue = s.maxqueue ∧ t.allocated = s.allocated)
    (hoccupied : t.occupied = s.occupied + (q.length - (s.bucket x).queue.length))
    (hlimit : t.occupied ≤ max s.maxqueue 0) (hring : Circular t.next t.prev t.active l')
    (hmem : ∀ y, y ∈ l' ↔ if y = x then q ≠ [] else y ∈ l) : Books t l' := by
  obtain ⟨hbuckets, hmaxqueue, halloc⟩ := hsame
  have hwhich : t.which = s.which := by
    funext p
    rw [SFQ.which, hbuckets]
    rfl
  have hset : ∀ (P : ℕ → PacketSFQ → Prop), P x ⟨q, q.length⟩ → (∀ y, P y (s.bucket y)) →
      ∀ y, P y (t.bucket y) := by
    intro P hself hother y
    rw [hbucket]
    by_cases hyx : y = x
    · subst hyx
      rwa [Function.update_self]
    · rw [Function.update_of_ne hyx]
      exact hother y
  constructor
  case ring => exact hring
  case backlogged =>
    intro y
    rw [hmem, hbucket]
    by_cases hyx : y = x
    · subst hyx
      rw [if_pos rfl, Function.update_self]
    · rw [if_neg hyx, Function.update_of_ne hyx]
      exact h.backlogged y
  case bound =>
    intro y hy
    rw [hmem] at hy
    rw [hbuckets]
    by_cases hyx : y = x
    · exact hyx ▸ hx
    · rw [if_neg hyx] at hy
      exact h.bound y hy
  case pkts => exact hset (fun _ b => b.pkts = b.queue.length) rfl h.pkts
  case which =>
    rw [hwhich]
    exact hset (fun y b => ∀ p ∈ b.queue, s.which p = y) hq h.which
  case fresh => exact fun hf => absurd (halloc.symm.trans hf) (by simp [ha])
  case occupied =>
    intro _
    rw [hbuckets, hbucket, sum_update hx fun b : PacketSFQ => (b.queue.length : ℤ), ← h.occupied ha,
      hoccupied]
  case limit =>
    intro _
    rw [hmaxqueue]
    exact hlimit

/-! ### The operations -/

/-- What every operation leaves as it is. -/
def Fixed (s t : SFQ) : Prop := t.buckets = s.buckets ∧ t.maxqueue = s.maxqueue

theorem Fixed.trans {u : SFQ} (h₁ : Fixed s t) (h₂ : Fixed t u) : Fixed s u :=
  ⟨h₂.1.trans h₁.1, h₂.2.trans h₁.2⟩

theorem Fixed.which (h : Fixed s t) : t.which = s.which := by
  funext p
  rw [SFQ.which, h.1]
  rfl

/-- A packet that is taken comes last in its bucket, which is put at the end of the circle if it
was empty. -/
theorem Books.accept (h : Books s l) (ha : s.allocated = true) (hb : 0 < s.buckets)
    (hx : s.which p = x) (hr : ¬ s.Refused x) :
    ∃ l', Books (accept x p s) l' ∧ l <+: l' ∧ Fixed s (SFQ.accept x p s) ∧
      (SFQ.accept x p s).allocated = true ∧
      (SFQ.accept x p s).bucket =
        Function.update s.bucket x ⟨(s.bucket x).queue ++ [p], (s.bucket x).pkts + 1⟩ := by
  have hlt : x < s.buckets := Int.ofNat_lt.mp (hx ▸ which_lt hb)
  have hlen : (s.bucket x).pkts + 1 = ((s.bucket x).queue ++ [p]).length := by
    rw [h.pkts, List.length_append]
    push_cast
    rfl
  have hroom : s.occupied + 1 ≤ max s.maxqueue 0 := by
    have hleft : ¬ s.maxqueue - s.occupied ≤ 0 := fun hle => hr (.inr (.inr hle))
    omega
  have hof : ∀ r ∈ (s.bucket x).queue ++ [p], s.which r = x := by
    intro r hr
    rcases List.mem_append.mp hr with hm | hm
    · exact h.which x r hm
    · rw [List.mem_singleton.mp hm]
      exact hx
  have hone : s.occupied + 1 = s.occupied +
      ((((s.bucket x).queue ++ [p]).length : ℤ) - (s.bucket x).queue.length) := by
    rw [List.length_append, List.length_singleton]
    push_cast
    omega
  have hbucket : (⟨(s.bucket x).queue ++ [p], (s.bucket x).pkts + 1⟩ : PacketSFQ) =
      ⟨(s.bucket x).queue ++ [p], ((s.bucket x).queue ++ [p]).length⟩ := by rw [hlen]
  have hfirst : (s.bucket x).pkts + 1 = 1 ↔ x ∉ l := by
    rw [h.backlogged, h.pkts, not_not, ← List.length_eq_zero_iff]
    omega
  rw [SFQ.accept]
  by_cases hnew : x ∈ l
  · rw [if_neg fun he => hfirst.mp he hnew]
    refine ⟨l, h.set ha hlt hof (by rw [← hbucket]) ⟨rfl, rfl, rfl⟩ hone hroom h.ring fun y => ?_,
      List.prefix_refl l, ⟨rfl, rfl⟩, ha, rfl⟩
    by_cases hyx : y = x
    · simp [hyx, hnew]
    · simp [hyx]
  · rw [if_pos (hfirst.mpr hnew)]
    obtain ⟨nxt, prv, hd, he, hring⟩ := activate_ring (s := { s with
      bucket := Function.update s.bucket x ⟨(s.bucket x).queue ++ [p], (s.bucket x).pkts + 1⟩
      occupied := s.occupied + 1 }) h.ring hnew
    rw [he]
    refine ⟨l ++ [x], h.set ha hlt hof (by rw [← hbucket]) ⟨rfl, rfl, rfl⟩ hone hroom hring
      fun y => ?_, List.prefix_append l [x], ⟨rfl, rfl⟩, ha, rfl⟩
    by_cases hyx : y = x
    · simp [hyx]
    · simp [hyx]

/-- The head packet of the first bucket is served; the bucket leaves the circle with its last packet
and goes to the end otherwise. -/
theorem Books.serve (h : Books s (x :: l)) (ha : s.allocated = true) {q : List SfqPacket}
    (hq : (s.bucket x).queue = p :: q) :
    Books (serve x s) (if q = [] then l else l ++ [x]) ∧ Fixed s (SFQ.serve x s) ∧
      (SFQ.serve x s).allocated = true ∧
      (SFQ.serve x s).bucket = Function.update s.bucket x ⟨q, (s.bucket x).pkts - 1⟩ := by
  have hlt : x < s.buckets := h.bound x List.mem_cons_self
  have hx : x ∉ l := (List.nodup_cons.mp h.ring.nodup).1
  have hlen : (s.bucket x).pkts - 1 = q.length := by
    rw [h.pkts, hq]
    push_cast [List.length_cons]
    omega
  have hof : ∀ r ∈ q, s.which r = x := fun r hr =>
    h.which x r (by rw [hq]; exact List.mem_cons_of_mem p hr)
  have hone : s.occupied - 1 = s.occupied + ((q.length : ℤ) - (s.bucket x).queue.length) := by
    rw [hq, List.length_cons]
    push_cast
    omega
  have hroom : s.occupied - 1 ≤ max s.maxqueue 0 := by
    have hle := h.limit ha
    omega
  have hbucket : (⟨q, (s.bucket x).pkts - 1⟩ : PacketSFQ) = ⟨q, q.length⟩ := by rw [hlen]
  have hlast : (s.bucket x).pkts - 1 = 0 ↔ q = [] := by
    rw [hlen, Int.natCast_eq_zero, List.length_eq_zero_iff]
  rw [SFQ.serve, hq]
  dsimp only [List.tail_cons]
  by_cases hnil : q = []
  · rw [if_pos (hlast.mpr hnil), if_pos hnil]
    obtain ⟨nxt, prv, hd, he, hring⟩ := idle_ring (x := x) (s := { s with
      bucket := Function.update s.bucket x ⟨q, (s.bucket x).pkts - 1⟩
      occupied := s.occupied - 1 }) h.ring
    rw [he]
    refine ⟨h.set ha hlt hof (by rw [← hbucket]) ⟨rfl, rfl, rfl⟩ hone hroom hring fun y => ?_,
      ⟨rfl, rfl⟩, ha, rfl⟩
    by_cases hyx : y = x
    · simp [hyx, hnil, hx]
    · simp [hyx]
  · rw [if_neg fun he => hnil (hlast.mp he), if_neg hnil]
    refine ⟨h.set ha hlt hof (by rw [← hbucket]) ⟨rfl, rfl, rfl⟩ hone hroom h.ring.step fun y => ?_,
      ⟨rfl, rfl⟩, ha, rfl⟩
    by_cases hyx : y = x
    · simp [hyx, hnil]
    · simp [hyx]

/-! ### What is taken and what is served -/

def accepted (outs : List SfqOut) : List SfqPacket :=
  outs.filterMap fun
    | .taken p => some p
    | _ => none

def departed (outs : List SfqOut) : List SfqPacket :=
  outs.filterMap fun
    | .served r => r
    | _ => none

/-- The packets of a bucket. -/
def inBucket (s : SFQ) (x : ℕ) (ps : List SfqPacket) : List SfqPacket :=
  ps.filter fun p => s.which p = x

theorem inBucket_append (x : ℕ) (ps qs : List SfqPacket) :
    inBucket s x (ps ++ qs) = inBucket s x ps ++ inBucket s x qs := List.filter_append _ _

theorem Fixed.inBucket (h : Fixed s t) : inBucket t = inBucket s := by
  funext x ps
  rw [SFQ.inBucket, h.which]
  rfl

/-- What an operation does to the queues. -/
def Moves (s t : SFQ) (outs : List SfqOut) : Prop :=
  ∀ x, (s.bucket x).queue ++ inBucket s x (accepted outs) =
    inBucket s x (departed outs) ++ (t.bucket x).queue

theorem Moves.trans {u : SFQ} {os : List SfqOut} (h₁ : Moves s t outs) (hf : Fixed s t)
    (h₂ : Moves t u os) : Moves s u (outs ++ os) := by
  intro x
  have hx := h₂ x
  rw [hf.inBucket] at hx
  rw [accepted, departed, List.filterMap_append, List.filterMap_append, inBucket_append,
    inBucket_append, ← List.append_assoc]
  change (s.bucket x).queue ++ SFQ.inBucket s x (accepted outs) ++ SFQ.inBucket s x (accepted os) =
    SFQ.inBucket s x (departed outs) ++ SFQ.inBucket s x (departed os) ++ _
  rw [h₁ x, List.append_assoc, hx, List.append_assoc]

/-- What an operation does. -/
structure Does (s : SFQ) (l : List ℕ) (op : SfqOp) (t : SFQ) (l' : List ℕ) (o : SfqOut) : Prop where
  books : Books t l'
  fixed : Fixed s t
  made : t.allocated = true
  moves : Moves s t [o]
  turn : l <+: l' ∧ departed [o] = [] ∨
    ∃ x m p, l = x :: m ∧ o = .served (some p) ∧ s.which p = x ∧ (l' = m ∨ l' = m ++ [x])
  empty : op = .deque → (o = .served none ↔ ∀ x, (s.bucket x).queue = [])

theorem Books.enque (h : Books s l) (hb : 0 < s.buckets) (hp : 0 ≤ s.which p) :
    ∃ t l' o, enque p s = some (t, o) ∧ Does s l (.enque p) t l' o := by
  obtain ⟨hr, ha, hbucket⟩ := h.ready
  obtain ⟨x, hx⟩ : ∃ x : ℕ, s.which p = x := ⟨_, (Int.toNat_of_nonneg hp).symm⟩
  have hfixed : Fixed s (SFQ.ready s) := ⟨ready_buckets s, ready_maxqueue s⟩
  have hnn : ¬ (SFQ.ready s).which p < 0 := by rw [hfixed.which]; exact hp.not_gt
  have htoNat : ((SFQ.ready s).which p).toNat = x := by rw [hfixed.which, hx, Int.toNat_natCast]
  rw [SFQ.enque, if_neg hnn, htoNat]
  by_cases hrefused : (SFQ.ready s).Refused x
  · rw [if_pos hrefused]
    exact ⟨_, l, _, rfl, hr, hfixed, ha, fun y => by rw [hbucket]; exact List.append_nil _,
      .inl ⟨List.prefix_refl l, rfl⟩, fun he => by cases he⟩
  · rw [if_neg hrefused]
    obtain ⟨l', hbooks, hpre, hkeep, halloc, hqueue⟩ := hr.accept ha (by rwa [ready_buckets])
      (by rw [hfixed.which]; exact hx) hrefused
    refine ⟨_, l', _, rfl, hbooks, hfixed.trans hkeep, halloc, fun y => ?_, .inl ⟨hpre, rfl⟩,
      fun he => by cases he⟩
    rw [hqueue, hbucket]
    by_cases hyx : y = x
    · subst hyx
      rw [Function.update_self, SFQ.inBucket, accepted]
      simp [hx, SFQ.inBucket, departed]
    · have hne : ¬ s.which p = y := by
        rw [hx]
        exact fun he => hyx (Int.ofNat_inj.mp he).symm
      rw [Function.update_of_ne hyx]
      simp [hne, SFQ.inBucket, departed, accepted]

theorem Books.deque (h : Books s l) :
    ∃ l', Does s l .deque s.deque.1 l' (.served s.deque.2) := by
  obtain ⟨hr, ha, hbucket⟩ := h.ready
  have hfixed : Fixed s (SFQ.ready s) := ⟨ready_buckets s, ready_maxqueue s⟩
  have hactive := hr.ring.head_eq
  rw [SFQ.deque]
  cases l with
  | nil =>
      have hnone : (SFQ.ready s).active = none := hactive
      rw [hnone]
      have hall := h.queue_nil_iff.mp rfl
      exact ⟨[], hr, hfixed, ha, fun y => by rw [hbucket]; exact List.append_nil _,
        .inl ⟨List.prefix_refl [], rfl⟩, fun _ => ⟨fun _ => hall, fun _ => rfl⟩⟩
  | cons x m =>
      have hsome : (SFQ.ready s).active = some x := hactive
      rw [hsome]
      obtain ⟨p, q, hq⟩ := List.exists_cons_of_ne_nil ((hr.backlogged x).mp List.mem_cons_self)
      obtain ⟨hbooks, hkeep, halloc, hqueue⟩ := hr.serve ha hq
      have hp : s.which p = x := by
        rw [← hfixed.which]
        exact hr.which x p (by rw [hq]; exact List.mem_cons_self)
      dsimp only
      rw [hq, List.head?_cons]
      refine ⟨_, hbooks, hfixed.trans hkeep, halloc, fun y => ?_,
        .inr ⟨x, m, p, rfl, rfl, hp, ?_⟩, fun _ => ⟨fun he => ?_, fun hall => ?_⟩⟩
      · rw [hqueue, ← hbucket]
        by_cases hyx : y = x
        · subst hyx
          rw [Function.update_self, hq]
          simp [hp, SFQ.inBucket, departed, accepted]
        · have hne : ¬ s.which p = y := by
            rw [hp]
            exact fun he => hyx (Int.ofNat_inj.mp he).symm
          rw [Function.update_of_ne hyx]
          simp [hne, SFQ.inBucket, departed, accepted]
      · by_cases hnil : q = []
        · exact .inl (if_pos hnil)
        · exact .inr (if_neg hnil)
      · cases he
      · rw [hbucket, hall x] at hq
        cases hq

theorem Books.step (h : Books s l) (hb : 0 < s.buckets) (op : SfqOp)
    (hop : ∀ p, op = .enque p → 0 ≤ s.which p) :
    ∃ t l' o, step s op = some (t, o) ∧ Does s l op t l' o := by
  cases op with
  | enque p => exact h.enque hb (hop p rfl)
  | deque =>
      obtain ⟨l', hd⟩ := h.deque
      exact ⟨_, l', _, rfl, hd⟩

/-! ### Runs -/

theorem run_cons_iff {op : SfqOp} {r : SFQ × List SfqOut} :
    run s (op :: ops) = some r ↔
      ∃ t o os, step s op = some (t, o) ∧ run t ops = some (r.1, os) ∧ r.2 = o :: os := by
  rw [run]
  simp only [Option.bind_eq_bind, Option.bind_eq_some_iff, Option.pure_def, Option.some.injEq,
    Prod.exists]
  constructor
  · rintro ⟨t, o, ht, u, os, hu, rfl⟩
    exact ⟨t, o, os, ht, hu, rfl⟩
  · rintro ⟨t, o, os, ht, hu, hr⟩
    exact ⟨t, o, ht, r.1, os, hu, by rw [← hr]⟩

theorem Books.run (h : Books s l) (hb : 0 < s.buckets)
    (hpos : ∀ p, .enque p ∈ ops → 0 < p.saddr + p.daddr) :
    ∃ t l' outs, run s ops = some (t, outs) ∧ Books t l' ∧ Fixed s t ∧
      (ops ≠ [] → t.allocated = true) ∧ Moves s t outs := by
  induction ops generalizing s l with
  | nil =>
      exact ⟨s, l, [], rfl, h, ⟨rfl, rfl⟩, fun hne => absurd rfl hne,
        fun x => List.append_nil _⟩
  | cons op ops ih =>
      obtain ⟨t, l₁, o, hstep, hdoes⟩ := h.step hb op fun p hp =>
        which_nonneg s (hpos p (hp ▸ List.mem_cons_self))
      obtain ⟨u, l₂, os, hrun, hbooks, hfixed, halloc, hmoves⟩ := ih hdoes.books
        (hdoes.fixed.1 ▸ hb) fun p hp => hpos p (List.mem_cons_of_mem op hp)
      refine ⟨u, l₂, o :: os, run_cons_iff.mpr ⟨t, o, os, hstep, hrun, rfl⟩, hbooks,
        hdoes.fixed.trans hfixed, fun _ => ?_, hdoes.moves.trans hdoes.fixed hmoves⟩
      cases ops with
      | nil =>
          cases hrun
          exact hdoes.made
      | cons op' ops => exact halloc (List.cons_ne_nil op' ops)

/-- As long as `b` is not served, the buckets before it in the circle have their turns, one each. -/
theorem Books.turns {A B : List ℕ} (h : Books s (A ++ b :: B)) (hb : 0 < s.buckets)
    (hpos : ∀ p, .enque p ∈ ops → 0 < p.saddr + p.daddr) (hrun : SFQ.run s ops = some (t, outs))
    (hnot : ∀ p ∈ departed outs, s.which p ≠ b) (hc : c ≠ b) :
    ∃ A' B', Books t (A' ++ b :: B') ∧
      (inBucket s c (departed outs)).length + (if c ∈ A' then 1 else 0) = if c ∈ A then 1 else 0 := by
  induction ops generalizing s outs A B with
  | nil =>
      cases hrun
      exact ⟨A, B, h, Nat.zero_add _⟩
  | cons op ops ih =>
      obtain ⟨u, o, os, hstep, hrest, he⟩ := run_cons_iff.mp hrun
      obtain ⟨u', l', o', hstep', hdoes⟩ := h.step hb op fun p hp =>
        which_nonneg s (hpos p (hp ▸ List.mem_cons_self))
      obtain ⟨rfl, rfl⟩ := Prod.mk.inj (Option.some.inj (hstep.symm.trans hstep'))
      have houts : departed outs = departed [o] ++ departed os := by
        rw [show outs = [o] ++ os from he]
        exact List.filterMap_append
      have hwhich := hdoes.fixed.which
      have hnot' : ∀ p ∈ departed os, u.which p ≠ b := fun p hp => by
        rw [hwhich]
        exact hnot p (by rw [houts]; exact List.mem_append_right _ hp)
      have hpos' : ∀ p, .enque p ∈ ops → 0 < p.saddr + p.daddr := fun p hp =>
        hpos p (List.mem_cons_of_mem op hp)
      rw [houts, inBucket_append, List.length_append, ← hdoes.fixed.inBucket]
      rcases hdoes.turn with ⟨⟨E, hE⟩, hnone⟩ | ⟨x, m, p, hl, rfl, hp, hm⟩
      · rw [← hE, List.append_assoc] at hdoes
        obtain ⟨A', B', hbooks, hcount⟩ := ih hdoes.books (hdoes.fixed.1 ▸ hb) hpos' hrest hnot'
        refine ⟨A', B', hbooks, ?_⟩
        rw [hnone]
        simpa [inBucket] using hcount
      · have hxb : x ≠ b := by
          rintro rfl
          exact hnot p (by rw [houts]; simp [departed]) hp
        obtain ⟨A₁, rfl, rfl⟩ : ∃ A₁, A = x :: A₁ ∧ m = A₁ ++ b :: B := by
          cases A with
          | nil => exact absurd (List.cons.inj hl).1.symm hxb
          | cons y A₁ =>
              obtain ⟨rfl, rfl⟩ := List.cons.inj hl
              exact ⟨A₁, rfl, rfl⟩
        have hxA : x ∉ A₁ := fun hx =>
          (List.nodup_cons.mp h.ring.nodup).1 (List.mem_append_left _ hx)
        obtain ⟨E, hE⟩ : ∃ E, l' = A₁ ++ b :: (B ++ E) := by
          rcases hm with rfl | rfl
          · exact ⟨[], by rw [List.append_nil]⟩
          · exact ⟨[x], by rw [List.append_assoc]; rfl⟩
        rw [hE] at hdoes
        obtain ⟨A', B', hbooks, hcount⟩ := ih hdoes.books (hdoes.fixed.1 ▸ hb) hpos' hrest hnot'
        refine ⟨A', B', hbooks, ?_⟩
        have hself : (inBucket u c (departed [.served (some p)])).length = if x = c then 1 else 0 := by
          rw [hdoes.fixed.inBucket, inBucket, departed]
          by_cases hxc : x = c
          · simp [hp, hxc]
          · have hne : ¬ s.which p = c := by
              rw [hp]
              exact fun hh => hxc (Int.ofNat_inj.mp hh)
            simp [hne, hxc]
        rw [hself, Nat.add_assoc, hcount]
        by_cases hxc : x = c
        · simp [hxc, hxc ▸ hxA]
        · simp [hxc, Ne.symm hxc]

/-- **The rounds of stochastic fair queueing.**  In every run the circle from `active` holds the
buckets with packets, each once; from the first operation on `occupied` is the sum of the counters
and within the limit; `deque` gives a packet unless nothing is queued; and every bucket is first in,
first out.  Between two services of a bucket `b` that is backlogged, every other bucket that had
packets at the first of them is served once. -/
theorem run_rounds (maxqueue : ℤ) (buckets : ℕ) (occupied fairshare : ℤ) (ops : List SfqOp)
    (hb : 0 < buckets) (hpos : ∀ p, .enque p ∈ ops → 0 < p.saddr + p.daddr) :
    ∃ s outs, run (new maxqueue buckets occupied fairshare) ops = some (s, outs) ∧
      (∃ l, Circular s.next s.prev s.active l ∧
        ∀ x, x ∈ l ↔ x < buckets ∧ 0 < (s.bucket x).pkts) ∧
      (∀ x, (s.bucket x).pkts = (s.bucket x).queue.length) ∧
      (ops ≠ [] → s.occupied = ∑ x ∈ Finset.range buckets, (s.bucket x).pkts ∧
        s.occupied ≤ max maxqueue 0) ∧
      (s.deque.2 = none ↔ ∀ x, (s.bucket x).queue = []) ∧
      (∀ x, inBucket s x (accepted outs) = inBucket s x (departed outs) ++ (s.bucket x).queue) ∧
      ∀ (b : ℕ) (p q : SfqPacket) (mid : List SfqOp) (t : SFQ) (os : List SfqOut),
        (∀ r, .enque r ∈ mid → 0 < r.saddr + r.daddr) →
        s.deque.2 = some p → s.which p = b → (s.deque.1.bucket b).queue ≠ [] →
        run s.deque.1 mid = some (t, os) → (∀ r ∈ departed os, s.which r ≠ b) →
        t.deque.2 = some q → s.which q = b →
        ∀ c, c ≠ b → (s.bucket c).queue ≠ [] → (inBucket s c (departed os)).length = 1 := by
  obtain ⟨s, l, outs, hrun, hbooks, hfixed, halloc, hmoves⟩ :=
    (books_new maxqueue buckets occupied fairshare).run hb hpos
  have hbuckets : s.buckets = buckets := hfixed.1
  refine ⟨s, outs, hrun, ⟨l, hbooks.ring, fun x => ?_⟩, hbooks.pkts, fun hne => ?_, ?_, fun x => ?_,
    ?_⟩
  · rw [hbooks.backlogged, hbooks.pkts, Int.natCast_pos, List.length_pos_iff]
    exact ⟨fun hx => ⟨hbuckets ▸ hbooks.bound x ((hbooks.backlogged x).mpr hx), hx⟩, fun hx => hx.2⟩
  · have hlimit := hbooks.limit (halloc hne)
    rw [hfixed.2] at hlimit
    refine ⟨?_, hlimit⟩
    rw [hbooks.occupied (halloc hne), hbuckets]
    exact Finset.sum_congr rfl fun x _ => (hbooks.pkts x).symm
  · obtain ⟨l', hdoes⟩ := hbooks.deque
    rw [← hdoes.empty rfl, SfqOut.served.injEq]
  · have hx := hmoves x
    rw [hfixed.inBucket]
    exact hx
  · intro b p q mid t os hmid hp hpb hstays hrest hnot hq hqb c hc hback
    obtain ⟨l', hdoes⟩ := hbooks.deque
    rw [hp] at hdoes
    have hsb : 0 < s.buckets := hbuckets ▸ hb
    rcases hdoes.turn with ⟨-, hnone⟩ | ⟨x, m, p', rfl, hp', hx, hm⟩
    · cases hnone
    · obtain rfl : p = p' := Option.some.inj (SfqOut.served.inj hp')
      obtain rfl : x = b := Int.ofNat_inj.mp (hx.symm.trans hpb)
      have hxm : x ∉ m := (List.nodup_cons.mp hbooks.ring.nodup).1
      -- `b` goes to the end of the circle, so all the others come before it
      have hl' : l' = m ++ x :: [] := by
        rcases hm with rfl | rfl
        · exact absurd ((hdoes.books.backlogged x).mpr hstays) hxm
        · rfl
      have hwhich := hdoes.fixed.which
      obtain ⟨A', B', ht, hcount⟩ := (hl' ▸ hdoes.books).turns (c := c) (hdoes.fixed.1 ▸ hsb) hmid
        hrest (fun r hr => by rw [hwhich]; exact hnot r hr) hc
      rw [hdoes.fixed.inBucket] at hcount
      have hcm : c ∈ m := List.mem_of_ne_of_mem hc ((hbooks.backlogged c).mpr hback)
      rw [if_pos hcm] at hcount
      -- the next to be served is the head of the circle
      have hA' : A' = [] := by
        obtain ⟨l₂, hdoes₂⟩ := ht.deque
        rw [hq] at hdoes₂
        rcases hdoes₂.turn with ⟨-, hnone⟩ | ⟨y, m₂, q', hl₂, hq', hy, -⟩
        · cases hnone
        · obtain rfl : q = q' := Option.some.inj (SfqOut.served.inj hq')
          obtain ⟨_, _, _, hrun₂, -, hfixed₂, -, -⟩ :=
            hdoes.books.run (hdoes.fixed.1 ▸ hsb) hmid
          obtain ⟨rfl, -⟩ := Prod.mk.inj (Option.some.inj (hrest.symm.trans hrun₂))
          rw [hfixed₂.which, hwhich, hqb] at hy
          have hyx : x = y := Int.ofNat_inj.mp hy
          cases A' with
          | nil => rfl
          | cons z A' =>
              obtain rfl : z = y := (List.cons.inj hl₂).1
              rw [← hyx] at ht
              exact absurd (List.mem_append_right A' List.mem_cons_self)
                (List.nodup_cons.mp ht.ring.nodup).1
      rw [hA', if_neg List.not_mem_nil, Nat.add_zero] at hcount
      exact hcount

theorem run_rounds_three : ∃ s outs,
    run (new 40 16 7 7) [.enque ⟨0, 1, 2⟩, .enque ⟨1, 1, 2⟩, .deque] = some (s, outs) ∧
      (s.deque.2 = none ↔ ∀ x, (s.bucket x).queue = []) := by
  obtain ⟨s, outs, hrun, -, -, -, hnull, -⟩ :=
    run_rounds 40 16 7 7 [.enque ⟨0, 1, 2⟩, .enque ⟨1, 1, 2⟩, .deque] (by decide) (by simp)
  exact ⟨s, outs, hrun, hnull⟩

/-- With a negative limit `occupied` is 0 and exceeds it. -/
theorem occupied_negative_limit : ∃ s outs,
    run (new (-1) 16 0 0) [.deque] = some (s, outs) ∧ ¬ s.occupied ≤ s.maxqueue :=
  ⟨_, _, rfl, by decide⟩

/-! ### The command `buckets` -/

/-- The scan of `clear` never gets to its end: `i` stays what it is. -/
theorem clearLoop_none {i : ℕ} (hi : i ≠ 0) (n : ℕ) : clearLoop s i n = none := by
  induction n with
  | zero => rw [clearLoop, if_neg hi]
  | succ n ih =>
      rw [clearLoop, if_neg hi]
      split_ifs
      · rfl
      · exact ih

theorem step_fixed {op : SfqOp} {o : SfqOut} (h : step s op = some (t, o)) :
    t.buckets = s.buckets ∧ t.allocated = true := by
  have hready : (ready s).allocated = true := by
    rw [ready]
    split_ifs with ha
    · exact ha
    · rfl
  have hactivate : ∀ (x : ℕ) (u : SFQ),
      (activate x u).buckets = u.buckets ∧ (activate x u).allocated = u.allocated := by
    intro x u
    rw [activate]
    cases u.active <;> exact ⟨rfl, rfl⟩
  have hidle : ∀ (x : ℕ) (u : SFQ),
      (idle x u).buckets = u.buckets ∧ (idle x u).allocated = u.allocated := by
    intro x u
    rw [idle]
    split_ifs <;> exact ⟨rfl, rfl⟩
  cases op with
  | enque p =>
      rw [step, enque] at h
      split_ifs at h
      · cases h
        exact ⟨ready_buckets s, hready⟩
      · cases h
        rw [accept]
        split_ifs
        · rw [(hactivate _ _).1, (hactivate _ _).2]
          exact ⟨ready_buckets s, hready⟩
        · exact ⟨ready_buckets s, hready⟩
  | deque =>
      cases h
      rw [deque]
      cases (ready s).active with
      | none => exact ⟨ready_buckets s, hready⟩
      | some x =>
          dsimp only
          rw [serve]
          split_ifs
          · rw [(hidle _ _).1, (hidle _ _).2]
            exact ⟨ready_buckets s, hready⟩
          · exact ⟨ready_buckets s, hready⟩

theorem run_fixed (h : run s ops = some (t, outs)) :
    t.buckets = s.buckets ∧ (ops ≠ [] → t.allocated = true) := by
  induction ops generalizing s outs with
  | nil =>
      cases h
      exact ⟨rfl, fun hne => absurd rfl hne⟩
  | cons op ops ih =>
      obtain ⟨u, o, os, hstep, hrest, -⟩ := run_cons_iff.mp h
      have hu := step_fixed hstep
      have ht := ih hrest
      refine ⟨ht.1.trans hu.1, fun _ => ?_⟩
      cases ops with
      | nil =>
          cases hrest
          exact hu.2
      | cons op' ops => exact ht.2 (List.cons_ne_nil op' ops)

/-- The first operation does not read what the memory holds. -/
theorem run_new (maxqueue : ℤ) (buckets : ℕ) (o f o' f' : ℤ) (ops : List SfqOp) :
    (run (new maxqueue buckets o f) ops).map Prod.snd =
      (run (new maxqueue buckets o' f') ops).map Prod.snd := by
  cases ops with
  | nil => rfl
  | cons op ops =>
      have hstep : step (new maxqueue buckets o f) op = step (new maxqueue buckets o' f') op := by
        cases op <;> rfl
      rw [run, run, hstep]

/-- **The command `buckets`** ends and leaves a queue that behaves like a new one just when nothing
has been asked of the queue yet: once there is an array, `clear` runs past its end. -/
theorem setBuckets_iff (maxqueue : ℤ) (buckets n : ℕ) (occupied fairshare : ℤ) (ops : List SfqOp)
    (hb : 0 < buckets)
    (hrun : run (new maxqueue buckets occupied fairshare) ops = some (s, outs)) :
    (∃ t, setBuckets n s = some t ∧ t.allocated = false ∧ ∀ o f later,
      (run t later).map Prod.snd = (run (new maxqueue n o f) later).map Prod.snd) ↔ ops = [] := by
  constructor
  · rintro ⟨t, hset, -, -⟩
    by_contra hne
    obtain ⟨hbuckets, halloc⟩ := run_fixed hrun
    have hpos : s.buckets ≠ 0 := by
      rw [hbuckets]
      exact hb.ne'
    rw [setBuckets, clear, if_pos (halloc hne), clearLoop_none hpos] at hset
    cases hset
  · rintro rfl
    cases hrun
    exact ⟨new maxqueue n occupied fairshare, rfl, rfl, fun o f later => run_new ..⟩

theorem setBuckets_iff_none : (∃ t, setBuckets 4 (new 40 16 0 0) = some t ∧ t.allocated = false ∧
    ∀ o f later, (run t later).map Prod.snd = (run (new 40 4 o f) later).map Prod.snd) :=
  (setBuckets_iff 40 16 4 0 0 [] (by decide) rfl).mpr rfl

/-- An empty queue from which a packet has been asked. -/
theorem setBuckets_after_deque : ∃ s outs, run (new 40 16 0 0) [.deque] = some (s, outs) ∧
    (∀ x, (s.bucket x).queue = []) ∧ setBuckets 4 s = none :=
  ⟨_, _, rfl, fun _ => rfl, by decide +kernel⟩

end SFQ

end Afabric
