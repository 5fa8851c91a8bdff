import Afabric.Queue.Drr
import Afabric.Support.MachineInt
import Afabric.Support.Windows
import Mathlib.Algebra.Order.BigOperators.Group.Finset

/-!
# Queue — the books of deficit round robin

`Books v d l` says that `l` is the circle of the buckets with packets and that every counter is what
it counts.  `accept`, `dropOne` and `serve` keep the books and say what they do to the buckets
(`Books.accept`, `dropOne_spec`, `serve_spec`).  The loops end: each drop takes a packet, and each
bucket that is passed over is short of fewer bytes, or has lost its turn (`Books.passed_work`).
-/

namespace Afabric

namespace DRR

variable {v : DrrVars} {d d' : DRR} {l : List ℕ} {x c : ℕ} {p : DrrPacket} {rest : List DrrPacket}

def bytes (q : List DrrPacket) : ℤ := (q.map DrrPacket.size).sum

theorem bytes_cons (p : DrrPacket) (q : List DrrPacket) : bytes (p :: q) = p.size + bytes q := by
  simp [bytes]

theorem bytes_concat (q : List DrrPacket) (p : DrrPacket) : bytes (q ++ [p]) = bytes q + p.size := by
  simp [bytes]

structure Books (v : DrrVars) (d : DRR) (l : List ℕ) : Prop where
  ring : Circular d.next d.prev d.curr l
  backlogged : ∀ x, x ∈ l ↔ (d.drr x).queue ≠ []
  bound : ∀ x, x ∈ l → x < v.buckets
  pkts : ∀ x, (d.drr x).pkts = (d.drr x).queue.length
  bcount : ∀ x, (d.drr x).bcount = bytes (d.drr x).queue
  flwcnt : d.flwcnt = l.length
  pktcnt : d.pktcnt = ∑ x ∈ Finset.range v.buckets, ((d.drr x).queue.length : ℤ)
  bytecnt : d.bytecnt = ∑ x ∈ Finset.range v.buckets, bytes (d.drr x).queue
  packets : ∀ x, ∀ p ∈ (d.drr x).queue, 0 < p.size ∧ bucketOf v p = x

theorem books_init (v : DrrVars) : Books v init [] where
  ring := .nil
  backlogged := fun x => by simp [init, PacketDRR.init]
  bound := fun x hx => absurd hx List.not_mem_nil
  pkts := fun x => rfl
  bcount := fun x => rfl
  flwcnt := rfl
  pktcnt := by simp [init, PacketDRR.init]
  bytecnt := by simp [init, PacketDRR.init, bytes]
  packets := fun x p hp => absurd hp List.not_mem_nil

/-! ### Addresses -/

/-- For an address 0 the sum is −1; the hash is never negative. -/
theorem hash_nonneg (v : DrrVars) (p : DrrPacket) : 0 ≤ hash v p := by
  rw [hash]
  generalize maskedAddr v p = i
  have h₈ : (i : ℤ) >>> (8 : ℕ) = i / 256 := Int.shiftRight_eq_div_pow _ _
  have h₄ : ~~~((i : ℤ) >>> (4 : ℕ)) = -(i / 16) - 1 := not_shiftRight i 4
  rw [h₈, h₄]
  have hlow : -1 ≤ (i : ℤ) + i / 256 + (-(i / 16) - 1) := by omega
  generalize (i : ℤ) + i / 256 + (-(i / 16) - 1) = s at hlow ⊢
  rcases eq_or_lt_of_le hlow with rfl | hlt
  · decide
  · have hnn := Int.tmod_nonneg ((2 <<< 23) - 1) (show 0 ≤ s by omega)
    omega

theorem bucketOf_lt (hb : 0 < v.buckets) (p : DrrPacket) : bucketOf v p < v.buckets := by
  rw [bucketOf, Int.tmod_eq_emod_of_nonneg (hash_nonneg v p)]
  have hlt := Int.emod_lt_of_pos (hash v p) (Int.natCast_pos.mpr hb)
  have hnn := Int.emod_nonneg (hash v p) (Int.natCast_ne_zero.mpr hb.ne')
  omega

/-! ### The circle -/

@[simp] theorem idle_drr : (idle x d).drr = d.drr := by
  rw [idle]
  dsimp only
  split_ifs <;> rfl

@[simp] theorem idle_bytecnt : (idle x d).bytecnt = d.bytecnt := by
  rw [idle]
  dsimp only
  split_ifs <;> rfl

@[simp] theorem idle_pktcnt : (idle x d).pktcnt = d.pktcnt := by
  rw [idle]
  dsimp only
  split_ifs <;> rfl

@[simp] theorem idle_flwcnt : (idle x d).flwcnt = d.flwcnt := by
  rw [idle]
  dsimp only
  split_ifs <;> rfl

theorem idle_ring (h : Circular d.next d.prev d.curr l) (hx : x ∈ l) :
    Circular (idle x d).next (idle x d).prev (idle x d).curr (l.erase x) := by
  rw [idle]
  by_cases hc : d.curr = some x
  · obtain ⟨b, rfl⟩ := (hc ▸ h).eq_cons
    rw [List.erase_cons_head]
    by_cases hb : b = []
    · subst hb
      have hself : d.next x = some x := h.linked.2.1
      dsimp only
      rw [if_pos hc, if_pos hself]
      exact .nil
    · have hne : d.next x ≠ some x := by
        intro he
        have hh := (h.removeHead hb).head_eq
        rw [he] at hh
        exact (List.nodup_cons.mp h.nodup).1 (List.mem_of_mem_head? hh.symm)
      dsimp only
      rw [if_pos hc, if_neg hne]
      exact h.removeHead hb
  · obtain ⟨a, b, hxa, rfl, he⟩ := List.exists_erase_eq hx
    have ha : a ≠ [] := by
      rintro rfl
      exact hc h.head_eq
    dsimp only
    rw [if_neg hc, he]
    exact h.remove ha

@[simp] theorem activate_drr : (activate x d).drr = d.drr := by
  rw [activate]
  cases d.curr <;> rfl

@[simp] theorem activate_bytecnt : (activate x d).bytecnt = d.bytecnt := by
  rw [activate]
  cases d.curr <;> rfl

@[simp] theorem activate_pktcnt : (activate x d).pktcnt = d.pktcnt := by
  rw [activate]
  cases d.curr <;> rfl

@[simp] theorem activate_flwcnt : (activate x d).flwcnt = d.flwcnt := by
  rw [activate]
  cases d.curr <;> rfl

theorem activate_ring (h : Circular d.next d.prev d.curr l) (hx : x ∉ l) :
    Circular (activate x d).next (activate x d).prev (activate x d).curr (l ++ [x]) := by
  have hh := h.head_eq
  rw [activate]
  cases l with
  | nil =>
      have hnone : d.curr = none := hh
      rw [hnone]
      exact .single
  | cons z l =>
      have hsome : d.curr = some z := hh
      rw [hsome] at h ⊢
      exact h.insert hx

/-! ### Counters -/

/-- The books after bucket `x` has become `b`. -/
theorem Books.set (h : Books v d l) (b : PacketDRR) {l' : List ℕ} (hx : x < v.buckets)
    (hdrr : d'.drr = Function.update d.drr x b) (hpkts : b.pkts = b.queue.length)
    (hbcount : b.bcount = bytes b.queue)
    (hpktcnt : d'.pktcnt = d.pktcnt + (b.queue.length - (d.drr x).queue.length))
    (hbytecnt : d'.bytecnt = d.bytecnt + (bytes b.queue - bytes (d.drr x).queue))
    (hpackets : ∀ p ∈ b.queue, 0 < p.size ∧ bucketOf v p = x)
    (hring : Circular d'.next d'.prev d'.curr l') (hflwcnt : d'.flwcnt = l'.length)
    (hmem : ∀ y, y ∈ l' ↔ if y = x then b.queue ≠ [] else y ∈ l) : Books v d' l' := by
  have hset : ∀ (P : ℕ → PacketDRR → Prop), P x b → (∀ y, P y (d.drr y)) → ∀ y, P y (d'.drr y) := by
    intro P hb ho y
    rw [hdrr]
    by_cases hyx : y = x
    · subst hyx
      rwa [Function.update_self]
    · rw [Function.update_of_ne hyx]
      exact ho y
  constructor
  case ring => exact hring
  case backlogged =>
    intro y
    rw [hmem, hdrr]
    by_cases hyx : y = x
    · subst hyx
      rw [if_pos rfl, Function.update_self]
    · rw [if_neg hyx, Function.update_of_ne hyx]
      exact h.backlogged y
  case bound =>
    intro y hy
    rw [hmem] at hy
    by_cases hyx : y = x
    · exact hyx ▸ hx
    · rw [if_neg hyx] at hy
      exact h.bound y hy
  case pkts => exact hset (fun _ q => q.pkts = q.queue.length) hpkts h.pkts
  case bcount => exact hset (fun _ q => q.bcount = bytes q.queue) hbcount h.bcount
  case flwcnt => exact hflwcnt
  case pktcnt =>
    rw [hdrr, sum_update hx fun q : PacketDRR => (q.queue.length : ℤ), ← h.pktcnt, hpktcnt]
  case bytecnt => rw [hdrr, sum_update hx fun q : PacketDRR => bytes q.queue, ← h.bytecnt, hbytecnt]
  case packets =>
    exact hset (fun y q => ∀ p ∈ q.queue, 0 < p.size ∧ bucketOf v p = y) hpackets h.packets

/-- The books after the head packet of `x` has left. -/
theorem Books.take (d' : DRR) (h : Books v d l) (hq : (d.drr x).queue = p :: rest) (b : PacketDRR)
    (hdrr : d'.drr = Function.update d.drr x b) (hqueue : b.queue = rest)
    (hpkts : b.pkts = (d.drr x).pkts - 1) (hbcount : b.bcount = (d.drr x).bcount - p.size)
    (hpktcnt : d'.pktcnt = d.pktcnt - 1) (hbytecnt : d'.bytecnt = d.bytecnt - p.size)
    (hring : Circular d'.next d'.prev d'.curr (if rest = [] then l.erase x else l))
    (hflwcnt : d'.flwcnt = if rest = [] then d.flwcnt - 1 else d.flwcnt) :
    Books v d' (if rest = [] then l.erase x else l) := by
  have hx : x ∈ l := (h.backlogged x).mpr (by simp [hq])
  have hnd := h.ring.nodup
  have hlen : (d.drr x).queue.length = rest.length + 1 := by rw [hq]; rfl
  have hsum : bytes (d.drr x).queue = p.size + bytes rest := by rw [hq, bytes_cons]
  subst hqueue
  refine h.set b (h.bound x hx) hdrr ?_ ?_ ?_ ?_ (fun q hm => ?_) hring ?_ fun y => ?_
  · rw [hpkts, h.pkts, hlen]
    push_cast
    ring
  · rw [hbcount, h.bcount, hsum]
    ring
  · rw [hpktcnt, hlen]
    push_cast
    ring
  · rw [hbytecnt, hsum]
    ring
  · exact h.packets x q (by rw [hq]; exact List.mem_cons_of_mem p hm)
  · rw [hflwcnt, h.flwcnt]
    have hpos : 0 < l.length := List.length_pos_of_mem hx
    split_ifs
    · rw [List.length_erase_of_mem hx]
      omega
    · rfl
  · by_cases hyx : y = x
    · subst hyx
      by_cases hr : b.queue = []
      · simp [hr, hnd.mem_erase_iff]
      · simp [hr, hx]
    · by_cases hr : b.queue = []
      · simp [hr, hnd.mem_erase_iff, hyx]
      · simp [hr, hyx]

/-! ### The operations -/

theorem maxflowFrom_spec {m : ℕ} {q n : Option ℕ} (h : Linked d.next d.prev q l n) :
    ∃ x, maxflowFrom d l.length m (l.head?.or n) = some x ∧ x ∈ m :: l ∧
      ∀ y ∈ m :: l, (d.drr y).bcount ≤ (d.drr x).bcount := by
  induction l generalizing m q with
  | nil => exact ⟨m, by cases n <;> rfl, List.mem_singleton_self m, by simp⟩
  | cons t l ih =>
      obtain ⟨-, hnext, hrun⟩ := h
      obtain ⟨m', hm'⟩ : ∃ m', m' = if (d.drr m).bcount < (d.drr t).bcount then t else m := ⟨_, rfl⟩
      obtain ⟨x, hx, hmem, hmax⟩ := ih (m := m') hrun
      have hle : (d.drr m).bcount ≤ (d.drr m').bcount ∧ (d.drr t).bcount ≤ (d.drr m').bcount := by
        rw [hm']
        split_ifs with hlt
        · exact ⟨hlt.le, le_rfl⟩
        · exact ⟨le_rfl, not_lt.mp hlt⟩
      have hm'mem : m' ∈ m :: t :: l := by
        rw [hm']
        split_ifs <;> simp
      refine ⟨x, ?_, ?_, fun y hy => ?_⟩
      · rw [List.head?_cons, Option.some_or, List.length_cons, maxflowFrom, ← hm', hnext]
        exact hx
      · rcases List.mem_cons.mp hmem with rfl | hm
        · exact hm'mem
        · simp [hm]
      · have htop := hmax m' (by simp)
        rcases List.mem_cons.mp hy with rfl | hy
        · exact hle.1.trans htop
        · rcases List.mem_cons.mp hy with rfl | hy
          · exact hle.2.trans htop
          · exact hmax y (by simp [hy])

/-- The bucket with most bytes. -/
theorem Books.getMaxflow (h : Books v d l) (hne : l ≠ []) :
    ∃ x, getMaxflow d = some x ∧ x ∈ l ∧ ∀ y ∈ l, (d.drr y).bcount ≤ (d.drr x).bcount := by
  obtain ⟨c, l, rfl⟩ := List.exists_cons_of_ne_nil hne
  have hcurr : d.curr = some c := h.ring.head_eq
  obtain ⟨x, hx, hmem, hmax⟩ := maxflowFrom_spec (d := d) (m := c) h.ring.linked
  refine ⟨x, ?_, by simpa using hmem, fun y hy => hmax y (List.mem_cons_of_mem c hy)⟩
  rw [DRR.getMaxflow, hcurr, h.flwcnt]
  exact hx

/-- A drop takes the head packet of a bucket of the circle. -/
theorem Books.dropOne (h : Books v d l) (hne : l ≠ []) : ∃ x p rest d', x ∈ l ∧
    (d.drr x).queue = p :: rest ∧ dropOne d = some (p, d') ∧
    d'.drr = Function.update d.drr x { d.drr x with queue := rest
                                                    pkts := (d.drr x).pkts - 1
                                                    bcount := (d.drr x).bcount - p.size } ∧
    d'.pktcnt = d.pktcnt - 1 ∧ DRR.getMaxflow d = some x ∧
    Books v d' (if rest = [] then l.erase x else l) := by
  obtain ⟨x, hmax, hx, -⟩ := h.getMaxflow hne
  obtain ⟨p, rest, hq⟩ := List.exists_cons_of_ne_nil ((h.backlogged x).mp hx)
  have hpkts : (d.drr x).pkts - 1 = rest.length := by
    rw [h.pkts, hq]
    push_cast [List.length_cons]
    ring
  have hzero : (d.drr x).pkts - 1 = 0 ↔ rest = [] := by
    rw [hpkts, Int.natCast_eq_zero, List.length_eq_zero_iff]
  rw [DRR.dropOne, hmax, Option.bind_some, hq]
  dsimp only
  have hb : (release x (d.drr x) p rest d).drr x = { d.drr x with queue := rest
                                                                  pkts := (d.drr x).pkts - 1
                                                                  bcount := (d.drr x).bcount - p.size } :=
    Function.update_self _ _ _
  rw [hb]
  by_cases hr : rest = []
  · refine ⟨x, p, rest, _, hx, hq, if_pos (hzero.mpr hr), ?_, ?_, rfl, ?_⟩
    · exact idle_drr
    · exact idle_pktcnt
    · refine h.take _ hq _ idle_drr rfl rfl rfl idle_pktcnt idle_bytecnt ?_ ?_
      · rw [if_pos hr]
        exact idle_ring h.ring hx
      · rw [if_pos hr]
        exact congrArg (· - 1) idle_flwcnt
  · refine ⟨x, p, rest, _, hx, hq, if_neg fun hc => hr (hzero.mp hc), rfl, rfl, rfl, ?_⟩
    refine h.take _ hq _ rfl rfl rfl rfl rfl rfl ?_ (if_neg hr).symm
    rw [if_neg hr]
    exact h.ring

@[simp] theorem credited_queue (b : PacketDRR) : (credited v b).queue = b.queue := by
  rw [credited]
  split_ifs <;> rfl

@[simp] theorem credited_pkts (b : PacketDRR) : (credited v b).pkts = b.pkts := by
  rw [credited]
  split_ifs <;> rfl

@[simp] theorem credited_bcount (b : PacketDRR) : (credited v b).bcount = b.bcount := by
  rw [credited]
  split_ifs <;> rfl

/-- A bucket after its head packet has been sent. -/
def served (v : DrrVars) (b : PacketDRR) (p : DrrPacket) (rest : List DrrPacket) : PacketDRR :=
  { credited v b with
    queue := rest
    pkts := b.pkts - 1
    bcount := b.bcount - p.size
    turn := if rest = [] then 0 else (credited v b).turn
    deficitCounter := if rest = [] then 0 else (credited v b).deficitCounter - p.size }

/-- A bucket that has been passed over. -/
def passed (v : DrrVars) (b : PacketDRR) : PacketDRR := { credited v b with turn := 0 }

/-- The state after bucket `c` has sent its head packet. -/
def sendOne (v : DrrVars) (c : ℕ) (p : DrrPacket) (rest : List DrrPacket) (d : DRR) : DRR :=
  let d := { d with drr := Function.update d.drr c (served v (d.drr c) p rest)
                    pktcnt := d.pktcnt - 1
                    bytecnt := d.bytecnt - p.size
                    flwcnt := if rest = [] then d.flwcnt - 1 else d.flwcnt }
  if rest = [] then idle c d else d

theorem serve_send (hcurr : d.curr = some c) (hq : (d.drr c).queue = p :: rest)
    (hpkts : (d.drr c).pkts - 1 = 0 ↔ rest = [])
    (hle : p.size ≤ (credited v (d.drr c)).deficitCounter) :
    serve v d = some (some p, sendOne v c p rest d) := by
  rw [serve, hcurr, Option.bind_some]
  dsimp only
  rw [credited_queue, hq]
  dsimp only
  rw [if_pos hle]
  by_cases hr : rest = []
  · simp only [release, Function.update_self, Function.update_idem, credited_pkts, credited_bcount,
      if_pos (hpkts.mpr hr), sendOne, if_pos hr, served]
  · simp only [release, Function.update_self, credited_pkts, credited_bcount,
      if_neg fun hz => hr (hpkts.mp hz), sendOne, if_neg hr, served]

theorem serve_pass (hcurr : d.curr = some c) (hq : (d.drr c).queue = p :: rest)
    (hlt : ¬ p.size ≤ (credited v (d.drr c)).deficitCounter) :
    serve v d = some (none, { d with drr := Function.update d.drr c (passed v (d.drr c))
                                     curr := d.next c }) := by
  rw [serve, hcurr, Option.bind_some]
  dsimp only
  rw [credited_queue, hq]
  dsimp only
  rw [if_neg hlt, passed, credited_queue, hq]

/-- A round of `deque` sends the head packet of the current bucket or goes on to the next one. -/
theorem Books.serve (h : Books v d (c :: l)) (hq : (d.drr c).queue = p :: rest) :
    (p.size ≤ (credited v (d.drr c)).deficitCounter →
      serve v d = some (some p, sendOne v c p rest d) ∧
        Books v (sendOne v c p rest d) (if rest = [] then l else c :: l)) ∧
    (¬ p.size ≤ (credited v (d.drr c)).deficitCounter → ∃ d', serve v d = some (none, d') ∧
        d'.drr = Function.update d.drr c (passed v (d.drr c)) ∧ d'.bytecnt = d.bytecnt ∧
        Books v d' (l ++ [c])) := by
  have hcurr : d.curr = some c := h.ring.head_eq
  have hc : c ∈ c :: l := List.mem_cons_self
  have hpkts : (d.drr c).pkts - 1 = 0 ↔ rest = [] := by
    rw [h.pkts, hq, ← List.length_eq_zero_iff, List.length_cons]
    omega
  constructor
  · intro hle
    refine ⟨serve_send hcurr hq hpkts hle, ?_⟩
    have herase : (if rest = [] then l else c :: l) =
        if rest = [] then (c :: l).erase c else c :: l := by rw [List.erase_cons_head]
    rw [herase, sendOne]
    by_cases hr : rest = []
    · simp only [if_pos hr]
      have htake := h.take (idle c { d with
        drr := Function.update d.drr c (served v (d.drr c) p rest)
        pktcnt := d.pktcnt - 1
        bytecnt := d.bytecnt - p.size
        flwcnt := d.flwcnt - 1 }) hq (served v (d.drr c) p rest) idle_drr rfl rfl rfl idle_pktcnt
        idle_bytecnt
      rw [if_pos hr] at htake
      exact htake (idle_ring h.ring hc) (by rw [if_pos hr]; exact idle_flwcnt)
    · simp only [if_neg hr]
      have htake := h.take { d with
        drr := Function.update d.drr c (served v (d.drr c) p rest)
        pktcnt := d.pktcnt - 1
        bytecnt := d.bytecnt - p.size } hq (served v (d.drr c) p rest) rfl rfl rfl rfl rfl rfl
      rw [if_neg hr] at htake
      exact htake h.ring (by rw [if_neg hr])
  · intro hlt
    refine ⟨_, serve_pass hcurr hq hlt, rfl, rfl, ?_⟩
    refine h.set (passed v (d.drr c)) (h.bound c hc) rfl ?_ ?_ ?_ ?_ ?_ h.ring.step ?_ fun y => ?_
    · simp only [passed, credited_pkts, credited_queue, h.pkts]
    · simp only [passed, credited_bcount, credited_queue, h.bcount]
    · simp only [passed, credited_queue, sub_self, add_zero]
    · simp only [passed, credited_queue, sub_self, add_zero]
    · simp only [passed, credited_queue]
      exact h.packets c
    · simp [h.flwcnt]
    · simp only [passed, credited_queue, hq]
      by_cases hyc : y = c
      · simp [hyc]
      · simp [hyc]

/-- The bucket of an arriving packet. -/
def accepted (v : DrrVars) (b : PacketDRR) (p : DrrPacket) : PacketDRR :=
  { b with
    src := if b.src = -1 then (maskedAddr v p : ℤ) else b.src
    queue := b.queue ++ [p]
    pkts := b.pkts + 1
    bcount := b.bcount + p.size
    deficitCounter := if b.queue = [] then 0 else b.deficitCounter }

theorem accept_drr (hpkts : ∀ x, (d.drr x).pkts = (d.drr x).queue.length) :
    (accept v p d).drr = Function.update d.drr (bucketOf v p)
      (accepted v (d.drr (bucketOf v p)) p) := by
  have hone : (d.drr (bucketOf v p)).pkts + 1 = 1 ↔ (d.drr (bucketOf v p)).queue = [] := by
    rw [hpkts, ← List.length_eq_zero_iff]
    omega
  rw [accept]
  by_cases hq : (d.drr (bucketOf v p)).queue = []
  · simp only [if_pos (hone.mpr hq), activate_drr, accepted, if_pos hq]
  · simp only [if_neg fun hc => hq (hone.mp hc), accepted, if_neg hq]

theorem accept_bytecnt : (accept v p d).bytecnt = d.bytecnt + p.size := by
  rw [accept]
  by_cases hone : (d.drr (bucketOf v p)).pkts + 1 = 1
  · simp only [if_pos hone, activate_bytecnt]
  · simp only [if_neg hone]

theorem accept_pktcnt : (accept v p d).pktcnt = d.pktcnt + 1 := by
  rw [accept]
  by_cases hone : (d.drr (bucketOf v p)).pkts + 1 = 1
  · simp only [if_pos hone, activate_pktcnt]
  · simp only [if_neg hone]

theorem Books.accept (h : Books v d l) (hb : 0 < v.buckets) (hp : 0 < p.size) :
    Books v (accept v p d)
      (if (d.drr (bucketOf v p)).queue = [] then l ++ [bucketOf v p] else l) := by
  obtain ⟨x, hx⟩ : ∃ x, x = bucketOf v p := ⟨_, rfl⟩
  have hone : (d.drr x).pkts + 1 = 1 ↔ (d.drr x).queue = [] := by
    rw [h.pkts, ← List.length_eq_zero_iff]
    omega
  have hmem := h.backlogged x
  have hlt : x < v.buckets := hx ▸ bucketOf_lt hb p
  have hdrr := accept_drr (v := v) (p := p) h.pkts
  rw [← hx] at hdrr ⊢
  refine h.set (accepted v (d.drr x) p) hlt hdrr ?_ ?_ ?_ ?_ (fun q hm => ?_) ?_ ?_ fun y => ?_
  · simp only [accepted, h.pkts, List.length_append, List.length_singleton]
    push_cast
    ring
  · simp only [accepted, h.bcount, bytes_concat]
  · rw [accept_pktcnt]
    simp only [accepted, List.length_append, List.length_singleton]
    push_cast
    ring
  · rw [accept_bytecnt]
    simp only [accepted, bytes_concat]
    ring
  · rcases List.mem_append.mp hm with hm | hm
    · exact h.packets x q hm
    · rw [List.mem_singleton.mp hm]
      exact ⟨hp, hx.symm⟩
  · rw [DRR.accept, ← hx]
    by_cases hq : (d.drr x).queue = []
    · simp only [if_pos (hone.mpr hq), if_pos hq]
      have hring := activate_ring (d := { d with pktcnt := d.pktcnt + 1
                                                 bytecnt := d.bytecnt + p.size })
        h.ring fun hm => hmem.mp hm hq
      exact hring
    · simp only [if_neg fun hc => hq (hone.mp hc), if_neg hq]
      exact h.ring
  · rw [DRR.accept, ← hx]
    by_cases hq : (d.drr x).queue = []
    · simp only [if_pos (hone.mpr hq), if_pos hq, activate_flwcnt, h.flwcnt]
      simp
    · simp only [if_neg fun hc => hq (hone.mp hc), if_neg hq, h.flwcnt]
  · by_cases hyx : y = x
    · subst hyx
      by_cases hq : (d.drr y).queue = []
      · simp [hq, accepted]
      · simp [hq, accepted, hmem]
    · by_cases hq : (d.drr x).queue = []
      · simp [hq, hyx]
      · simp [hq, hyx]

/-! ### The loops -/

theorem bytes_nonneg {q : List DrrPacket} (h : ∀ p ∈ q, 0 < p.size) : 0 ≤ bytes q := by
  refine List.sum_nonneg fun z hz => ?_
  obtain ⟨p, hp, rfl⟩ := List.mem_map.mp hz
  exact (h p hp).le

/-- There are bytes exactly when there are buckets with packets. -/
theorem Books.bytecnt_pos (h : Books v d l) : l ≠ [] ↔ 0 < d.bytecnt := by
  have hnn : ∀ x, 0 ≤ bytes (d.drr x).queue := fun x =>
    bytes_nonneg fun p hp => (h.packets x p hp).1
  rw [h.bytecnt]
  constructor
  · intro hne
    obtain ⟨c, hc⟩ := List.exists_mem_of_ne_nil l hne
    obtain ⟨p, rest, hq⟩ := List.exists_cons_of_ne_nil ((h.backlogged c).mp hc)
    have hpos : 0 < bytes (d.drr c).queue := by
      have hrest : ∀ q ∈ rest, 0 < q.size := fun q hm =>
        (h.packets c q (by rw [hq]; exact List.mem_cons_of_mem p hm)).1
      rw [hq, bytes_cons]
      exact add_pos_of_pos_of_nonneg (h.packets c p (by rw [hq]; exact List.mem_cons_self)).1
        (bytes_nonneg hrest)
    exact hpos.trans_le (Finset.single_le_sum (fun x _ => hnn x)
      (Finset.mem_range.mpr (h.bound c hc)))
  · rintro hpos rfl
    have hempty : ∀ x, (d.drr x).queue = [] := fun x => by
      by_contra hne
      exact List.not_mem_nil ((h.backlogged x).mpr hne)
    simp [hempty, bytes] at hpos

/-- The packets of bucket `x`. -/
def inBucket (v : DrrVars) (x : ℕ) (ps : List DrrPacket) : List DrrPacket :=
  ps.filter fun p => bucketOf v p = x

/-- The queues lose these packets from their heads, in this order. -/
def Loses (v : DrrVars) (d d' : DRR) (ps : List DrrPacket) : Prop :=
  ∀ x, (d.drr x).queue = inBucket v x ps ++ (d'.drr x).queue

theorem Loses.refl (d : DRR) : Loses v d d [] := fun _ => rfl

theorem Loses.trans {d'' : DRR} {ps qs : List DrrPacket} (h : Loses v d d' ps)
    (h' : Loses v d' d'' qs) : Loses v d d'' (ps ++ qs) := by
  intro x
  rw [h x, h' x, inBucket, inBucket, inBucket, List.filter_append, List.append_assoc]

/-- One packet leaves its bucket. -/
theorem Books.loses (h : Books v d l) (hq : (d.drr x).queue = p :: rest) {b : PacketDRR}
    (hdrr : d'.drr = Function.update d.drr x b) (hqueue : b.queue = rest) : Loses v d d' [p] := by
  have hp : bucketOf v p = x := (h.packets x p (by rw [hq]; exact List.mem_cons_self)).2
  intro y
  by_cases hyx : y = x
  · subst hyx
    rw [hdrr, Function.update_self, hqueue, hq, inBucket, List.filter_cons_of_pos (by simpa using hp)]
    rfl
  · rw [hdrr, Function.update_of_ne hyx, inBucket,
      List.filter_cons_of_neg (by simpa [hp] using Ne.symm hyx)]
    rfl

/-- What the loop of `enque` leaves. -/
theorem Books.shrink {fuel : ℕ} {ps : List DrrPacket} (h : Books v d l) (hlim : 0 ≤ v.blimit)
    (hs : shrink v fuel d = some (ps, d')) :
    (∃ l', Books v d' l') ∧ d'.bytecnt ≤ v.blimit ∧ Loses v d d' ps := by
  induction fuel generalizing d l ps with
  | zero => cases hs
  | succ fuel ih =>
      rw [DRR.shrink] at hs
      by_cases hlt : v.blimit < d.bytecnt
      · have hne : l ≠ [] := h.bytecnt_pos.mpr (hlim.trans_lt hlt)
        obtain ⟨x, p, rest, d₁, -, hq, hdrop, hdrr, -, -, hb⟩ := h.dropOne hne
        rw [if_pos hlt, hdrop, Option.bind_some] at hs
        obtain ⟨r, hr, he⟩ := Option.map_eq_some_iff.mp hs
        obtain ⟨rfl, rfl⟩ := Prod.mk.inj he
        obtain ⟨hbooks, hle, hloses⟩ := ih hb hr
        exact ⟨hbooks, hle, (h.loses hq hdrr rfl).trans hloses⟩
      · rw [if_neg hlt] at hs
        obtain ⟨rfl, rfl⟩ := Prod.mk.inj (Option.some.inj hs)
        exact ⟨⟨l, h⟩, not_lt.mp hlt, .refl d⟩

theorem Books.pktcnt_nonneg (h : Books v d l) : 0 ≤ d.pktcnt := by
  rw [h.pktcnt]
  exact Finset.sum_nonneg fun x _ => Int.natCast_nonneg _

/-- The loop of `enque` ends: each drop takes a packet. -/
theorem Books.shrink_ends (h : Books v d l) (hlim : 0 ≤ v.blimit) {n : ℕ} (hn : d.pktcnt ≤ n) :
    ∃ r, ∀ fuel, n < fuel → DRR.shrink v fuel d = some r := by
  induction n generalizing d l with
  | zero =>
      have hle : ¬ v.blimit < d.bytecnt := by
        intro hlt
        obtain ⟨x, p, rest, d₁, -, -, -, -, hcnt, -, hb⟩ :=
          h.dropOne (h.bytecnt_pos.mpr (hlim.trans_lt hlt))
        have hnn := hb.pktcnt_nonneg
        have h₀ : d.pktcnt ≤ 0 := hn
        omega
      refine ⟨([], d), fun fuel hfuel => ?_⟩
      obtain ⟨f, rfl⟩ := Nat.exists_eq_succ_of_ne_zero hfuel.ne'
      rw [DRR.shrink, if_neg hle]
  | succ n ih =>
      by_cases hlt : v.blimit < d.bytecnt
      · obtain ⟨x, p, rest, d₁, -, -, hdrop, -, hcnt, -, hb⟩ :=
          h.dropOne (h.bytecnt_pos.mpr (hlim.trans_lt hlt))
        obtain ⟨r, hr⟩ := ih hb (by push_cast at hn; omega)
        refine ⟨(p :: r.1, r.2), fun fuel hfuel => ?_⟩
        obtain ⟨f, rfl⟩ := Nat.exists_eq_succ_of_ne_zero (Nat.ne_zero_of_lt hfuel)
        rw [DRR.shrink, if_pos hlt, hdrop, Option.bind_some, hr f (Nat.lt_of_succ_lt_succ hfuel)]
        rfl
      · refine ⟨([], d), fun fuel hfuel => ?_⟩
        obtain ⟨f, rfl⟩ := Nat.exists_eq_succ_of_ne_zero (Nat.ne_zero_of_lt hfuel)
        rw [DRR.shrink, if_neg hlt]

/-- The bytes a bucket is short of, and the visit it has used up. -/
def shortage (b : PacketDRR) : ℕ :=
  b.queue.head?.elim 0 fun p => (p.size - b.deficitCounter).toNat + if b.turn = 0 then 0 else 1

/-- What is short over the circle. -/
def work (d : DRR) (l : List ℕ) : ℕ := (l.map fun x => shortage (d.drr x)).sum

/-- A bucket that is passed over is short of less. -/
theorem passed_shortage {b : PacketDRR} (hq : b.queue = p :: rest) (hquantum : 0 < v.quantum)
    (hlt : ¬ p.size ≤ (credited v b).deficitCounter) : shortage (passed v b) < shortage b := by
  have hhead : (passed v b).queue = p :: rest := by rw [passed, credited_queue, hq]
  rw [shortage, shortage, hhead, hq]
  simp only [List.head?_cons, Option.elim_some, passed, if_true]
  rw [credited] at hlt ⊢
  by_cases ht : b.turn = 0
  · simp only [if_pos ht] at hlt ⊢
    omega
  · simp only [if_neg ht] at hlt ⊢
    omega

theorem Books.passed_work (h : Books v d (c :: l)) (hq : (d.drr c).queue = p :: rest)
    (hquantum : 0 < v.quantum) (hlt : ¬ p.size ≤ (credited v (d.drr c)).deficitCounter)
    (hdrr : d'.drr = Function.update d.drr c (passed v (d.drr c))) :
    work d' (l ++ [c]) < work d (c :: l) := by
  have hc : c ∉ l := (List.nodup_cons.mp h.ring.nodup).1
  have hsame : (l.map fun x => shortage (d'.drr x)) = l.map fun x => shortage (d.drr x) := by
    refine List.map_congr_left fun x hx => ?_
    have hxc : x ≠ c := fun he => hc (he ▸ hx)
    rw [hdrr, Function.update_of_ne hxc]
  have hself : d'.drr c = passed v (d.drr c) := by rw [hdrr, Function.update_self]
  have hless := passed_shortage (v := v) hq hquantum hlt
  rw [work, work, List.map_append, List.sum_append, hsame]
  simp only [List.map_cons, List.map_nil, List.sum_cons, List.sum_nil, hself]
  omega

theorem serve_nil (h : Books v d []) : DRR.serve v d = none := by
  have hcurr : d.curr = none := h.ring.head_eq
  rw [DRR.serve, hcurr, Option.bind_none]

/-- The head packet of the first bucket of the circle. -/
theorem Books.head (h : Books v d (c :: l)) : ∃ p rest, (d.drr c).queue = p :: rest :=
  List.exists_cons_of_ne_nil ((h.backlogged c).mp List.mem_cons_self)

@[simp] theorem sendOne_drr :
    (sendOne v c p rest d).drr = Function.update d.drr c (served v (d.drr c) p rest) := by
  by_cases hr : rest = []
  · simp only [sendOne, if_pos hr, idle_drr]
  · simp only [sendOne, if_neg hr]

@[simp] theorem sendOne_bytecnt : (sendOne v c p rest d).bytecnt = d.bytecnt - p.size := by
  by_cases hr : rest = []
  · simp only [sendOne, if_pos hr, idle_bytecnt]
  · simp only [sendOne, if_neg hr]

/-- What the loop of `deque` leaves. -/
theorem Books.serveLoop {fuel : ℕ} (h : Books v d l) (hs : serveLoop v fuel d = some (p, d')) :
    (∃ l', Books v d' l') ∧ d'.bytecnt ≤ d.bytecnt ∧ Loses v d d' [p] := by
  induction fuel generalizing d l with
  | zero => cases hs
  | succ fuel ih =>
      rw [DRR.serveLoop] at hs
      cases l with
      | nil =>
          rw [serve_nil h] at hs
          cases hs
      | cons c l =>
          obtain ⟨q, rest, hq⟩ := h.head
          obtain ⟨hsend, hpass⟩ := h.serve hq
          by_cases hle : q.size ≤ (credited v (d.drr c)).deficitCounter
          · obtain ⟨hserve, hb⟩ := hsend hle
            rw [hserve] at hs
            obtain ⟨rfl, rfl⟩ := Prod.mk.inj (Option.some.inj hs)
            have hpos := (h.packets c q (by rw [hq]; exact List.mem_cons_self)).1
            exact ⟨⟨_, hb⟩, by rw [sendOne_bytecnt]; omega, h.loses hq sendOne_drr rfl⟩
          · obtain ⟨d₁, hserve, hdrr, hbytes, hb⟩ := hpass hle
            rw [hserve] at hs
            obtain ⟨hbooks, hcnt, hloses⟩ := ih hb hs
            refine ⟨hbooks, hbytes ▸ hcnt, fun x => ?_⟩
            have hsame : (d₁.drr x).queue = (d.drr x).queue := by
              rw [hdrr, Function.update_apply]
              split_ifs with hx
              · rw [hx, passed, credited_queue]
              · rfl
            rw [← hsame]
            exact hloses x

/-- The loop of `deque` ends: a bucket that is passed over is short of less. -/
theorem Books.serveLoop_ends (h : Books v d l) (hne : l ≠ []) (hquantum : 0 < v.quantum) {n : ℕ}
    (hn : work d l ≤ n) : ∃ r, ∀ fuel, n < fuel → DRR.serveLoop v fuel d = some r := by
  induction n generalizing d l with
  | zero =>
      obtain ⟨c, l, rfl⟩ := List.exists_cons_of_ne_nil hne
      obtain ⟨q, rest, hq⟩ := h.head
      obtain ⟨hsend, hpass⟩ := h.serve hq
      by_cases hle : q.size ≤ (credited v (d.drr c)).deficitCounter
      · refine ⟨(q, sendOne v c q rest d), fun fuel hfuel => ?_⟩
        obtain ⟨f, rfl⟩ := Nat.exists_eq_succ_of_ne_zero hfuel.ne'
        rw [DRR.serveLoop, (hsend hle).1]
        rfl
      · obtain ⟨d₁, -, hdrr, -, -⟩ := hpass hle
        exact absurd (h.passed_work hq hquantum hle hdrr) (by omega)
  | succ n ih =>
      obtain ⟨c, l, rfl⟩ := List.exists_cons_of_ne_nil hne
      obtain ⟨q, rest, hq⟩ := h.head
      obtain ⟨hsend, hpass⟩ := h.serve hq
      by_cases hle : q.size ≤ (credited v (d.drr c)).deficitCounter
      · refine ⟨(q, sendOne v c q rest d), fun fuel hfuel => ?_⟩
        obtain ⟨f, rfl⟩ := Nat.exists_eq_succ_of_ne_zero (Nat.ne_zero_of_lt hfuel)
        rw [DRR.serveLoop, (hsend hle).1]
        rfl
      · obtain ⟨d₁, hserve, hdrr, -, hb⟩ := hpass hle
        have hless := h.passed_work hq hquantum hle hdrr
        obtain ⟨r, hr⟩ := ih hb (by simp) (by omega)
        refine ⟨r, fun fuel hfuel => ?_⟩
        obtain ⟨f, rfl⟩ := Nat.exists_eq_succ_of_ne_zero (Nat.ne_zero_of_lt hfuel)
        rw [DRR.serveLoop, hserve]
        exact hr f (Nat.lt_of_succ_lt_succ hfuel)

/-! ### Runs -/

/-- A run with the packets that have arrived and those that have left, each in order. -/
inductive Run (v : DrrVars) : DRR → List DrrPacket → List DrrPacket → Prop
  | init : Run v init [] []
  | enque {d d' arrived gone} (fuel : ℕ) (p : DrrPacket) (ps : List DrrPacket)
      (h : Run v d arrived gone) (hp : 0 < p.size) (he : enque v fuel p d = some (ps, d')) :
      Run v d' (arrived ++ [p]) (gone ++ ps)
  | deque {d d' arrived gone} (fuel : ℕ) (o : Option DrrPacket) (h : Run v d arrived gone)
      (he : deque v fuel d = some (o, d')) : Run v d' arrived (gone ++ o.toList)

/-- What holds after every operation. -/
structure Kept (v : DrrVars) (d : DRR) (arrived gone : List DrrPacket) : Prop where
  books : ∃ l, Books v d l
  limit : d.bytecnt ≤ v.blimit
  fifo : ∀ x, inBucket v x arrived = inBucket v x gone ++ (d.drr x).queue

/-- What `accept` puts into the queues. -/
theorem accept_queue (hpkts : ∀ x, (d.drr x).pkts = (d.drr x).queue.length) (x : ℕ) :
    ((accept v p d).drr x).queue = (d.drr x).queue ++ inBucket v x [p] := by
  rw [accept_drr hpkts, Function.update_apply, inBucket]
  split_ifs with hx
  · rw [hx, List.filter_cons_of_pos (by simp)]
    rfl
  · rw [List.filter_cons_of_neg (by simpa using Ne.symm hx), List.filter_nil, List.append_nil]

theorem inBucket_append (x : ℕ) (ps qs : List DrrPacket) :
    inBucket v x (ps ++ qs) = inBucket v x ps ++ inBucket v x qs := List.filter_append _ _

theorem Kept.deque {arrived gone : List DrrPacket} {o : Option DrrPacket} {fuel : ℕ}
    (h : Kept v d arrived gone) (he : deque v fuel d = some (o, d')) :
    Kept v d' arrived (gone ++ o.toList) := by
  rw [DRR.deque] at he
  by_cases hz : d.bytecnt = 0
  · rw [if_pos hz] at he
    obtain ⟨rfl, rfl⟩ := Prod.mk.inj (Option.some.inj he)
    rw [Option.toList_none, List.append_nil]
    exact h
  · rw [if_neg hz] at he
    obtain ⟨r, hr, hrd⟩ := Option.map_eq_some_iff.mp he
    obtain ⟨rfl, rfl⟩ := Prod.mk.inj hrd
    obtain ⟨l, hl⟩ := h.books
    obtain ⟨hbooks, hcnt, hloses⟩ := hl.serveLoop hr
    refine ⟨hbooks, hcnt.trans h.limit, fun x => ?_⟩
    rw [h.fifo x, hloses x, inBucket_append, List.append_assoc]
    rfl

theorem Kept.enque {arrived gone ps : List DrrPacket} {fuel : ℕ} (hb : 0 < v.buckets)
    (hlim : 0 ≤ v.blimit) (hp : 0 < p.size) (h : Kept v d arrived gone)
    (he : enque v fuel p d = some (ps, d')) : Kept v d' (arrived ++ [p]) (gone ++ ps) := by
  obtain ⟨l, hl⟩ := h.books
  obtain ⟨hbooks, hcnt, hloses⟩ := (hl.accept hb hp).shrink hlim he
  refine ⟨hbooks, hcnt, fun x => ?_⟩
  have hq := hloses x
  rw [accept_queue hl.pkts] at hq
  rw [inBucket_append, inBucket_append, h.fifo x, List.append_assoc, hq, List.append_assoc]

theorem Run.kept {arrived gone : List DrrPacket} (hb : 0 < v.buckets) (hlim : 0 ≤ v.blimit)
    (h : Run v d arrived gone) : Kept v d arrived gone := by
  induction h with
  | init => exact ⟨⟨[], books_init v⟩, hlim, fun _ => rfl⟩
  | enque fuel p ps _ hp he ih => exact ih.enque hb hlim hp he
  | deque fuel o _ he ih => exact ih.deque he

theorem Books.deque_ends (h : Books v d l) (hquantum : 0 < v.quantum) :
    ∃ r, (∃ n, ∀ fuel, n < fuel → DRR.deque v fuel d = some r) ∧
      (r.1 = none ↔ ∀ x, (d.drr x).queue = []) := by
  have hempty : l = [] ↔ ∀ x, (d.drr x).queue = [] := by
    rw [List.eq_nil_iff_forall_not_mem]
    simp only [h.backlogged, not_not]
  by_cases hl : l = []
  · have hz : d.bytecnt = 0 := by
      have hnn : ¬ 0 < d.bytecnt := fun hpos => h.bytecnt_pos.mpr hpos hl
      have hsum : 0 ≤ d.bytecnt := by
        rw [h.bytecnt]
        exact Finset.sum_nonneg fun x _ => bytes_nonneg fun p hp => (h.packets x p hp).1
      omega
    refine ⟨(none, d), ⟨0, fun fuel _ => by rw [DRR.deque, if_pos hz]⟩, ?_⟩
    exact iff_of_true rfl (hempty.mp hl)
  · have hz : d.bytecnt ≠ 0 := (h.bytecnt_pos.mp hl).ne'
    obtain ⟨r, hr⟩ := h.serveLoop_ends hl hquantum le_rfl
    refine ⟨(some r.1, r.2), ⟨work d l, fun fuel hfuel => ?_⟩, ?_⟩
    · rw [DRR.deque, if_neg hz, hr fuel hfuel]
      rfl
    · exact iff_of_false (Option.some_ne_none _) fun hall => hl (hempty.mpr hall)

/-- **The books of deficit round robin.**  After every operation the circle from `curr` holds the
buckets with packets, each once, the counters are what they count and within the limit, and every
bucket is first in, first out; `enque` ends, and `deque` ends with a packet unless nothing is
queued. -/
theorem run_books {arrived gone : List DrrPacket} (hb : 0 < v.buckets) (hquantum : 0 < v.quantum)
    (hlim : 0 ≤ v.blimit) (h : Run v d arrived gone) :
    (∃ l, Circular d.next d.prev d.curr l ∧ (∀ x, x ∈ l ↔ x < v.buckets ∧ 0 < (d.drr x).pkts) ∧
      d.flwcnt = l.length) ∧
    (∀ x, (d.drr x).pkts = (d.drr x).queue.length ∧ (d.drr x).bcount = bytes (d.drr x).queue) ∧
    d.pktcnt = ∑ x ∈ Finset.range v.buckets, ((d.drr x).queue.length : ℤ) ∧
    d.bytecnt = ∑ x ∈ Finset.range v.buckets, bytes (d.drr x).queue ∧
    d.bytecnt ≤ v.blimit ∧
    (∀ x, inBucket v x arrived = inBucket v x gone ++ (d.drr x).queue) ∧
    (∀ p, 0 < p.size → ∃ r n, ∀ fuel, n < fuel → enque v fuel p d = some r) ∧
    ∃ r, (∃ n, ∀ fuel, n < fuel → deque v fuel d = some r) ∧
      (r.1 = none ↔ ∀ x, (d.drr x).queue = []) := by
  have hk := h.kept hb hlim
  obtain ⟨l, hl⟩ := hk.books
  refine ⟨⟨l, hl.ring, fun x => ?_, hl.flwcnt⟩, fun x => ⟨hl.pkts x, hl.bcount x⟩, hl.pktcnt,
    hl.bytecnt, hk.limit, hk.fifo, fun p hp => ?_, hl.deque_ends hquantum⟩
  · have hpos : 0 < (d.drr x).pkts ↔ x ∈ l := by
      rw [hl.pkts, hl.backlogged, Int.natCast_pos, List.length_pos_iff]
    rw [hpos]
    exact ⟨fun hx => ⟨hl.bound x hx, hx⟩, fun hx => hx.2⟩
  · have ha := hl.accept hb hp
    obtain ⟨r, hr⟩ := ha.shrink_ends hlim (Int.self_le_toNat (accept v p d).pktcnt)
    exact ⟨r, (accept v p d).pktcnt.toNat, hr⟩

/-- A bucket is served, and then emptied by an overflow during its turn. -/
def turnLeftBehind : Option (DRR × List DrrPacket) := do
  let (ps₁, d) ← enque ⟨16, 120, 10, 0⟩ 3 ⟨0, 10, 1⟩ init
  let (ps₂, d) ← enque ⟨16, 120, 10, 0⟩ 3 ⟨1, 100, 1⟩ d
  let (o, d) ← deque ⟨16, 120, 10, 0⟩ 3 d
  let (ps₃, d) ← enque ⟨16, 120, 10, 0⟩ 3 ⟨2, 50, 2⟩ d
  return (d, [] ++ ps₁ ++ ps₂ ++ o.toList ++ ps₃)

theorem turnLeftBehind_run {r : DRR × List DrrPacket} (hr : turnLeftBehind = some r) :
    Run ⟨16, 120, 10, 0⟩ r.1 [⟨0, 10, 1⟩, ⟨1, 100, 1⟩, ⟨2, 50, 2⟩] r.2 := by
  rw [turnLeftBehind] at hr
  obtain ⟨⟨ps₁, d₁⟩, h₁, hr⟩ := Option.bind_eq_some_iff.mp hr
  obtain ⟨⟨ps₂, d₂⟩, h₂, hr⟩ := Option.bind_eq_some_iff.mp hr
  obtain ⟨⟨o, d₃⟩, h₃, hr⟩ := Option.bind_eq_some_iff.mp hr
  obtain ⟨⟨ps₃, d₄⟩, h₄, hr⟩ := Option.bind_eq_some_iff.mp hr
  obtain rfl := Option.some.inj hr
  exact (((Run.init.enque 3 ⟨0, 10, 1⟩ ps₁ (by decide) h₁).enque 3 ⟨1, 100, 1⟩ ps₂
    (by decide) h₂).deque 3 o h₃).enque 3 ⟨2, 50, 2⟩ ps₃ (by decide) h₄

/-- Three packets of two sources: one is served, one is dropped, one is queued. -/
theorem run_books_three : ∃ r, turnLeftBehind = some r ∧
    r.2.map DrrPacket.uid = [0, 1] ∧
    r.1.bytecnt = ∑ x ∈ Finset.range 16, bytes (r.1.drr x).queue ∧
    (∀ x, inBucket ⟨16, 120, 10, 0⟩ x [⟨0, 10, 1⟩, ⟨1, 100, 1⟩, ⟨2, 50, 2⟩] =
      inBucket ⟨16, 120, 10, 0⟩ x r.2 ++ (r.1.drr x).queue) := by
  have hsome : turnLeftBehind.isSome := by decide +kernel
  obtain ⟨r, hr⟩ := Option.isSome_iff_exists.mp hsome
  have huid : turnLeftBehind.all fun r => r.2.map DrrPacket.uid = [0, 1] := by decide +kernel
  rw [hr, Option.all_some, decide_eq_true_eq] at huid
  obtain ⟨-, -, -, hbytes, -, hfifo, -⟩ :=
    run_books (by decide) (by decide) (by decide) (turnLeftBehind_run hr)
  exact ⟨r, hr, huid, hbytes, hfifo⟩

end DRR

end Afabric
