import Afabric.Tcp.Snoop

/-!
# Tcp — the ring of snoop's cache

The cache is a list of copies with increasing sequence numbers beyond the last ack (`Caches`), kept
in the ring from `buftail_` on, and every event keeps it one, each way of inserting among them.  The
one exception is room made in a full cache for a new packet: there every other flag of `fstate_` is
set, and the freed tail may still be pending (`snoop_ring_iff`).
-/

namespace Afabric

open RingBuffer

namespace Snoop

variable {C : SnoopConfig} {s s' : Snoop} {f g : BitVec 16}

/-! ### Flags -/

theorem has_set_of_disjoint (h : f &&& g = 0) : (s.set f).has g = s.has g := by
  have hor : (s.fstate ||| f) &&& g = s.fstate &&& g := by
    rw [BitVec.and_comm, BitVec.and_or_distrib_left, BitVec.and_comm g f, h, BitVec.and_comm]
    exact BitVec.or_zero
  rw [has, has, set, hor]

theorem has_set (h : f &&& g = g) (hg : g ≠ 0) : (s.set f).has g = true := by
  rw [has, set, bne_iff_ne]
  intro h0
  have hand : g &&& (s.fstate ||| f) = g := by
    rw [BitVec.and_or_distrib_left, BitVec.and_comm g f, h]
    ext i
    simp +contextual
  rw [BitVec.and_comm, hand] at h0
  exact hg h0

theorem has_clear_of_disjoint (h : ~~~f &&& g = g) : (s.clear f).has g = s.has g := by
  rw [has, has, clear, BitVec.and_assoc, h]

theorem has_clear (h : ~~~f &&& g = 0) : (s.clear f).has g = false := by
  rw [has, clear, BitVec.and_assoc, h]
  simp

theorem clear_clear : (s.clear f).clear f = s.clear f := by
  rw [clear, clear, BitVec.and_assoc, BitVec.and_self]

theorem has_init (n : ℕ) : ({ fresh := n } : Snoop).has f = false := by
  simp [has]

/-- The flags other than `SNOOP_FULL`. -/
def others (s : Snoop) : BitVec 16 := s.fstate &&& ~~~SNOOP_FULL

theorem others_set : (s.set SNOOP_FULL).others = s.others := by
  rw [others, others, set, BitVec.and_comm, BitVec.and_or_distrib_left, BitVec.and_comm _ s.fstate]
  have h0 : ~~~SNOOP_FULL &&& SNOOP_FULL = 0 := by decide
  rw [h0]
  exact BitVec.or_zero

theorem has_of_others (h : s.others = s'.others) (hf : ~~~SNOOP_FULL &&& f = f) :
    s.has f = s'.has f := by
  have hand : ∀ s : Snoop, s.fstate &&& f = s.others &&& f := by
    intro s
    rw [others, BitVec.and_assoc, hf]
  rw [has, has, hand s, hand s', h]

theorem savepkt_full (hs : s.has SNOOP_FULL = false) (seq : ℤ) (i : ℕ) :
    (s.savepkt seq i).has SNOOP_FULL = true ↔ s.bufhead = s.buftail := by
  have hset : (s.set SNOOP_FULL).has SNOOP_FULL = true := has_set (by decide) (by decide)
  rw [has, savepkt]
  by_cases heq : s.bufhead = s.buftail
  · simp only [if_pos heq]
    exact ⟨fun _ => heq, fun _ => hset⟩
  · simp only [if_neg heq]
    exact ⟨fun h => absurd (hs.symm.trans h) Bool.false_ne_true, fun h => absurd h heq⟩

theorem savepkt_others (s : Snoop) (seq : ℤ) (i : ℕ) : (s.savepkt seq i).others = s.others := by
  rw [others, savepkt]
  split
  next => exact others_set
  next => rfl

theorem insertAt_others (s : Snoop) (seq : ℤ) (i : ℕ) : (s.insertAt seq i).2.others = s.others := by
  rw [insertAt]
  split
  · split
    · exact savepkt_others s seq i
    · exact savepkt_others s seq i
  · exact savepkt_others s seq i

end Snoop

open Snoop

/-! ### The cache as a list -/

/-- Packets that the cache may hold, in the order of their sequence numbers. -/
structure Listed (s : Snoop) (l : List SnoopPkt) : Prop where
  sorted : l.Pairwise fun p q => p.seqno < q.seqno
  acked : ∀ p ∈ l, s.lastAck < p.seqno
  seen : ∀ p ∈ l, p.seqno ≤ s.lastSeen
  pending : ∀ t, s.toutPending = some t → ∃ p ∈ l, p.ptr = t
  inactive : s.has SNOOP_ACTIVE = false

/-- The cache holds the list, in the order of the ring. -/
structure Caches (C : SnoopConfig) (s : Snoop) (l : List SnoopPkt) : Prop extends Listed s l where
  ring : RingBuffer C.maxbufs s.pkts s.buftail s.bufhead l
  full : s.has SNOOP_FULL = true ↔ l.length = C.maxbufs

namespace Listed

variable {s : Snoop} {l a b : List SnoopPkt} {p q : SnoopPkt}

theorem insert (h : Listed s (a ++ b)) (ha : ∀ p ∈ a, p.seqno < q.seqno)
    (hb : ∀ p ∈ b, q.seqno < p.seqno) (hack : s.lastAck < q.seqno) (hseen : q.seqno ≤ s.lastSeen) :
    Listed s (a ++ q :: b) := by
  have hmem : ∀ r, r ∈ a ++ q :: b ↔ r = q ∨ r ∈ a ++ b := by
    intro r
    simp only [List.mem_append, List.mem_cons]
    tauto
  refine ⟨?_, fun r hr => ?_, fun r hr => ?_, fun t ht => ?_, h.inactive⟩
  · obtain ⟨hsa, hsb, hab⟩ := List.pairwise_append.mp h.sorted
    refine List.pairwise_append.mpr ⟨hsa, List.pairwise_cons.mpr ⟨hb, hsb⟩, fun r hr r' hr' => ?_⟩
    rcases List.mem_cons.mp hr' with rfl | hr'
    · exact ha r hr
    · exact hab r hr r' hr'
  · rcases (hmem r).mp hr with rfl | hr
    · exact hack
    · exact h.acked r hr
  · rcases (hmem r).mp hr with rfl | hr
    · exact hseen
    · exact h.seen r hr
  · obtain ⟨r, hr, rfl⟩ := h.pending t ht
    exact ⟨r, (hmem r).mpr (.inr hr), rfl⟩

theorem see (h : Listed s l) {n : ℤ} (hn : s.lastSeen ≤ n) : Listed { s with lastSeen := n } l :=
  { h with seen := fun p hp => (h.seen p hp).trans hn }

/-- A header is changed. -/
theorem modify (h : Listed s (a ++ p :: b)) (hseq : q.seqno = p.seqno) (hptr : q.ptr = p.ptr) :
    Listed s (a ++ q :: b) := by
  have hmem : ∀ r ∈ a ++ q :: b, ∃ r' ∈ a ++ p :: b, r'.seqno = r.seqno := by
    intro r hr
    rcases List.mem_append.mp hr with hr | hr
    · exact ⟨r, List.mem_append_left _ hr, rfl⟩
    rcases List.mem_cons.mp hr with rfl | hr
    · exact ⟨p, by simp, hseq.symm⟩
    · exact ⟨r, by simp [hr], rfl⟩
  refine ⟨?_, fun r hr => ?_, fun r hr => ?_, fun t ht => ?_, h.inactive⟩
  · have hsorted := h.sorted
    rw [List.pairwise_append, List.pairwise_cons] at hsorted ⊢
    rw [hseq]
    refine ⟨hsorted.1, hsorted.2.1, fun r hr r' hr' => ?_⟩
    rcases List.mem_cons.mp hr' with rfl | hr'
    · rw [hseq]
      exact hsorted.2.2 r hr p List.mem_cons_self
    · exact hsorted.2.2 r hr r' (List.mem_cons_of_mem _ hr')
  · obtain ⟨r', hr', heq⟩ := hmem r hr
    exact heq ▸ h.acked r' hr'
  · obtain ⟨r', hr', heq⟩ := hmem r hr
    exact heq ▸ h.seen r' hr'
  · obtain ⟨r, hr, rfl⟩ := h.pending t ht
    rcases List.mem_append.mp hr with hr | hr
    · exact ⟨r, List.mem_append_left _ hr, rfl⟩
    rcases List.mem_cons.mp hr with rfl | hr
    · exact ⟨q, by simp, hptr⟩
    · exact ⟨r, by simp [hr], rfl⟩

end Listed

namespace Caches

variable {C : SnoopConfig} {s s' : Snoop} {l a b : List SnoopPkt} {p q : SnoopPkt} {seq : ℤ} {i : ℕ}

theorem init (C : SnoopConfig) (n : ℕ) : Caches C { fresh := n } [] where
  ring := RingBuffer.empty C.maxbufs_pos
  sorted := .nil
  acked := fun _ h => nomatch h
  seen := fun _ h => nomatch h
  full := by
    rw [has_init, List.length_nil]
    exact ⟨fun h => absurd h Bool.false_ne_true, fun h => absurd h (Nat.ne_of_lt C.maxbufs_pos)⟩
  pending := fun _ h => nomatch h
  inactive := has_init n

theorem empty_iff (h : Caches C s l) : s.empty = true ↔ l = [] := by
  rw [Snoop.empty, decide_eq_true_iff, h.ring.head_eq_tail_iff, ← Bool.not_eq_true, h.full]
  constructor
  · rintro ⟨hnil | hlen, hne⟩
    · exact hnil
    · exact absurd hlen hne
  · rintro rfl
    exact ⟨.inl rfl, Nat.ne_of_lt C.maxbufs_pos⟩

theorem length_lt (h : Caches C s l) (hfull : s.has SNOOP_FULL = false) : l.length < C.maxbufs := by
  refine Nat.lt_of_le_of_ne h.ring.length_le fun hlen => ?_
  rw [h.full.mpr hlen] at hfull
  cases hfull

/-- A header is changed in place. -/
theorem modify (h : Caches C s (a ++ p :: b)) (hseq : q.seqno = p.seqno) (hptr : q.ptr = p.ptr) :
    Caches C (s.write (off C.maxbufs s.buftail a.length) (some q)) (a ++ q :: b) where
  toListed := { h.toListed.modify hseq hptr with }
  ring := h.ring.set q
  full := by
    have hlen : (a ++ q :: b).length = (a ++ p :: b).length := by simp
    rw [hlen]
    exact h.full

/-- The same of the tail. -/
theorem modifyTail (h : Caches C s (p :: b)) (hseq : q.seqno = p.seqno) (hptr : q.ptr = p.ptr) :
    Caches C (s.write s.buftail (some q)) (q :: b) := by
  have hm : Caches C (s.write (off C.maxbufs s.buftail ([] : List SnoopPkt).length) (some q))
      ([] ++ q :: b) := modify h hseq hptr
  rw [List.length_nil, off_zero h.ring.tail_lt] at hm
  exact hm

theorem schedule (h : Caches C s l) (hp : p ∈ l) : Caches C (s.schedule p) l :=
  { h with pending := fun _ ht => ⟨p, hp, Option.some.inj ht⟩ }

theorem unschedule (h : Caches C s l) : Caches C { s with toutPending := none } l :=
  { h with pending := fun _ ht => nomatch ht }

theorem scheduleTail (h : Caches C s l) : ∃ s', s.scheduleTail = some s' ∧ Caches C s' l := by
  rw [Snoop.scheduleTail]
  split
  next => exact ⟨s, rfl, h⟩
  next hne =>
    rw [h.empty_iff] at hne
    obtain ⟨p, b, rfl⟩ := List.exists_cons_of_ne_nil hne
    rw [h.ring.tail_cell, List.head?_cons]
    exact ⟨_, rfl, h.schedule List.mem_cons_self⟩

/-! ### Insertion -/

/-- A packet saved at a place that was found for it. -/
theorem savepkt {n : ℤ} (h : Listed s (a ++ b)) (hfull : s.has SNOOP_FULL = false)
    (hring : ∀ p, RingBuffer C.maxbufs (Function.update s.pkts i (some p)) s.buftail s.bufhead
      (a ++ p :: b))
    (ha : ∀ p ∈ a, p.seqno < seq) (hb : ∀ p ∈ b, seq < p.seqno) (hack : s.lastAck < seq)
    (hseen : s.lastSeen ≤ n) (hseq : seq ≤ n) :
    Caches C { s.savepkt seq i with lastSeen := n }
      (a ++ { ptr := s.fresh, seqno := seq } :: b) := by
  obtain ⟨q, hq⟩ : ∃ q : SnoopPkt, q = { ptr := s.fresh, seqno := seq } := ⟨_, rfl⟩
  have hqseq : q.seqno = seq := by rw [hq]
  have hr := hring q
  have hends := hr.head_eq_tail_iff
  rw [hq] at hr
  rw [← hqseq] at ha hb hack hseq
  have hlist := (h.see hseen).insert ha hb hack hseq
  rw [← hq]
  refine ⟨⟨hlist.sorted, hlist.acked, hlist.seen, hlist.pending, ?_⟩, hq ▸ hr, ?_⟩
  · exact (has_of_others (savepkt_others s seq i) (by decide)).trans h.inactive
  · refine (savepkt_full hfull seq i).trans (hends.trans ⟨fun hl => ?_, .inr⟩)
    exact hl.resolve_left (by simp)

/-- **`snoop_insert`** at the place found. -/
theorem insertAt (h : Listed s (a ++ b)) (hfull : s.has SNOOP_FULL = false)
    (hring : ∀ p, RingBuffer C.maxbufs (Function.update s.pkts i (some p)) s.buftail s.bufhead
      (a ++ p :: b))
    (hi : i = off C.maxbufs s.buftail a.length)
    (ha : ∀ p ∈ a, p.seqno < seq) (hb : ∀ p ∈ b, seq < p.seqno) (hack : s.lastAck < seq) :
    ∃ l', Caches C (s.insertAt seq i).2 l' := by
  rw [Snoop.insertAt]
  by_cases hseq : seq < s.lastSeen
  · have hsave := savepkt h hfull hring ha hb hack le_rfl hseq.le
    have hcell : (s.savepkt seq i).pkts i = some { ptr := s.fresh, seqno := seq } :=
      Function.update_self _ _ _
    rw [if_pos (show seq < (s.savepkt seq i).lastSeen from hseq)]
    split
    next htail =>
      subst hi
      rw [hcell]
      have hmark :=
        hsave.modify (q := { ptr := s.fresh, seqno := seq, senderRxmit := true }) rfl rfl
      exact ⟨_, { hmark with }⟩
    next => exact ⟨_, { hsave with }⟩
  · rw [if_neg (show ¬ seq < (s.savepkt seq i).lastSeen from hseq)]
    exact ⟨_, savepkt h hfull hring ha hb hack (not_lt.mp hseq) le_rfl⟩

/-- At the head. -/
theorem insertAt_head (h : Caches C s l) (hfull : s.has SNOOP_FULL = false)
    (hlt : ∀ p ∈ l, p.seqno < seq) (hack : s.lastAck < seq) :
    ∃ l', Caches C ({ s with bufhead := next C.maxbufs s.bufhead }.insertAt seq s.bufhead).2
      l' := by
  have hlist : Listed { s with bufhead := next C.maxbufs s.bufhead } (l ++ []) := by
    rw [List.append_nil]
    exact { h.toListed with }
  exact insertAt hlist hfull (h.ring.push (h.length_lt hfull)) h.ring.head_eq hlt
    (List.forall_mem_nil _) hack

/-- Before the tail. -/
theorem insertAt_tail (h : Caches C s l) (hfull : s.has SNOOP_FULL = false)
    (hlt : ∀ p ∈ l, seq < p.seqno) (hack : s.lastAck < seq) :
    ∃ l', Caches C ({ s with buftail := prev C.maxbufs s.buftail }.insertAt seq
      (prev C.maxbufs s.buftail)).2 l' := by
  have hlist : Listed { s with buftail := prev C.maxbufs s.buftail } ([] ++ l) :=
    { h.toListed with }
  exact insertAt hlist hfull (h.ring.cons (h.length_lt hfull))
    (off_zero (prev_lt h.ring.tail_lt)).symm (List.forall_mem_nil _) hlt hack

/-- The search, from the place after the packets passed. -/
theorem search_spec (seq : ℤ) : ∀ {b a : List SnoopPkt} {fuel : ℕ}, Caches C s (a ++ b) →
    (a ++ b).length < C.maxbufs → b.length < fuel →
    (s.search C seq fuel (off C.maxbufs s.buftail a.length) = some .bufhead ∧
        ∀ p ∈ b, p.seqno < seq) ∨
      ∃ b₁ p b₂, b = b₁ ++ p :: b₂ ∧ (∀ q ∈ b₁, q.seqno < seq) ∧
        ((p.seqno = seq ∧ s.search C seq fuel (off C.maxbufs s.buftail a.length) =
            some (.cached (off C.maxbufs s.buftail (a ++ b₁).length) p)) ∨
          (seq < p.seqno ∧ s.search C seq fuel (off C.maxbufs s.buftail a.length) =
            some (.before (off C.maxbufs s.buftail (a ++ b₁).length)))) := by
  intro b
  induction b with
  | nil =>
    intro a fuel h _ hfuel
    obtain ⟨fuel, rfl⟩ := Nat.exists_eq_succ_of_ne_zero (Nat.ne_of_gt hfuel)
    have hhead := h.ring.head_eq
    rw [List.append_nil] at hhead
    exact .inl ⟨by rw [search, if_pos hhead.symm], List.forall_mem_nil _⟩
  | cons p b ih =>
    intro a fuel h hlen hfuel
    obtain ⟨fuel, rfl⟩ := Nat.exists_eq_succ_of_ne_zero (Nat.ne_of_gt (Nat.zero_lt_of_lt hfuel))
    have hne : off C.maxbufs s.buftail a.length ≠ s.bufhead := by
      intro e
      have hlen' := hlen
      rw [List.length_append, List.length_cons] at hlen'
      have := off_inj (by omega) hlen (e.trans h.ring.head_eq)
      rw [List.length_append, List.length_cons] at this
      omega
    have hcell := h.ring.cell_append
    rw [search, if_neg hne, hcell]
    by_cases hsame : p.seqno = seq
    · exact .inr ⟨[], p, b, rfl, List.forall_mem_nil _, .inl ⟨hsame, by simp [hsame]⟩⟩
    by_cases hlt : seq < p.seqno
    · exact .inr ⟨[], p, b, rfl, List.forall_mem_nil _, .inr ⟨hlt, by simp [hsame, hlt]⟩⟩
    have hpass : p.seqno < seq := lt_of_le_of_ne (not_lt.mp hlt) hsame
    have happ : a ++ p :: b = (a ++ [p]) ++ b := List.append_cons a p b
    have hrest := ih (happ ▸ h) (happ ▸ hlen) (Nat.lt_of_succ_lt_succ hfuel)
    rw [List.length_append, List.length_singleton, ← next_off] at hrest
    simp only [if_neg hsame, if_neg hlt]
    rcases hrest with ⟨hend, hall⟩ | ⟨b₁, q, b₂, rfl, hb₁, hstop⟩
    · refine .inl ⟨hend, fun q hq => ?_⟩
      rcases List.mem_cons.mp hq with rfl | hq
      · exact hpass
      · exact hall q hq
    · refine .inr ⟨p :: b₁, q, b₂, rfl, fun r hr => ?_, ?_⟩
      · rcases List.mem_cons.mp hr with rfl | hr
        · exact hpass
        · exact hb₁ r hr
      · rw [List.append_cons a p b₁]
        exact hstop

/-- In the middle, between the packets passed by the search and the others. -/
theorem insertAt_middle {pkts : ℕ → Option SnoopPkt} (h : Caches C s (a ++ b))
    (hfull : s.has SNOOP_FULL = false) (hne : a ≠ [])
    (hring : ∀ p, RingBuffer C.maxbufs
      (Function.update pkts (prev C.maxbufs (off C.maxbufs s.buftail a.length)) (some p))
      (prev C.maxbufs s.buftail) s.bufhead (a ++ p :: b))
    (ha : ∀ p ∈ a, p.seqno < seq) (hb : ∀ p ∈ b, seq < p.seqno) (hack : s.lastAck < seq)
    {i : ℕ} (hi : i = prev C.maxbufs (off C.maxbufs s.buftail a.length)) (temp : Option SnoopPkt) :
    ∃ l', Caches C ({ s with
      pkts := Function.update pkts i temp
      buftail := prev C.maxbufs s.buftail
      bufhead := if i = s.bufhead then next C.maxbufs s.bufhead else s.bufhead }.insertAt seq i).2
        l' := by
  have hlen := h.length_lt hfull
  rw [List.length_append] at hlen
  obtain ⟨k, hk⟩ := Nat.exists_eq_succ_of_ne_zero (Nat.ne_of_gt (List.length_pos_iff.mpr hne))
  have hback : i = off C.maxbufs s.buftail k := by
    rw [hi, hk, Nat.succ_eq_add_one, ← next_off, prev_next (off_lt h.ring.pos)]
  have hplace : i = off C.maxbufs (prev C.maxbufs s.buftail) a.length := by
    rw [hback, hk, Nat.succ_eq_add_one, off_prev h.ring.tail_lt]
  have hhead : i ≠ s.bufhead := by
    intro e
    rw [hback, h.ring.head_eq, List.length_append] at e
    have := off_inj (by omega) hlen e
    omega
  rw [if_neg hhead]
  refine insertAt (a := a) (b := b) { h.toListed with } hfull (fun p => ?_) hplace ha hb hack
  have hover : Function.update (Function.update pkts i temp) i (some p) =
      Function.update pkts i (some p) := Function.update_idem ..
  rw [hover, hi]
  exact hring p

/-- A new packet, in a cache that is not full. -/
theorem insertNew (h : Caches C s l) (hfull : s.has SNOOP_FULL = false) (hack : s.lastAck < seq) :
    ∃ r s' l', s.insertNew C seq = some (r, s') ∧ Caches C s' l' ∧ s'.others = s.others := by
  have hlen := h.length_lt hfull
  have hdone : ∀ {s₁ : Snoop} {i : ℕ}, s₁.others = s.others →
      (∃ l', Caches C (s₁.insertAt seq i).2 l') →
      ∃ r s' l', some (s₁.insertAt seq i) = some (r, s') ∧ Caches C s' l' ∧
        s'.others = s.others := by
    rintro s₁ i hs₁ ⟨l', hl'⟩
    exact ⟨_, _, l', rfl, hl', (insertAt_others s₁ seq i).trans hs₁⟩
  rw [Snoop.insertNew]
  cases l with
  | nil =>
    rw [h.ring.tail_cell, List.head?_nil]
    exact hdone rfl (h.insertAt_head hfull (List.forall_mem_nil _) hack)
  | cons t b =>
    have hsorted := List.pairwise_cons.mp h.sorted
    rw [h.ring.tail_cell, List.head?_cons]
    dsimp only
    by_cases hseen : s.lastSeen < seq
    · rw [if_pos hseen]
      exact hdone rfl (h.insertAt_head hfull (fun p hp => (h.seen p hp).trans_lt hseen) hack)
    rw [if_neg hseen]
    by_cases htail : seq < t.seqno
    · rw [if_pos htail]
      refine hdone rfl (h.insertAt_tail hfull (fun p hp => ?_) hack)
      rcases List.mem_cons.mp hp with rfl | hp
      · exact htail
      · exact htail.trans (hsorted.1 p hp)
    rw [if_neg htail]
    have hsearch := search_spec seq (a := []) h hlen hlen
    rw [List.length_nil, off_zero h.ring.tail_lt] at hsearch
    rcases hsearch with ⟨hend, hlt⟩ | ⟨b₁, p, b₂, heq, hb₁, ⟨hsame, hstop⟩ | ⟨hlt, hstop⟩⟩
    · rw [hend]
      exact hdone rfl (h.insertAt_head hfull hlt hack)
    · rw [hstop]
      rw [heq] at h
      exact ⟨_, _, _, rfl, h.modify rfl rfl, rfl⟩
    · rw [hstop]
      have hne : b₁ ≠ [] := by
        rintro rfl
        rw [List.nil_append, List.cons.injEq] at heq
        rw [heq.1] at htail
        exact htail hlt
      rw [heq] at h hlen
      obtain ⟨pkts, hshift, hring⟩ := h.ring.shiftBack_spec (List.cons_ne_nil p b₂) hlen
      have hbefore : ∀ q ∈ p :: b₂, seq < q.seqno := by
        intro q hq
        have htail := (List.pairwise_append.mp h.sorted).2.1
        rcases List.mem_cons.mp hq with rfl | hq
        · exact hlt
        · exact hlt.trans ((List.pairwise_cons.mp htail).1 q hq)
      dsimp only [List.nil_append]
      rw [hshift]
      exact hdone rfl (h.insertAt_middle hfull hne hring hb₁ hbefore hack rfl _)

/-- **`snoop_insert`** into a cache that is not full. -/
theorem snoopInsert (h : Caches C s l) (hfull : s.has SNOOP_FULL = false) (seq : ℤ) :
    ∃ r s' l', s.snoopInsert C seq = some (r, s') ∧ Caches C s' l' ∧ s'.others = s.others := by
  have hroom : s.makeRoom C = some s := by rw [makeRoom, hfull, if_neg Bool.false_ne_true]
  rw [Snoop.snoopInsert, hroom]
  by_cases hack : seq ≤ s.lastAck
  · exact ⟨_, _, l, if_pos hack, h, rfl⟩
  · rw [if_neg hack]
    exact h.insertNew hfull (not_le.mp hack)

/-! ### The events -/

theorem set (h : Caches C s l) {f : BitVec 16} (hfull : f &&& SNOOP_FULL = 0)
    (hactive : f &&& SNOOP_ACTIVE = 0) : Caches C (s.set f) l where
  toListed := { h.toListed with inactive := (has_set_of_disjoint hactive).trans h.inactive }
  ring := h.ring
  full := by
    rw [has_set_of_disjoint hfull]
    exact h.full

theorem clear (h : Caches C s l) {f : BitVec 16} (hfull : ~~~f &&& SNOOP_FULL = SNOOP_FULL)
    (hactive : ~~~f &&& SNOOP_ACTIVE = SNOOP_ACTIVE) : Caches C (s.clear f) l where
  toListed := { h.toListed with inactive := (has_clear_of_disjoint hactive).trans h.inactive }
  ring := h.ring
  full := by
    rw [has_clear_of_disjoint hfull]
    exact h.full

theorem alive (h : Caches C s l) (seq : ℤ) : ∃ l', Caches C (s.alive seq) l' := by
  rw [Snoop.alive]
  split
  next => exact ⟨[], (init C s.fresh).set (by decide) (by decide)⟩
  next => exact ⟨l, h.set (by decide) (by decide)⟩

/-- The loop of `snoop_cleanbufs_` empties the places of the packets up to the ack. -/
theorem cleanFrom_spec (ack : ℤ) : ∀ {b : List SnoopPkt} {s : Snoop} {i fuel : ℕ}, b ≠ [] →
    RingBuffer C.maxbufs s.pkts i s.bufhead b → b.length ≤ fuel →
    ∃ pkts b₁ b₂, b = b₁ ++ b₂ ∧ (∀ p ∈ b₁, p.seqno ≤ ack) ∧ (∀ p ∈ b₂.head?, ack < p.seqno) ∧
      RingBuffer C.maxbufs pkts (off C.maxbufs i b₁.length) s.bufhead b₂ ∧
      cleanFrom C ack fuel i s = some (off C.maxbufs i b₁.length,
        { (if b₁ = [] then s else s.clear SNOOP_FULL) with pkts := pkts }) := by
  intro b
  induction b with
  | nil => exact fun hne => absurd rfl hne
  | cons p b ih =>
    intro s i fuel _ hring hfuel
    obtain ⟨fuel, rfl⟩ := Nat.exists_eq_succ_of_ne_zero (Nat.ne_of_gt (Nat.zero_lt_of_lt hfuel))
    rw [cleanFrom, hring.tail_cell, List.head?_cons]
    by_cases hack : p.seqno ≤ ack
    · have hpop := hring.pop
      have hhead : ((s.write i none).clear SNOOP_FULL).bufhead = s.bufhead := rfl
      simp only [if_pos hack, hhead]
      by_cases hlast : next C.maxbufs i = s.bufhead
      · have hnil : b = [] := by
          refine (hpop.head_eq_tail_iff.mp hlast.symm).resolve_right fun hlen => ?_
          have := hring.length_le
          rw [List.length_cons] at this
          omega
        subst hnil
        rw [if_pos hlast]
        exact ⟨_, [p], [], rfl, List.forall_mem_singleton.mpr hack, fun _ hq => (nomatch hq), hpop,
          rfl⟩
      · have hne : b ≠ [] := by
          rintro rfl
          have hhead := hpop.head_eq
          rw [List.length_nil, off_zero hpop.tail_lt] at hhead
          exact hlast hhead.symm
        rw [if_neg hlast]
        obtain ⟨pkts, b₁, b₂, rfl, hb₁, hb₂, hr, hrun⟩ :=
          ih (s := (s.write i none).clear SNOOP_FULL) hne hpop (Nat.le_of_succ_le_succ hfuel)
        rw [off_next] at hr hrun
        refine ⟨pkts, p :: b₁, b₂, rfl, List.forall_mem_cons.mpr ⟨hack, hb₁⟩, hb₂, hr, ?_⟩
        rw [hrun, List.length_cons, if_neg (List.cons_ne_nil p b₁)]
        split
        · rfl
        · rw [clear_clear]
          rfl
    · simp only [if_neg hack]
      refine ⟨s.pkts, [], p :: b, rfl, List.forall_mem_nil _, ?_, ?_, ?_⟩
      · intro q hq
        cases hq
        exact not_le.mp hack
      · rw [List.length_nil, off_zero hring.tail_lt]
        exact hring
      · rw [List.length_nil, off_zero hring.tail_lt, if_pos rfl]

/-- A state with fewer packets, on the places that are left. -/
theorem suffix {pkts : ℕ → Option SnoopPkt} {w : BitVec 16} (h : Caches C s (a ++ b))
    (htout : s.toutPending = none)
    (hring : RingBuffer C.maxbufs pkts (off C.maxbufs s.buftail a.length) s.bufhead b)
    (hactive : w &&& SNOOP_ACTIVE = s.fstate &&& SNOOP_ACTIVE)
    (hfull : (w &&& SNOOP_FULL != 0) = true ↔ b.length = C.maxbufs) :
    Caches C { s with
      pkts := pkts, buftail := off C.maxbufs s.buftail a.length, fstate := w } b where
  sorted := (List.pairwise_append.mp h.sorted).2.1
  acked := fun p hp => h.acked p (List.mem_append_right _ hp)
  seen := fun p hp => h.seen p (List.mem_append_right _ hp)
  pending := fun t ht => nomatch htout.symm.trans ht
  inactive := by
    have hs := h.inactive
    rw [has, ← hactive] at hs
    exact hs
  ring := hring
  full := hfull

theorem cleanTo {pkts : ℕ → Option SnoopPkt} (h : Caches C s (a ++ b)) (hne : a ++ b ≠ [])
    (htout : s.toutPending = none)
    (hring : RingBuffer C.maxbufs pkts (off C.maxbufs s.buftail a.length) s.bufhead b) :
    Caches C ({ (if a = [] then s else s.clear SNOOP_FULL) with pkts := pkts }.cleanTo
      (off C.maxbufs s.buftail a.length)) b := by
  have hcleared : ((s.clear SNOOP_FULL).fstate &&& SNOOP_FULL != 0) = false :=
    has_clear (by decide)
  have hactive : (s.clear SNOOP_FULL).fstate &&& SNOOP_ACTIVE = s.fstate &&& SNOOP_ACTIVE := by
    rw [Snoop.clear, BitVec.and_assoc]
    rfl
  -- the flag is clear, and the ring is not full any more
  have hpart : b.length ≠ C.maxbufs → Caches C { s with
      pkts := pkts, buftail := off C.maxbufs s.buftail a.length
      fstate := (s.clear SNOOP_FULL).fstate } b := by
    intro hlen
    refine h.suffix htout hring hactive ?_
    rw [hcleared]
    exact ⟨fun e => absurd e Bool.false_ne_true, fun e => absurd e hlen⟩
  by_cases ha : a = []
  · subst ha
    have htail : off C.maxbufs s.buftail ([] : List SnoopPkt).length = s.buftail :=
      off_zero h.ring.tail_lt
    rw [Snoop.cleanTo, if_pos rfl, htail]
    rw [htail] at hpart
    by_cases hhead : s.bufhead = s.buftail
    · rw [if_neg (by simp [hhead])]
      have hall := h.suffix htout hring rfl h.full
      rw [htail] at hall
      exact hall
    · rw [if_pos (.inr hhead)]
      exact hpart fun hlen => hhead (h.ring.head_eq_tail_iff.mpr (.inr hlen))
  · have hlen : b.length ≠ C.maxbufs := by
      have hle := h.ring.length_le
      have hpos := List.length_pos_iff.mpr ha
      rw [List.length_append] at hle
      omega
    have hsome := hpart hlen
    rw [Snoop.cleanTo, if_neg ha]
    split
    next =>
      have htwice :
          (s.clear SNOOP_FULL).fstate = ((s.clear SNOOP_FULL).clear SNOOP_FULL).fstate := by
        rw [clear_clear]
      rw [htwice] at hsome
      exact hsome
    next hend =>
      have hoff : off C.maxbufs s.buftail a.length = s.buftail := not_not.mp fun e => hend (.inl e)
      rw [hoff] at hsome
      exact hsome

/-- **`snoop_cleanbufs_`** leaves the packets beyond the ack. -/
theorem cleanbufs (h : Caches C s l) (htout : s.toutPending = none) (ack : ℤ) :
    ∃ s' l', s.cleanbufs C ack = some s' ∧ Caches C s' l' ∧ ∀ p ∈ l', ack < p.seqno := by
  rw [Snoop.cleanbufs]
  by_cases hempty : s.empty = true
  · have hl := h.empty_iff.mp hempty
    subst hl
    rw [if_pos hempty]
    exact ⟨_, [], rfl, h, List.forall_mem_nil _⟩
  · have hne : l ≠ [] := fun hl => hempty (h.empty_iff.mpr hl)
    obtain ⟨pkts, b₁, b₂, rfl, hb₁, hb₂, hring, hrun⟩ :=
      cleanFrom_spec ack hne h.ring h.ring.length_le
    rw [if_neg hempty, hrun]
    have hbeyond : ∀ p ∈ b₂, ack < p.seqno := by
      have hsorted := (List.pairwise_append.mp h.sorted).2.1
      cases b₂ with
      | nil => exact List.forall_mem_nil _
      | cons q b₂ =>
        have hq := hb₂ q rfl
        intro p hp
        rcases List.mem_cons.mp hp with rfl | hp
        · exact hq
        · exact hq.trans ((List.pairwise_cons.mp hsorted).1 p hp)
    obtain ⟨s', hs', hc⟩ := (h.cleanTo hne htout hring).scheduleTail
    exact ⟨s', b₂, hs', hc, hbeyond⟩

theorem snoopRxmit (h : Caches C s (p :: b)) :
    ∃ l', Caches C (s.snoopRxmit s.buftail p).2 l' := by
  rw [Snoop.snoopRxmit]
  split
  next =>
    have hm := h.modifyTail (q := { p with numRxmit := p.numRxmit + 1 }) rfl rfl
    exact ⟨_, hm.schedule (p := { p with numRxmit := p.numRxmit + 1 }) List.mem_cons_self⟩
  next => exact ⟨_, h⟩

theorem snoopDupack (h : Caches C s l) (ack : ℤ) (thresh : ℕ) :
    ∃ l', Caches C (s.snoopDupack C ack thresh).2 l' := by
  rw [Snoop.snoopDupack]
  cases l with
  | nil =>
    rw [h.ring.tail_cell, List.head?_nil]
    exact ⟨[], h⟩
  | cons p b =>
    have hexp : Caches C { s with
        expDupacks := s.dupacksToExpect
        expNextAck := next C.maxbufs s.buftail } (p :: b) := { h with }
    rw [h.ring.tail_cell, List.head?_cons]
    dsimp only
    split
    next => exact ⟨_, h⟩
    next =>
      split
      next =>
        split
        next => exact ⟨_, h⟩
        next =>
          split
          next => exact hexp.snoopRxmit
          next => exact ⟨_, hexp⟩
      next =>
        split
        next => exact ⟨_, { h with }⟩
        next =>
          split
          next => exact h.snoopRxmit
          next => exact ⟨_, h⟩

/-- **`snoop_ack`** keeps the cache. -/
theorem snoopAck (h : Caches C s l) (ack : ℤ) (thresh : ℕ) :
    ∃ v s' l', s.snoopAck C ack thresh = some (v, s') ∧ Caches C s' l' := by
  rw [Snoop.snoopAck]
  by_cases hold : s.has SNOOP_CLOSED ∨ ack < s.lastAck
  · exact ⟨_, _, l, if_pos hold, h⟩
  rw [if_neg hold]
  by_cases hdup : s.lastAck = ack
  · rw [if_pos hdup]
    obtain ⟨l', hl'⟩ := h.snoopDupack ack thresh
    exact ⟨_, _, l', rfl, hl'⟩
  · rw [if_neg hdup]
    have hclear : Caches C (s.clear SNOOP_NOACK) l := h.clear (by decide) (by decide)
    obtain ⟨s', l', hrun, hc, hack⟩ := hclear.unschedule.cleanbufs rfl ack
    rw [snoopCleanbufs, hrun]
    exact ⟨_, _, l', rfl, ⟨{ hc.toListed with acked := hack }, hc.ring, hc.full⟩⟩

/-- **The timeout** keeps the cache. -/
theorem handle (h : Caches C s l) : ∃ l', Caches C (s.handle C) l' := by
  rw [Snoop.handle]
  have h0 := h.unschedule
  cases l with
  | nil =>
    rw [h.ring.tail_cell, List.head?_nil]
    exact ⟨[], h0⟩
  | cons p b =>
    rw [h.ring.tail_cell, List.head?_cons]
    dsimp only
    split
    next => exact ⟨_, h0⟩
    next =>
      split
      next =>
        obtain ⟨l', hl'⟩ := h0.snoopRxmit
        split
        next s' hs' =>
          rw [hs'] at hl'
          exact ⟨l', { hl' with }⟩
        next s' hs' =>
          rw [hs'] at hl'
          exact ⟨l', hl'⟩
      next => exact ⟨_, h0⟩

end Caches

end Afabric
