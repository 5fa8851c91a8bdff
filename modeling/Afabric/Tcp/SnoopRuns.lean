import Afabric.Tcp.SnoopRing

/-!
# Tcp — runs of snoop

The ring in the words of its indices (`RingOk`), at every state of a run from the reset agent
(`snoop_ring_iff`).  Making room drops the oldest packet: that is the step no run may contain.
-/

namespace Afabric

open RingBuffer Snoop

variable {C : SnoopConfig} {s s' : Snoop} {l : List SnoopPkt} {e : SnoopEvent}
  {evs : List SnoopEvent} {seq : ℤ} {room : Bool}

/-- The ring of the cache. -/
structure RingOk (C : SnoopConfig) (s : Snoop) : Prop where
  bufhead_lt : s.bufhead < C.maxbufs
  buftail_lt : s.buftail < C.maxbufs
  /-- The packets are from `buftail_` up to `bufhead_`, or everywhere in a full ring. -/
  occupied : ∀ i < C.maxbufs, (s.pkts i).isSome = true ↔ s.has SNOOP_FULL = true ∨
    dist C.maxbufs s.buftail i < dist C.maxbufs s.buftail s.bufhead
  vacant : ∀ i, C.maxbufs ≤ i → s.pkts i = none
  sorted : ∀ j k p q, j < k → k < C.maxbufs → s.pkts (off C.maxbufs s.buftail j) = some p →
    s.pkts (off C.maxbufs s.buftail k) = some q → p.seqno < q.seqno
  acked : ∀ i p, s.pkts i = some p → s.lastAck < p.seqno
  full : s.has SNOOP_FULL = true ↔ ∀ i < C.maxbufs, (s.pkts i).isSome = true
  pending : ∀ t, s.toutPending = some t → ∃ i p, s.pkts i = some p ∧ p.ptr = t

/-- The packets of the ring are those of the list. -/
theorem Caches.mem_iff (h : Caches C s l) {p : SnoopPkt} : (∃ i, s.pkts i = some p) ↔ p ∈ l := by
  rw [List.mem_iff_getElem?]
  constructor
  · rintro ⟨i, hi⟩
    have hlt : i < C.maxbufs := by
      by_contra hge
      rw [h.ring.outside i (not_lt.mp hge)] at hi
      cases hi
    refine ⟨dist C.maxbufs s.buftail i, ?_⟩
    have hcell := h.ring.cell (dist C.maxbufs s.buftail i) (Nat.mod_lt _ h.ring.pos)
    rw [off_dist h.ring.tail_lt hlt] at hcell
    rw [← hcell]
    exact hi
  · rintro ⟨k, hk⟩
    obtain ⟨hlt, -⟩ := List.getElem?_eq_some_iff.mp hk
    refine ⟨off C.maxbufs s.buftail k, ?_⟩
    rw [h.ring.cell k (hlt.trans_le h.ring.length_le)]
    exact hk

theorem Caches.ringOk (h : Caches C s l) : RingOk C s where
  bufhead_lt := h.ring.head_lt
  buftail_lt := h.ring.tail_lt
  occupied := by
    intro i hi
    by_cases hfull : s.has SNOOP_FULL = true
    · exact ⟨fun _ => .inl hfull, fun _ => h.ring.isSome_of_full (h.full.mp hfull) hi⟩
    · have hlt := h.length_lt (Bool.eq_false_of_not_eq_true hfull)
      rw [h.ring.isSome_iff hlt hi]
      exact ⟨.inr, fun hor => hor.resolve_left hfull⟩
  vacant := h.ring.outside
  sorted := by
    intro j k p q hjk hk hp hq
    rw [h.ring.cell j (hjk.trans hk)] at hp
    rw [h.ring.cell k hk] at hq
    obtain ⟨hj, rfl⟩ := List.getElem?_eq_some_iff.mp hp
    obtain ⟨hk, rfl⟩ := List.getElem?_eq_some_iff.mp hq
    exact List.pairwise_iff_getElem.mp h.sorted j k hj hk hjk
  acked := fun i p hp => h.acked p (h.mem_iff.mp ⟨i, hp⟩)
  full := by
    refine ⟨fun hfull i hi => h.ring.isSome_of_full (h.full.mp hfull) hi, fun hall => ?_⟩
    rw [h.full]
    by_contra hne
    have hlt := Nat.lt_of_le_of_ne h.ring.length_le hne
    have hsome := hall _ h.ring.head_lt
    rw [h.ring.isSome_iff hlt h.ring.head_lt] at hsome
    exact Nat.lt_irrefl _ hsome
  pending := by
    intro t ht
    obtain ⟨p, hp, rfl⟩ := h.pending t ht
    obtain ⟨i, hi⟩ := h.mem_iff.mpr hp
    exact ⟨i, p, hi, rfl⟩

/-! ### One event -/

/-- Room is made in the full cache. -/
def Evicts (C : SnoopConfig) (s : Snoop) : SnoopEvent → Prop
  | .data seq room =>
    room = true ∧ C.lru = true ∧ (s.alive seq).has SNOOP_FULL = true ∧ (s.alive seq).lastAck < seq
  | _ => False

/-- An insertion changes no flag but `SNOOP_FULL`. -/
def InsertKeeps (C : SnoopConfig) (s : Snoop) : SnoopEvent → Prop
  | .data seq room =>
    room = true → ¬ ((s.alive seq).has SNOOP_FULL = true ∧ C.lru = false) →
      ∀ r s', (s.alive seq).snoopInsert C seq = some (r, s') → s'.others = (s.alive seq).others
  | _ => True

/-- `snoop_insert`, when it makes no room. -/
theorem Caches.inserts (h : Caches C s l)
    (he : ¬ (C.lru = true ∧ s.has SNOOP_FULL = true ∧ s.lastAck < seq))
    (hlru : ¬ (s.has SNOOP_FULL = true ∧ C.lru = false)) :
    ∃ r s' l', s.snoopInsert C seq = some (r, s') ∧ Caches C s' l' ∧ s'.others = s.others := by
  by_cases hfull : s.has SNOOP_FULL = true
  · have hlru' : C.lru = true := by
      by_contra hne
      exact hlru ⟨hfull, Bool.eq_false_of_not_eq_true hne⟩
    have hack : seq ≤ s.lastAck := not_lt.mp fun hlt => he ⟨hlru', hfull, hlt⟩
    exact ⟨_, _, l, if_pos hack, h, rfl⟩
  · exact h.snoopInsert (Bool.eq_false_of_not_eq_true hfull) seq

theorem Caches.insertKeeps (h : Caches C s l) (he : ¬ Evicts C s e) : InsertKeeps C s e := by
  cases e with
  | data seq room =>
    intro hroom hlru r s' hs'
    obtain ⟨l', hl'⟩ := h.alive seq
    obtain ⟨r', s₁, l₁, hrun, -, hothers⟩ := hl'.inserts (fun hev => he ⟨hroom, hev⟩) hlru
    rw [hrun] at hs'
    cases hs'
    exact hothers
  | ack ack thresh => trivial
  | timeout => trivial

/-- **`snoop_data`** keeps the cache, unless it makes room. -/
theorem Caches.snoopData (h : Caches C s l) (he : ¬ Evicts C s (.data seq room)) :
    ∃ s' l', s.snoopData C seq room = some s' ∧ Caches C s' l' := by
  obtain ⟨l', hl'⟩ := h.alive seq
  rw [Snoop.snoopData]
  dsimp only
  by_cases hlru : (s.alive seq).has SNOOP_FULL = true ∧ C.lru = false
  · rw [if_pos hlru]
    refine ⟨_, l', rfl, { hl' with seen := fun p hp => (hl'.seen p hp).trans ?_ }⟩
    dsimp only
    split
    next hlt => exact hlt.le
    next => exact le_rfl
  · rw [if_neg hlru]
    obtain ⟨r, s₁, l₁, hrun, h₁⟩ : ∃ r s₁ l₁,
        (if room then (s.alive seq).snoopInsert C seq else some (false, s.alive seq)) =
          some (r, s₁) ∧ Caches C s₁ l₁ := by
      cases room with
      | false => exact ⟨_, _, l', rfl, hl'⟩
      | true =>
        obtain ⟨r, s₁, l₁, hrun, h₁, -⟩ := hl'.inserts (fun hev => he ⟨rfl, hev⟩) hlru
        exact ⟨r, s₁, l₁, hrun, h₁⟩
    rw [hrun]
    dsimp only
    have hdone : ∀ s₂, Caches C s₂ l₁ →
        ∃ s' l', (if s₂.toutPending.isNone then s₂.scheduleTail else some s₂) = some s' ∧
          Caches C s' l' := by
      intro s₂ h₂
      split
      next =>
        obtain ⟨s₃, hs₃, h₃⟩ := h₂.scheduleTail
        exact ⟨s₃, l₁, hs₃, h₃⟩
      next => exact ⟨s₂, l₁, rfl, h₂⟩
    cases r with
    | false => exact hdone s₁ h₁
    | true => exact hdone _ h₁.unschedule

/-- **Every event** keeps the cache, unless it makes room. -/
theorem Caches.step (h : Caches C s l) (he : ¬ Evicts C s e) :
    ∃ s' l', s.step C e = some s' ∧ Caches C s' l' := by
  cases e with
  | data seq room => exact h.snoopData he
  | ack ack thresh =>
    obtain ⟨v, s', l', hrun, hl'⟩ := h.snoopAck ack thresh
    exact ⟨s', l', by rw [Snoop.step, hrun, Option.map_some], hl'⟩
  | timeout =>
    obtain ⟨l', hl'⟩ := h.handle
    exact ⟨_, l', rfl, hl'⟩

/-! ### Making room -/

theorem insertAt_has {f : BitVec 16} (hf : ~~~SNOOP_FULL &&& f = f) {s₁ : Snoop} {r : Bool} {i : ℕ}
    (h : some (s₁.insertAt seq i) = some (r, s')) (hs : s₁.others = s.others) :
    s'.has f = s.has f := by
  have hs' : (s₁.insertAt seq i).2 = s' := congrArg Prod.snd (Option.some.inj h)
  rw [← hs']
  exact has_of_others ((insertAt_others s₁ seq i).trans hs) hf

theorem insertNew_has {f : BitVec 16} (hf : ~~~SNOOP_FULL &&& f = f) {r : Bool}
    (h : s.insertNew C seq = some (r, s')) : s'.has f = s.has f := by
  rw [Snoop.insertNew] at h
  split at h
  next => exact insertAt_has hf h rfl
  next =>
    split at h
    next => exact insertAt_has hf h rfl
    next =>
      split at h
      next => exact insertAt_has hf h rfl
      next =>
        split at h
        next => cases h
        next =>
          cases h
          rfl
        next =>
          dsimp only at h
          split at h
          next => cases h
          next => exact insertAt_has hf h rfl
        next => exact insertAt_has hf h rfl

/-- Making room sets every other flag. -/
theorem snoopInsert_active {r : Bool} (hfull : s.has SNOOP_FULL = true) (hack : s.lastAck < seq)
    (h : s.snoopInsert C seq = some (r, s')) : s'.has SNOOP_ACTIVE = true := by
  rw [Snoop.snoopInsert, if_neg (not_le.mpr hack), makeRoom, if_pos hfull] at h
  split at h
  next => cases h
  next s₁ hs₁ =>
    split at hs₁
    next => cases hs₁
    next =>
      cases hs₁
      rw [insertNew_has (by decide) h]
      exact has_set (by decide) (by decide)

theorem Caches.not_evicts (h : Caches C s l) (hkeeps : InsertKeeps C s e)
    (hstep : s.step C e = some s') : ¬ Evicts C s e := by
  intro he
  cases e with
  | data seq room =>
    obtain ⟨rfl, hlru, hfull, hack⟩ := he
    obtain ⟨l', hl'⟩ := h.alive seq
    have hgoes : ¬ ((s.alive seq).has SNOOP_FULL = true ∧ C.lru = false) := by
      rintro ⟨-, hfalse⟩
      rw [hlru] at hfalse
      cases hfalse
    cases hrun : (s.alive seq).snoopInsert C seq with
    | none =>
      rw [Snoop.step, Snoop.snoopData] at hstep
      simp only [if_neg hgoes, if_true, hrun] at hstep
      cases hstep
    | some rs =>
      have hactive := snoopInsert_active hfull hack hrun
      rw [has_of_others (hkeeps rfl hgoes rs.1 rs.2 hrun) (by decide), hl'.inactive] at hactive
      cases hactive
  | ack ack thresh => exact he
  | timeout => exact he

/-! ### Runs -/

/-- Every state of a run has its packets in the ring, and every insertion of the run changes no flag
but `SNOOP_FULL`. -/
def Kept (C : SnoopConfig) : Snoop → List SnoopEvent → Prop
  | s, [] => RingOk C s
  | s, e :: evs => RingOk C s ∧ InsertKeeps C s e ∧ ∃ s', s.step C e = some s' ∧ Kept C s' evs

/-- No event of a run makes room. -/
def NoEviction (C : SnoopConfig) : Snoop → List SnoopEvent → Prop
  | _, [] => True
  | s, e :: evs => ¬ Evicts C s e ∧ ∀ s', s.step C e = some s' → NoEviction C s' evs

theorem Caches.kept_iff (h : Caches C s l) : Kept C s evs ↔ NoEviction C s evs := by
  induction evs generalizing s l with
  | nil => exact ⟨fun _ => trivial, fun _ => h.ringOk⟩
  | cons e evs ih =>
    constructor
    · rintro ⟨-, hkeeps, s', hstep, hkept⟩
      have he := h.not_evicts hkeeps hstep
      obtain ⟨s₁, l', hstep', h'⟩ := h.step he
      refine ⟨he, fun s₂ hs₂ => ?_⟩
      rw [hstep] at hstep' hs₂
      cases hstep'
      cases hs₂
      exact (ih h').mp hkept
    · rintro ⟨he, hrest⟩
      obtain ⟨s', l', hstep, h'⟩ := h.step he
      exact ⟨h.ringOk, h.insertKeeps he, s', hstep, (ih h').mpr (hrest s' hstep)⟩

/-- **The cache is in its ring at every state of a run** exactly if the run never makes room for a
packet in a full cache. -/
theorem snoop_ring_iff (C : SnoopConfig) (evs : List SnoopEvent) :
    Kept C {} evs ↔ NoEviction C {} evs :=
  (Caches.init C 0).kept_iff

/-- Two packets through a cache of one place: the second closes the connection, and the timeout of
the first is still pending. -/
theorem full_cache_evicts :
    ∃ C : SnoopConfig, C.lru = true ∧ ¬ Kept C {} [.data 0 true, .data 1 true] ∧
      ∃ s₁ s₂, Snoop.step C {} (.data 0 true) = some s₁ ∧ s₁.has SNOOP_CLOSED = false ∧
        s₁.step C (.data 1 true) = some s₂ ∧ s₂.has SNOOP_CLOSED = true ∧
        s₂.toutPending = some 0 ∧ ¬ ∃ i p, s₂.pkts i = some p ∧ p.ptr = 0 := by
  refine ⟨{ maxbufs := 1, lru := true }, rfl, ?_, _, _, rfl, by decide, rfl, by decide, rfl, ?_⟩
  · rintro ⟨-, -, s₁, h₁, -, hkeeps, -⟩
    cases h₁
    exact absurd (hkeeps rfl (by decide) _ _ rfl) (by decide)
  · rintro ⟨i, p, hp, h0⟩
    cases i with
    | zero =>
      cases hp
      cases h0
    | succ i => cases hp

end Afabric
