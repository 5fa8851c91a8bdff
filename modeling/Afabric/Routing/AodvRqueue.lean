import Afabric.Support.SinglyLinked
import Mathlib.Algebra.Order.Field.Rat
import Mathlib.Algebra.Order.Group.Multiset
import Mathlib.Tactic.Abel

/-!
# Routing — the send buffer of an AODV agent

`aodv_rqueue` (`aodv/aodv_rqueue.cc`).  A packet is known by its address, a `double` is a rational,
and `none` is an assertion that fails, a null pointer that is followed, or a scan that has not ended
within its fuel.

The pointers always represent a list (`Rep`), from which every operation first takes the packets
that have waited too long.  Those packets are not passed to `drop`: the queue accounts for all
packets exactly in the runs in which no packet ever gets that old (`rqueue_sound_iff`).
-/

namespace Afabric

/-- `DROP_RTR_QFULL` and `DROP_RTR_QTIMEOUT`. -/
inductive RqDrop where
  | qFull
  | qTimeout
deriving DecidableEq, Repr

/-- `aodv_rqueue`, with the fields `next_` and `ts_` of the packets, and the calls of `drop`. -/
structure AodvRqueue where
  head : Option ℕ
  tail : Option ℕ
  len : ℤ
  next : ℕ → Option ℕ
  ts : ℕ → ℚ
  dropped : List (ℕ × RqDrop)

namespace AodvRqueue

/-- `AODV_RTQ_MAX_LEN`. -/
def limit : ℤ := 64

/-- `AODV_RTQ_TIMEOUT`. -/
def timeout : ℚ := 30

def init : AodvRqueue := ⟨none, none, 0, fun _ => none, fun _ => 0, []⟩

/-- `remove_head`. -/
def removeHead (q : AodvRqueue) : Option (Option ℕ × AodvRqueue) :=
  if q.head = q.tail then
    some (q.head, { q with
      head := none, tail := none, len := if q.head = none then q.len else q.len - 1 })
  else
    q.head.map fun p => (some p, { q with head := q.next p, len := q.len - 1 })

/-- `findPacketWithDst`. -/
def findPacketWithDst (daddr : ℕ → ℕ) (fuel dst : ℕ) (q : AodvRqueue) :
    Option (Option ℕ × Option ℕ) :=
  walk q.next (fun p => daddr p = dst) fuel q.head none

/-- `findAgedPacket`. -/
def findAgedPacket (now : ℚ) (fuel : ℕ) (q : AodvRqueue) : Option (Option ℕ × Option ℕ) :=
  walk q.next (fun p => q.ts p < now) fuel q.head none

/-- The loop of `verifyQueue`, with `cnt` and `prev` at its end. -/
def verifyLoop (next : ℕ → Option ℕ) : ℕ → Option ℕ → Option ℕ → ℤ → Option (ℤ × Option ℕ)
  | 0, _, _, _ => none
  | _ + 1, none, prev, cnt => some (cnt, prev)
  | fuel + 1, some p, _, cnt => verifyLoop next fuel (next p) (some p) (cnt + 1)

/-- `verifyQueue`. -/
def verifyQueue (fuel : ℕ) (q : AodvRqueue) : Option AodvRqueue := do
  let r ← verifyLoop q.next fuel q.head none 0
  if r.1 = q.len ∧ r.2 = q.tail then some q else none

/-- A packet that a scan has found is taken out: the assertion, and the three cases of `deque` and
`purge`. -/
def unlink (p : ℕ) (prev : Option ℕ) (q : AodvRqueue) : Option AodvRqueue :=
  if (some p = q.head ∧ prev = none) ∨ ∃ x ∈ prev, q.next x = some p then
    if some p = q.head then
      q.removeHead.map Prod.snd
    else
      prev.map fun x =>
        if some p = q.tail then
          { q with next := Function.update q.next x none, tail := some x, len := q.len - 1 }
        else
          { q with next := Function.update q.next x (q.next p), len := q.len - 1 }
  else none

/-- `purge`; the last number bounds the rounds. -/
def purge (now : ℚ) (fuel : ℕ) : ℕ → AodvRqueue → Option AodvRqueue
  | 0, _ => none
  | n + 1, q => do
      match ← q.findAgedPacket now fuel with
      | (none, _) => some q
      | (some p, prev) =>
          let q ← q.unlink p prev
          let q ← q.verifyQueue fuel
          purge now fuel n q

/-- Room for another packet: the one at the head is dropped from a full queue. -/
def makeRoom (now : ℚ) (q : AodvRqueue) : Option AodvRqueue :=
  if q.len = limit then do
    match ← q.removeHead with
    | (none, _) => none
    | (some p₀, q) =>
        some { q with
          dropped := q.dropped ++ [(p₀, if q.ts p₀ > now then .qFull else .qTimeout)] }
  else some q

/-- The packet becomes the tail. -/
def append (p : ℕ) (q : AodvRqueue) : Option AodvRqueue :=
  match q.head with
  | none => some { q with head := some p, tail := some p, len := q.len + 1 }
  | some _ =>
      q.tail.map fun t =>
        { q with next := Function.update q.next t (some p), tail := some p, len := q.len + 1 }

def enque (now : ℚ) (fuel p : ℕ) (q : AodvRqueue) : Option AodvRqueue := do
  let q ← q.purge now fuel fuel
  let q ← { q with next := Function.update q.next p none
                   ts := Function.update q.ts p (now + timeout) }.makeRoom now
  let q ← q.append p
  q.verifyQueue fuel

/-- `deque()`. -/
def deque (now : ℚ) (fuel : ℕ) (q : AodvRqueue) : Option (Option ℕ × AodvRqueue) := do
  let q ← q.purge now fuel fuel
  let (p, q) ← q.removeHead
  let q ← q.verifyQueue fuel
  some (p, q)

/-- `deque(dst)`. -/
def dequeDst (daddr : ℕ → ℕ) (now : ℚ) (fuel dst : ℕ) (q : AodvRqueue) :
    Option (Option ℕ × AodvRqueue) := do
  let q ← q.purge now fuel fuel
  match ← q.findPacketWithDst daddr fuel dst with
  | (none, _) => some (none, q)
  | (some p, prev) =>
      let q ← q.unlink p prev
      let q ← q.verifyQueue fuel
      some (some p, q)

def find (daddr : ℕ → ℕ) (fuel dst : ℕ) (q : AodvRqueue) : Option Bool :=
  (q.findPacketWithDst daddr fuel dst).map fun r => r.1.isSome

/-! ### The list of the pointers -/

/-- The queue holds the packets of `l`, the head first. -/
structure Rep (q : AodvRqueue) (l : List ℕ) : Prop where
  links : SLQ q.next q.head q.tail l
  len_eq : q.len = l.length

/-- An operation that only takes packets out. -/
structure TakesOut (q q' : AodvRqueue) (l : List ℕ) : Prop where
  rep : q'.Rep l
  ts : q'.ts = q.ts
  dropped : q'.dropped = q.dropped

variable {q : AodvRqueue} {a b l : List ℕ} {x fuel : ℕ} {now : ℚ}

theorem Rep.unique {l' : List ℕ} (h : q.Rep l) (h' : q.Rep l') : l = l' := h.links.unique h'.links

theorem init_rep : init.Rep [] := ⟨.nil, rfl⟩

theorem Rep.removeHead (h : q.Rep l) :
    ∃ q', q.removeHead = some (l.head?, q') ∧ q.TakesOut q' l.tail := by
  have hh := h.links.head_eq
  rw [AodvRqueue.removeHead]
  by_cases he : q.head = q.tail
  · have ht := h.links.head_eq_tail_iff.mp he
    rw [if_pos he, hh]
    refine ⟨_, rfl, ⟨?_, ?_⟩, rfl, rfl⟩
    · rw [ht]
      exact .nil
    · have hlen := h.len_eq
      cases l with
      | nil => simpa [hh] using hlen
      | cons y l =>
          rw [List.tail_cons] at ht
          subst ht
          have h₁ : q.len = 1 := by simpa using hlen
          simp [h₁]
  · rw [if_neg he]
    cases l with
    | nil => exact absurd (h.links.head_eq_tail_iff.mpr rfl) he
    | cons y l =>
        rw [List.head?_cons] at hh
        have hl : l ≠ [] := fun e => he (h.links.head_eq_tail_iff.mpr (by rw [e]; rfl))
        rw [hh]
        refine ⟨_, rfl, ⟨h.links.removeHead hl, ?_⟩, rfl, rfl⟩
        have hlen := h.len_eq
        rw [List.length_cons] at hlen
        simp only [List.tail_cons]
        omega

theorem removeHead_next {p : Option ℕ} {q' : AodvRqueue} (he : q.removeHead = some (p, q')) :
    q'.next = q.next := by
  rw [AodvRqueue.removeHead] at he
  by_cases hc : q.head = q.tail
  · rw [if_pos hc] at he
    obtain ⟨-, rfl⟩ := Prod.mk.inj (Option.some.inj he)
    rfl
  · rw [if_neg hc] at he
    obtain ⟨r, -, hr⟩ := Option.map_eq_some_iff.mp he
    obtain ⟨-, rfl⟩ := Prod.mk.inj hr
    rfl

theorem verifyLoop_eq {next : ℕ → Option ℕ} {hd prev : Option ℕ} {cnt : ℤ} (h : SLL next hd l)
    (hf : l.length < fuel) :
    verifyLoop next fuel hd prev cnt = some (cnt + l.length, l.getLast?.or prev) := by
  induction l generalizing hd prev cnt fuel with
  | nil =>
      obtain ⟨f, rfl⟩ := exists_fuel hf
      cases h
      simp [verifyLoop]
  | cons y l ih =>
      obtain ⟨f, rfl⟩ := exists_fuel hf
      obtain ⟨rfl, hn⟩ := h
      rw [List.length_cons] at hf
      rw [verifyLoop, ih hn (by omega), getLast?_cons_or, List.length_cons]
      push_cast
      rw [add_assoc, add_comm (1 : ℤ)]

theorem Rep.verifyQueue (h : q.Rep l) (hf : l.length < fuel) : q.verifyQueue fuel = some q := by
  rw [AodvRqueue.verifyQueue, verifyLoop_eq h.links.chain hf]
  simp [h.len_eq, h.links.tail_eq]

theorem Rep.unlink (h : q.Rep (a ++ x :: b)) :
    ∃ q', q.unlink x a.getLast? = some q' ∧ q.TakesOut q' (a ++ b) := by
  rw [AodvRqueue.unlink]
  rcases List.eq_nil_or_concat' a with rfl | ⟨c, y, rfl⟩
  · obtain ⟨q', he, hq'⟩ := h.removeHead
    have hh : some x = q.head := h.links.head_eq.symm
    rw [if_pos (.inl ⟨hh, rfl⟩), if_pos hh, he]
    exact ⟨q', rfl, hq'⟩
  · rw [List.append_assoc, List.singleton_append] at h
    have hny : q.next y = some x := h.links.chain.next_eq
    have hrem := h.links.removeAfter
    have hlen := h.len_eq
    have h' := h.links
    rw [List.append_cons] at h'
    have hhead : ¬ some x = q.head := fun he =>
      List.append_ne_nil_of_right_ne_nil c (by simp) (h'.head_eq_some_iff.mp he.symm)
    rw [List.getLast?_concat, if_pos (.inr ⟨y, rfl, hny⟩), if_neg hhead, Option.map_some]
    refine ⟨_, rfl, ?_⟩
    rw [List.append_assoc, List.singleton_append]
    simp only [List.length_append, List.length_cons] at hlen
    by_cases ht : some x = q.tail
    · have hb := h'.tail_eq_some_iff.mp ht.symm
      rw [if_pos hb] at hrem
      have hnx : q.next x = none := by
        rw [h'.chain.next_eq, hb]
        rfl
      rw [if_pos ht]
      refine ⟨⟨hnx ▸ hrem, ?_⟩, rfl, rfl⟩
      simp only [List.length_append, List.length_cons]
      omega
    · rw [if_neg fun e => ht (h'.tail_eq_some_iff.mpr e).symm] at hrem
      rw [if_neg ht]
      refine ⟨⟨hrem, ?_⟩, rfl, rfl⟩
      simp only [List.length_append, List.length_cons]
      omega

/-- The first packet that is found, with what stands on either side of it. -/
theorem find_split {P : ℕ → Prop} [DecidablePred P] (l : List ℕ) :
    (∀ y ∈ l, ¬ P y) ∨ ∃ a x b, l = a ++ x :: b ∧ (∀ y ∈ a, ¬ P y) ∧ P x := by
  cases hf : l.find? (fun y => P y) with
  | none => exact .inl fun y hy => by simpa using List.find?_eq_none.mp hf y hy
  | some x =>
      obtain ⟨hx, a, b, rfl, ha⟩ := List.find?_eq_some_iff_append.mp hf
      exact .inr ⟨a, x, b, rfl, fun y hy => by simpa using ha y hy, by simpa using hx⟩

theorem TakesOut.trans {q' q'' : AodvRqueue} {l' : List ℕ} (h : q.TakesOut q' l)
    (h' : q'.TakesOut q'' l') : q.TakesOut q'' l' :=
  ⟨h'.rep, h'.ts.trans h.ts, h'.dropped.trans h.dropped⟩

/-- The packets that have not waited too long. -/
def young (now : ℚ) (ts : ℕ → ℚ) (l : List ℕ) : List ℕ := l.filter fun p => now ≤ ts p

/-- `purge` takes out the packets that have waited too long. -/
theorem Rep.purge {n : ℕ} (h : q.Rep l) (now : ℚ) (hf : l.length < fuel) (hn : l.length < n) :
    ∃ q', q.purge now fuel n = some q' ∧ q.TakesOut q' (young now q.ts l) := by
  induction n generalizing q l with
  | zero => omega
  | succ n ih =>
      rcases find_split (P := fun p => q.ts p < now) l with hnone | ⟨a, x, b, rfl, ha, hx⟩
      · have hscan : q.findAgedPacket now fuel = some (none, l.getLast?.or none) :=
          walk_none h.links.chain (fun y hy => by simpa using hnone y hy) hf
        have hyoung : young now q.ts l = l :=
          List.filter_eq_self.mpr fun y hy => by simpa using hnone y hy
        rw [AodvRqueue.purge, hscan, hyoung]
        exact ⟨q, rfl, h, rfl, rfl⟩
      · rw [List.length_append, List.length_cons] at hf hn
        have hscan : q.findAgedPacket now fuel = some (some x, a.getLast?.or none) :=
          walk_found h.links.chain (fun y hy => by simpa using ha y hy) (by simpa using hx)
            (by omega)
        obtain ⟨q₁, he₁, h₁⟩ := h.unlink
        have hlen : (a ++ b).length < fuel := by rw [List.length_append]; omega
        obtain ⟨q', he, h'⟩ := ih h₁.rep hlen (by rw [List.length_append]; omega)
        have hyoung : young now q₁.ts (a ++ b) = young now q.ts (a ++ x :: b) := by
          have hx' : ¬ now ≤ q.ts x := not_le.mpr hx
          simp [young, h₁.ts, hx']
        rw [AodvRqueue.purge, hscan]
        simp only [Option.bind_eq_bind, Option.bind_some, Option.or_none, he₁,
          h₁.rep.verifyQueue hlen, he]
        exact ⟨q', rfl, hyoung ▸ h₁.trans h'⟩

theorem Rep.append (h : q.Rep l) (hx : x ∉ l) (hnx : q.next x = none) :
    ∃ q', q.append x = some q' ∧ q.TakesOut q' (l ++ [x]) := by
  have happ := h.links.append hx hnx
  have hlen : q.len + 1 = ((l ++ [x]).length : ℤ) := by
    rw [h.len_eq, List.length_append]
    rfl
  have hh := h.links.head_eq
  have ht := h.links.tail_eq
  rw [AodvRqueue.append]
  cases l with
  | nil =>
      rw [List.head?_nil] at hh
      rw [List.getLast?_nil] at ht
      rw [hh, ht, if_pos rfl] at happ
      rw [hh]
      exact ⟨_, rfl, ⟨happ, hlen⟩, rfl, rfl⟩
  | cons y l =>
      obtain ⟨t, hlast⟩ : ∃ t, (y :: l).getLast? = some t :=
        ⟨_, List.getLast?_eq_some_getLast (List.cons_ne_nil y l)⟩
      rw [List.head?_cons] at hh
      rw [hlast] at ht
      rw [hh, ht, if_neg (by simp)] at happ
      rw [hh, ht]
      exact ⟨_, rfl, ⟨hh ▸ happ, hlen⟩, rfl, rfl⟩

/-! ### The operations -/

/-- From a full queue the head is dropped. -/
theorem Rep.makeRoom (h : q.Rep l) (now : ℚ) (hle : l.length ≤ 64) :
    ∃ q' d l', q.makeRoom now = some q' ∧ q'.Rep l' ∧ l = d.map Prod.fst ++ l' ∧
      l'.length < 64 ∧ q'.dropped = q.dropped ++ d ∧ q'.ts = q.ts ∧ q'.next = q.next := by
  rw [AodvRqueue.makeRoom]
  by_cases hfull : q.len = limit
  · have hlen : l.length = 64 := by
      have := h.len_eq.symm.trans hfull
      rw [limit] at this
      omega
    obtain ⟨p₀, l', rfl⟩ : ∃ p₀ l', l = p₀ :: l' :=
      List.exists_cons_of_ne_nil fun e => by rw [e] at hlen; simp at hlen
    obtain ⟨q', he, h'⟩ := h.removeHead
    have hnext := removeHead_next he
    rw [if_pos hfull, he]
    rw [List.length_cons] at hlen
    exact ⟨_, [(p₀, if q'.ts p₀ > now then .qFull else .qTimeout)], l', rfl,
      ⟨h'.rep.links, h'.rep.len_eq⟩, rfl, by omega, by rw [h'.dropped], h'.ts, hnext⟩
  · refine ⟨q, [], l, if_neg hfull, h, rfl, ?_, by simp, rfl, rfl⟩
    have := h.len_eq
    rw [limit] at hfull
    omega

/-- What `enque` leaves: of the packets that are not too old, the first has been dropped if they
filled the queue. -/
theorem Rep.enque (h : q.Rep l) (now : ℚ) (hle : l.length ≤ 64) (hx : x ∉ l)
    (hf : l.length + 1 < fuel) :
    ∃ q' d l', q.enque now fuel x = some q' ∧ q'.Rep (l' ++ [x]) ∧
      young now q.ts l = d.map Prod.fst ++ l' ∧ l'.length < 64 ∧ q'.dropped = q.dropped ++ d ∧
      q'.ts = Function.update q.ts x (now + timeout) := by
  obtain ⟨q₁, he₁, h₁⟩ := h.purge now (Nat.lt_of_succ_lt hf) (Nat.lt_of_succ_lt hf)
  have hsub : (young now q.ts l).Sublist l := List.filter_sublist
  have hx₁ : x ∉ young now q.ts l := fun hm => hx (hsub.subset hm)
  have h₂ : Rep { q₁ with next := Function.update q₁.next x none
                          ts := Function.update q₁.ts x (now + timeout) } (young now q.ts l) := by
    refine ⟨h₁.rep.links.congr fun y hy => Function.update_of_ne ?_ _ _, h₁.rep.len_eq⟩
    rintro rfl
    exact hx₁ hy
  obtain ⟨q₃, d, l', he₃, h₃, hsplit, hlt, hd, hts, hnext⟩ :=
    h₂.makeRoom now (hsub.length_le.trans hle)
  have hx₃ : x ∉ l' := fun hm => hx₁ (by rw [hsplit]; exact List.mem_append_right _ hm)
  have hnx : q₃.next x = none := by
    rw [hnext]
    exact Function.update_self _ _ _
  obtain ⟨q', he₄, h₄⟩ := h₃.append hx₃ hnx
  have hlen : (l' ++ [x]).length < fuel := by
    have h₅ := congrArg List.length hsplit
    have h₆ := hsub.length_le
    simp only [List.length_append, List.length_map, List.length_cons, List.length_nil] at h₅ ⊢
    omega
  refine ⟨q', d, l', ?_, h₄.rep, hsplit, hlt, ?_, ?_⟩
  · simp only [AodvRqueue.enque, he₁, Option.bind_eq_bind, Option.bind_some, he₃, he₄,
      h₄.rep.verifyQueue hlen]
  · rw [h₄.dropped, hd, h₁.dropped]
  · rw [h₄.ts, hts, h₁.ts]

theorem Rep.deque (h : q.Rep l) (now : ℚ) (hf : l.length < fuel) :
    ∃ q', q.deque now fuel = some ((young now q.ts l).head?, q') ∧
      q.TakesOut q' (young now q.ts l).tail := by
  obtain ⟨q₁, he₁, h₁⟩ := h.purge now hf hf
  obtain ⟨q', he, h'⟩ := h₁.rep.removeHead
  have hle : (young now q.ts l).length ≤ l.length := List.length_filter_le _ _
  have hlen : (young now q.ts l).tail.length < fuel := by
    rw [List.length_tail]
    omega
  refine ⟨q', ?_, h₁.trans h'⟩
  simp only [AodvRqueue.deque, he₁, he, Option.bind_eq_bind, Option.bind_some,
    h'.rep.verifyQueue hlen]

theorem Rep.findPacketWithDst (h : q.Rep l) (daddr : ℕ → ℕ) (dst : ℕ) (hf : l.length < fuel) :
    ∃ prev, q.findPacketWithDst daddr fuel dst = some (l.find? (fun p => daddr p = dst), prev) ∧
      ∀ x, l.find? (fun p => daddr p = dst) = some x →
        ∃ a b, l = a ++ x :: b ∧ prev = a.getLast? ∧
          l.eraseP (fun p => daddr p = dst) = a ++ b := by
  rcases find_split (P := fun p => daddr p = dst) l with hnone | ⟨a, x, b, rfl, ha, hx⟩
  · have hfind : l.find? (fun p => daddr p = dst) = none :=
      List.find?_eq_none.mpr fun y hy => by simpa using hnone y hy
    refine ⟨l.getLast?.or none, ?_, fun x hx => by rw [hfind] at hx; cases hx⟩
    rw [hfind]
    exact walk_none h.links.chain (fun y hy => by simpa using hnone y hy) hf
  · rw [List.length_append, List.length_cons] at hf
    have hfind : (a ++ x :: b).find? (fun p => daddr p = dst) = some x :=
      List.find?_eq_some_iff_append.mpr
        ⟨by simpa using hx, a, b, rfl, fun y hy => by simpa using ha y hy⟩
    have herase : (a ++ x :: b).eraseP (fun p => daddr p = dst) = a ++ b := by
      rw [List.eraseP_append_right _ fun y hy => by simpa using ha y hy,
        List.eraseP_cons_of_pos (by simpa using hx)]
    refine ⟨a.getLast?.or none, ?_, fun y hy => ?_⟩
    · rw [hfind]
      exact walk_found h.links.chain (fun y hy => by simpa using ha y hy) (by simpa using hx)
        (by omega)
    · rw [hfind] at hy
      obtain rfl := Option.some.inj hy
      exact ⟨a, b, rfl, Option.or_none, herase⟩

theorem Rep.dequeDst (h : q.Rep l) (daddr : ℕ → ℕ) (now : ℚ) (dst : ℕ) (hf : l.length < fuel) :
    ∃ q', q.dequeDst daddr now fuel dst =
        some ((young now q.ts l).find? (fun p => daddr p = dst), q') ∧
      q.TakesOut q' ((young now q.ts l).eraseP fun p => daddr p = dst) := by
  obtain ⟨q₁, he₁, h₁⟩ := h.purge now hf hf
  have hle : (young now q.ts l).length ≤ l.length := List.length_filter_le _ _
  obtain ⟨prev, hscan, hfound⟩ :=
    h₁.rep.findPacketWithDst daddr dst (hle.trans_lt hf)
  cases hx : (young now q.ts l).find? (fun p => daddr p = dst) with
  | none =>
      have herase : (young now q.ts l).eraseP (fun p => daddr p = dst) = young now q.ts l :=
        List.eraseP_of_forall_not fun y hy => List.find?_eq_none.mp hx y hy
      refine ⟨q₁, ?_, by rw [herase]; exact h₁⟩
      simp only [AodvRqueue.dequeDst, he₁, hscan, hx, Option.bind_eq_bind, Option.bind_some]
  | some x =>
      obtain ⟨a, b, hsplit, rfl, herase⟩ := hfound x hx
      obtain ⟨q', he, h'⟩ := (hsplit ▸ h₁.rep).unlink
      have hlen : (a ++ b).length < fuel := by
        have := congrArg List.length hsplit
        simp only [List.length_append, List.length_cons] at this ⊢
        omega
      refine ⟨q', ?_, ?_⟩
      · simp only [AodvRqueue.dequeDst, he₁, hscan, hx, Option.bind_eq_bind, Option.bind_some, he,
          h'.rep.verifyQueue hlen]
      · rw [herase]
        exact h₁.trans h'

end AodvRqueue

/-! ### Runs -/

inductive RqueueOp where
  | enque (p : ℕ)
  | deque
  | dequeDst (dst : ℕ)
  | find (dst : ℕ)
deriving DecidableEq, Repr

/-- The queue with the clock, what was enqueued, and what `deque` returned. -/
structure RqHistory where
  q : AodvRqueue
  clock : ℚ
  enqueued : List ℕ
  returned : List ℕ

namespace RqHistory

def init : RqHistory := ⟨.init, 0, [], []⟩

/-- One operation at the time `t`. -/
def step (daddr : ℕ → ℕ) (fuel : ℕ) (t : ℚ) (s : RqHistory) : RqueueOp → Option RqHistory
  | .enque p => (s.q.enque t fuel p).map fun q =>
      { s with q := q, clock := t, enqueued := s.enqueued ++ [p] }
  | .deque => (s.q.deque t fuel).map fun r =>
      { s with q := r.2, clock := t, returned := s.returned ++ r.1.toList }
  | .dequeDst dst => (s.q.dequeDst daddr t fuel dst).map fun r =>
      { s with q := r.2, clock := t, returned := s.returned ++ r.1.toList }
  | .find dst => (s.q.find daddr fuel dst).map fun _ => { s with clock := t }

/-- The operation ends, with `s'`. -/
def Steps (daddr : ℕ → ℕ) (t : ℚ) (s : RqHistory) (op : RqueueOp) (s' : RqHistory) : Prop :=
  ∃ n, ∀ fuel, n ≤ fuel → s.step daddr fuel t op = some s'

/-- Only a packet that is not in the queue is enqueued. -/
def Fresh (s : RqHistory) : RqueueOp → Prop
  | .enque p => ∀ l, s.q.Rep l → p ∉ l
  | _ => True

/-- An operation that takes packets out finds none that has waited too long. -/
def Timely (t : ℚ) (s : RqHistory) : RqueueOp → Prop
  | .find _ => True
  | _ => ∀ l, s.q.Rep l → ∀ p ∈ l, t ≤ s.q.ts p

/-- The runs, each with the statement that all its operations were timely. -/
inductive Run (daddr : ℕ → ℕ) : RqHistory → Prop → Prop
  | init : Run daddr init True
  | step {s s' : RqHistory} {c : Prop} {t : ℚ} {op : RqueueOp} (h : Run daddr s c)
      (ht : s.clock ≤ t) (hf : s.Fresh op) (hs : Steps daddr t s op s') :
      Run daddr s' (c ∧ s.Timely t op)

/-- What the buffer promises. -/
structure Sound (daddr : ℕ → ℕ) (s : RqHistory) (l : List ℕ) : Prop where
  rep : s.q.Rep l
  length_le : (l.length : ℤ) ≤ AodvRqueue.limit
  /-- No assertion fails. -/
  runs : ∀ t op fuel, s.clock ≤ t → s.Fresh op → l.length + 1 < fuel →
    (s.step daddr fuel t op).isSome
  earliest : ∀ t dst fuel, s.clock ≤ t → l.length < fuel →
    (s.q.dequeDst daddr t fuel dst).map Prod.fst =
      some ((l.filter fun p => t ≤ s.q.ts p).find? fun p => daddr p = dst)
  /-- Each packet enqueued is in the queue, was returned, or was dropped. -/
  account : s.enqueued.Perm (l ++ s.returned ++ s.q.dropped.map Prod.fst)

open AodvRqueue

variable {daddr : ℕ → ℕ} {s s' : RqHistory} {l : List ℕ} {c : Prop} {t : ℚ} {op : RqueueOp} {fuel : ℕ}

/-- The packets that `purge` has taken out are in none of these places. -/
structure Inv (s : RqHistory) (l lost : List ℕ) : Prop where
  rep : s.q.Rep l
  length_le : l.length ≤ 64
  account : s.enqueued.Perm (l ++ s.returned ++ s.q.dropped.map Prod.fst ++ lost)

theorem inv_init : Inv init [] [] := ⟨init_rep, Nat.zero_le _, .refl _⟩

/-- The packets that have waited too long. -/
def aged (t : ℚ) (ts : ℕ → ℚ) (l : List ℕ) : List ℕ := l.filter fun p => ¬ t ≤ ts p

theorem perm_young_aged (t : ℚ) (ts : ℕ → ℚ) (l : List ℕ) :
    l.Perm (young t ts l ++ aged t ts l) := by
  have h := (List.filter_append_perm (fun p => decide (t ≤ ts p)) l).symm
  simpa only [young, aged, decide_not] using h

theorem aged_eq_nil_iff {ts : ℕ → ℚ} : aged t ts l = [] ↔ ∀ p ∈ l, t ≤ ts p := by
  simp [aged, List.filter_eq_nil_iff]

/-- What an operation loses: `find` does not purge. -/
def lostBy (t : ℚ) (ts : ℕ → ℚ) (l : List ℕ) : RqueueOp → List ℕ
  | .find _ => []
  | _ => aged t ts l

theorem lostBy_eq_nil_iff (h : s.q.Rep l) : lostBy t s.q.ts l op = [] ↔ s.Timely t op := by
  have hiff : aged t s.q.ts l = [] ↔ ∀ l, s.q.Rep l → ∀ p ∈ l, t ≤ s.q.ts p := by
    rw [aged_eq_nil_iff]
    exact ⟨fun hl l' h' => h.unique h' ▸ hl, fun hl => hl l h⟩
  cases op with
  | find dst => simp [lostBy, Timely]
  | enque p => exact hiff
  | deque => exact hiff
  | dequeDst dst => exact hiff

/-- A `deque` that returns `o` and leaves `l'` moves one packet. -/
theorem Inv.deque {lost l' : List ℕ} {o : Option ℕ} {q' : AodvRqueue} (h : Inv s l lost)
    (hq : s.q.TakesOut q' l') (hl : (young t s.q.ts l).Perm (o.toList ++ l')) :
    Inv { s with q := q', clock := t, returned := s.returned ++ o.toList } l'
      (lost ++ aged t s.q.ts l) where
  rep := hq.rep
  length_le := by
    have h₁ := hl.length_eq
    have h₂ : (young t s.q.ts l).length ≤ l.length := List.length_filter_le _ _
    have h₃ := h.length_le
    rw [List.length_append] at h₁
    omega
  account := by
    have hp := h.account
    rw [← Multiset.coe_eq_coe] at hp ⊢
    have hya := Multiset.coe_eq_coe.mpr (perm_young_aged t s.q.ts l)
    have hyo := Multiset.coe_eq_coe.mpr hl
    simp only [← Multiset.coe_add] at hp hya hyo ⊢
    rw [hp, hya, hyo, hq.dropped]
    abel

/-- **One operation**, with fuel for the packets in the queue. -/
theorem Inv.step {lost : List ℕ} (h : Inv s l lost) (daddr : ℕ → ℕ) (t : ℚ) (hf : s.Fresh op)
    (hfuel : l.length + 1 < fuel) : ∃ s' l', s.step daddr fuel t op = some s' ∧
      Inv s' l' (lost ++ lostBy t s.q.ts l op) := by
  cases op with
  | enque p =>
      obtain ⟨q', d, l', he, hrep, hsplit, hlt, hd, -⟩ :=
        h.rep.enque t h.length_le (hf l h.rep) hfuel
      refine ⟨_, l' ++ [p], by rw [RqHistory.step, he]; rfl, hrep, ?_, ?_⟩
      · rw [List.length_append]
        exact hlt
      · have hp := h.account
        rw [← Multiset.coe_eq_coe] at hp ⊢
        have hya := Multiset.coe_eq_coe.mpr (perm_young_aged t s.q.ts l)
        rw [hsplit] at hya
        simp only [← Multiset.coe_add, lostBy, hd, List.map_append] at hp hya ⊢
        rw [hp, hya]
        abel
  | deque =>
      obtain ⟨q', he, hq⟩ := h.rep.deque t (Nat.lt_of_succ_lt hfuel)
      refine ⟨_, _, by rw [RqHistory.step, he]; rfl, h.deque hq ?_⟩
      cases young t s.q.ts l <;> simp
  | dequeDst dst =>
      obtain ⟨q', he, hq⟩ :=
        h.rep.dequeDst daddr t dst (Nat.lt_of_succ_lt hfuel)
      refine ⟨_, _, by rw [RqHistory.step, he]; rfl, h.deque hq ?_⟩
      rcases find_split (P := fun p => daddr p = dst) (young t s.q.ts l) with hn | ⟨a, x, b, hs, ha, hx⟩
      · rw [List.find?_eq_none.mpr fun y hy => by simpa using hn y hy,
          List.eraseP_of_forall_not fun y hy => by simpa using hn y hy]
        exact .refl _
      · have hfind : (a ++ x :: b).find? (fun p => daddr p = dst) = some x :=
          List.find?_eq_some_iff_append.mpr
            ⟨by simpa using hx, a, b, rfl, fun y hy => by simpa using ha y hy⟩
        rw [hs, hfind, List.eraseP_append_right _ fun y hy => by simpa using ha y hy,
          List.eraseP_cons_of_pos (by simpa using hx)]
        exact List.perm_middle
  | find dst =>
      obtain ⟨prev, he, -⟩ :=
        h.rep.findPacketWithDst daddr dst (Nat.lt_of_succ_lt hfuel)
      refine ⟨{ s with clock := t }, l, by rw [RqHistory.step, AodvRqueue.find, he]; rfl, ?_⟩
      rw [lostBy, List.append_nil]
      exact ⟨h.rep, h.length_le, h.account⟩

theorem Run.inv (h : Run daddr s c) : ∃ l lost, Inv s l lost ∧ (lost = [] ↔ c) := by
  induction h with
  | init => exact ⟨[], [], inv_init, by simp⟩
  | @step s s' c t op h ht hf hs ih =>
      obtain ⟨l, lost, hinv, hc⟩ := ih
      obtain ⟨n, hs⟩ := hs
      obtain ⟨s'', l', he, hinv'⟩ := hinv.step daddr t hf
        (lt_max_of_lt_right (Nat.lt_succ_self _) : l.length + 1 < max n (l.length + 2))
      obtain rfl : s' = s'' := Option.some.inj ((hs _ (le_max_left _ _)).symm.trans he)
      refine ⟨l', _, hinv', ?_⟩
      rw [List.append_eq_nil_iff, hc, lostBy_eq_nil_iff hinv.rep]

/-- **The send buffer**: it keeps what it promises exactly in the runs in which no operation finds a
packet that has waited too long. -/
theorem rqueue_sound_iff (h : Run daddr s c) : (∃ l, Sound daddr s l) ↔ c := by
  obtain ⟨l, lost, hinv, hc⟩ := h.inv
  rw [← hc]
  constructor
  · rintro ⟨l', hl'⟩
    obtain rfl := hinv.rep.unique hl'.rep
    have hlen := (hinv.account.symm.trans hl'.account).length_eq
    rw [List.length_append] at hlen
    exact List.eq_nil_of_length_eq_zero (by omega)
  · rintro rfl
    refine ⟨l, hinv.rep, ?_, ?_, ?_, ?_⟩
    · have := hinv.length_le
      rw [limit]
      omega
    · intro t op fuel ht hf hfuel
      obtain ⟨s', -, he, -⟩ := hinv.step daddr t hf hfuel
      rw [he]
      rfl
    · intro t dst fuel ht hfuel
      obtain ⟨q', he, -⟩ := hinv.rep.dequeDst daddr t dst hfuel
      rw [he]
      rfl
    · simpa using hinv.account

/-- Packets for two destinations, one of which is resolved; `deque` then sends another. -/
def resolved : List (ℚ × RqueueOp) :=
  [(0, .enque 10), (1, .enque 20), (2, .enque 11), (20, .dequeDst 2), (29, .deque)]

/-- After the first operations; a packet is for the tens of its address. -/
def resolvedAt (n : ℕ) : RqHistory :=
  (resolved.take n).foldl (fun s o => (s.step (· / 10) 6 o.1 o.2).getD s) init

/-- An operation before any packet enqueued has waited too long. -/
theorem Run.timely (h : ∃ c, Run daddr s c ∧ c) (ht : s.clock ≤ t)
    (hf : ∀ p ∈ s.enqueued, op ≠ .enque p ∧ t ≤ s.q.ts p) (hs : Steps daddr t s op s') :
    ∃ c, Run daddr s' c ∧ c := by
  obtain ⟨c, hrun, hc⟩ := h
  obtain ⟨l, lost, hinv, -⟩ := hrun.inv
  have hmem : ∀ l', s.q.Rep l' → ∀ p ∈ l', p ∈ s.enqueued := by
    intro l' hl' p hp
    rw [hinv.account.mem_iff, hinv.rep.unique hl']
    simp [hp]
  have hfresh : s.Fresh op := by
    cases op with
    | enque p => exact fun l' hl' hp => (hf p (hmem l' hl' p hp)).1 rfl
    | _ => trivial
  have htimely : s.Timely t op := by
    cases op with
    | find dst => trivial
    | _ => exact fun l' hl' p hp => (hf p (hmem l' hl' p hp)).2
  exact ⟨_, .step hrun ht hfresh hs, hc, htimely⟩

theorem steps_resolved : ∀ n (hn : n < 5), Steps (· / 10) (resolved.get ⟨n, hn⟩).1 (resolvedAt n)
    (resolved.get ⟨n, hn⟩).2 (resolvedAt (n + 1)) := by
  intro n hn
  refine ⟨6, fun fuel hf => ?_⟩
  obtain ⟨m, rfl⟩ := Nat.exists_eq_add_of_le' hf
  match n, hn with
  | 0, _ | 1, _ | 2, _ | 3, _ | 4, _ => with_unfolding_all rfl

theorem run_resolved : ∀ n ≤ 5, ∃ c, Run (· / 10) (resolvedAt n) c ∧ c := by
  intro n hn
  induction n with
  | zero => exact ⟨True, .init, trivial⟩
  | succ n ih =>
      have hlt : n < 5 := hn
      have hclock : ∀ n (hn : n < 5), (resolvedAt n).clock ≤ (resolved.get ⟨n, hn⟩).1 := by
        with_unfolding_all decide
      have hyoung : ∀ n (hn : n < 5), ∀ p ∈ (resolvedAt n).enqueued,
          (resolved.get ⟨n, hn⟩).2 ≠ .enque p ∧
            (resolved.get ⟨n, hn⟩).1 ≤ (resolvedAt n).q.ts p := by
        with_unfolding_all decide
      exact Run.timely (ih (Nat.le_of_lt hn)) (hclock n hlt) (hyoung n hlt) (steps_resolved n hlt)

/-- The packets of a run in which none waits too long are accounted for. -/
theorem rqueue_sound_three : (∃ l, Sound (· / 10) (resolvedAt 5) l) ∧
    (resolvedAt 5).enqueued = [10, 20, 11] ∧ (resolvedAt 5).returned = [20, 10] := by
  obtain ⟨c, hrun, hc⟩ := run_resolved 5 le_rfl
  refine ⟨(rqueue_sound_iff hrun).mpr hc, ?_, ?_⟩
  · with_unfolding_all rfl
  · with_unfolding_all rfl

/-- A packet is enqueued. -/
def oneBuffered : RqHistory where
  q := ⟨some 7, some 7, 1, Function.update (fun _ => none) 7 none,
    Function.update (fun _ => 0) 7 (0 + timeout), []⟩
  clock := 0
  enqueued := [7]
  returned := []

theorem steps_oneBuffered : Steps id 0 init (.enque 7) oneBuffered := by
  refine ⟨2, fun fuel hf => ?_⟩
  obtain ⟨f, rfl⟩ : ∃ f, fuel = f + 2 := ⟨fuel - 2, by omega⟩
  rfl

theorem run_oneBuffered : Run id oneBuffered (True ∧ init.Timely 0 (.enque 7)) :=
  .step .init le_rfl (fun l hl hm => by rw [← init_rep.unique hl] at hm; cases hm) steps_oneBuffered

/-- It has waited for 31 seconds when `deque` is called. -/
def oneLost : RqHistory where
  q := ⟨none, none, 0, oneBuffered.q.next, oneBuffered.q.ts, []⟩
  clock := 31
  enqueued := [7]
  returned := []

theorem steps_oneLost : Steps id 31 oneBuffered .deque oneLost := by
  refine ⟨2, fun fuel hf => ?_⟩
  obtain ⟨f, rfl⟩ : ∃ f, fuel = f + 2 := ⟨fuel - 2, by omega⟩
  with_unfolding_all rfl

/-- The packet is then nowhere: it was not returned, and not passed to `drop`. -/
theorem rqueue_not_sound : ¬ ∀ s c, Run id s c → ∃ l, Sound id s l := by
  intro hall
  have hlt : oneBuffered.clock ≤ (31 : ℚ) := by
    show (0 : ℚ) ≤ 31
    decide
  have hfresh : oneBuffered.Fresh .deque := trivial
  obtain ⟨l, hl⟩ := hall oneLost _ (.step run_oneBuffered hlt hfresh steps_oneLost)
  have hnil : l = [] := by
    have hh := hl.rep.links.head_eq
    cases l with
    | nil => rfl
    | cons x l => cases hh
  subst hnil
  exact absurd hl.account.length_eq (by decide)

end RqHistory

end Afabric
