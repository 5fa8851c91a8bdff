import Afabric.Support.Links
import Mathlib.Data.Finset.Basic
import Mathlib.Tactic.Ring

/-!
# Common — packets and their free list

`Packet::alloc`, `copy`, `refcopy` and `free` (`common/packet.h`, `common/packet.cc`), with
`AlivePacketList`.  A packet is known by its address.  A released packet goes to the free list,
which is linked by the `next_` that holders use for their queues; whether a packet is live is
written down three times, in `fflag_`, in `ref_count_` and in `alive_packets_`.  `Ledger` is what
the holders know, and `Books` that the pool agrees with it; no run of calls breaks it (`run_sound`).
-/

namespace Afabric

/-- The fields of `Packet`: `β` for the header bits, and `δ` for the data. -/
structure PoolPacket (β δ : Type) where
  fflag : Bool
  refCount : ℤ
  next : Option ℕ
  data : Option δ
  bits : β
  uid : ℤ

/-- The packets, `free_` and `alive_packets_`. -/
structure PacketPool (β δ : Type) where
  packets : ℕ → PoolPacket β δ
  free : Option ℕ
  alive : Finset ℕ

namespace PacketPool

variable {β δ : Type}

/-- A field of the packet `p` is written. -/
def modify (p : ℕ) (f : PoolPacket β δ → PoolPacket β δ) (s : PacketPool β δ) : PacketPool β δ :=
  { s with packets := Function.update s.packets p (f (s.packets p)) }

section Code

variable (zero fresh : β) (copyData : δ → δ)

/-- The end of `alloc`; `fresh` are the bits of a packet that is handed out. -/
def handOut (p : ℕ) (s : PacketPool β δ) : PacketPool β δ :=
  let s := modify p (fun c => { c with
    bits := fresh
    fflag := true
    next := none }) s
  { s with alive := insert p s.alive }

/-- `alloc`, where `new` would give the address `addr`; none if an assertion fails. -/
def alloc (addr : ℕ) (s : PacketPool β δ) : Option (ℕ × PacketPool β δ) :=
  match s.free with
  | some p =>
      if (s.packets p).fflag then none
      else
        let s := { s with free := (s.packets p).next }
        if (s.packets p).data.isSome then none
        else some (p, handOut fresh p (modify p (fun c => { c with uid := 0 }) s))
  | none =>
      some (addr, handOut fresh addr (modify addr (fun c => { c with
        refCount := 0
        next := none
        data := none
        uid := 0 }) s))

/-- `copy` of the packet `this`. -/
def copy (addr this : ℕ) (s : PacketPool β δ) : Option (ℕ × PacketPool β δ) :=
  (alloc fresh addr s).map fun r =>
    let q := r.2.packets this
    (r.1, modify r.1 (fun c => { c with
      bits := q.bits
      data := if q.data.isSome then q.data.map copyData else c.data }) r.2)

def refcopy (this : ℕ) (s : PacketPool β δ) : PacketPool β δ :=
  modify this (fun c => { c with refCount := c.refCount + 1 }) s

/-- The end of `free`, where nobody holds the packet; `zero` are cleared bits. -/
def putBack (p : ℕ) (s : PacketPool β δ) : PacketPool β δ :=
  let s' := modify p (fun c => { c with
    data := none
    bits := zero
    next := s.free
    fflag := false }) s
  { s' with
    free := some p
    alive := s.alive.erase p }

/-- `free`; none if the assertion fails. -/
def release (p : ℕ) (s : PacketPool β δ) : Option (PacketPool β δ) :=
  if (s.packets p).fflag then
    if (s.packets p).refCount = 0 then
      if 0 < (s.packets p).uid then none else some (putBack zero p s)
    else some (modify p (fun c => { c with refCount := c.refCount - 1 }) s)
  else some s

end Code

/-! ### Holders -/

/-- For each packet that has been handed out, how often it has been referenced, and freed, since. -/
abbrev Ledger := ℕ → Option (ℕ × ℕ)

/-- A packet with `k` references besides the first has been freed `k` times at most. -/
def Live (g : Ledger) (p : ℕ) : Prop := ∃ k f, g p = some (k, f) ∧ f ≤ k

instance (g : Ledger) (p : ℕ) : Decidable (Live g p) :=
  match h : g p with
  | none => .isFalse fun ⟨_, _, hp, _⟩ => by rw [h] at hp; cases hp
  | some (k, f) => decidable_of_iff (f ≤ k) <| by
      constructor
      · exact fun hle => ⟨k, f, h, hle⟩
      · rintro ⟨k', f', hp, hle⟩
        rw [h] at hp
        obtain ⟨rfl, rfl⟩ := Prod.mk.inj (Option.some.inj hp)
        exact hle

/-- A call, or a holder that writes to its packet: to its link, for a queue, and to its contents. -/
inductive Call (β δ : Type) where
  | alloc (addr : ℕ)
  | copy (addr this : ℕ)
  | refcopy (p : ℕ)
  | free (p : ℕ)
  | write (p : ℕ) (next : Option ℕ) (data : Option δ) (bits : β)

/-- The address is that of a packet that has not been made. -/
def Unused (addr : ℕ) (s : PacketPool β δ) (g : Ledger) : Prop := s.free = none → g addr = none

/-- Packets that are copied, referenced or written to are held; a packet that is freed is held, or
has been released. -/
def Legal (s : PacketPool β δ) (g : Ledger) : Call β δ → Prop
  | .alloc addr => Unused addr s g
  | .copy addr this => Unused addr s g ∧ Live g this
  | .refcopy p => Live g p
  | .free p => g p ≠ none
  | .write p _ _ _ => Live g p

/-- The packet `p` is handed out. -/
def Ledger.handOut (p : ℕ) (g : Ledger) : Ledger := Function.update g p (some (0, 0))

def Ledger.refcopy (p : ℕ) (g : Ledger) : Ledger :=
  Function.update g p ((g p).map fun e => (e.1 + 1, e.2))

/-- A packet that has been released is not freed again. -/
def Ledger.free (p : ℕ) (g : Ledger) : Ledger :=
  Function.update g p ((g p).map fun e => if e.2 ≤ e.1 then (e.1, e.2 + 1) else e)

variable (zero fresh : β) (copyData : δ → δ)

def step (s : PacketPool β δ) (g : Ledger) : Call β δ → Option (PacketPool β δ × Ledger)
  | .alloc addr => (alloc fresh addr s).map fun r => (r.2, g.handOut r.1)
  | .copy addr this => (copy fresh copyData addr this s).map fun r => (r.2, g.handOut r.1)
  | .refcopy p => some (refcopy p s, g.refcopy p)
  | .free p => (release zero p s).map fun s' => (s', g.free p)
  | .write p next data bits =>
      some (modify p (fun c => { c with
        next := next
        data := data
        bits := bits }) s, g)

def run : List (Call β δ) → PacketPool β δ → Ledger → Option (PacketPool β δ × Ledger)
  | [], s, g => some (s, g)
  | c :: cs, s, g => (step zero fresh copyData s g c).bind fun r => run cs r.1 r.2

/-- Each call is legal when it is made. -/
def LegalRun : List (Call β δ) → PacketPool β δ → Ledger → Prop
  | [], _, _ => True
  | c :: cs, s, g => Legal s g c ∧
      match step zero fresh copyData s g c with
      | none => True
      | some r => LegalRun cs r.1 r.2

/-- No packet has been made; the memory has arbitrary contents. -/
def init (packets : ℕ → PoolPacket β δ) : PacketPool β δ := ⟨packets, none, ∅⟩

variable {zero fresh copyData} {s s' : PacketPool β δ} {g : Ledger} {l l' : List ℕ} {p q addr : ℕ}

@[simp] theorem modify_self (p : ℕ) (f : PoolPacket β δ → PoolPacket β δ) (s : PacketPool β δ) :
    (modify p f s).packets p = f (s.packets p) := Function.update_self _ _ _

@[simp] theorem modify_of_ne (f : PoolPacket β δ → PoolPacket β δ) (h : q ≠ p) :
    (modify p f s).packets q = s.packets q := Function.update_of_ne h _ _

/-! ### The books -/

/-- The fields of a packet with `k` references besides the first, and freed `f` times. -/
def Agrees (c : PoolPacket β δ) (k f : ℕ) : Prop :=
  f ≤ k ∧ c.fflag = true ∧ c.refCount = (k : ℤ) - f ∧ c.uid = 0 ∨
    f = k + 1 ∧ c.fflag = false ∧ c.refCount = 0 ∧ c.data = none

/-- The pool agrees with what the holders know; `l` is the free list. -/
structure Books (l : List ℕ) (s : PacketPool β δ) (g : Ledger) : Prop where
  chain : SLL (fun p => (s.packets p).next) s.free l
  nodup : l.Nodup
  mem : ∀ p, p ∈ l ↔ ∃ k, g p = some (k, k + 1)
  agrees : ∀ p k f, g p = some (k, f) → Agrees (s.packets p) k f
  alive : ∀ p, p ∈ s.alive ↔ Live g p

theorem Books.init (packets : ℕ → PoolPacket β δ) : Books [] (init packets) fun _ => none where
  chain := rfl
  nodup := List.nodup_nil
  mem p := iff_of_false List.not_mem_nil fun ⟨_, h⟩ => by cases h
  agrees p k f h := by cases h
  alive p := iff_of_false (Finset.notMem_empty p) fun ⟨_, _, h, _⟩ => by cases h

theorem live_iff {k f : ℕ} (h : g p = some (k, f)) : Live g p ↔ f ≤ k := by
  constructor
  · rintro ⟨k', f', h', hle⟩
    rw [h] at h'
    obtain ⟨rfl, rfl⟩ := Prod.mk.inj (Option.some.inj h')
    exact hle
  · exact fun hle => ⟨k, f, h, hle⟩

theorem Books.not_mem (h : Books l s g) (hp : Live g p) : p ∉ l := by
  intro hm
  obtain ⟨k, hk⟩ := (h.mem p).mp hm
  exact absurd ((live_iff hk).mp hp) (Nat.not_succ_le_self k)

/-- A call that changes one packet. -/
theorem Books.update (h : Books l s g) {k f : ℕ}
    (hother : ∀ q ≠ p, s'.packets q = s.packets q) (hp : Agrees (s'.packets p) k f)
    (hchain : SLL (fun p => (s'.packets p).next) s'.free l') (hnodup : l'.Nodup)
    (hmem : ∀ q, q ∈ l' ↔ q ≠ p ∧ q ∈ l ∨ q = p ∧ f = k + 1)
    (halive : ∀ q, q ∈ s'.alive ↔ q ≠ p ∧ q ∈ s.alive ∨ q = p ∧ f ≤ k) :
    Books l' s' (Function.update g p (some (k, f))) where
  chain := hchain
  nodup := hnodup
  mem q := by
    rw [hmem]
    by_cases hq : q = p
    · subst hq
      rw [Function.update_self]
      constructor
      · rintro (⟨hne, -⟩ | ⟨-, rfl⟩)
        · exact absurd rfl hne
        · exact ⟨k, rfl⟩
      · rintro ⟨k', hk'⟩
        obtain ⟨rfl, rfl⟩ := Prod.mk.inj (Option.some.inj hk')
        exact .inr ⟨rfl, rfl⟩
    · rw [Function.update_of_ne hq, ← h.mem]
      simp [hq]
  agrees q k' f' hq' := by
    by_cases hq : q = p
    · subst hq
      rw [Function.update_self] at hq'
      obtain ⟨rfl, rfl⟩ := Prod.mk.inj (Option.some.inj hq')
      exact hp
    · rw [Function.update_of_ne hq] at hq'
      rw [hother q hq]
      exact h.agrees q k' f' hq'
  alive q := by
    rw [halive]
    by_cases hq : q = p
    · subst hq
      rw [live_iff (Function.update_self _ _ _)]
      simp
    · have hlive : Live (Function.update g p (some (k, f))) q ↔ Live g q := by
        rw [Live, Live, Function.update_of_ne hq]
      rw [hlive, ← h.alive]
      simp [hq]

/-- A call that changes a packet that is held, and stays so. -/
theorem Books.hold (h : Books l s g) (hp : Live g p) {f : PoolPacket β δ → PoolPacket β δ}
    {k n : ℕ} (ha : Agrees (f (s.packets p)) k n) (hle : n ≤ k) :
    Books l (modify p f s) (Function.update g p (some (k, n))) := by
  have hpl := h.not_mem hp
  refine h.update (fun q hq => modify_of_ne f hq) ?_ ?_ h.nodup (fun q => ?_) fun q => ?_
  · rwa [modify_self]
  · exact h.chain.congr fun q hq =>
      congrArg PoolPacket.next (modify_of_ne f fun he => hpl (he ▸ hq))
  · constructor
    · exact fun hq => .inl ⟨fun he => hpl (he ▸ hq), hq⟩
    · rintro (⟨-, hq⟩ | ⟨-, hn⟩)
      · exact hq
      · omega
  · constructor
    · intro hq
      by_cases he : q = p
      · exact .inr ⟨he, hle⟩
      · exact .inl ⟨he, hq⟩
    · rintro (⟨-, hq⟩ | ⟨rfl, -⟩)
      · exact hq
      · exact (h.alive q).mpr hp

/-- The fields of a packet that is held. -/
theorem Books.held (h : Books l s g) {k f : ℕ} (hg : g p = some (k, f)) (hle : f ≤ k) :
    (s.packets p).fflag = true ∧ (s.packets p).refCount = (k : ℤ) - f ∧ (s.packets p).uid = 0 :=
  ((h.agrees p k f hg).resolve_right fun hc => by omega).2

/-- The fields of a packet that has been released. -/
theorem Books.released (h : Books l s g) {k : ℕ} (hg : g p = some (k, k + 1)) :
    (s.packets p).fflag = false ∧ (s.packets p).refCount = 0 ∧ (s.packets p).data = none :=
  ((h.agrees p k (k + 1) hg).resolve_left fun hc => by omega).2

/-! ### The calls -/

theorem handOut_packets (fresh : β) (p : ℕ) (s : PacketPool β δ) : (handOut fresh p s).packets =
    (modify p (fun c => { c with
      bits := fresh
      fflag := true
      next := none }) s).packets := rfl

theorem putBack_packets (zero : β) (p : ℕ) (s : PacketPool β δ) : (putBack zero p s).packets =
    (modify p (fun c => { c with
      data := none
      bits := zero
      next := s.free
      fflag := false }) s).packets := rfl

/-- What `handOut` leaves behind. -/
theorem Books.handOut (h : Books l s g) {r : PacketPool β δ}
    (hother : ∀ q ≠ p, r.packets q = s.packets q) (hcount : (r.packets p).refCount = 0)
    (huid : (r.packets p).uid = 0) (hchain : SLL (fun p => (s.packets p).next) r.free l')
    (hnodup : l'.Nodup) (hmem : ∀ q, q ∈ l' ↔ q ≠ p ∧ q ∈ l) (halive : r.alive = s.alive) :
    Books l' (PacketPool.handOut fresh p r) (g.handOut p) := by
  have hrest : ∀ q ≠ p, (PacketPool.handOut fresh p r).packets q = s.packets q := by
    intro q hq
    rw [handOut_packets, modify_of_ne _ hq, hother q hq]
  refine h.update hrest ?_ ?_ hnodup (fun q => ?_) fun q => ?_
  · rw [handOut_packets, modify_self]
    exact .inl ⟨le_rfl, rfl, hcount.trans (sub_self _).symm, huid⟩
  · exact hchain.congr fun q hq => congrArg PoolPacket.next (hrest q ((hmem q).mp hq).1)
  · rw [hmem]
    simp
  · have hins : (PacketPool.handOut fresh p r).alive = insert p s.alive := by
      rw [← halive]
      rfl
    rw [hins, Finset.mem_insert]
    by_cases hq : q = p
    · simp [hq]
    · simp [hq]

/-- **`alloc`** hands out a packet that nobody holds. -/
theorem Books.alloc (fresh : β) (h : Books l s g) (hu : Unused addr s g) :
    ∃ p s' l', alloc fresh addr s = some (p, s') ∧ Books l' s' (g.handOut p) ∧ ¬ Live g p := by
  have hchain := h.chain
  cases hfree : s.free with
  | none =>
      rw [hfree] at hchain
      cases l with
      | cons x l => cases hchain.1
      | nil =>
          have hnone := hu hfree
          refine ⟨addr, _, [], by rw [PacketPool.alloc, hfree], ?_, ?_⟩
          · refine h.handOut (fun q hq => modify_of_ne _ hq) ?_ ?_ hfree List.nodup_nil
              (by simp) rfl
            · rw [modify_self]
            · rw [modify_self]
          · rintro ⟨k, f, hp, -⟩
            rw [hnone] at hp
            cases hp
  | some p =>
      rw [hfree] at hchain
      cases l with
      | nil => cases hchain
      | cons x l =>
          obtain ⟨hx, hrest⟩ := hchain
          obtain rfl := Option.some.inj hx
          obtain ⟨hpl, hnodup⟩ := List.nodup_cons.mp h.nodup
          obtain ⟨k, hk⟩ := (h.mem p).mp List.mem_cons_self
          obtain ⟨hflag, hcount, hdata⟩ := h.released hk
          have hrun : PacketPool.alloc fresh addr s = some (p, PacketPool.handOut fresh p
              (modify p (fun c => { c with uid := 0 })
                { s with free := (s.packets p).next })) := by
            rw [PacketPool.alloc, hfree]
            simp only [hflag, hdata]
            rfl
          refine ⟨p, _, l, hrun, ?_, fun hlive => h.not_mem hlive List.mem_cons_self⟩
          refine h.handOut (fun q hq => modify_of_ne _ hq) ?_ ?_ hrest hnodup (fun q => ?_) rfl
          · rw [modify_self]
            exact hcount
          · rw [modify_self]
          · rw [List.mem_cons]
            constructor
            · exact fun hq => ⟨fun he => hpl (he ▸ hq), .inr hq⟩
            · exact fun hq => hq.2.resolve_left hq.1

/-- A holder that writes to its packet. -/
theorem Books.write (h : Books l s g) (hp : Live g p) {f : PoolPacket β δ → PoolPacket β δ}
    (hf : ∀ c, (f c).fflag = c.fflag ∧ (f c).refCount = c.refCount ∧ (f c).uid = c.uid) :
    Books l (modify p f s) g := by
  obtain ⟨k, n, hg, hle⟩ := id hp
  obtain ⟨hflag, hcount, huid⟩ := h.held hg hle
  obtain ⟨hf₁, hf₂, hf₃⟩ := hf (s.packets p)
  have hbooks := h.hold hp (f := f)
    (.inl ⟨hle, hf₁.trans hflag, hf₂.trans hcount, hf₃.trans huid⟩) hle
  rwa [← hg, Function.update_eq_self] at hbooks

theorem Books.copy (fresh : β) (copyData : δ → δ) (h : Books l s g) (hu : Unused addr s g)
    (this : ℕ) :
    ∃ p s' l', copy fresh copyData addr this s = some (p, s') ∧ Books l' s' (g.handOut p) ∧
      ¬ Live g p := by
  obtain ⟨p, s₁, l', hs₁, hbooks, hlive⟩ := h.alloc fresh hu
  rw [PacketPool.copy, hs₁]
  refine ⟨p, _, l', rfl, hbooks.write ?_ fun c => ⟨rfl, rfl, rfl⟩, hlive⟩
  exact ⟨0, 0, Function.update_self _ _ _, le_rfl⟩

theorem Books.refcopy (h : Books l s g) (hp : Live g p) :
    Books l (refcopy p s) (g.refcopy p) := by
  obtain ⟨k, f, hg, hle⟩ := id hp
  obtain ⟨hflag, hcount, huid⟩ := h.held hg hle
  rw [Ledger.refcopy, hg]
  refine h.hold hp (.inl ⟨Nat.le_succ_of_le hle, hflag, ?_, huid⟩) (Nat.le_succ_of_le hle)
  dsimp only
  rw [hcount]
  push_cast
  ring

/-- **`free`** of a packet that is held: it is released if each reference has been freed. -/
theorem Books.free (zero : β) (h : Books l s g) {k f : ℕ} (hg : g p = some (k, f)) (hle : f ≤ k) :
    ∃ s' l', release zero p s = some s' ∧ Books l' s' (g.free p) ∧ (p ∉ s'.alive ↔ f = k) := by
  have hp : Live g p := ⟨k, f, hg, hle⟩
  obtain ⟨hflag, hcount, huid⟩ := h.held hg hle
  have hledger : g.free p = Function.update g p (some (k, f + 1)) := by
    rw [Ledger.free, hg, Option.map_some, if_pos hle]
  rw [hledger, release, if_pos hflag]
  by_cases hlast : f = k
  · subst hlast
    have hpl := h.not_mem hp
    rw [sub_self] at hcount
    rw [if_pos hcount, if_neg (by rw [huid]; decide)]
    have hrest : ∀ q ≠ p, (putBack zero p s).packets q = s.packets q := fun q hq => by
      rw [putBack_packets, modify_of_ne _ hq]
    refine ⟨_, p :: l, rfl, ?_, iff_of_true (Finset.notMem_erase p s.alive) rfl⟩
    have hnodup : (p :: l).Nodup := List.nodup_cons.mpr ⟨hpl, h.nodup⟩
    refine h.update hrest ?_ ⟨rfl, ?_⟩ hnodup (fun q => ?_) fun q => ?_
    · rw [putBack_packets, modify_self]
      exact .inr ⟨rfl, rfl, hcount, rfl⟩
    · have hnext : ((putBack zero p s).packets p).next = s.free := by
        rw [putBack_packets, modify_self]
      change SLL _ ((putBack zero p s).packets p).next l
      rw [hnext]
      exact h.chain.congr fun q hq => congrArg PoolPacket.next (hrest q fun he => hpl (he ▸ hq))
    · rw [List.mem_cons]
      constructor
      · rintro (rfl | hq)
        · exact .inr ⟨rfl, rfl⟩
        · exact .inl ⟨fun he => hpl (he ▸ hq), hq⟩
      · rintro (⟨-, hq⟩ | ⟨rfl, -⟩)
        · exact .inr hq
        · exact .inl rfl
    · have herase : (putBack zero p s).alive = s.alive.erase p := rfl
      rw [herase, Finset.mem_erase]
      exact ⟨.inl, fun hq => hq.resolve_right fun hn => Nat.not_succ_le_self f hn.2⟩
  · have hlt : f < k := lt_of_le_of_ne hle hlast
    rw [if_neg (by rw [hcount]; omega)]
    refine ⟨_, l, rfl, h.hold hp (.inl ⟨hlt, hflag, ?_, huid⟩) hlt,
      iff_of_false (not_not.mpr ((h.alive p).mpr hp)) hlast⟩
    dsimp only
    rw [hcount]
    push_cast
    ring

/-- A stray `free` of a packet that has been released. -/
theorem Books.stray (zero : β) (h : Books l s g) {k : ℕ} (hg : g p = some (k, k + 1)) :
    release zero p s = some s ∧ g.free p = g := by
  refine ⟨?_, ?_⟩
  · rw [release, if_neg]
    rw [(h.released hg).1]
    exact Bool.false_ne_true
  · rw [Ledger.free, hg, Option.map_some, if_neg (Nat.not_succ_le_self k), ← hg,
      Function.update_eq_self]

/-! ### Runs -/

/-- **A legal call** succeeds, and keeps the books. -/
theorem Books.step (zero fresh : β) (copyData : δ → δ) (h : Books l s g) {c : Call β δ}
    (hc : Legal s g c) :
    ∃ r l', step zero fresh copyData s g c = some r ∧ Books l' r.1 r.2 := by
  cases c with
  | alloc addr =>
      obtain ⟨p, s', l', hs', hbooks, -⟩ := h.alloc fresh hc
      refine ⟨(s', g.handOut p), l', ?_, hbooks⟩
      rw [PacketPool.step, hs']
      rfl
  | copy addr this =>
      obtain ⟨p, s', l', hs', hbooks, -⟩ := h.copy fresh copyData hc.1 this
      refine ⟨(s', g.handOut p), l', ?_, hbooks⟩
      rw [PacketPool.step, hs']
      rfl
  | refcopy p => exact ⟨_, l, rfl, h.refcopy hc⟩
  | free p =>
      obtain ⟨⟨k, f⟩, hg⟩ := Option.ne_none_iff_exists'.mp hc
      by_cases hle : f ≤ k
      · obtain ⟨s', l', hs', hbooks, -⟩ := h.free zero hg hle
        refine ⟨(s', g.free p), l', ?_, hbooks⟩
        rw [PacketPool.step, hs']
        rfl
      · obtain rfl : f = k + 1 := by
          rcases h.agrees p k f hg with hc | hc
          · exact absurd hc.1 hle
          · exact hc.1
        obtain ⟨hs', hg'⟩ := h.stray zero hg
        refine ⟨(s, g.free p), l, ?_, ?_⟩
        · rw [PacketPool.step, hs']
          rfl
        · rwa [hg']
  | write p next data bits =>
      have hwrite := h.write hc (f := fun c => { c with
        next := next
        data := data
        bits := bits }) fun c => ⟨rfl, rfl, rfl⟩
      exact ⟨_, l, rfl, hwrite⟩

theorem Books.run (h : Books l s g) {cs : List (Call β δ)}
    (hl : LegalRun zero fresh copyData cs s g) :
    ∃ r l', run zero fresh copyData cs s g = some r ∧ Books l' r.1 r.2 := by
  induction cs generalizing l s g with
  | nil => exact ⟨(s, g), l, rfl, h⟩
  | cons c cs ih =>
      obtain ⟨hc, hrest⟩ := hl
      obtain ⟨r, l₁, hr, hbooks⟩ := h.step zero fresh copyData hc
      rw [hr] at hrest
      obtain ⟨r', l', hr', hbooks'⟩ := ih hbooks hrest
      refine ⟨r', l', ?_, hbooks'⟩
      rw [PacketPool.run, hr, Option.bind_some, hr']

/-- What holds after any run: of the free list, of `alive_packets_`, and of the next call. -/
structure Sound (zero fresh : β) (s : PacketPool β δ) (g : Ledger) : Prop where
  free : ∃ l, SLL (fun p => (s.packets p).next) s.free l ∧ l.Nodup ∧ ∀ p ∈ l, ¬ Live g p
  alive : ∀ p, p ∈ s.alive ↔ Live g p
  released : ∀ p k f, g p = some (k, f) → f ≤ k + 1 ∧ (p ∈ s.alive ↔ f < k + 1)
  last : ∀ p k f, g p = some (k, f) → f ≤ k →
    ∃ s', release zero p s = some s' ∧ (p ∉ s'.alive ↔ f = k)
  stray : ∀ p k, g p = some (k, k + 1) → release zero p s = some s
  alloc : ∀ addr, Unused addr s g → ∃ p s', alloc fresh addr s = some (p, s') ∧ ¬ Live g p

theorem Books.sound (h : Books l s g) : Sound zero fresh s g where
  free := ⟨l, h.chain, h.nodup, fun _ hp hlive => h.not_mem hlive hp⟩
  alive := h.alive
  released p k f hg := by
    rw [h.alive, live_iff hg, Nat.lt_succ_iff]
    refine ⟨?_, Iff.rfl⟩
    rcases h.agrees p k f hg with hc | hc
    · exact Nat.le_succ_of_le hc.1
    · exact hc.1.le
  last p k f hg hle := by
    obtain ⟨s', -, hs', -, hlast⟩ := h.free zero hg hle
    exact ⟨s', hs', hlast⟩
  stray p k hg := (h.stray zero hg).1
  alloc addr hu := by
    obtain ⟨p, s', -, hs', -, hlive⟩ := h.alloc fresh hu
    exact ⟨p, s', hs', hlive⟩

/-- **Packets are allocated and released as their holders know**: no legal run fails an assertion,
and after it the free list has no cycle and no packet that is held, `alive_packets_` are the packets
that are held, a packet that is referenced `k` times is released with the last of its `k + 1` frees,
and `alloc` hands out a packet that nobody holds. -/
theorem run_sound (packets : ℕ → PoolPacket β δ) {cs : List (Call β δ)}
    (hl : LegalRun zero fresh copyData cs (init packets) fun _ => none) :
    ∃ r, run zero fresh copyData cs (init packets) (fun _ => none) = some r ∧
      Sound zero fresh r.1 r.2 := by
  obtain ⟨r, l, hr, hbooks⟩ := (Books.init packets).run hl
  exact ⟨r, hr, hbooks.sound⟩

/-- A packet is referenced once and copied; it is released with its second free, freed once more,
and handed out again. -/
theorem run_sound_again : ∃ r,
    run (0 : ℕ) (1 : ℕ) (id : ℕ → ℕ) [.alloc 5, .refcopy 5, .copy 7 5, .free 5, .free 5, .free 5,
      .alloc 9, .free 7] (init fun _ => ⟨false, 0, none, none, 0, 0⟩) (fun _ => none) = some r ∧
      Sound 0 1 r.1 r.2 :=
  run_sound _ ⟨fun _ => rfl, ⟨0, 0, rfl, le_rfl⟩, ⟨fun _ => rfl, 1, 0, rfl, by decide⟩,
    Option.some_ne_none _, Option.some_ne_none _, Option.some_ne_none _, fun h => (by cases h),
    Option.some_ne_none _, trivial⟩

end PacketPool

end Afabric
