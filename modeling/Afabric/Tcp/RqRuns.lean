import Afabric.Tcp.RqRefines

/-!
# Tcp — runs of the reassembly queue

Sequences of the calls `add`, `clearto` and `clear` on a queue that starts empty.  Each call
returns, and after each the two lists, the blocks and `total_` are a representation of a set of
bytes: those added, less those a `clear` or a `clearto` above them has taken away (`held`).
-/

namespace Afabric

/-- A call on the queue. -/
inductive RqOp where
  | add (start stop : Int) (tiflags : TcpFlag) (rqflags : Int)
  | clearto (seq : Int)
  | clear

namespace RqOp

/-- Segments are not empty. -/
def Valid : RqOp → Prop
  | add start stop _ _ => start < stop
  | _ => True

/-- The queue after the call. -/
def exec (s : Rq) : RqOp → Option Rq
  | add start stop tiflags rqflags => (s.add start stop tiflags rqflags).map Prod.snd
  | clearto seq => (s.clearto seq).map Prod.snd
  | clear => s.clear

/-- What the call does to the set of bytes. -/
def effect (B : Set Int) : RqOp → Set Int
  | add start stop _ _ => B ∪ Set.Ico start stop
  | clearto seq => B \ Set.Iio seq
  | clear => ∅

end RqOp

/-- The bytes added and not since removed. -/
def held (ops : List RqOp) : Set Int := ops.foldl RqOp.effect ∅

namespace Rq

/-- The queue after a sequence of calls. -/
def exec (s : Rq) (ops : List RqOp) : Option Rq := ops.foldlM RqOp.exec s

/-- A queue as it is constructed.  The free list belongs to the class, and may hold nodes that
were used before. -/
structure Fresh (s : Rq) : Prop where
  head : s.head = none
  tail : s.tail = none
  top : s.top = none
  bottom : s.bottom = none
  total : s.total = 0
  free : ∃ F, SLL s.next s.freelist F ∧ F.Nodup ∧ ∀ x ∈ F, x < s.brk

/-- The queue represents the bytes `B`: `L` is the FIFO and `S` the LIFO. -/
structure Represents (s : Rq) (B : Set Int) (L S : List Nat) : Prop where
  fifo : DLL s.next s.prev s.head s.tail L
  lifo : DLL s.snext s.sprev s.top s.bottom S
  same : S.Perm L
  nonempty : ∀ p ∈ L, s.startseq p < s.endseq p
  sorted : L.Pairwise fun p q => s.startseq p < s.startseq q
  apart : L.Pairwise fun p q => s.endseq p < s.startseq q
  bytes : {v | ∃ p ∈ L, s.startseq p ≤ v ∧ v < s.endseq p} = B
  total : s.total = B.ncard

/-- What is kept from call to call. -/
def Inv (s : Rq) (B : Set Int) : Prop :=
  ∃ L, Holds s L ∧ SegList.Wf (L.map s.blk) ∧ SegList.bytes (L.map s.blk) = B

theorem Fresh.inv {s : Rq} (h : s.Fresh) : s.Inv ∅ := by
  obtain ⟨F, h₁, h₂, h₃⟩ := h.free
  refine ⟨[], ⟨⟨[], F, ?_⟩, h.total⟩, .nil, cover_nil⟩
  refine ⟨?_, ?_, List.Perm.nil, h₁, h₂, by simp, by simpa using h₃⟩
  · rw [h.head, h.tail]; exact .nil
  · rw [h.top, h.bottom]; exact .nil

/-- Every call returns and keeps the invariant. -/
theorem Inv.step {s : Rq} {B : Set Int} (h : s.Inv B) (op : RqOp) (hop : op.Valid) :
    ∃ s', op.exec s = some s' ∧ s'.Inv (op.effect B) := by
  obtain ⟨L, hs, hwf, hB⟩ := h
  cases op with
  | add start stop ti rqf =>
      obtain ⟨s', L', he, hs', hb, -⟩ := add_refines hs hwf hop ti rqf
      refine ⟨s', by simp [RqOp.exec, he], L', hs', ?_, ?_⟩
      · rw [hb]; exact SegList.add_wf hwf hop
      · rw [hb, SegList.add_bytes hwf hop, hB]; rfl
  | clearto seq =>
      obtain ⟨s', L', he, hs', hb, -⟩ := clearto_refines hs hwf seq
      refine ⟨s', by simp [RqOp.exec, he], L', hs', ?_, ?_⟩
      · rw [hb]; exact SegList.clearto_wf hwf seq
      · rw [hb, SegList.clearto_bytes hwf seq, hB]; rfl
  | clear =>
      obtain ⟨s', he, hs', -⟩ := clear_refines hs
      exact ⟨s', he, [], hs', .nil, cover_nil⟩

theorem Inv.run {s : Rq} {B : Set Int} (h : s.Inv B) (ops : List RqOp)
    (hops : ∀ op ∈ ops, op.Valid) :
    ∃ s', s.exec ops = some s' ∧ s'.Inv (ops.foldl RqOp.effect B) := by
  induction ops generalizing s B with
  | nil => exact ⟨s, rfl, h⟩
  | cons op ops ih =>
      obtain ⟨s₁, he₁, h₁⟩ := h.step op (hops op (by simp))
      obtain ⟨s₂, he₂, h₂⟩ := ih h₁ fun o ho => hops o (by simp [ho])
      refine ⟨s₂, ?_, h₂⟩
      rw [exec, List.foldlM_cons, he₁]
      exact he₂

/-- The invariant is the representation. -/
theorem Inv.represents {s : Rq} {B : Set Int} (h : s.Inv B) : ∃ L S, s.Represents B L S := by
  obtain ⟨L, hs, hwf, hB⟩ := h
  obtain ⟨S, F, hr⟩ := hs.rep
  have hne : ∀ p ∈ L, s.startseq p < s.endseq p := fun p hp =>
    hwf.nonempty (s.blk p) (List.mem_map_of_mem hp)
  have hap : L.Pairwise fun p q => s.endseq p < s.startseq q := List.pairwise_map.mp hwf.apart
  have hbytes : {v | ∃ p ∈ L, s.startseq p ≤ v ∧ v < s.endseq p} = B := by
    rw [← hB]
    ext v
    simp [SegList.bytes, cover, blk]
  refine ⟨L, S, hr.fifo, hr.lifo, hr.perm, hne, ?_, hap, hbytes, ?_⟩
  · refine hap.imp_of_mem fun {p q} hp _ hpq => ?_
    have := hne p hp
    omega
  · rw [hs.total, ← hB]
    exact hwf.ncard_cover.symm

/-- **The reassembly queue represents a set of bytes.**  Whatever the calls on a queue that starts
empty, they all return, and the queue then represents the bytes added and not since removed. -/
theorem exec_represents (s : Rq) (hs : s.Fresh) (ops : List RqOp) (hops : ∀ op ∈ ops, op.Valid) :
    ∃ s', s.exec ops = some s' ∧ ∃ L S, s'.Represents (held ops) L S := by
  obtain ⟨s', he, h⟩ := hs.inv.run ops hops
  exact ⟨s', he, h.represents⟩

/-- A queue over an empty heap. -/
def empty : Rq where
  next := fun _ => none
  prev := fun _ => none
  snext := fun _ => none
  sprev := fun _ => none
  startseq := fun _ => 0
  endseq := fun _ => 0
  pflags := fun _ => 0
  rqflags := fun _ => 0
  cnt := fun _ => 0
  brk := 0
  freelist := none
  head := none
  tail := none
  top := none
  bottom := none
  hint := none
  total := 0
  rcvNxt := 1

theorem empty_fresh : empty.Fresh :=
  ⟨rfl, rfl, rfl, rfl, rfl, [], rfl, List.nodup_nil, by simp⟩

/-- A hole filled between two blocks, and a cut in the middle of the result. -/
theorem exec_represents_fill :
    ∃ s', empty.exec [.add 2 4 0 0, .add 6 8 0 0, .add 4 6 0 0, .clearto 3] = some s' ∧
      ∃ L S, s'.Represents (held [.add 2 4 0 0, .add 6 8 0 0, .add 4 6 0 0, .clearto 3]) L S :=
  exec_represents empty empty_fresh _ (by simp [RqOp.Valid])

/-! ### The next hole -/

/-- The hole at or above `seq` in a set of bytes, and how many bytes there are above it; `-1` when no
byte is. -/
def HoleOf (B : Set Int) (seq : Int) (r : Int × Int × Int) : Prop :=
  r.1 = -1 ∧ (∀ v ∈ B, v + 1 < seq) ∨
    IsLeast {v | seq ≤ v ∧ v ∉ B} r.1 ∧
      ((∀ v ∈ B, v < r.1) ∧ r.2.2 = -1 ∨
        (∃ v ∈ B, r.1 < v) ∧ r.2.2 = ({v | v ∈ B ∧ r.1 < v}.ncard : Int))

theorem nexthole_holeOf {l : List Block} (hwf : SegList.Wf l) (seq : Int) :
    HoleOf (SegList.bytes l) seq (SegList.nexthole l seq) := by
  induction l with
  | nil => exact .inl ⟨rfl, by simp [SegList.bytes]⟩
  | cons p l ih =>
      obtain ⟨hp, hl, hwf'⟩ := Normal.cons_iff.mp hwf
      have hmem : ∀ v, v ∈ SegList.bytes (p :: l) ↔
          p.start ≤ v ∧ v < p.stop ∨ v ∈ SegList.bytes l := fun v =>
        Set.ext_iff.mp (cover_cons p l) v
      have hrest : ∀ v ∈ SegList.bytes l, p.stop < v := by
        rintro v ⟨b, hb, hbv, -⟩
        exact (hl b hb).trans_le hbv
      rw [SegList.nexthole]
      by_cases hgt : p.start > seq
      · -- all blocks are above
        rw [if_pos hgt]
        have hall : ∀ v ∈ SegList.bytes (p :: l), seq < v := by
          intro v hv
          rcases (hmem v).mp hv with h | h
          · omega
          · exact (hgt.trans hp).trans (hrest v h)
        refine .inr ⟨⟨⟨le_rfl, fun hin => lt_irrefl _ (hall seq hin)⟩, fun v hv => hv.1⟩, .inr ?_⟩
        refine ⟨⟨p.start, (hmem _).mpr (.inl ⟨le_rfl, hp⟩), hgt⟩, ?_⟩
        rw [Set.sep_eq_self_iff_mem_true.mpr hall]
        exact hwf.ncard_cover.symm
      rw [if_neg hgt]
      by_cases hle : seq ≤ p.stop
      · -- in the block or at its end
        rw [if_pos hle]
        have hleast : IsLeast {v | seq ≤ v ∧ v ∉ SegList.bytes (p :: l)} p.stop := by
          refine ⟨⟨hle, fun hin => ?_⟩, fun v hv => not_lt.mp fun hlt => hv.2 ?_⟩
          · exact ((hmem _).mp hin).elim (fun h => lt_irrefl _ h.2) fun h =>
              lt_irrefl _ (hrest _ h)
          · exact (hmem v).mpr (.inl ⟨(not_lt.mp hgt).trans hv.1, hlt⟩)
        refine .inr ⟨hleast, ?_⟩
        cases l with
        | nil =>
            exact .inl ⟨fun v hv => ((hmem v).mp hv).elim And.right fun h => by simp [SegList.bytes] at h,
              rfl⟩
        | cons b l =>
            have hset : {v | v ∈ SegList.bytes (p :: b :: l) ∧ p.stop < v} =
                SegList.bytes (b :: l) := by
              ext v
              constructor
              · rintro ⟨hv, hlt⟩
                exact ((hmem v).mp hv).resolve_left fun h => lt_asymm hlt h.2
              · exact fun hv => ⟨(hmem v).mpr (.inr hv), hrest v hv⟩
            have hb : b.start ∈ SegList.bytes (b :: l) :=
              ⟨b, List.mem_cons_self, le_rfl, hwf'.nonempty b List.mem_cons_self⟩
            refine .inr ⟨⟨b.start, (hmem _).mpr (.inr hb), hrest _ hb⟩, ?_⟩
            rw [hset]
            exact hwf'.ncard_cover.symm
      · -- the block is below
        rw [if_neg hle]
        have hsame : ∀ v, seq ≤ v → (v ∈ SegList.bytes (p :: l) ↔ v ∈ SegList.bytes l) := by
          intro v hv
          rw [hmem]
          exact or_iff_right fun h => by omega
        generalize SegList.nexthole l seq = r at ih ⊢
        have hlow : ∀ v, p.start ≤ v ∧ v < p.stop → v + 1 < seq := fun v h => by omega
        rcases ih hwf' with ⟨h₁, h⟩ | ⟨hleast, h⟩
        · exact .inl ⟨h₁, fun v hv => ((hmem v).mp hv).elim (hlow v) (h v)⟩
        have hseq : seq ≤ r.1 := hleast.1.1
        have hout : {v | seq ≤ v ∧ v ∉ SegList.bytes (p :: l)} =
            {v | seq ≤ v ∧ v ∉ SegList.bytes l} :=
          Set.ext fun v => and_congr_right fun hv => not_congr (hsame v hv)
        have habove : {v | v ∈ SegList.bytes (p :: l) ∧ r.1 < v} =
            {v | v ∈ SegList.bytes l ∧ r.1 < v} :=
          Set.ext fun v => and_congr_left fun hlt => hsame v (hseq.trans hlt.le)
        refine .inr ⟨hout ▸ hleast, ?_⟩
        rw [habove]
        refine h.imp (And.imp_left fun h v hv => ?_) (And.imp_left ?_)
        · rcases (hmem v).mp hv with hin | hin
          · have hv' := hlow v hin
            omega
          · exact h v hin
        · rintro ⟨v, hv, hlt⟩
          exact ⟨v, (hmem v).mpr (.inr hv), hlt⟩

/-- **`nexthole` in every run** returns and describes the bytes that the queue represents. -/
theorem nexthole_held (s : Rq) (hs : s.Fresh) (ops : List RqOp) (hops : ∀ op ∈ ops, op.Valid)
    (seq : Int) : ∃ s' s'' r, s.exec ops = some s' ∧ s'.nexthole seq = some (r, s'') ∧
      HoleOf (held ops) seq r := by
  obtain ⟨s', he, L, hrep, hwf, hB⟩ := hs.inv.run ops hops
  refine ⟨s', _, _, he, nexthole_refines hrep seq, ?_⟩
  have hhole := nexthole_holeOf hwf seq
  rwa [hB] at hhole

/-- Between two blocks. -/
theorem nexthole_held_gap : ∃ s' s'' r,
    empty.exec [.add 2 4 0 0, .add 6 8 0 0] = some s' ∧ s'.nexthole 3 = some (r, s'') ∧
      HoleOf (held [.add 2 4 0 0, .add 6 8 0 0]) 3 r :=
  nexthole_held empty empty_fresh _ (by simp [RqOp.Valid]) 3

end Rq

end Afabric
