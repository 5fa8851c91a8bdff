import Afabric.Sched.EventList
import Afabric.Support.BinaryHeap
import Mathlib.Data.Prod.Lex

/-!
# Sched — `HeapScheduler`

The events are in a binary heap (`common/heap.h`), ordered by time and, for events of one time, by
a secondary key that counts the insertions.  The heap keeps the count in an `unsigned int` and an
element its key in an `unsigned long`: after `2 ^ 32` insertions the count starts again from zero,
and an event can get a smaller key than an older one of the same time.

The heap is the ordered list (`heapScheduler_refines`) as long as this does not happen, and the
array, which is doubled when it is full, stays within `2 ^ 31` elements.
-/

namespace Afabric

open BinaryHeap

/-- A `Heap_elem`; the null pointer is `none`. -/
structure HeapElem where
  heKey : ℚ
  heSKey : Nat
  heElem : Option Event

/-- A `Heap`, less the iterator. -/
structure Heap where
  hElems : Nat → HeapElem
  hSKey : Nat
  hSize : Nat
  hMaxsize : Nat

/-- `KEY_LESS_THAN`. -/
def keyLessThan (x y : HeapElem) : Prop :=
  x.heKey < y.heKey ∨ x.heKey = y.heKey ∧ x.heSKey < y.heSKey

instance : DecidableRel keyLessThan := fun _ _ => inferInstanceAs (Decidable (_ ∨ _ ∧ _))

namespace Heap

/-- The constructor, with the default size. -/
def init : Heap where
  hElems := fun _ => ⟨0, 0, none⟩
  hSKey := 0
  hSize := 0
  hMaxsize := 32

/-- `heap_member`. -/
def heapMember (h : Heap) (elem : Event) : Nat :=
  match (List.range h.hSize).find? fun i => (h.hElems i).heElem.map (·.obj) = some elem.obj with
  | some i => i + 1
  | none => 0

/-- `heap_extract_min`. -/
def heapExtractMin (h : Heap) : Option Event × Heap :=
  if h.hSize = 0 then (none, h)
  else ((h.hElems 0).heElem,
    { h with hElems := extract keyLessThan h.hElems h.hSize, hSize := h.hSize - 1 })

/-- `heap_delete`. -/
def heapDelete (h : Heap) (elem : Event) : Nat × Heap :=
  match h.heapMember elem with
  | 0 => (0, h)
  | i + 1 => (1, (heapExtractMin { h with hElems := raise h.hElems i }).2)

/-- `heap_insert`.  The new size wraps in 32 bits, and the array is then too small for what is
written to it. -/
def heapInsert (h : Heap) (key : ℚ) (elem : Event) : Option Heap :=
  let maxsize := if h.hMaxsize = h.hSize then h.hMaxsize * 2 % 2 ^ 32 else h.hMaxsize
  if h.hSize < maxsize then
    some { hElems := siftUp keyLessThan ⟨key, h.hSKey, some elem⟩ h.hElems h.hSize
           hSKey := (h.hSKey + 1) % 2 ^ 32
           hSize := h.hSize + 1
           hMaxsize := maxsize }
  else none

end Heap

/-- The operations of a `HeapScheduler`. -/
def heapScheduler : EventQueue Heap where
  init := .init
  insert := fun h e => h.heapInsert e.time e
  cancel := fun h e => some (h.heapDelete e).2
  deque := fun h => some h.heapExtractMin

/-! ### The heap and the list -/

namespace HeapElem

/-- The key of an element, in the order of the heap. -/
def key (x : HeapElem) : ℚ ×ₗ ℕ := toLex (x.heKey, x.heSKey)

theorem keyLessThan_iff (x y : HeapElem) : keyLessThan x y ↔ x.key < y.key :=
  (Prod.Lex.lt_iff (x := x.key) (y := y.key)).symm

end HeapElem

/-- The secondary key of an event, from its number: the count in 32 bits. -/
def Event.sKey (e : Event) : Nat := (e.uid - 1) % 2 ^ 32

/-- The element for an event. -/
def Event.elem (e : Event) : HeapElem := ⟨e.time, e.sKey, some e⟩

/-- The heap has room for one more event, and the key of the event is above those of the pending
events of its time. -/
def HeapFits (l : EventList) (e : Event) : Prop :=
  l.events.length < 2 ^ 31 ∧ ∀ x ∈ l.events, x.time = e.time → x.sKey < e.sKey

instance (l : EventList) (e : Event) : Decidable (HeapFits l e) :=
  inferInstanceAs (Decidable (_ ∧ _))

/-- The heap holds the events of the list. -/
structure HeapRep (h : Heap) (l : EventList) : Prop where
  key : h.hSKey = l.uids % 2 ^ 32
  size : h.hSize ≤ h.hMaxsize
  maxsize : ∃ k ≤ 26, h.hMaxsize = 32 * 2 ^ k
  ordered : Ordered HeapElem.key h.hElems h.hSize
  contents : contents h.hElems h.hSize = ↑(l.events.map Event.elem)
  sorted : l.events.Pairwise fun x y => keyLessThan x.elem y.elem

namespace HeapRep

variable {h : Heap} {l : EventList}

theorem length (hr : HeapRep h l) : h.hSize = l.events.length := by
  have := congrArg Multiset.card hr.contents
  simpa using this

/-- The root is the first event. -/
theorem root (hr : HeapRep h l) {x : Event} {t : List Event} (hl : l.events = x :: t) :
    h.hElems 0 = x.elem := by
  have hs := hr.sorted
  have hn := hr.length
  rw [hl] at hs hn
  have hpos : 0 < h.hSize := by rw [hn]; simp
  have hmem : h.hElems 0 ∈ BinaryHeap.contents h.hElems h.hSize := mem_contents.mpr ⟨0, hpos, rfl⟩
  rw [hr.contents, hl, Multiset.mem_coe, List.map_cons, List.mem_cons] at hmem
  rcases hmem with hmem | hmem
  · exact hmem
  · obtain ⟨y, hy, hye⟩ := List.mem_map.mp hmem
    have hx : x.elem ∈ BinaryHeap.contents h.hElems h.hSize := by
      rw [hr.contents, hl]
      simp
    obtain ⟨i, hi, hix⟩ := mem_contents.mp hx
    have hle := hr.ordered.root_le i hi
    have hlt := (HeapElem.keyLessThan_iff _ _).mp ((List.pairwise_cons.mp hs).1 y hy)
    rw [hix, ← hye] at hle
    exact absurd hle (not_le.mpr hlt)

theorem init : HeapRep .init .init where
  key := rfl
  size := Nat.zero_le _
  maxsize := ⟨0, by omega, rfl⟩
  ordered := fun _ _ hj => absurd hj (Nat.not_lt_zero _)
  contents := rfl
  sorted := .nil

theorem insert (hr : HeapRep h l) (hl : l.Ok) {e : Event} (he : l.Fresh e) (hf : HeapFits l e) :
    ∃ h', h.heapInsert e.time e = some h' ∧ HeapRep h' (l.after (.insert e)) := by
  have hlen := hr.length
  obtain ⟨k, hk, hmax⟩ := hr.maxsize
  have hkey : (⟨e.time, h.hSKey, some e⟩ : HeapElem) = e.elem := by
    rw [hr.key, Event.elem, Event.sKey, he.1]
    rfl
  -- doubling does not wrap: a full array of `2 ^ 31` elements is excluded
  have hgrow : ∃ m, (if h.hMaxsize = h.hSize then h.hMaxsize * 2 % 2 ^ 32 else h.hMaxsize) = m ∧
      h.hSize < m ∧ ∃ k ≤ 26, m = 32 * 2 ^ k := by
    by_cases hfull : h.hMaxsize = h.hSize
    · have hlt : 32 * 2 ^ k < 2 ^ 31 := by rw [← hmax, hfull, hlen]; exact hf.1
      have hk' : k < 26 := by
        have hpow : 2 ^ k < 2 ^ 26 := by omega
        exact (Nat.pow_lt_pow_iff_right (by omega)).mp hpow
      have hwrap : h.hMaxsize * 2 % 2 ^ 32 = h.hMaxsize * 2 := Nat.mod_eq_of_lt (by omega)
      have hpos : 0 < 2 ^ k := Nat.pow_pos (Nat.zero_lt_succ 1)
      refine ⟨h.hMaxsize * 2, by rw [if_pos hfull, hwrap], by omega, k + 1, by omega, ?_⟩
      rw [hmax, Nat.pow_succ, Nat.mul_assoc]
    · refine ⟨h.hMaxsize, if_neg hfull, ?_, k, hk, hmax⟩
      have := hr.size
      omega
  obtain ⟨m, hm, hsize, hpow⟩ := hgrow
  have hhole : Hole HeapElem.key (put h.hElems h.hSize e.elem) (h.hSize + 1) h.hSize := by
    refine ⟨fun j hj₀ hj hne hp => ?_, fun _ j hj₀ hj hp => ?_⟩
    · rw [put_of_ne hne, put_of_ne hp]
      exact hr.ordered j hj₀ (by omega)
    · have := parent_lt hj₀
      omega
  obtain ⟨ho, hs⟩ := siftUp_spec HeapElem.keyLessThan_iff (Nat.lt_succ_self _) hhole
    fun j hj₀ hj hp => by
      have := parent_lt hj₀
      omega
  refine ⟨_, by rw [Heap.heapInsert]; simp only [hm]; rw [if_pos hsize], ?_⟩
  refine ⟨?_, Nat.succ_le_of_lt hsize, hpow, hkey ▸ ho, ?_, ?_⟩
  · show (h.hSKey + 1) % 2 ^ 32 = e.uid % 2 ^ 32
    rw [hr.key, he.1, Nat.mod_add_mod]
  · have hp : BinaryHeap.contents (put h.hElems h.hSize e.elem) h.hSize
        = BinaryHeap.contents h.hElems h.hSize :=
      contents_congr fun i hi => put_of_ne (Nat.ne_of_lt hi) _
    have hperm := Multiset.coe_eq_coe.mpr ((ListScheduler.insert_perm e l.events).map Event.elem)
    rw [hkey]
    refine hs.trans (Eq.trans ?_ hperm.symm)
    rw [contents_succ, put_same, hp, hr.contents]
    rfl
  · refine ListScheduler.insert_pairwise hr.sorted (hl.sorted.imp fun hxy => hxy.time_le)
      (fun x hx hle => ?_) fun x _ hlt => .inl hlt
    rcases hle.lt_or_eq with h' | h'
    · exact .inl h'
    · exact .inr ⟨h', hf.2 x hx h'⟩

/-- Removing the root, whatever its key, removes its event. -/
theorem extract (hr : HeapRep h l) {g : Heap} {x : Event} (hx : x ∈ l.events)
    (hh : Hole HeapElem.key g.hElems h.hSize 0) (h₀ : g.hElems 0 = x.elem)
    (hs : BinaryHeap.contents g.hElems h.hSize = BinaryHeap.contents h.hElems h.hSize)
    (hn : g.hSize = h.hSize) (hk : g.hSKey = h.hSKey) (hm : g.hMaxsize = h.hMaxsize)
    {m : EventList} (hl' : m.events = l.events.erase x) (hu : m.uids = l.uids) :
    g.heapExtractMin.1 = some x ∧ HeapRep g.heapExtractMin.2 m := by
  have hlen := hr.length
  have hpos : 0 < h.hSize := by rw [hlen]; exact List.length_pos_of_mem hx
  obtain ⟨n, hn'⟩ : ∃ n, h.hSize = n + 1 := ⟨h.hSize - 1, by omega⟩
  have hne : g.hSize ≠ 0 := by omega
  rw [hn'] at hh hs
  obtain ⟨ho, hc⟩ := extract_spec HeapElem.keyLessThan_iff hh
  rw [Heap.heapExtractMin, if_neg hne, hn, hn']
  refine ⟨by rw [h₀]; rfl, ?_⟩
  refine ⟨by rw [hu]; exact hk.trans hr.key, ?_, hm ▸ hr.maxsize, ho, ?_, ?_⟩
  · show n ≤ g.hMaxsize
    have := hr.size
    omega
  · show BinaryHeap.contents (BinaryHeap.extract _ _ _) n = _
    have hrest := hr.contents
    rw [hn', ← hs, hc, h₀, Multiset.coe_eq_coe.mpr ((List.perm_cons_erase hx).map Event.elem)]
      at hrest
    rw [hl']
    exact (Multiset.cons_inj_right _).mp hrest
  · rw [hl']
    exact hr.sorted.sublist List.erase_sublist

theorem deque (hr : HeapRep h l) :
    h.heapExtractMin.1 = l.events.head? ∧ HeapRep h.heapExtractMin.2 (l.after .deque) := by
  cases hl : l.events with
  | nil =>
      have hn : h.hSize = 0 := by rw [hr.length, hl]; rfl
      rw [Heap.heapExtractMin, if_pos hn]
      refine ⟨rfl, hr.key, hr.size, hr.maxsize, hr.ordered, ?_, ?_⟩
      · have htail : (l.after .deque).events = l.events := by
          show l.events.tail = _
          rw [hl]
          rfl
        rw [hr.contents, htail]
      · show l.events.tail.Pairwise _
        rw [hl]
        exact .nil
  | cons x t =>
      have hpos : 0 < h.hSize := by rw [hr.length, hl]; simp
      have he : (l.after .deque).events = l.events.erase x := by
        show l.events.tail = _
        rw [hl, List.erase_cons_head]
        rfl
      exact hr.extract (by rw [hl]; exact List.mem_cons_self) (hr.ordered.hole hpos) (hr.root hl)
        rfl rfl rfl rfl he rfl

theorem member (hr : HeapRep h l) (hl : l.Ok) {e : Event} (he : e ∈ l.events) :
    ∃ i < h.hSize, h.heapMember e = i + 1 ∧ h.hElems i = e.elem := by
  have hmem : e.elem ∈ BinaryHeap.contents h.hElems h.hSize := by
    rw [hr.contents]
    exact List.mem_map_of_mem he
  obtain ⟨j, hj, hje⟩ := mem_contents.mp hmem
  rw [Heap.heapMember]
  cases hfind : (List.range h.hSize).find? fun i =>
      (h.hElems i).heElem.map (·.obj) = some e.obj with
  | none =>
      have := List.find?_eq_none.mp hfind j (List.mem_range.mpr hj)
      rw [hje] at this
      simp [Event.elem] at this
  | some i =>
      have hi := List.mem_range.mp (List.mem_of_find?_eq_some hfind)
      refine ⟨i, hi, rfl, ?_⟩
      have hobj := List.find?_some hfind
      have hix : h.hElems i ∈ BinaryHeap.contents h.hElems h.hSize := mem_contents.mpr ⟨i, hi, rfl⟩
      rw [hr.contents] at hix
      obtain ⟨x, hx, hxe⟩ := List.mem_map.mp hix
      rw [← hxe] at hobj ⊢
      have hxo : x.obj = e.obj := by simpa [Event.elem] using hobj
      rw [hl.eq_of_obj hx he hxo]

theorem cancel (hr : HeapRep h l) (hl : l.Ok) {e : Event} (he : e ∈ l.events) :
    HeapRep (h.heapDelete e).2 (l.after (.cancel e)) := by
  obtain ⟨i, hi, hm, hie⟩ := hr.member hl he
  obtain ⟨hh, h₀, hs⟩ := raise_spec hi (hr.ordered.hole hi)
  rw [Heap.heapDelete, hm]
  exact (hr.extract (g := { h with hElems := raise h.hElems i })
    (m := l.after (.cancel e)) he hh (h₀.trans hie) hs rfl rfl rfl rfl rfl).2

end HeapRep

theorem heapScheduler_refines : Refines heapScheduler HeapFits HeapRep where
  init := .init
  insert := fun hr hl he hf => hr.insert hl he hf
  cancel := fun hr hl he => ⟨_, rfl, hr.cancel hl he⟩
  deque := fun {h l} hr _ => by
    obtain ⟨h₁, h₂⟩ := hr.deque
    refine ⟨h.heapExtractMin.2, ?_, h₂⟩
    show some h.heapExtractMin = _
    rw [← h₁]

/-- **The heap returns what the list returns**, and holds the events of the list, over every
sequence of calls in which no insertion overflows the array or finds a pending event of its time
with a key that is not smaller. -/
theorem heap_dispatch {cs : List Call} (hc : EventList.init.Allows HeapFits cs) :
    ∃ outs h, heapScheduler.run .init cs = some (outs, h) ∧
      listScheduler.run [] cs = some (outs, (EventList.init.afterAll cs).events) ∧
      contents h.hElems h.hSize = ↑((EventList.init.afterAll cs).events.map Event.elem) := by
  obtain ⟨outs, h, h₁, h₂, hr, -⟩ := heapScheduler_refines.run .init EventList.init_ok hc
  exact ⟨outs, h, h₁, h₂, hr.contents⟩

/-- Two events of one time, the first of which is cancelled. -/
theorem heap_dispatch_cancel :
    let cs := [.insert ⟨0, 1, 5⟩, .insert ⟨1, 2, 5⟩, .cancel ⟨0, 1, 5⟩, .deque]
    EventList.init.Allows HeapFits cs ∧
      ∃ h, heapScheduler.run .init cs = some ([some ⟨1, 2, 5⟩], h) := by
  intro cs
  have hc : EventList.init.Allows HeapFits cs := by decide +kernel
  obtain ⟨outs, h, h₁, h₂, -⟩ := heap_dispatch hc
  refine ⟨hc, h, h₁.trans ?_⟩
  have hl : (listScheduler.run [] cs).map (·.1) = some [some ⟨1, 2, 5⟩] := by decide +kernel
  rw [h₂] at hl
  have houts := Option.some.inj hl
  rw [← houts]

/-! ### The secondary key wraps -/

/-- An event is inserted and returned, `n` times. -/
def churn (n : Nat) : List Call :=
  (List.range n).flatMap fun i => [.insert ⟨0, i + 1, 0⟩, .deque]

theorem churn_succ (n : Nat) : churn (n + 1) = churn n ++ [.insert ⟨0, n + 1, 0⟩, .deque] := by
  rw [churn, List.range_succ, List.flatMap_append]
  simp [churn]

theorem churn_allows (n : Nat) : EventList.init.Allows HeapFits (churn n) ∧
    (EventList.init.afterAll (churn n)) = ⟨[], 0, n⟩ := by
  induction n with
  | zero => exact ⟨trivial, rfl⟩
  | succ n ih =>
      rw [churn_succ, EventList.allows_append, EventList.afterAll_append, ih.2]
      refine ⟨⟨ih.1, ⟨⟨rfl, by simp⟩, ?_⟩, trivial, trivial⟩, rfl⟩
      exact ⟨Nat.pow_pos (by omega), by simp⟩

/-- With the last key before it wraps, the second of two events of one time is returned. -/
theorem wrapped_deque {h : Heap} (hs : h.hSize = 0) (hm : 32 ≤ h.hMaxsize)
    (hk : h.hSKey = 2 ^ 32 - 1) (x y : Event) (hxy : x.time = y.time) :
    ∃ g, heapScheduler.run h [.insert x, .insert y, .deque] = some ([some y], g) := by
  have h₁ : h.heapInsert x.time x = some ⟨put h.hElems 0 ⟨x.time, 2 ^ 32 - 1, some x⟩, 0, 1,
      h.hMaxsize⟩ := by
    have hne : ¬ h.hMaxsize = 0 := by omega
    rw [Heap.heapInsert, hs, siftUp, hk]
    simp only [if_neg hne]
    rw [if_pos (by omega)]
    simp
  obtain ⟨a, ha⟩ : ∃ a, a = put h.hElems 0 ⟨x.time, 2 ^ 32 - 1, some x⟩ := ⟨_, rfl⟩
  have h₂ : (⟨a, 0, 1, h.hMaxsize⟩ : Heap).heapInsert y.time y
      = some ⟨put (put a 1 (a 0)) 0 ⟨y.time, 0, some y⟩, 1, 2, h.hMaxsize⟩ := by
    have hne : ¬ h.hMaxsize = 1 := by omega
    have hless : 0 < 1 ∧ keyLessThan ⟨y.time, 0, some y⟩ (a (parent 1)) := by
      refine ⟨Nat.one_pos, .inr ?_⟩
      rw [ha]
      exact ⟨hxy.symm, by simp [parent]⟩
    rw [Heap.heapInsert, siftUp, dif_pos hless, siftUp]
    simp only [if_neg hne]
    rw [if_pos (by omega)]
    simp [parent]
  rw [← ha] at h₁
  obtain ⟨b, hb⟩ : ∃ b : Heap, b = ⟨put (put a 1 (a 0)) 0 ⟨y.time, 0, some y⟩, 1, 2, h.hMaxsize⟩ :=
    ⟨_, rfl⟩
  have h₃ : b.heapExtractMin.1 = some y := by rw [hb]; rfl
  rw [← hb] at h₂
  refine ⟨b.heapExtractMin.2, ?_⟩
  simp only [EventQueue.run, EventQueue.step, heapScheduler, h₁, Option.map_some,
    Option.bind_eq_bind, Option.bind_some]
  simp only [h₂, Option.map_some, Option.bind_some, h₃]
  rfl

/-- After `n` events, two of one time. -/
def churnPair (n : Nat) : List Call :=
  churn n ++ [.insert ⟨0, n + 1, 1⟩, .insert ⟨1, n + 2, 1⟩, .deque]

theorem churnPair_differs {n : Nat} (hn : n % 2 ^ 32 = 2 ^ 32 - 1) :
    EventList.init.Allows (fun _ _ => True) (churnPair n) ∧
      (heapScheduler.run .init (churnPair n)).map (·.1)
        ≠ (listScheduler.run [] (churnPair n)).map (·.1) := by
  obtain ⟨hc, hl⟩ := churn_allows n
  obtain ⟨outs, h, h₁, h₂, hr, -⟩ := heapScheduler_refines.run .init EventList.init_ok hc
  rw [hl] at h₂ hr
  replace h₂ : listScheduler.run [] (churn n) = some (outs, []) := h₂
  refine ⟨EventList.allows_append.mpr ⟨hc.imp fun _ _ _ => trivial, ?_⟩, ?_⟩
  · rw [hl]
    simp [EventList.Allows, EventList.Permits, EventList.after, EventList.Fresh,
      ListScheduler.insert]
  · have hm : 32 ≤ h.hMaxsize := by
      obtain ⟨k, -, hk⟩ := hr.maxsize
      have : 0 < 2 ^ k := Nat.pow_pos (by omega)
      omega
    obtain ⟨g, hg⟩ := wrapped_deque hr.length hm (hr.key.trans hn) ⟨0, n + 1, 1⟩ ⟨1, n + 2, 1⟩ rfl
    have hlist : listScheduler.run [] [.insert ⟨0, n + 1, 1⟩, .insert ⟨1, n + 2, 1⟩, .deque]
        = some ([some ⟨0, n + 1, 1⟩], [⟨1, n + 2, 1⟩]) := by
      simp [EventQueue.run, EventQueue.step, listScheduler, ListScheduler.insert,
        ListScheduler.deque]
    rw [churnPair, EventQueue.run_append h₁, EventQueue.run_append h₂, hg]
    simp only [hlist]
    simp

/-- The heap does not return the events that the list returns. -/
theorem heap_dispatch_wrapped :
    EventList.init.Allows (fun _ _ => True) (churnPair (2 ^ 32 - 1)) ∧
      (heapScheduler.run .init (churnPair (2 ^ 32 - 1))).map (·.1)
        ≠ (listScheduler.run [] (churnPair (2 ^ 32 - 1))).map (·.1) :=
  churnPair_differs (by decide)

end Afabric
