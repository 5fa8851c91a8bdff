import Afabric.Sched.Calendar
import Mathlib.Data.List.TakeWhile
import Mathlib.Tactic.Positivity

/-!
# Sched — the calendar and the event list

A bucket holds the events of the list that are hashed to it, in the order of the list (`Filled`), so
the order of the events, also of those of one time, is in this one equation.  Inserting an event
keeps it, and so does rebuilding the calendar: the copied events come from the tails of the buckets,
and each goes before those of its time.
-/

namespace Afabric

/-- The list is in order of time. -/
abbrev Timed (l : List Event) : Prop := l.Pairwise fun x y => x.time ≤ y.time

theorem EventList.Ok.timed {l : EventList} (h : l.Ok) : Timed l.events :=
  h.sorted.imp fun hxy => hxy.time_le

/-- The different times of some events. -/
def times (l : List Event) : Finset ℚ := (l.map (·.time)).toFinset

@[simp] theorem mem_times {t : ℚ} {l : List Event} : t ∈ times l ↔ ∃ x ∈ l, x.time = t := by
  simp [times]

theorem times_perm {l l' : List Event} (h : l.Perm l') : times l = times l' := by
  ext t
  simp only [mem_times]
  exact ⟨fun ⟨x, hx, ht⟩ => ⟨x, h.mem_iff.mp hx, ht⟩, fun ⟨x, hx, ht⟩ => ⟨x, h.mem_iff.mpr hx, ht⟩⟩

/-- One more event is one more time, unless there is one of its time. -/
theorem card_times_cons (e : Event) (l : List Event) :
    ((times (e :: l)).card : Int) = (times l).card + if e.time ∉ times l then 1 else 0 := by
  have hins : times (e :: l) = insert e.time (times l) := by simp [times]
  rw [hins]
  by_cases h : e.time ∈ times l
  · rw [Finset.insert_eq_self.mpr h, if_neg (not_not_intro h), add_zero]
  · rw [Finset.card_insert_of_notMem h, if_pos h]
    rfl

/-! ### Buckets -/

/-- The event goes before those that are not earlier. -/
def insertFront (e : Event) (l : List Event) : List Event :=
  l.takeWhile (fun x => x.time < e.time) ++ e :: l.dropWhile fun x => x.time < e.time

theorem insertFront_split {e : Event} {l : List Event} (ht : Timed l) :
    ∃ a b, l = a ++ b ∧ insertFront e l = a ++ e :: b ∧ (∀ x ∈ a, x.time < e.time) ∧
      ∀ x ∈ b, e.time ≤ x.time := by
  refine ⟨_, _, List.takeWhile_append_dropWhile.symm, rfl, fun x hx => ?_, fun x hx => ?_⟩
  · simpa using List.mem_takeWhile_imp hx
  · cases hd : l.dropWhile (fun x => decide (x.time < e.time)) with
    | nil => rw [hd] at hx; simp at hx
    | cons y b =>
        have hy : e.time ≤ y.time := by
          have hne : l.dropWhile (fun x => decide (x.time < e.time)) ≠ [] := by rw [hd]; simp
          have hnot := List.head_dropWhile_not _ hne
          simpa [hd] using hnot
        have hs : Timed (y :: b) := hd ▸ ht.sublist (List.dropWhile_sublist _)
        rw [hd] at hx
        rcases List.mem_cons.mp hx with rfl | hx
        · exact hy
        · exact hy.trans ((List.pairwise_cons.mp hs).1 x hx)

theorem insertFront_append {e : Event} {a b : List Event} (ha : ∀ x ∈ a, x.time < e.time)
    (hb : ∀ x ∈ b, e.time ≤ x.time) : insertFront e (a ++ b) = a ++ e :: b := by
  have ha' : ∀ x ∈ a, decide (x.time < e.time) = true := fun x hx => by simpa using ha x hx
  have hb' : b.takeWhile (fun x => decide (x.time < e.time)) = [] ∧
      b.dropWhile (fun x => decide (x.time < e.time)) = b := by
    cases b with
    | nil => exact ⟨rfl, rfl⟩
    | cons y b =>
        have hy : ¬ y.time < e.time := not_lt.mpr (hb y List.mem_cons_self)
        simp [hy]
  rw [insertFront, List.takeWhile_append_of_pos ha', List.dropWhile_append_of_pos ha', hb'.1, hb'.2,
    List.append_nil]

theorem insertFront_perm (e : Event) (l : List Event) : (insertFront e l).Perm (e :: l) := by
  refine List.perm_middle.trans (List.Perm.cons e ?_)
  rw [List.takeWhile_append_dropWhile]

theorem span_split {p : Event → Bool} {u v : List Event} (hu : ∀ x ∈ u, p x = true)
    (hv : ∀ x ∈ v.head?, p x = false) : (u ++ v).span p = (u, v) := by
  rw [List.span_eq_takeWhile_dropWhile, List.takeWhile_append_of_pos hu,
    List.dropWhile_append_of_pos hu]
  cases v with
  | nil => simp
  | cons y v =>
      have hy : p y = false := hv y rfl
      simp [hy]

/-- Among events that are not later, the last one tells whether the time is new. -/
theorem unique_getLast {e : Event} {a c : List Event} (ht : Timed (a ++ c))
    (ha : ∀ x ∈ a, x.time ≤ e.time) (hc : ∀ x ∈ c, e.time < x.time) :
    (a.getLast?.all fun x => decide (x.time < e.time)) = decide (e.time ∉ times (a ++ c)) := by
  rw [Bool.eq_iff_iff, decide_eq_true_iff, mem_times]
  rcases List.eq_nil_or_concat' a with rfl | ⟨a', y, rfl⟩
  · simp only [List.getLast?_nil, Option.all_none, true_iff]
    rintro ⟨x, hx, hxe⟩
    exact absurd hxe (ne_of_gt (hc x (by simpa using hx)))
  · simp only [List.getLast?_concat, Option.all_some, decide_eq_true_iff]
    have hy : y ∈ a' ++ [y] := by simp
    refine ⟨fun hlt ⟨x, hx, hxe⟩ => ?_, fun hnot => ?_⟩
    · rcases List.mem_append.mp hx with hx | hx
      · have hxy : x.time ≤ y.time := by
          rcases List.mem_append.mp hx with hx | hx
          · exact (List.pairwise_append.mp (List.pairwise_append.mp ht).1).2.2 x hx y
              List.mem_cons_self
          · exact List.mem_singleton.mp hx ▸ le_rfl
        exact absurd hxe (ne_of_lt (hxy.trans_lt hlt))
      · exact absurd hxe (ne_of_gt (hc x hx))
    · exact (ha y hy).lt_of_ne fun hye => hnot ⟨y, List.mem_append_left c hy, hye⟩

/-- Among events that are not earlier, the first one tells whether the time is new. -/
theorem unique_head {e : Event} {c : List Event} (ht : Timed c) (hc : ∀ x ∈ c, e.time ≤ x.time) :
    (c.head?.all fun x => decide (x.time ≠ e.time)) = decide (e.time ∉ times c) := by
  rw [Bool.eq_iff_iff, decide_eq_true_iff, mem_times]
  cases c with
  | nil => simp
  | cons y c =>
      simp only [List.head?_cons, Option.all_some, decide_eq_true_iff]
      refine ⟨fun hy ⟨x, hx, hxe⟩ => ?_, fun hnot hy => hnot ⟨y, List.mem_cons_self, hy⟩⟩
      have hlt : e.time < y.time := lt_of_le_of_ne (hc y List.mem_cons_self) (Ne.symm hy)
      rcases List.mem_cons.mp hx with rfl | hx
      · exact hy hxe
      · exact absurd hxe (ne_of_gt (hlt.trans_le ((List.pairwise_cons.mp ht).1 x hx)))

/-- Events of other times do not matter. -/
theorem mem_times_append_right {t : ℚ} {a c : List Event} (ha : ∀ x ∈ a, x.time ≠ t) :
    t ∈ times (a ++ c) ↔ t ∈ times c := by
  simp only [mem_times, List.mem_append]
  exact ⟨fun ⟨x, hx, hxt⟩ => ⟨x, hx.resolve_left fun hxa => ha x hxa hxt, hxt⟩,
    fun ⟨x, hx, hxt⟩ => ⟨x, .inr hx, hxt⟩⟩

theorem ite_add_one (p : Prop) [Decidable p] (n : Int) :
    (if p then n + 1 else n) = n + if p then 1 else 0 := by
  split
  · rfl
  · exact (add_zero n).symm

namespace Bucket

variable {b : Bucket} {e : Event}

/-- What an insertion into a bucket does to its list and its count. -/
theorem insert_spec (ht : Timed b.list) :
    (b.insert e).bucket.list = ListScheduler.insert e b.list ∧
      (b.insert e).unique = decide (e.time ∉ times b.list) ∧
      (b.insert e).bucket.count = b.count + if e.time ∉ times b.list then 1 else 0 := by
  obtain ⟨list, count⟩ := b
  replace ht : Timed list := ht
  cases list with
  | nil => simp [Bucket.insert, ListScheduler.insert]
  | cons head t =>
      by_cases hlt : e.time < head.time
      · have hnew : e.time ∉ times (head :: t) := by
          rw [mem_times]
          rintro ⟨x, hx, hxe⟩
          rcases List.mem_cons.mp hx with rfl | hx
          · exact absurd hxe (ne_of_gt hlt)
          · exact absurd hxe (ne_of_gt (hlt.trans_le ((List.pairwise_cons.mp ht).1 x hx)))
        simp only [Bucket.insert, ListScheduler.insert, if_pos hlt, hnew, not_false_eq_true,
          decide_true, if_true, true_and]
      · obtain ⟨a, c, hac, hins, ha, hc⟩ := ListScheduler.insert_split (e := e) ht
        have hspan : (head :: t).reverse.span (fun x => decide (e.time < x.time))
            = (c.reverse, a.reverse) := by
          rw [hac, List.reverse_append]
          refine span_split (fun x hx => by simpa using hc x (List.mem_reverse.mp hx)) fun x hx => ?_
          have hx' := List.mem_reverse.mp (List.mem_of_head? hx)
          simpa using ha x hx'
        have huniq := unique_getLast (hac ▸ ht) ha hc
        rw [← hac, ← List.head?_reverse] at huniq
        simp only [Bucket.insert, if_neg hlt, hspan, huniq, List.reverse_reverse,
          decide_eq_true_iff]
        exact ⟨hins.symm, trivial, ite_add_one _ _⟩

theorem insert2_spec (ht : Timed b.list) :
    (b.insert2 e).1.list = insertFront e b.list ∧
      (b.insert2 e).2 = decide (e.time ∉ times b.list) ∧
      (b.insert2 e).1.count = b.count + if e.time ∉ times b.list then 1 else 0 := by
  obtain ⟨list, count⟩ := b
  replace ht : Timed list := ht
  obtain ⟨a, c, hac, hins, ha, hc⟩ := insertFront_split (e := e) ht
  cases hlast : list.getLast? with
  | none =>
      have hnil : list = [] := List.getLast?_eq_none_iff.mp hlast
      simp [Bucket.insert2, hnil, insertFront]
  | some tail =>
      have hr : (if tail.time < e.time then (list, [])
          else list.span fun x => decide (x.time < e.time)) = (a, c) := by
        split
        case isTrue hlt =>
          have hcn : c = [] := by
            rcases List.eq_nil_or_concat' c with hcn | ⟨c', y, rfl⟩
            · exact hcn
            · rw [hac, ← List.append_assoc, List.getLast?_concat] at hlast
              have hy : y = tail := Option.some.inj hlast
              exact absurd (hc y (by simp)) (not_le.mpr (hy ▸ hlt))
          rw [hac, hcn, List.append_nil]
        case isFalse =>
          rw [hac]
          refine span_split (fun x hx => by simpa using ha x hx) fun x hx => ?_
          simpa using hc x (List.mem_of_head? hx)
      have hne : ∀ x ∈ a, x.time ≠ e.time := fun x hx => ne_of_lt (ha x hx)
      have huniq : ((c ++ a).head?.all fun x => decide (x.time ≠ e.time))
          = decide (e.time ∉ times list) := by
        rw [hac, decide_eq_decide.mpr (not_congr (mem_times_append_right hne)),
          ← unique_head (List.pairwise_append.mp (hac ▸ ht)).2.1 hc]
        cases c with
        | nil =>
            cases a with
            | nil => rfl
            | cons y a => simpa using hne y List.mem_cons_self
        | cons y c => rfl
      simp only [Bucket.insert2, hlast, hr, huniq, decide_eq_true_iff]
      exact ⟨hins.symm, trivial, ite_add_one _ _⟩

end Bucket

/-! ### The buckets of a list -/

/-- The buckets hold the events of the list, each those that are hashed to it, and the counters
count them and their times. -/
structure Filled (s : Calendar) (l : List Event) : Prop where
  list : ∀ i, (s.buckets i).list = l.filter fun x => s.hash x.time = i
  count : ∀ i, (s.buckets i).count = (times (s.buckets i).list).card
  qsize : s.qsize = l.length
  stat : s.statQsize = (times l).card

namespace Filled

variable {s : Calendar} {l : List Event}

theorem timed (h : Filled s l) (ht : Timed l) (i : Nat) : Timed (s.buckets i).list := by
  rw [h.list i]
  exact ht.sublist List.filter_sublist

/-- The times of one bucket are not in another. -/
theorem mem_times (h : Filled s l) (t : ℚ) :
    t ∈ times (s.buckets (s.hash t)).list ↔ t ∈ times l := by
  rw [h.list]
  simp only [Afabric.mem_times, List.mem_filter, decide_eq_true_iff]
  exact ⟨fun ⟨x, hx, hxt⟩ => ⟨x, hx.1, hxt⟩, fun ⟨x, hx, hxt⟩ => ⟨x, ⟨hx, by rw [hxt]⟩, hxt⟩⟩

/-- An event is put into its bucket and counted. -/
theorem add (h : Filled s l) {e : Event} {m : List Event} {b : Bucket} {s' : Calendar}
    (hm : m.Perm (e :: l)) (hf : b.list = m.filter fun x => s.hash x.time = s.hash e.time)
    (hoff : ∀ i, i ≠ s.hash e.time → m.filter (fun x => s.hash x.time = i)
      = l.filter fun x => s.hash x.time = i)
    (hc : b.count = (s.buckets (s.hash e.time)).count
      + if e.time ∉ times (s.buckets (s.hash e.time)).list then 1 else 0)
    (hb : s'.buckets = (s.setBucket (s.hash e.time) b).buckets) (hh : s'.hash = s.hash)
    (hq : s'.qsize = s.qsize + 1)
    (hst : s'.statQsize = if e.time ∉ times (s.buckets (s.hash e.time)).list then s.statQsize + 1
      else s.statQsize) : Filled s' m := by
  have hbe : b.list.Perm (e :: (s.buckets (s.hash e.time)).list) := by
    rw [hf, h.list]
    refine (hm.filter _).trans ?_
    rw [List.filter_cons_of_pos (by simp)]
  refine ⟨fun i => ?_, fun i => ?_, ?_, ?_⟩
  · rw [hb, hh]
    show (if i = s.hash e.time then b else s.buckets i).list = _
    by_cases hi : i = s.hash e.time
    · rw [if_pos hi, hf, hi]
    · rw [if_neg hi, hoff i hi, h.list i]
  · rw [hb]
    show (if i = s.hash e.time then b else s.buckets i).count
      = (times (if i = s.hash e.time then b else s.buckets i).list).card
    by_cases hi : i = s.hash e.time
    · rw [if_pos hi, times_perm hbe, card_times_cons, hc, h.count]
    · rw [if_neg hi]
      exact h.count i
  · rw [hq, h.qsize, hm.length_eq]
    rfl
  · have hiff := h.mem_times e.time
    rw [hst, times_perm hm, card_times_cons, ite_add_one, h.stat]
    simp only [hiff]

theorem insert (h : Filled s l) (ht : Timed l) (e : Event) {n : Nat} {s' : Calendar}
    (hs : s' = { s.setBucket (s.hash e.time) ((s.buckets (s.hash e.time)).insert e).bucket with
      qsize := s.qsize + 1
      statQsize := if ((s.buckets (s.hash e.time)).insert e).unique then s.statQsize + 1
        else s.statQsize
      insertSearch := n }) : Filled s' (ListScheduler.insert e l) := by
  obtain ⟨hl, hu, hc⟩ := Bucket.insert_spec (e := e) (h.timed ht (s.hash e.time))
  obtain ⟨a, b, hab, hins, ha, hb⟩ := ListScheduler.insert_split (e := e) ht
  refine h.add (ListScheduler.insert_perm e l) ?_ (fun i hi => ?_) hc (by rw [hs]) (by rw [hs]; rfl)
    (by rw [hs]) (by rw [hs, hu]; simp only [decide_eq_true_iff])
  · rw [hl, h.list, hins, hab, List.filter_append, List.filter_append,
      List.filter_cons_of_pos (by simp), ListScheduler.insert_append]
    · exact fun x hx => ha x (List.mem_filter.mp hx).1
    · exact fun x hx => hb x (List.mem_filter.mp hx).1
  · rw [hins, hab, List.filter_append, List.filter_append, List.filter_cons_of_neg]
    simpa using Ne.symm hi

theorem insert2 (h : Filled s l) (ht : Timed l) (e : Event) :
    Filled (s.insert2 e) (insertFront e l) := by
  obtain ⟨hl, hu, hc⟩ := Bucket.insert2_spec (e := e) (h.timed ht (s.hash e.time))
  obtain ⟨a, b, hab, hins, ha, hb⟩ := insertFront_split (e := e) ht
  refine h.add (insertFront_perm e l) ?_ (fun i hi => ?_) hc rfl rfl rfl ?_
  · rw [hl, h.list, hins, hab, List.filter_append, List.filter_append,
      List.filter_cons_of_pos (by simp), insertFront_append]
    · exact fun x hx => ha x (List.mem_filter.mp hx).1
    · exact fun x hx => hb x (List.mem_filter.mp hx).1
  · rw [hins, hab, List.filter_append, List.filter_append, List.filter_cons_of_neg]
    simpa using Ne.symm hi
  · show (if ((s.buckets (s.hash e.time)).insert2 e).2 then _ else _) = _
    rw [hu]
    simp only [decide_eq_true_iff]

end Filled

/-! ### Rebuilding -/

theorem Calendar.hash_lt {s : Calendar} (hn : 0 < s.nbuckets) (t : ℚ) : s.hash t < s.nbuckets :=
  Nat.mod_lt _ hn

/-- A list, cut by the values of a function and put together again. -/
theorem flatMap_filter_perm (f : Event → Nat) (l : List Event) (n : Nat) :
    ((List.range n).flatMap fun i => l.filter fun x => f x = i).Perm
      (l.filter fun x => f x < n) := by
  induction n with
  | zero => simp
  | succ n ih =>
      have hsplit := List.filter_append_perm (fun x => decide (f x < n))
        (l.filter fun x => f x < n + 1)
      have h₁ : (l.filter fun x => f x < n + 1).filter (fun x => decide (f x < n))
          = l.filter fun x => f x < n := by
        rw [List.filter_filter]
        refine List.filter_congr fun x _ => ?_
        simp only [← Bool.decide_and, decide_eq_decide]
        omega
      have h₂ : (l.filter fun x => f x < n + 1).filter (fun x => !decide (f x < n))
          = l.filter fun x => f x = n := by
        rw [List.filter_filter]
        refine List.filter_congr fun x _ => ?_
        rw [← decide_not, ← Bool.decide_and, decide_eq_decide]
        omega
      rw [h₁, h₂] at hsplit
      rw [List.range_succ, List.flatMap_append, List.flatMap_singleton]
      exact (ih.append_right _).trans hsplit

variable {s : Calendar} {l : List Event}

theorem Filled.copied_perm (h : Filled s l) (hn : 0 < s.nbuckets) : s.copied.Perm l := by
  have hall : (l.filter fun x => s.hash x.time < s.nbuckets) = l :=
    List.filter_eq_self.mpr fun x _ => by simpa using Calendar.hash_lt hn x.time
  have hrev : s.copied.Perm ((List.range s.nbuckets).flatMap fun i =>
      l.filter fun x => s.hash x.time = i) := by
    refine List.Perm.flatMap_left _ fun i _ => ?_
    rw [h.list i]
    exact List.reverse_perm _
  refine hrev.trans ?_
  have hp := flatMap_filter_perm (fun x => s.hash x.time) l s.nbuckets
  rwa [hall] at hp

/-- Events of one time are copied from the last to the first. -/
theorem Filled.copied_pairwise (h : Filled s l) (hs : l.Pairwise Event.Before) :
    s.copied.Pairwise fun x y => x.time = y.time → y.Before x := by
  refine List.pairwise_flatMap.mpr ⟨fun i _ => ?_, ?_⟩
  · rw [h.list i, List.pairwise_reverse]
    refine (hs.sublist List.filter_sublist).imp ?_
    intro x y hxy _
    exact hxy
  · refine List.nodup_range.imp fun {i j} hij x hx y hy hxy => ?_
    rw [List.mem_reverse, h.list, List.mem_filter, decide_eq_true_iff] at hx hy
    exact absurd (hx.2.symm.trans ((congrArg s.hash hxy).trans hy.2)) hij

/-- Copying events into a calendar, events of one time from the last to the first. -/
theorem Filled.copy {es m : List Event} (h : Filled s m) (hm : m.Pairwise Event.Before)
    (hes : es.Pairwise fun x y => x.time = y.time → y.Before x)
    (hme : ∀ x ∈ m, ∀ y ∈ es, x.time = y.time → y.Before x) :
    ∃ m', Filled (es.foldl Calendar.insert2 s) m' ∧ m'.Pairwise Event.Before ∧
      m'.Perm (m ++ es) := by
  induction es generalizing s m with
  | nil => exact ⟨m, h, hm, by rw [List.append_nil]⟩
  | cons e es ih =>
      rw [List.pairwise_cons] at hes
      have ht : Timed m := hm.imp fun hxy => hxy.time_le
      have hp := insertFront_perm e m
      have hsorted : (insertFront e m).Pairwise Event.Before := by
        obtain ⟨a, b, rfl, hins, ha, hb⟩ := insertFront_split (e := e) ht
        rw [hins]
        rw [List.pairwise_append] at hm
        rw [List.pairwise_append, List.pairwise_cons]
        refine ⟨hm.1, ⟨fun x hx => ?_, hm.2.1⟩, fun x hx y hy => ?_⟩
        · rcases (hb x hx).lt_or_eq with hlt | heq
          · exact .inl hlt
          · exact hme x (List.mem_append_right a hx) e List.mem_cons_self heq.symm
        · rcases List.mem_cons.mp hy with rfl | hy
          · exact .inl (ha x hx)
          · exact hm.2.2 x hx y hy
      obtain ⟨m', hf, hs', hp'⟩ := ih (h.insert2 ht e) hsorted hes.2 fun x hx y hy hxy => by
        rcases List.mem_cons.mp (hp.mem_iff.mp hx) with rfl | hx
        · exact hes.1 y hy hxy
        · exact hme x hx y (List.mem_cons_of_mem e hy) hxy
      exact ⟨m', hf, hs', hp'.trans ((hp.append_right es).trans List.perm_middle.symm)⟩

/-! ### The calendar and the list -/

/-- The width, the number of days, and the limits of the searches that go with them. -/
structure Shape (s : Calendar) : Prop where
  width : 0 < s.width
  nbuckets : 4 ≤ s.nbuckets
  diff0 : s.diff0 = s.width * s.nbuckets / 2
  diff1 : s.diff1 = s.width * s.nbuckets / 2 + s.width
  diff2 : s.diff2 = s.width * s.nbuckets

/-- The calendar stands for the event list: its clock is the time of the last event, and no event
is earlier. -/
structure CalendarRep (s : Calendar) (l : EventList) : Prop where
  shape : Shape s
  filled : Filled s l.events
  clock : s.calClock = l.now
  nonneg : 0 ≤ l.now
  last : s.lastbucket = s.hash l.now
  ahead : ∀ x ∈ l.events, l.now ≤ x.time

theorem copy_frame (es : List Event) (s : Calendar) :
    let s' := es.foldl Calendar.insert2 s
    s'.width = s.width ∧ s'.nbuckets = s.nbuckets ∧ s'.diff0 = s.diff0 ∧ s'.diff1 = s.diff1 ∧
      s'.diff2 = s.diff2 ∧ s'.calClock = s.calClock ∧ s'.lastbucket = s.lastbucket := by
  induction es generalizing s with
  | nil => exact ⟨rfl, rfl, rfl, rfl, rfl, rfl, rfl⟩
  | cons e es ih =>
      obtain ⟨h₁, h₂, h₃, h₄, h₅, h₆, h₇⟩ := ih (s.insert2 e)
      exact ⟨h₁, h₂, h₃, h₄, h₅, h₆, h₇⟩

namespace CalendarRep

variable {s : Calendar} {l : EventList}

/-- A new calendar for the same events, with any positive width. -/
theorem rebuild (h : CalendarRep s l) (hl : l.Ok) {newsize : Nat} (hn : 4 ≤ newsize) {bwidth : ℚ}
    (hw : 0 < bwidth) : CalendarRep (s.rebuild newsize bwidth s.calClock) l := by
  have hpos : 0 < s.nbuckets := Nat.lt_of_lt_of_le (by decide) h.shape.nbuckets
  obtain ⟨s₀, hs₀⟩ : ∃ s₀, s.reinit newsize bwidth s.calClock = s₀ := ⟨_, rfl⟩
  have hempty : Filled s₀ [] := by
    rw [← hs₀]
    exact ⟨fun _ => rfl, fun _ => rfl, rfl, rfl⟩
  obtain ⟨m, hf, hm, hp⟩ := hempty.copy .nil (h.filled.copied_pairwise hl.sorted) (by simp)
  rw [List.nil_append] at hp
  have hml : m = l.events := by
    refine List.Perm.eq_of_pairwise (fun x y _ _ hxy hyx => ?_) hm hl.sorted
      (hp.trans (h.filled.copied_perm hpos))
    exact absurd hyx hxy.asymm
  obtain ⟨h₁, h₂, h₃, h₄, h₅, h₆, h₇⟩ := copy_frame s.copied s₀
  obtain ⟨s', hs'⟩ : ∃ s', s.copied.foldl Calendar.insert2 s₀ = s' := ⟨_, rfl⟩
  rw [hs', hml] at hf
  simp only [hs'] at h₁ h₂ h₃ h₄ h₅ h₆ h₇
  have hshape : Shape s' := by
    refine ⟨?_, ?_, ?_, ?_, ?_⟩
    · rw [h₁, ← hs₀]
      exact hw
    · rw [h₂, ← hs₀]
      exact hn
    · rw [h₃, h₁, h₂, ← hs₀]
      rfl
    · rw [h₄, h₁, h₂, ← hs₀]
      rfl
    · rw [h₅, h₁, h₂, ← hs₀]
      rfl
  have hrep : CalendarRep s' l := by
    refine ⟨hshape, hf, ?_, h.nonneg, ?_, h.ahead⟩
    · rw [h₆, ← hs₀]
      exact h.clock
    · rw [h₇, Calendar.hash, h₁, h₂, ← hs₀, ← h.clock]
      rfl
  rw [Calendar.rebuild, hs₀, hs']
  exact { hrep with shape := { hshape with }, filled := { hf with } }

/-- Events of more than one time do not end when they begin. -/
theorem first_lt_last {b : List Event} (ht : Timed b) (hc : 1 < (times b).card) :
    ∃ first last, b.head? = some first ∧ b.getLast? = some last ∧ first.time < last.time := by
  cases b with
  | nil => simp [times] at hc
  | cons first t =>
      obtain ⟨last, hlast⟩ : ∃ last, (first :: t).getLast? = some last :=
        ⟨_, List.getLast?_eq_some_getLast (List.cons_ne_nil first t)⟩
      refine ⟨first, last, rfl, hlast, ?_⟩
      by_contra hle
      have hsub : times (first :: t) ⊆ {first.time} := by
        intro u hu
        obtain ⟨x, hx, rfl⟩ := mem_times.mp hu
        have hfx : first.time ≤ x.time := by
          rcases List.mem_cons.mp hx with rfl | hx
          · exact le_rfl
          · exact (List.pairwise_cons.mp ht).1 x hx
        have hxl : x.time ≤ last.time := by
          obtain ⟨u, hu⟩ := List.getLast?_eq_some_iff.mp hlast
          rw [hu] at hx ht
          rcases List.mem_append.mp hx with hx | hx
          · exact (List.pairwise_append.mp ht).2.2 x hx last List.mem_cons_self
          · exact List.mem_singleton.mp hx ▸ le_rfl
        exact Finset.mem_singleton.mpr (le_antisymm (hxl.trans (not_lt.mp hle)) hfx)
      have := Finset.card_le_card hsub
      rw [Finset.card_singleton] at this
      omega

/-- The width for a new size is positive. -/
theorem newwidth (P : CalendarParams) (h : CalendarRep s l) (hl : l.Ok) {newsize : Nat}
    (hn : 0 < newsize) : ∃ w n, s.newwidth P newsize = some (w, { s with timeToNewwidth := n }) ∧
      0 < w := by
  obtain ⟨n, hs⟩ : ∃ n, (if P.adjustNewWidthInterval ≠ 0 then
      { s with timeToNewwidth := P.adjustNewWidthInterval } else s)
        = { s with timeToNewwidth := n } := by
    split
    · exact ⟨_, rfl⟩
    · exact ⟨s.timeToNewwidth, rfl⟩
  unfold Calendar.newwidth
  simp only [hs]
  by_cases hgap : P.adjustNewWidthInterval ≠ 0 ∧ 0 < s.avgGap
  · rw [if_pos hgap]
    exact ⟨_, n, rfl, mul_pos hgap.2 (by norm_num)⟩
  rw [if_neg hgap]
  obtain ⟨b, hb⟩ : ∃ b, s.buckets s.maxBucket = b := ⟨_, rfl⟩
  have hcount := h.filled.count s.maxBucket
  have ht := h.filled.timed hl.timed s.maxBucket
  rw [hb] at hcount ht ⊢
  by_cases hle : b.count ≤ 4
  · rw [if_pos hle]
    exact ⟨_, n, rfl, h.shape.width⟩
  rw [if_neg hle]
  obtain ⟨first, last, hfirst, hlast, hlt⟩ := first_lt_last ht (by omega)
  have hnw : 0 < last.time - first.time := sub_pos.mpr hlt
  have hmin : (0 : ℚ) < ((min (newsize : Int) b.count : Int) : ℚ) := by
    have : (0 : Int) < min (newsize : Int) b.count := by omega
    exact_mod_cast this
  simp only [hfirst, hlast, if_pos hnw]
  exact ⟨_, n, rfl, mul_pos (div_pos hnw hmin) (by norm_num)⟩

theorem resize {P : CalendarParams} (hP : ∀ x, 0 < x → 0 < P.sqrt x) (h : CalendarRep s l)
    (hl : l.Ok) {newsize : Nat} (hn : 0 < newsize) :
    ∃ s', s.resize P newsize s.calClock = some s' ∧ CalendarRep s' l := by
  obtain ⟨w, n, hw, hpos⟩ := h.newwidth P hl hn
  have hrep : CalendarRep { s with timeToNewwidth := n } l :=
    { h with shape := { h.shape with }, filled := { h.filled with } }
  unfold Calendar.resize
  by_cases hsame : newsize = s.nbuckets
  · obtain ⟨ratio, hr, hratio⟩ : ∃ r, (if s.headSearch ≠ 0 then (s.headSearch : ℚ) else 1)
        / (if s.insertSearch ≠ 0 then (s.insertSearch : ℚ) else 1) = r ∧ 0 < r := by
      have hp : ∀ k : Nat, 0 < if k ≠ 0 then (k : ℚ) else 1 := by
        intro k
        split
        case isTrue hk => exact_mod_cast Nat.pos_of_ne_zero hk
        case isFalse => exact one_pos
      exact ⟨_, rfl, div_pos (hp _) (hp _)⟩
    have hn4 : 4 ≤ newsize := hsame ▸ h.shape.nbuckets
    simp only [if_pos hsame, hr]
    by_cases hmin : P.sqrt ratio * s.width < P.minBinWidth
    · by_cases htime : 0 < s.timeToNewwidth
      · simp only [if_pos hmin, if_pos htime]
        exact ⟨_, rfl, { h with shape := { h.shape with }, filled := { h.filled with } }⟩
      · simp only [if_pos hmin, if_neg htime, hw]
        exact ⟨_, rfl, hrep.rebuild hl hn4 hpos⟩
    · simp only [if_neg hmin]
      exact ⟨_, rfl, h.rebuild hl hn4 (mul_pos (hP _ hratio) h.shape.width)⟩
  · rw [if_neg hsame, hw]
    exact ⟨_, rfl, hrep.rebuild hl (Nat.le_max_right _ _) hpos⟩

theorem init (P : CalendarParams) : CalendarRep (.init P) .init where
  shape := ⟨one_pos, le_rfl, rfl, rfl, rfl⟩
  filled := ⟨fun _ => rfl, fun _ => rfl, rfl, rfl⟩
  clock := rfl
  nonneg := le_rfl
  last := rfl
  ahead := fun _ hx => absurd hx List.not_mem_nil

theorem insert {P : CalendarParams} (hP : ∀ x, 0 < x → 0 < P.sqrt x) (h : CalendarRep s l)
    (hl : l.Ok) {e : Event} (he : l.Fresh e) (hnow : l.now ≤ e.time) :
    ∃ s', s.insert P e = some s' ∧ CalendarRep s' (l.after (.insert e)) := by
  have hclock : ¬ e.time < s.calClock := by
    rw [h.clock]
    exact not_lt.mpr hnow
  obtain ⟨s₁, hs₁⟩ : ∃ s₁, s₁ = { s.setBucket (s.hash e.time)
      ((s.buckets (s.hash e.time)).insert e).bucket with
        qsize := s.qsize + 1
        statQsize := if ((s.buckets (s.hash e.time)).insert e).unique then s.statQsize + 1
          else s.statQsize
        insertSearch := s.insertSearch + ((s.buckets (s.hash e.time)).insert e).searches } :=
    ⟨_, rfl⟩
  have hrep : CalendarRep s₁ (l.after (.insert e)) := by
    refine ⟨?_, h.filled.insert hl.timed e hs₁, ?_, h.nonneg, ?_, fun x hx => ?_⟩
    · rw [hs₁]
      exact { h.shape with }
    · rw [hs₁]
      exact h.clock
    · rw [hs₁]
      exact h.last
    · rcases ListScheduler.mem_insert.mp hx with rfl | hx
      · exact hnow
      · exact h.ahead x hx
  have hstep : s.insert P e = if s₁.topThreshold < s₁.statQsize
      then s₁.resize P (s₁.nbuckets * 2) s₁.calClock else some s₁ := by
    unfold Calendar.insert
    rw [hs₁, if_neg hclock]
  rw [hstep]
  split
  · have hpos := hrep.shape.nbuckets
    exact hrep.resize hP (hl.insert he) (by omega)
  · exact ⟨s₁, rfl, hrep⟩

end CalendarRep

end Afabric
