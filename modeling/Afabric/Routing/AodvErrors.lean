import Afabric.Routing.AodvRoutes
import Mathlib.Data.Set.Card

/-!
# Routing — the route errors of an AODV agent

`handle_link_failure` and `recvError` (`aodv/aodv.cc`) with the message they fill, `hdr_aodv_error`
(`aodv/aodv_packet.h`).  Its arrays have `AODV_MAX_ERRORS` places, and a write past them has no
result; the assertions are as in `Aodv`.

A link failure is told in full exactly when no more destinations are behind the link than there are
places, and none of their routes is under repair; a message that is sent on never has too few
places (`route_errors_iff`).
-/

namespace Afabric

/-- `AODV_MAX_ERRORS`. -/
def aodvMaxErrors : ℕ := 100

/-- `hdr_aodv_error`. -/
structure HdrAodvError where
  destCount : ℕ
  unreachableDst : Fin aodvMaxErrors → ℕ
  unreachableDstSeqno : Fin aodvMaxErrors → ℕ
  destCount_le : destCount ≤ aodvMaxErrors

namespace HdrAodvError

/-- A new packet, with no destination. -/
def alloc : HdrAodvError := ⟨0, fun _ => 0, fun _ => 0, Nat.zero_le _⟩

/-- The destinations of the message, with their sequence numbers. -/
def listed (re : HdrAodvError) : List (ℕ × ℕ) :=
  List.ofFn fun i : Fin re.destCount =>
    (re.unreachableDst (i.castLE re.destCount_le), re.unreachableDstSeqno (i.castLE re.destCount_le))

/-- `re->unreachable_dst[re->DestCount] = …; re->DestCount += 1`. -/
def add (dst seqno : ℕ) (re : HdrAodvError) : Option HdrAodvError :=
  if h : re.destCount < aodvMaxErrors then
    some { destCount := re.destCount + 1
           unreachableDst := Function.update re.unreachableDst ⟨re.destCount, h⟩ dst
           unreachableDstSeqno := Function.update re.unreachableDstSeqno ⟨re.destCount, h⟩ seqno
           destCount_le := h }
  else none

/-- The message that is sent, if it has a destination. -/
def sent (re : HdrAodvError) : Option HdrAodvError := if re.destCount > 0 then some re else none

/-- `id` is the next hop of a route. -/
def Through (id : ℕ) (rt : AodvRtEntry) : Prop := rt.hops ≠ infinity2 ∧ rt.nexthop = id

instance (id : ℕ) (rt : AodvRtEntry) : Decidable (Through id rt) :=
  inferInstanceAs (Decidable (_ ∧ _))

/-- What a route that breaks is asserted to be. -/
def Live (rt : AodvRtEntry) : Prop := rt.flags = .up ∧ rt.seqno % 2 = 0

instance (rt : AodvRtEntry) : Decidable (Live rt) := inferInstanceAs (Decidable (_ ∧ _))

/-- The round of `handle_link_failure` for one entry. -/
def failEntry (id : ℕ) (s : Aodv × HdrAodvError) (dst : ℕ) : Option (Aodv × HdrAodvError) :=
  match s.1.rtLookup dst with
  | none => some s
  | some rt =>
      if Through id rt then
        if Live rt then
          (s.2.add dst (rt.seqno + 1)).map fun re =>
            (s.1.write dst (AodvRtEntry.rtDown { rt with seqno := rt.seqno + 1 } |>.pcDelete id), re)
        else none
      else some (s.1.write dst (rt.pcDelete id), s.2)

/-- `handle_link_failure`, with the message it sends. -/
def handleLinkFailure (id : ℕ) (n : Aodv) : Option (Aodv × Option HdrAodvError) :=
  ((n.rtable.map Prod.fst).foldlM (failEntry id) (n, alloc)).map fun s => (s.1, s.2.sent)

/-- The round of `recvError` for one unreachable destination. -/
def errorEntry (saddr : ℕ) (s : Aodv × HdrAodvError) (u : ℕ × ℕ) : Option (Aodv × HdrAodvError) :=
  match s.1.rtLookup u.1 with
  | none => some s
  | some rt =>
      if Through saddr rt ∧ rt.seqno ≤ u.2 then
        if Live rt then
          let rt := AodvRtEntry.rtDown { rt with seqno := u.2 }
          if rt.pclist = [] then some (s.1.write u.1 rt, s.2)
          else
            (s.2.add u.1 rt.seqno).map fun nre => (s.1.write u.1 { rt with pclist := [] }, nre)
        else none
      else some s

/-- `recvError`, with the message it sends on. -/
def recvError (saddr : ℕ) (re : HdrAodvError) (n : Aodv) : Option (Aodv × Option HdrAodvError) :=
  (re.listed.foldlM (errorEntry saddr) (n, alloc)).map fun s => (s.1, s.2.sent)

/-! ### The list of a message -/

variable {re re' : HdrAodvError} {d k : ℕ}

@[simp] theorem length_listed : re.listed.length = re.destCount := List.length_ofFn

@[simp] theorem listed_alloc : alloc.listed = [] := rfl

theorem listed_add (h : re.add d k = some re') : re'.listed = re.listed ++ [(d, k)] := by
  rw [add] at h
  split_ifs at h with hlt
  obtain rfl := Option.some.inj h
  rw [listed, List.ofFn_succ', List.concat_eq_append]
  congr 1
  · refine congrArg List.ofFn (funext fun i => ?_)
    have hne : (i.castSucc.castLE hlt : Fin aodvMaxErrors) ≠ ⟨re.destCount, hlt⟩ :=
      fun e => i.isLt.ne (congrArg Fin.val e)
    exact Prod.ext (Function.update_of_ne hne _ _) (Function.update_of_ne hne _ _)
  · exact congrArg (fun u => [u]) (Prod.ext (Function.update_self _ _ _) (Function.update_self _ _ _))

theorem add_isSome (d k : ℕ) (h : re.destCount < aodvMaxErrors) : ∃ re', re.add d k = some re' :=
  ⟨_, dif_pos h⟩

/-- What the receivers are told. -/
def told (o : Option HdrAodvError) : List (ℕ × ℕ) := o.elim [] listed

@[simp] theorem told_sent : told re.sent = re.listed := by
  rw [sent]
  split_ifs with h
  · rfl
  · have hl : re.listed.length = 0 := by rw [length_listed]; omega
    rw [List.eq_nil_of_length_eq_zero hl]
    rfl

/-! ### The routes of an entry -/

variable {id saddr : ℕ} {n : Aodv} {s t : Aodv × HdrAodvError} {u : ℕ × ℕ} {rt : AodvRtEntry}
  {ks : List ℕ} {us : List (ℕ × ℕ)}

/-- What the failure of the link to `id` has to tell of the route to `d`. -/
def broken (id : ℕ) (n : Aodv) (d : ℕ) : Option (ℕ × ℕ) :=
  (n.rtLookup d).bind fun rt => if Through id rt then some (d, rt.seqno + 1) else none

theorem broken_eq_some_iff : broken id n d = some u ↔
    u.1 = d ∧ ∃ rt, n.rtLookup d = some rt ∧ Through id rt ∧ u.2 = rt.seqno + 1 := by
  rw [broken, Option.bind_eq_some_iff]
  constructor
  · rintro ⟨rt, hl, h⟩
    split_ifs at h with ht
    obtain rfl := Option.some.inj h
    exact ⟨rfl, rt, hl, ht, rfl⟩
  · rintro ⟨rfl, rt, hl, ht, hs⟩
    exact ⟨rt, hl, by rw [if_pos ht, ← hs]⟩

theorem broken_of_rtLookup {n' : Aodv} (h : n'.rtLookup d = n.rtLookup d) :
    broken id n' d = broken id n d := by
  rw [broken, broken, h]

/-- A destination is told of under its own key. -/
theorem map_fst_filterMap_broken (hnd : ks.Nodup) :
    ((ks.filterMap (broken id n)).map Prod.fst).Nodup := by
  refine hnd.sublist ?_
  induction ks with
  | nil => exact List.Sublist.refl []
  | cons d ks ih =>
      have ih := ih hnd.of_cons
      cases hb : broken id n d with
      | none =>
          rw [List.filterMap_cons_none hb]
          exact ih.cons d
      | some u =>
          rw [List.filterMap_cons_some hb, List.map_cons, (broken_eq_some_iff.mp hb).1]
          exact ih.cons_cons d

theorem mem_keys_of_rtLookup (hl : n.rtLookup d = some rt) : d ∈ n.rtable.map Prod.fst := by
  obtain ⟨l₁, l₂, heq, -⟩ := List.lookup_eq_some_iff.mp hl
  exact List.mem_map_of_mem (heq ▸ List.mem_append_right l₁ List.mem_cons_self)

theorem mem_filterMap_broken :
    (d, k) ∈ (n.rtable.map Prod.fst).filterMap (broken id n) ↔
      ∃ rt, n.rtLookup d = some rt ∧ Through id rt ∧ k = rt.seqno + 1 := by
  rw [List.mem_filterMap]
  constructor
  · rintro ⟨d', -, hb⟩
    obtain ⟨rfl, h⟩ := broken_eq_some_iff.mp hb
    exact h
  · rintro ⟨rt, hl, ht, hk⟩
    exact ⟨d, mem_keys_of_rtLookup hl, broken_eq_some_iff.mpr ⟨rfl, rt, hl, ht, hk⟩⟩

/-! ### The loop of a link failure -/

theorem failEntry_frame (h : failEntry id s d = some t) :
    ∀ d' ≠ d, t.1.rtLookup d' = s.1.rtLookup d' := by
  intro d' hd
  rw [failEntry] at h
  cases hl : s.1.rtLookup d with
  | none =>
      rw [hl] at h
      exact Option.some.inj h ▸ rfl
  | some rt =>
      simp only [hl] at h
      split_ifs at h
      · obtain ⟨re, -, rfl⟩ := Option.map_eq_some_iff.mp h
        rw [Aodv.rtLookup_write, if_neg hd]
      · obtain rfl := Option.some.inj h
        rw [Aodv.rtLookup_write, if_neg hd]

theorem failEntry_listed (h : failEntry id s d = some t) :
    t.2.listed = s.2.listed ++ (broken id s.1 d).toList := by
  rw [failEntry] at h
  rw [broken]
  cases hl : s.1.rtLookup d with
  | none =>
      rw [hl] at h
      exact Option.some.inj h ▸ (List.append_nil _).symm
  | some rt =>
      simp only [hl] at h
      rw [Option.bind_some]
      split_ifs at h with ht hv
      · obtain ⟨re, hre, rfl⟩ := Option.map_eq_some_iff.mp h
        rw [if_pos ht]
        exact listed_add hre
      · obtain rfl := Option.some.inj h
        rw [if_neg ht]
        exact (List.append_nil _).symm

theorem failEntry_live (h : failEntry id s d = some t) (hl : s.1.rtLookup d = some rt)
    (ht : Through id rt) : Live rt := by
  rw [failEntry, hl] at h
  simp only at h
  rw [if_pos ht] at h
  split_ifs at h with hv
  exact hv

theorem failEntry_isSome (hv : ∀ rt, s.1.rtLookup d = some rt → Through id rt → Live rt)
    (hle : s.2.destCount + (broken id s.1 d).toList.length ≤ aodvMaxErrors) :
    ∃ t, failEntry id s d = some t := by
  rw [failEntry]
  rw [broken] at hle
  cases hl : s.1.rtLookup d with
  | none => exact ⟨s, rfl⟩
  | some rt =>
      simp only
      rw [hl, Option.bind_some] at hle
      by_cases ht : Through id rt
      · rw [if_pos ht] at hle
        obtain ⟨re, hre⟩ := add_isSome d (rt.seqno + 1) hle
        have hv := hv rt hl ht
        exact ⟨_, by rw [if_pos ht, if_pos hv, hre, Option.map_some]⟩
      · exact ⟨_, by rw [if_neg ht]⟩

theorem filterMap_broken_cons :
    (d :: ks).filterMap (broken id n) = (broken id n d).toList ++ ks.filterMap (broken id n) := by
  cases hb : broken id n d with
  | none => rw [List.filterMap_cons_none hb]; rfl
  | some u => rw [List.filterMap_cons_some hb]; rfl

/-- The rounds to come find the routes as they were. -/
theorem filterMap_broken_congr {n' : Aodv} (h : ∀ d' ≠ d, n'.rtLookup d' = n.rtLookup d')
    (hd : d ∉ ks) : ks.filterMap (broken id n') = ks.filterMap (broken id n) :=
  List.filterMap_congr fun _ hm => broken_of_rtLookup (h _ (ne_of_mem_of_not_mem hm hd))

theorem foldlM_failEntry_listed (h : ks.foldlM (failEntry id) s = some t) (hnd : ks.Nodup) :
    t.2.listed = s.2.listed ++ ks.filterMap (broken id s.1) := by
  induction ks generalizing s with
  | nil => exact Option.some.inj h ▸ (List.append_nil _).symm
  | cons d ks ih =>
      obtain ⟨s₁, h₁, h⟩ := Option.bind_eq_some_iff.mp h
      obtain ⟨hd, hnd⟩ := List.nodup_cons.mp hnd
      rw [ih h hnd, failEntry_listed h₁, filterMap_broken_congr (failEntry_frame h₁) hd,
        filterMap_broken_cons, List.append_assoc]

theorem foldlM_failEntry_live (h : ks.foldlM (failEntry id) s = some t) (hnd : ks.Nodup) :
    ∀ d ∈ ks, ∀ rt, s.1.rtLookup d = some rt → Through id rt → Live rt := by
  induction ks generalizing s with
  | nil => exact fun d hd => absurd hd List.not_mem_nil
  | cons d ks ih =>
      obtain ⟨s₁, h₁, h⟩ := Option.bind_eq_some_iff.mp h
      obtain ⟨hd, hnd⟩ := List.nodup_cons.mp hnd
      intro d' hd' rt hl ht
      rcases List.mem_cons.mp hd' with rfl | hd'
      · exact failEntry_live h₁ hl ht
      · have hne : d' ≠ d := ne_of_mem_of_not_mem hd' hd
        exact ih h hnd d' hd' rt ((failEntry_frame h₁ d' hne).trans hl) ht

theorem foldlM_failEntry_isSome (hnd : ks.Nodup)
    (hv : ∀ d ∈ ks, ∀ rt, s.1.rtLookup d = some rt → Through id rt → Live rt)
    (hle : s.2.destCount + (ks.filterMap (broken id s.1)).length ≤ aodvMaxErrors) :
    ∃ t, ks.foldlM (failEntry id) s = some t := by
  induction ks generalizing s with
  | nil => exact ⟨s, rfl⟩
  | cons d ks ih =>
      obtain ⟨hd, hnd⟩ := List.nodup_cons.mp hnd
      rw [filterMap_broken_cons, List.length_append] at hle
      obtain ⟨s₁, h₁⟩ := failEntry_isSome (hv d List.mem_cons_self) (by omega)
      have hframe := failEntry_frame h₁
      have hcount : s₁.2.destCount = s.2.destCount + (broken id s.1 d).toList.length := by
        rw [← length_listed, failEntry_listed h₁, List.length_append, length_listed]
      obtain ⟨t, ht⟩ := ih hnd
        (fun d' hd' rt hl => hv d' (List.mem_cons_of_mem d hd') rt
          ((hframe d' (ne_of_mem_of_not_mem hd' hd)).symm.trans hl))
        (by rw [filterMap_broken_congr hframe hd, hcount]; omega)
      exact ⟨t, Option.bind_eq_some_iff.mpr ⟨s₁, h₁, ht⟩⟩

/-! ### The loop of an error received -/

/-- What is told of the destinations, when `t` is what the loop has made of `n`. -/
structure Broke (n : Aodv) (t : Aodv × HdrAodvError) : Prop where
  nodup : (t.2.listed.map Prod.fst).Nodup
  entry : ∀ d,
    (t.1.rtLookup d = n.rtLookup d ∧ ∀ k, (d, k) ∉ t.2.listed) ∨
      ∃ rt k, n.rtLookup d = some rt ∧ rt.hops ≠ infinity2 ∧ Live rt ∧
        t.1.rtLookup d = some ⟨k, infinity2, 0, .down, []⟩ ∧
          ∀ k', (d, k') ∈ t.2.listed ↔ rt.pclist ≠ [] ∧ k' = k

theorem broke_alloc (n : Aodv) : Broke n (n, alloc) where
  nodup := List.nodup_nil
  entry := fun _ => .inl ⟨rfl, fun _ => List.not_mem_nil⟩

theorem rtDown_live (hv : Live rt) : AodvRtEntry.rtDown { rt with seqno := k } =
    ⟨k, infinity2, 0, .down, rt.pclist⟩ := by
  rw [AodvRtEntry.rtDown]
  exact if_neg fun h => absurd (hv.1.symm.trans h) (by decide)

/-- A round leaves things as they are, or brings a route down. -/
theorem errorEntry_cases (h : errorEntry saddr s u = some t) :
    t = s ∨ ∃ rt re, s.1.rtLookup u.1 = some rt ∧ Through saddr rt ∧ Live rt ∧
      t = (s.1.write u.1 ⟨u.2, infinity2, 0, .down, []⟩, re) ∧
        (rt.pclist = [] ∧ re = s.2 ∨ rt.pclist ≠ [] ∧ s.2.add u.1 u.2 = some re) := by
  rw [errorEntry] at h
  cases hl : s.1.rtLookup u.1 with
  | none =>
      rw [hl] at h
      exact .inl (Option.some.inj h).symm
  | some rt =>
      simp only [hl] at h
      split_ifs at h with ht hv hp
      · rw [rtDown_live hv] at h hp
        obtain rfl := Option.some.inj h
        simp only at hp
        exact .inr ⟨rt, s.2, rfl, ht.1, hv, by rw [hp], .inl ⟨hp, rfl⟩⟩
      · rw [rtDown_live hv] at h hp
        obtain ⟨re, hre, rfl⟩ := Option.map_eq_some_iff.mp h
        exact .inr ⟨rt, re, rfl, ht.1, hv, rfl, .inr ⟨hp, hre⟩⟩
      · exact .inl (Option.some.inj h).symm

theorem Broke.round (hb : Broke n s) (h : errorEntry saddr s u = some t) : Broke n t := by
  rcases errorEntry_cases h with rfl | ⟨rt, re, hl, ht, hv, rfl, hre⟩
  · exact hb
  · -- the route was up until now, so nothing was told of it
    obtain ⟨hn, hnot⟩ : s.1.rtLookup u.1 = n.rtLookup u.1 ∧ ∀ k, (u.1, k) ∉ s.2.listed := by
      rcases hb.entry u.1 with hk | ⟨-, k, -, -, -, hdown, -⟩
      · exact hk
      · rw [hl] at hdown
        exact absurd (congrArg AodvRtEntry.hops (Option.some.inj hdown)) ht.1
    rcases hre with ⟨hp, rfl⟩ | ⟨hp, hre⟩
    · refine ⟨hb.nodup, fun d => ?_⟩
      by_cases hd : d = u.1
      · subst hd
        refine .inr ⟨rt, u.2, hn ▸ hl, ht.1, hv, by rw [Aodv.rtLookup_write, if_pos rfl], ?_⟩
        exact fun k' => ⟨fun hm => absurd hm (hnot k'), fun hk => absurd hp hk.1⟩
      · rw [Aodv.rtLookup_write, if_neg hd]
        exact hb.entry d
    · have hadd : re.listed = s.2.listed ++ [u] := listed_add hre
      have hmem (d k : ℕ) : (d, k) ∈ re.listed ↔ (d, k) ∈ s.2.listed ∨ (d, k) = u := by
        rw [hadd, List.mem_append, List.mem_singleton]
      refine ⟨?_, fun d => ?_⟩
      · rw [hadd, List.map_append, List.nodup_append]
        refine ⟨hb.nodup, List.nodup_singleton _, fun d hd e he => ?_⟩
        obtain ⟨⟨d', k⟩, hm, rfl⟩ := List.mem_map.mp hd
        obtain rfl := List.mem_singleton.mp he
        rintro rfl
        exact hnot k hm
      · by_cases hd : d = u.1
        · subst hd
          refine .inr ⟨rt, u.2, hn ▸ hl, ht.1, hv, by rw [Aodv.rtLookup_write, if_pos rfl], ?_⟩
          intro k'
          rw [hmem, Prod.ext_iff]
          exact ⟨fun h => h.elim (fun hm => absurd hm (hnot k')) fun h => ⟨hp, h.2⟩,
            fun h => .inr ⟨rfl, h.2⟩⟩
        · have hiff (k : ℕ) : (d, k) ∈ re.listed ↔ (d, k) ∈ s.2.listed := by
            rw [hmem]
            exact or_iff_left fun e => hd (congrArg Prod.fst e)
          rw [Aodv.rtLookup_write, if_neg hd]
          rcases hb.entry d with ⟨hk, hno⟩ | ⟨rt', k, hl', hh, hv', hdown, htold⟩
          · exact .inl ⟨hk, fun k hm => hno k ((hiff k).mp hm)⟩
          · exact .inr ⟨rt', k, hl', hh, hv', hdown, fun k' => (hiff k').trans (htold k')⟩

/-- A route that is up in the loop was so before it. -/
theorem Broke.rtLookup (hb : Broke n s) (hl : s.1.rtLookup d = some rt) (hh : rt.hops ≠ infinity2) :
    n.rtLookup d = some rt := by
  rcases hb.entry d with ⟨hk, -⟩ | ⟨-, k, -, -, -, hdown, -⟩
  · rw [← hk, hl]
  · rw [hl] at hdown
    exact absurd (congrArg AodvRtEntry.hops (Option.some.inj hdown)) hh

/-- The routes that the message `us` takes back are live. -/
def TakesLive (saddr : ℕ) (us : List (ℕ × ℕ)) (n : Aodv) : Prop :=
  ∀ u ∈ us, ∀ rt, n.rtLookup u.1 = some rt → Through saddr rt → rt.seqno ≤ u.2 → Live rt

theorem errorEntry_live (h : errorEntry saddr s u = some t) (hl : s.1.rtLookup u.1 = some rt)
    (ht : Through saddr rt) (hle : rt.seqno ≤ u.2) : Live rt := by
  rw [errorEntry, hl] at h
  simp only at h
  rw [if_pos ⟨ht, hle⟩] at h
  split_ifs at h with hv hp
  · exact hv
  · exact hv

theorem errorEntry_isSome
    (hv : ∀ rt, s.1.rtLookup u.1 = some rt → Through saddr rt → rt.seqno ≤ u.2 → Live rt)
    (hlt : s.2.destCount < aodvMaxErrors) : ∃ t, errorEntry saddr s u = some t := by
  rw [errorEntry]
  cases hl : s.1.rtLookup u.1 with
  | none => exact ⟨s, rfl⟩
  | some rt =>
      simp only
      by_cases ht : Through saddr rt ∧ rt.seqno ≤ u.2
      · have hv := hv rt hl ht.1 ht.2
        rw [if_pos ht, if_pos hv]
        split_ifs
        · exact ⟨_, rfl⟩
        · obtain ⟨re, hre⟩ := add_isSome u.1
            (AodvRtEntry.rtDown { rt with seqno := u.2 }).seqno hlt
          exact ⟨_, by rw [hre, Option.map_some]⟩
      · exact ⟨s, if_neg ht⟩

theorem errorEntry_destCount (h : errorEntry saddr s u = some t) :
    t.2.destCount ≤ s.2.destCount + 1 := by
  rcases errorEntry_cases h with rfl | ⟨rt, re, -, -, -, rfl, ⟨-, rfl⟩ | ⟨-, hre⟩⟩
  · exact Nat.le_succ _
  · exact Nat.le_succ _
  · rw [← length_listed, listed_add hre, List.length_append, length_listed]
    rfl

theorem foldlM_errorEntry_live (hb : Broke n s) (h : us.foldlM (errorEntry saddr) s = some t) :
    TakesLive saddr us n := by
  induction us generalizing s with
  | nil => exact fun u hu => absurd hu List.not_mem_nil
  | cons u us ih =>
      obtain ⟨s₁, h₁, h⟩ := Option.bind_eq_some_iff.mp h
      intro u' hu' rt hl ht hle
      rcases List.mem_cons.mp hu' with rfl | hu'
      · rcases hb.entry u'.1 with ⟨hk, -⟩ | ⟨rt', -, hl', -, hv, -, -⟩
        · exact errorEntry_live h₁ (hk.trans hl) ht hle
        · exact Option.some.inj (hl'.symm.trans hl) ▸ hv
      · exact ih (hb.round h₁) h u' hu' rt hl ht hle

theorem foldlM_errorEntry_isSome (hb : Broke n s) (hv : TakesLive saddr us n)
    (hle : s.2.destCount + us.length ≤ aodvMaxErrors) :
    ∃ t, us.foldlM (errorEntry saddr) s = some t := by
  induction us generalizing s with
  | nil => exact ⟨s, rfl⟩
  | cons u us ih =>
      rw [List.length_cons] at hle
      obtain ⟨s₁, h₁⟩ := errorEntry_isSome (s := s)
        (fun rt hl ht => hv u List.mem_cons_self rt (hb.rtLookup hl ht.1) ht) (by omega)
      have hcount := errorEntry_destCount h₁
      obtain ⟨t, ht⟩ := ih (hb.round h₁) (fun u' hu' => hv u' (List.mem_cons_of_mem u hu')) (by omega)
      exact ⟨t, Option.bind_eq_some_iff.mpr ⟨s₁, h₁, ht⟩⟩

/-! ### Without the arrays -/

theorem failEntry_list (h : failEntry id s d = some t) :
    Aodv.failEntry id (s.1, s.2.listed) d = some (t.1, t.2.listed) := by
  rw [failEntry] at h
  rw [Aodv.failEntry]
  cases hl : s.1.rtLookup d with
  | none =>
      rw [hl] at h
      exact Option.some.inj h ▸ rfl
  | some rt =>
      simp only [hl] at h ⊢
      split_ifs at h with ht hv
      · obtain ⟨re, hre, rfl⟩ := Option.map_eq_some_iff.mp h
        rw [if_pos ⟨ht.1, ht.2⟩, if_pos ⟨hv.1, hv.2⟩, listed_add hre]
      · obtain rfl := Option.some.inj h
        rw [if_neg fun hc => ht ⟨hc.1, hc.2⟩]

theorem errorEntry_list (h : errorEntry saddr s u = some t) :
    Aodv.errorEntry saddr (s.1, s.2.listed) u = some (t.1, t.2.listed) := by
  rw [errorEntry] at h
  rw [Aodv.errorEntry]
  cases hl : s.1.rtLookup u.1 with
  | none =>
      rw [hl] at h
      exact Option.some.inj h ▸ rfl
  | some rt =>
      simp only [hl] at h ⊢
      by_cases ht : Through saddr rt ∧ rt.seqno ≤ u.2
      · rw [if_pos ht] at h
        rw [if_pos ⟨ht.1.1, ht.1.2, ht.2⟩]
        split_ifs at h with hv hp
        · obtain rfl := Option.some.inj h
          rw [if_pos ⟨hv.1, hv.2⟩, if_pos hp]
        · obtain ⟨re, hre, rfl⟩ := Option.map_eq_some_iff.mp h
          rw [if_pos ⟨hv.1, hv.2⟩, if_neg hp, listed_add hre, AodvRtEntry.rtDown_seqno]
      · rw [if_neg ht] at h
        obtain rfl := Option.some.inj h
        rw [if_neg fun hc => ht ⟨⟨hc.1, hc.2.1⟩, hc.2.2⟩]

theorem foldlM_list {α : Type*} {l : List α}
    {f : Aodv × HdrAodvError → α → Option (Aodv × HdrAodvError)}
    {g : Aodv × List (ℕ × ℕ) → α → Option (Aodv × List (ℕ × ℕ))}
    (hfg : ∀ a s t, f s a = some t → g (s.1, s.2.listed) a = some (t.1, t.2.listed))
    (h : l.foldlM f s = some t) : l.foldlM g (s.1, s.2.listed) = some (t.1, t.2.listed) := by
  induction l generalizing s with
  | nil => exact Option.some.inj h ▸ rfl
  | cons a l ih =>
      obtain ⟨s₁, h₁, h⟩ := Option.bind_eq_some_iff.mp h
      exact Option.bind_eq_some_iff.mpr ⟨_, hfg a s s₁ h₁, ih h⟩

/-- With places enough, `Aodv.handleLinkFailure` does the same. -/
theorem handleLinkFailure_list {n' : Aodv} {o : Option HdrAodvError}
    (h : handleLinkFailure id n = some (n', o)) :
    n.handleLinkFailure id = some (n', n'.sendError (told o)) := by
  obtain ⟨t, ht, he⟩ := Option.map_eq_some_iff.mp h
  obtain ⟨rfl, rfl⟩ := Prod.mk.inj he
  rw [told_sent]
  exact Option.map_eq_some_iff.mpr ⟨_, foldlM_list (fun _ _ _ => failEntry_list) ht, rfl⟩

theorem recvError_list {n' : Aodv} {o : Option HdrAodvError}
    (h : recvError saddr re n = some (n', o)) :
    n.recvError saddr re.listed = some (n', n'.sendError (told o)) := by
  obtain ⟨t, ht, he⟩ := Option.map_eq_some_iff.mp h
  obtain ⟨rfl, rfl⟩ := Prod.mk.inj he
  rw [told_sent]
  exact Option.map_eq_some_iff.mpr ⟨_, foldlM_list (fun _ _ _ => errorEntry_list) ht, rfl⟩

/-! ### Complete errors -/

/-- The routes through `id`. -/
def Lost (id : ℕ) (n : Aodv) (d k : ℕ) : Prop :=
  ∃ rt, n.rtLookup d = some rt ∧ Through id rt ∧ k = rt.seqno + 1

/-- The routes with precursors that `n'` has no longer. -/
def Invalidated (n n' : Aodv) (d k : ℕ) : Prop :=
  ∃ rt rt', n.rtLookup d = some rt ∧ rt.hops ≠ infinity2 ∧ rt.pclist ≠ [] ∧
    n'.rtLookup d = some rt' ∧ rt'.hops = infinity2 ∧ k = rt'.seqno

/-- The message tells of `P`, each destination once. -/
structure Tells (P : ℕ → ℕ → Prop) (o : Option HdrAodvError) : Prop where
  nodup : ((told o).map Prod.fst).Nodup
  mem_iff : ∀ d k, (d, k) ∈ told o ↔ P d k
  destCount_eq : o.elim 0 destCount = {d | ∃ k, P d k}.ncard

theorem ncard_fst {P : ℕ → ℕ → Prop} (hnd : (us.map Prod.fst).Nodup)
    (hP : ∀ d k, (d, k) ∈ us ↔ P d k) : {d | ∃ k, P d k}.ncard = us.length := by
  have hset : {d | ∃ k, P d k} = ((us.map Prod.fst).toFinset : Set ℕ) := by
    ext d
    rw [Set.mem_ofPred_eq, Finset.mem_coe, List.mem_toFinset, List.mem_map]
    constructor
    · rintro ⟨k, hk⟩
      exact ⟨(d, k), (hP d k).mpr hk, rfl⟩
    · rintro ⟨⟨d', k⟩, hm, rfl⟩
      exact ⟨k, (hP d' k).mp hm⟩
  rw [hset, Set.ncard_coe_finset, List.toFinset_card_of_nodup hnd, List.length_map]

theorem tells_sent {P : ℕ → ℕ → Prop} (hnd : (re.listed.map Prod.fst).Nodup)
    (hP : ∀ d k, (d, k) ∈ re.listed ↔ P d k) : Tells P re.sent where
  nodup := told_sent ▸ hnd
  mem_iff := told_sent ▸ hP
  destCount_eq := by
    rw [ncard_fst hnd hP, length_listed, sent]
    split_ifs with h
    · rfl
    · exact (Nat.eq_zero_of_not_pos h).symm

/-- `handle_link_failure` tells of the routes through `id`. -/
def FailureComplete (id : ℕ) (n : Aodv) : Prop :=
  ∃ n' o, handleLinkFailure id n = some (n', o) ∧ Tells (Lost id n) o

/-- `recvError` tells of the routes it takes back. -/
def ErrorComplete (saddr : ℕ) (re : HdrAodvError) (n : Aodv) : Prop :=
  ∃ n' o, recvError saddr re n = some (n', o) ∧ Tells (Invalidated n n') o

theorem Broke.tells (hb : Broke n t) : Tells (Invalidated n t.1) t.2.sent := by
  refine tells_sent hb.nodup fun d k => ⟨fun hm => ?_, ?_⟩
  · rcases hb.entry d with ⟨-, hno⟩ | ⟨rt, k', hl, hh, -, hdown, htold⟩
    · exact absurd hm (hno k)
    · obtain ⟨hp, rfl⟩ := (htold k).mp hm
      exact ⟨rt, _, hl, hh, hp, hdown, rfl, rfl⟩
  · rintro ⟨rt, rt', hl, hh, hp, hl', hh', rfl⟩
    rcases hb.entry d with ⟨hk, -⟩ | ⟨rt₁, k', hl₁, -, -, hdown, htold⟩
    · rw [hk, hl] at hl'
      exact absurd (Option.some.inj hl' ▸ hh') hh
    · obtain rfl := Option.some.inj (hl₁.symm.trans hl)
      obtain rfl := Option.some.inj (hdown.symm.trans hl')
      exact (htold _).mpr ⟨hp, rfl⟩

/-- The routes through `id`, in the order of the table. -/
theorem ncard_lost (hnd : (n.rtable.map Prod.fst).Nodup) :
    {d | ∃ k, Lost id n d k}.ncard = ((n.rtable.map Prod.fst).filterMap (broken id n)).length :=
  ncard_fst (map_fst_filterMap_broken hnd) fun _ _ => mem_filterMap_broken

/-- There is a place for every route through `id`, and the assertions on it hold. -/
def Fits (id : ℕ) (n : Aodv) : Prop :=
  {d | ∃ k, Lost id n d k}.ncard ≤ aodvMaxErrors ∧
    ∀ d rt, n.rtLookup d = some rt → Through id rt → Live rt

theorem failureComplete_iff (hnd : (n.rtable.map Prod.fst).Nodup) :
    FailureComplete id n ↔ Fits id n := by
  constructor
  · rintro ⟨n', o, h, -⟩
    obtain ⟨t, ht, -⟩ := Option.map_eq_some_iff.mp h
    have hlisted : t.2.listed = _ := foldlM_failEntry_listed ht hnd
    refine ⟨?_, fun d rt hl => ?_⟩
    · rw [ncard_lost hnd]
      calc ((n.rtable.map Prod.fst).filterMap (broken id n)).length
          = t.2.listed.length := congrArg List.length hlisted.symm
        _ = t.2.destCount := length_listed
        _ ≤ aodvMaxErrors := t.2.destCount_le
    · exact foldlM_failEntry_live ht hnd d (mem_keys_of_rtLookup hl) rt hl
  · rintro ⟨hle, hv⟩
    rw [ncard_lost hnd] at hle
    obtain ⟨t, ht⟩ := foldlM_failEntry_isSome (s := (n, alloc)) hnd (fun d _ rt => hv d rt)
      ((Nat.zero_add _).trans_le hle)
    have hlisted : t.2.listed = _ := foldlM_failEntry_listed ht hnd
    refine ⟨t.1, t.2.sent, Option.map_eq_some_iff.mpr ⟨t, ht, rfl⟩, tells_sent ?_ fun d k => ?_⟩
    · rw [hlisted]
      exact map_fst_filterMap_broken hnd
    · rw [hlisted]
      exact mem_filterMap_broken

theorem errorComplete_iff : ErrorComplete saddr re n ↔ TakesLive saddr re.listed n := by
  constructor
  · rintro ⟨n', o, h, -⟩
    obtain ⟨t, ht, -⟩ := Option.map_eq_some_iff.mp h
    exact foldlM_errorEntry_live (broke_alloc n) ht
  · intro h
    have hle : alloc.destCount + re.listed.length ≤ aodvMaxErrors := by
      rw [length_listed]
      exact (Nat.zero_add _).trans_le re.destCount_le
    obtain ⟨t, ht⟩ := foldlM_errorEntry_isSome (broke_alloc n) h hle
    have hb : Broke n t := foldlM_invariant (Broke n) ht (broke_alloc n) fun _ _ _ _ hb => hb.round
    exact ⟨t.1, t.2.sent, Option.map_eq_some_iff.mpr ⟨t, ht, rfl⟩, hb.tells⟩

/-- The errors are complete exactly when the routes through the neighbour have places, and no route
that breaks is under repair. -/
theorem route_errors_iff (id saddr : ℕ) (re : HdrAodvError) (n : Aodv)
    (hnd : (n.rtable.map Prod.fst).Nodup) :
    (FailureComplete id n ↔ Fits id n) ∧
      (ErrorComplete saddr re n ↔ TakesLive saddr re.listed n) :=
  ⟨failureComplete_iff hnd, errorComplete_iff⟩

/-- An agent with `k` routes through its neighbour 1. -/
def star (k : ℕ) : Aodv :=
  { Aodv.init 0 with rtable := (List.range k).map fun d => (d + 1, ⟨2, 1, 1, .up, []⟩) }

theorem route_errors_star :
    (FailureComplete 1 (star 3) ↔ Fits 1 (star 3)) ∧
      (ErrorComplete 1 alloc (star 3) ↔ TakesLive 1 alloc.listed (star 3)) :=
  route_errors_iff 1 1 alloc (star 3) (by decide)

/-- The lists of `Aodv` stand for the arrays: a failure that fits, and a message that is taken, end in
the same table and tell the same destinations. -/
theorem errors_agree (id saddr : ℕ) (re : HdrAodvError) (n : Aodv)
    (hnd : (n.rtable.map Prod.fst).Nodup) (hf : Fits id n) (ht : TakesLive saddr re.listed n) :
    (∃ n' o, handleLinkFailure id n = some (n', o) ∧
      n.handleLinkFailure id = some (n', n'.sendError (told o))) ∧
    ∃ n' o, recvError saddr re n = some (n', o) ∧
      n.recvError saddr re.listed = some (n', n'.sendError (told o)) := by
  obtain ⟨n₁, o₁, h₁, -⟩ := (failureComplete_iff hnd).mpr hf
  obtain ⟨n₂, o₂, h₂, -⟩ := errorComplete_iff.mpr ht
  exact ⟨⟨n₁, o₁, h₁, handleLinkFailure_list h₁⟩, n₂, o₂, h₂, recvError_list h₂⟩

theorem errors_agree_star : ∃ n' o, handleLinkFailure 1 (star 3) = some (n', o) ∧
    (star 3).handleLinkFailure 1 = some (n', n'.sendError (told o)) := by
  have hnd : ((star 3).rtable.map Prod.fst).Nodup := by decide
  have hlive : ∀ e ∈ (star 3).rtable, Live e.2 := by decide
  have hfits : Fits 1 (star 3) := by
    refine ⟨by rw [ncard_lost hnd]; decide, fun d rt hl _ => ?_⟩
    obtain ⟨l₁, l₂, heq, -⟩ := List.lookup_eq_some_iff.mp hl
    exact hlive (d, rt) (heq ▸ List.mem_append_right l₁ List.mem_cons_self)
  exact (errors_agree 1 1 alloc (star 3) hnd hfits nofun).1

/-- A hundred and one routes break, and there is no place for the last. -/
theorem route_errors_overflow :
    ((star 101).rtable.map Prod.fst).Nodup ∧
      (∀ e ∈ (star 101).rtable, Through 1 e.2 ∧ Live e.2) ∧ ¬ FailureComplete 1 (star 101) := by
  have hnd : ((star 101).rtable.map Prod.fst).Nodup := by decide +kernel
  refine ⟨hnd, by decide +kernel, ?_⟩
  rintro h
  have hle := ((failureComplete_iff hnd).mp h).1
  rw [ncard_lost hnd] at hle
  revert hle
  decide +kernel

end HdrAodvError

end Afabric
