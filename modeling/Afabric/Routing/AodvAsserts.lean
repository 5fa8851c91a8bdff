import Afabric.Routing.AodvRoutes

/-!
# Routing — where an AODV handler aborts

An entry that is not down has a route, under an even sequence number, and an entry that is down has
none (`AodvRtEntry.Valid`).  Every handler keeps this, and gives out even sequence numbers
(`Gives`); an assertion can only fail at a route that is under local repair.
-/

namespace Afabric

/-! ### Entries -/

namespace AodvRtEntry

structure Valid (e : AodvRtEntry) : Prop where
  hops_of_down : e.flags = .down → e.hops = infinity2
  hops : e.flags ≠ .down → e.hops ≠ infinity2
  seqno : e.flags ≠ .down → e.seqno % 2 = 0

variable {e : AodvRtEntry} {s h j : ℕ}

theorem Valid.flags_ne_down (he : e.Valid) (hh : e.hops ≠ infinity2) : e.flags ≠ .down :=
  fun hf => hh (he.hops_of_down hf)

theorem added_valid : added.Valid where
  hops_of_down := fun _ => rfl
  hops := fun hf => absurd rfl hf
  seqno := fun hf => absurd rfl hf

theorem rtUpdate_valid (hs : s % 2 = 0) (hh : h ≠ infinity2) : (e.rtUpdate s h j).Valid where
  hops_of_down := fun hf => by cases hf
  hops := fun _ => hh
  seqno := fun _ => hs

/-- A route that is brought down is valid, whatever its sequence number is now. -/
theorem Valid.down (he : e.Valid) {k : ℕ} {pc : List ℕ} :
    ({ (rtDown { e with seqno := k }) with pclist := pc } : AodvRtEntry).Valid := by
  rw [rtDown]
  split_ifs with hf
  · exact ⟨fun _ => he.hops_of_down hf, fun hn => absurd hf hn, fun hn => absurd hf hn⟩
  · exact ⟨fun _ => rfl, fun hn => absurd rfl hn, fun hn => absurd rfl hn⟩

theorem Valid.pclist (he : e.Valid) {pc : List ℕ} : ({ e with pclist := pc } : AodvRtEntry).Valid :=
  ⟨he.hops_of_down, he.hops, he.seqno⟩

/-- What is told of a route under local repair. -/
def repair (e : AodvRtEntry) : Option (ℕ × ℕ) :=
  if e.flags = .inRepair then some (e.nexthop, e.seqno) else none

theorem repair_eq_none_iff : e.repair = none ↔ e.flags ≠ .inRepair := by
  rw [repair]
  split_ifs with hf
  · exact ⟨fun h => (by cases h), fun h => absurd hf h⟩
  · exact iff_of_true rfl hf

/-- Of the routes that there are, those that are up are not under repair. -/
theorem Valid.up_iff (he : e.Valid) (hh : e.hops ≠ infinity2) :
    e.flags = .up ∧ e.seqno % 2 = 0 ↔ e.repair = none := by
  have hf := he.flags_ne_down hh
  rw [repair_eq_none_iff]
  constructor
  · rintro ⟨hup, -⟩
    exact hup.trans_ne (by decide)
  · intro hr
    refine ⟨?_, he.seqno hf⟩
    cases hflag : e.flags with
    | down => exact absurd hflag hf
    | up => rfl
    | inRepair => exact absurd hflag hr

end AodvRtEntry

/-! ### Packets and agents -/

/-- The sequence numbers of routes that other agents give out are even. -/
def AodvPacket.Genuine : AodvPacket → Prop
  | .rreq _ rq => rq.srcSeqno % 2 = 0
  | .rrep _ rp => rp.dstSeqno % 2 = 0
  | .rerr _ _ => True

namespace Aodv

variable {n n' : Aodv} {rt e : AodvRtEntry} {o : Option (Aodv × AodvOut)} {c c' : Prop}
  {d s h j id : ℕ}

structure Sane (n : Aodv) : Prop where
  seqno : n.seqno % 2 = 0
  entry : ∀ d e, n.rtLookup d = some e → e.Valid

theorem Sane.rtEntry (hn : n.Sane) (d : ℕ) : (n.rtEntry d).Valid := by
  cases he : n.rtLookup d with
  | none =>
      rw [Aodv.rtEntry, he]
      exact AodvRtEntry.added_valid
  | some e =>
      rw [rtEntry_of_rtLookup he]
      exact hn.entry d e he

theorem Sane.write (hn : n.Sane) (hrt : rt.Valid) : (n.write d rt).Sane := by
  refine ⟨hn.seqno, fun d' e he => ?_⟩
  rw [rtLookup_write] at he
  split_ifs at he with hd
  · exact Option.some.inj he ▸ hrt
  · exact hn.entry d' e he

/-- Of the agent, only the routing table and the sequence number matter. -/
theorem Sane.congr (hn : n.Sane) (ht : n'.rtable = n.rtable) (hs : n'.seqno % 2 = 0) : n'.Sane :=
  ⟨hs, fun d e he => hn.entry d e (by rw [← he, rtLookup, rtLookup, ht])⟩

/-- A handler ends exactly when `c`, and keeps the agent sane. -/
structure Gives (c : Prop) (o : Option (Aodv × AodvOut)) : Prop where
  isSome_iff : o.isSome ↔ c
  sane : ∀ r, o = some r → r.1.Sane
  genuine : ∀ r, o = some r → ∀ m ∈ r.2, m.2.Genuine

theorem Gives.some {r : Aodv × AodvOut} (hn : r.1.Sane) (hg : ∀ m ∈ r.2, m.2.Genuine) :
    Gives True (some r) where
  isSome_iff := iff_of_true rfl trivial
  sane := fun _ he => Option.some.inj he ▸ hn
  genuine := fun _ he => Option.some.inj he ▸ hg

theorem Gives.silent (hn : n.Sane) : Gives True (Option.some (n, [])) :=
  .some hn fun _ hm => absurd hm List.not_mem_nil

theorem Gives.none : Gives False none where
  isSome_iff := iff_of_false Bool.false_ne_true id
  sane := fun _ he => by cases he
  genuine := fun _ he => by cases he

theorem Gives.congr (ho : Gives c o) (hc : c ↔ c') : Gives c' o :=
  ⟨ho.isSome_iff.trans hc, ho.sane, ho.genuine⟩

/-! ### Sending -/

theorem sendRequest_gives (hn : n.Sane) (hl : n.rtLookup d = some rt) (allowed : Bool) :
    Gives True (n.sendRequest d allowed) := by
  have heven : (n.seqno + 2) % 2 = 0 := by
    have := hn.seqno
    omega
  rw [sendRequest, hl]
  simp only
  split_ifs with hup hh hall
  · exact .silent hn
  · exact absurd ((hn.entry d rt hl).hops (hup.trans_ne (by decide))) hh
  · exact .silent hn
  · refine .some (hn.congr rfl heven) fun m hm => ?_
    obtain rfl := List.mem_singleton.mp hm
    exact heven

theorem sendReply_gives (hn : n.Sane) (hl : n.rtLookup j = some rt) (hs : s % 2 = 0) :
    Gives True (n.sendReply j h d s) := by
  rw [sendReply, hl]
  refine .some hn fun m hm => ?_
  obtain rfl := List.mem_singleton.mp hm
  exact hs

theorem sendError_genuine (us : List (ℕ × ℕ)) : ∀ m ∈ n.sendError us, m.2.Genuine := by
  intro m hm
  rw [sendError] at hm
  split_ifs at hm
  · cases hm
  · obtain rfl := List.mem_singleton.mp hm
    trivial

theorem pcInsert_sane (hn : n.Sane) : (n.pcInsert d id).Sane := by
  rw [pcInsert]
  cases hl : n.rtLookup d with
  | none => exact hn
  | some e =>
      refine hn.write ?_
      rw [AodvRtEntry.pcInsert]
      split_ifs
      · exact hn.entry d e hl
      · exact (hn.entry d e hl).pclist

/-! ### Routes under repair -/

/-- The next hop and the sequence number of a route under local repair. -/
def underRepair (n : Aodv) (d : ℕ) : Option (ℕ × ℕ) := (n.rtLookup d).bind AodvRtEntry.repair

theorem underRepair_eq_some_iff {u : ℕ × ℕ} : n.underRepair d = some u ↔
    ∃ e, n.rtLookup d = some e ∧ e.flags = .inRepair ∧ u = (e.nexthop, e.seqno) := by
  rw [underRepair, Option.bind_eq_some_iff]
  refine exists_congr fun e => and_congr_right fun _ => ?_
  rw [AodvRtEntry.repair]
  split_ifs with hf
  · exact ⟨fun h => ⟨hf, (Option.some.inj h).symm⟩, fun h => congrArg Option.some h.2.symm⟩
  · exact ⟨fun h => (by cases h), fun h => absurd h.1 hf⟩

theorem underRepair_of_rtLookup (hl : n.rtLookup d = some e) : n.underRepair d = e.repair := by
  rw [underRepair, hl, Option.bind_some]

/-- Writing an entry leaves the repairs as they are, if it is under the same one. -/
theorem underRepair_write (hl : n.rtLookup d = some e) (hr : rt.repair = e.repair) :
    (n.write d rt).underRepair = n.underRepair := by
  funext d'
  rw [underRepair, rtLookup_write]
  split_ifs with hd
  · rw [hd, underRepair_of_rtLookup hl, ← hr, Option.bind_some]
  · rfl

theorem repair_rtDown {k : ℕ} {pc : List ℕ} :
    ({ (AodvRtEntry.rtDown { e with seqno := k }) with pclist := pc } : AodvRtEntry).repair = none := by
  rw [AodvRtEntry.repair_eq_none_iff]
  have hf : (AodvRtEntry.rtDown { e with seqno := k }).flags = .down := AodvRtEntry.rtDown_flags
  exact hf.trans_ne (by decide)

/-- What a loop over unreachable destinations keeps: it never touches a route under repair. -/
structure Losing (n : Aodv) (t : Aodv × List (ℕ × ℕ)) : Prop where
  sane : t.1.Sane
  underRepair : t.1.underRepair = n.underRepair

theorem Losing.write {t : Aodv × List (ℕ × ℕ)} {us : List (ℕ × ℕ)} (ht : Losing n t)
    (hrt : rt.Valid) (hl : t.1.rtLookup d = some e) (hr : rt.repair = e.repair) :
    Losing n (t.1.write d rt, us) :=
  ⟨ht.sane.write hrt, (underRepair_write hl hr).trans ht.underRepair⟩

/-- The link to `id` fails, and no route through it is under repair. -/
def NoneThrough (id : ℕ) (n : Aodv) (d : ℕ) : Prop := ∀ u, n.underRepair d = some u → u.1 ≠ id

variable {t t' : Aodv × List (ℕ × ℕ)} {u : ℕ × ℕ}

theorem failEntry_losing (ht : Losing n t) (h : failEntry id t d = some t') : Losing n t' := by
  rw [failEntry] at h
  cases hl : t.1.rtLookup d with
  | none =>
      rw [hl] at h
      exact Option.some.inj h ▸ ht
  | some rt =>
      have hrt := ht.sane.entry d rt hl
      simp only [hl] at h
      split_ifs at h with hvia hup
      · obtain rfl := Option.some.inj h
        refine ht.write hrt.down hl ?_
        rw [(hrt.up_iff hvia.1).mp hup]
        exact repair_rtDown
      · obtain rfl := Option.some.inj h
        exact ht.write hrt.pclist hl rfl

theorem failEntry_isSome_iff (ht : Losing n t) :
    (failEntry id t d).isSome ↔ NoneThrough id n d := by
  rw [NoneThrough, ← ht.underRepair, failEntry]
  cases hl : t.1.rtLookup d with
  | none =>
      rw [underRepair, hl]
      exact iff_of_true rfl fun u hu => by cases hu
  | some rt =>
      have hrt := ht.sane.entry d rt hl
      rw [underRepair_of_rtLookup hl]
      simp only
      by_cases hvia : rt.hops ≠ infinity2 ∧ rt.nexthop = id
      · rw [if_pos hvia]
        by_cases hrep : rt.repair = none
        · rw [if_pos ((hrt.up_iff hvia.1).mpr hrep), hrep]
          exact iff_of_true rfl fun u hu => by cases hu
        · rw [if_neg fun hup => hrep ((hrt.up_iff hvia.1).mp hup)]
          refine iff_of_false Bool.false_ne_true fun h => ?_
          rw [AodvRtEntry.repair] at h hrep
          split_ifs at h hrep with hf
          · exact h _ rfl hvia.2
          · exact hrep rfl
      · rw [if_neg hvia]
        refine iff_of_true rfl fun u hu hid => hvia ?_
        rw [AodvRtEntry.repair] at hu
        split_ifs at hu with hf
        obtain rfl := Option.some.inj hu
        exact ⟨hrt.hops (hf.trans_ne (by decide)), hid⟩

theorem losing_start (hn : n.Sane) : Losing n (n, []) := ⟨hn, rfl⟩

/-- What a loop over unreachable destinations gives, with the error it sends. -/
theorem gives_foldlM {α : Type*} {c : α → Prop} {l : List α}
    {f : Aodv × List (ℕ × ℕ) → α → Option (Aodv × List (ℕ × ℕ))} (hn : n.Sane)
    (hc : ∀ t, Losing n t → ∀ a, (f t a).isSome ↔ c a)
    (hstep : ∀ a t t', Losing n t → f t a = some t' → Losing n t') :
    Gives (∀ a ∈ l, c a) ((l.foldlM f (n, [])).map fun t => (t.1, t.1.sendError t.2)) := by
  refine ⟨?_, fun r hr => ?_, fun r hr => ?_⟩
  · rw [Option.isSome_map]
    exact foldlM_isSome_iff (Losing n) (losing_start hn) hc hstep
  · obtain ⟨t, ht, rfl⟩ := Option.map_eq_some_iff.mp hr
    exact (foldlM_invariant (Losing n) ht (losing_start hn) fun a _ => hstep a).sane
  · obtain ⟨t, -, rfl⟩ := Option.map_eq_some_iff.mp hr
    exact sendError_genuine _

theorem handleLinkFailure_gives (hn : n.Sane) :
    Gives (∀ d, NoneThrough id n d) (n.handleLinkFailure id) := by
  have h : Gives (∀ d ∈ n.rtable.map Prod.fst, NoneThrough id n d) (n.handleLinkFailure id) :=
    gives_foldlM hn (fun _ ht _ => failEntry_isSome_iff ht) fun _ _ _ => failEntry_losing
  refine h.congr ⟨fun h d u hu => ?_, fun h d _ => h d⟩
  obtain ⟨e, hl, -⟩ := underRepair_eq_some_iff.mp hu
  obtain ⟨l₁, l₂, heq, -⟩ := List.lookup_eq_some_iff.mp hl
  exact h d (List.mem_map_of_mem (heq ▸ List.mem_append_right l₁ List.mem_cons_self)) u hu

theorem nbDelete_gives (hn : n.Sane) : Gives (∀ d, NoneThrough id n d) (n.nbDelete id) := by
  have heven : (n.seqno + 2) % 2 = 0 := by
    have := hn.seqno
    omega
  rw [nbDelete, if_pos heven]
  have hn' : ({ n with seqno := n.seqno + 2 } : Aodv).Sane := hn.congr rfl heven
  exact handleLinkFailure_gives hn'

theorem localRtRepair_gives {allowed : Bool} (hn : n.Sane) (hl : n.rtLookup d = some rt)
    (hf : rt.flags ≠ .down) : Gives True (n.localRtRepair d rt allowed) := by
  have hrt := hn.entry d rt hl
  have hw : (n.write d { rt with flags := .inRepair }).Sane :=
    hn.write ⟨fun h => (by cases h), fun _ => hrt.hops hf, fun _ => hrt.seqno hf⟩
  have hl' : (n.write d { rt with flags := .inRepair }).rtLookup d =
      some { rt with flags := .inRepair } := rtLookup_write.trans (if_pos rfl)
  have hn' : ({ n.write d { rt with flags := .inRepair } with
      lrtimer := d :: n.lrtimer } : Aodv).Sane := hw.congr rfl hw.seqno
  exact sendRequest_gives hn' hl' allowed

/-- A link that fails is repaired, or none of the routes through it is under repair already. -/
def Repairable (nextHop daddr numForwards : ℕ) (n : Aodv) : Prop :=
  ∀ rt, n.rtLookup daddr = some rt → rt.hops < numForwards ∨ ∀ d, NoneThrough nextHop n d

theorem rtLlFailed_gives (hn : n.Sane) (nextHop d : ℕ) {numForwards : ℕ}
    (hnum : numForwards ≤ infinity2) (allowed : Bool) :
    Gives (Repairable nextHop d numForwards n) (n.rtLlFailed nextHop d numForwards allowed) := by
  rw [rtLlFailed]
  cases hl : n.rtLookup d with
  | none =>
      refine (Gives.silent hn).congr (iff_of_true trivial fun rt hrt => ?_)
      rw [hl] at hrt
      cases hrt
  | some rt =>
      simp only
      split_ifs with hfar
      · have hf := (hn.entry d rt hl).flags_ne_down (hfar.trans_le hnum).ne
        refine (localRtRepair_gives hn hl hf).congr (iff_of_true trivial fun rt' hrt' => .inl ?_)
        exact Option.some.inj (hl.symm.trans hrt') ▸ hfar
      · refine (nbDelete_gives hn).congr ⟨fun h _ _ => .inr h, fun h => ?_⟩
        exact (h rt hl).resolve_left hfar

theorem repairTimeout_gives (hn : n.Sane) : Gives (d ∈ n.lrtimer) (n.repairTimeout d) := by
  rw [repairTimeout]
  split_ifs with hm
  · have hn' : ({ n with lrtimer := n.lrtimer.erase d } : Aodv).Sane := hn.congr rfl hn.seqno
    refine Gives.congr ?_ (iff_true_intro hm).symm
    cases hl : ({ n with lrtimer := n.lrtimer.erase d } : Aodv).rtLookup d with
    | none =>
        simp only [hl]
        exact .silent hn'
    | some rt =>
        simp only [hl]
        split_ifs
        · exact .silent (hn'.write (hn'.entry d rt hl).down)
        · exact .silent hn'
  · exact Gives.none.congr (iff_false_intro hm).symm

/-! ### Routes that are resolved or expire -/

theorem rtResolve_gives (hn : n.Sane) (saddr d : ℕ) (allowed : Bool) :
    Gives True (n.rtResolve saddr d allowed) := by
  have hn' : (n.write d (n.rtEntry d)).Sane := hn.write (hn.rtEntry d)
  simp only [rtResolve]
  split_ifs with hup hh hown hrep
  · exact .silent hn'
  · exact absurd ((hn.rtEntry d).hops (hup.trans_ne (by decide))) hh
  · exact sendRequest_gives hn' (rtLookup_write.trans (if_pos rfl)) allowed
  · exact .silent hn'
  · exact .some hn' (sendError_genuine [(d, (n.rtEntry d).seqno)])

theorem purgeEntry_gives {r : Aodv × AodvOut} (hn : r.1.Sane) (hg : ∀ m ∈ r.2, m.2.Genuine)
    (expired waiting : List ℕ) (d : ℕ) : Gives True (purgeEntry expired waiting r d) := by
  rw [purgeEntry]
  cases hl : r.1.rtLookup d with
  | none => exact .some hn hg
  | some rt =>
      have hrt := hn.entry d rt hl
      simp only
      have hlive (hup : rt.flags = .up) : rt.hops ≠ infinity2 ∧ rt.seqno % 2 = 0 := by
        have hf : rt.flags ≠ .down := hup.trans_ne (by decide)
        exact ⟨hrt.hops hf, hrt.seqno hf⟩
      split_ifs with hexp hodd hup hh hwait
      · exact .some (hn.write hrt.down) hg
      · refine absurd ⟨(hlive hexp.1).1, ?_⟩ hodd
        have := (hlive hexp.1).2
        omega
      · exact .some hn hg
      · exact absurd (hlive hup).1 hh
      · have hreq := sendRequest_gives hn hl true
        refine ⟨?_, fun r' hr' => ?_, fun r' hr' m hm => ?_⟩
        · rw [Option.isSome_map]
          exact hreq.isSome_iff
        · obtain ⟨r'', h, rfl⟩ := Option.map_eq_some_iff.mp hr'
          exact hreq.sane r'' h
        · obtain ⟨r'', h, rfl⟩ := Option.map_eq_some_iff.mp hr'
          rcases List.mem_append.mp hm with hm | hm
          · exact hg m hm
          · exact hreq.genuine r'' h m hm
      · exact .some hn hg

theorem idPurge_gives {expired : List (ℕ × ℕ)} (hn : n.Sane) : Gives True (n.idPurge expired) :=
  .silent (hn.congr rfl hn.seqno)

/-! ### Packets received -/

/-- The route back to the source of a request is newer, or as new and shorter. -/
def TakesRequest (rq : AodvRequest) (rt : AodvRtEntry) : Prop :=
  rt.seqno < rq.srcSeqno ∨ (rq.srcSeqno = rt.seqno ∧ rq.hopCount < rt.hops)

/-- The route of a reply is newer, or as new and shorter. -/
def TakesReply (rp : AodvReply) (rt : AodvRtEntry) : Prop :=
  rt.seqno < rp.dstSeqno ∨ (rt.seqno = rp.dstSeqno ∧ rp.hopCount < rt.hops)

instance (rq : AodvRequest) (rt : AodvRtEntry) : Decidable (TakesRequest rq rt) :=
  inferInstanceAs (Decidable (_ ∨ _))

instance (rp : AodvReply) (rt : AodvRtEntry) : Decidable (TakesReply rp rt) :=
  inferInstanceAs (Decidable (_ ∨ _))

theorem reverseRoute_sane (saddr : ℕ) {rq : AodvRequest} (hn : n.Sane) (hs : rq.srcSeqno % 2 = 0)
    (hh : TakesRequest rq (n.rtEntry rq.src) → rq.hopCount ≠ infinity2) :
    (n.reverseRoute saddr rq).Sane := by
  rw [reverseRoute]
  refine hn.write ?_
  split_ifs with htake
  · exact AodvRtEntry.rtUpdate_valid hs (hh htake)
  · exact hn.rtEntry _

theorem rtLookup_reverseRoute (saddr : ℕ) (rq : AodvRequest) (n : Aodv) :
    ∃ rt, (n.reverseRoute saddr rq).rtLookup rq.src = some rt ∧
      (TakesRequest rq (n.rtEntry rq.src) → rt.flags = .up ∧ rt.hops = rq.hopCount) := by
  refine ⟨_, rtLookup_write.trans (if_pos rfl), fun htake => ?_⟩
  unfold TakesRequest at htake
  rw [if_pos htake]
  exact ⟨rfl, rfl⟩

theorem replySeqno_even (seqno dstSeqno : ℕ) : replySeqno seqno dstSeqno % 2 = 0 :=
  (replySeqno_liveSeqno seqno dstSeqno).2

theorem addPrecursors_sane {src dst : ℕ} (hn : n.Sane) : (n.addPrecursors src dst).Sane :=
  pcInsert_sane (pcInsert_sane hn)

theorem answer_gives {rq : AodvRequest} (hn : n.Sane) (hs : rq.srcSeqno % 2 = 0)
    (hl : n.rtLookup rq.src = some rt) : Gives True (n.answer rq) := by
  -- the request that is sent on, with any number for the destination
  have hforward (dstSeqno : ℕ) : Gives True (Option.some (n, [(Option.none, .rreq n.index
      { rq with hopCount := rq.hopCount + 1, dstSeqno := dstSeqno })])) := by
    refine .some hn fun m hm => ?_
    obtain rfl := List.mem_singleton.mp hm
    exact hs
  rw [answer]
  split_ifs with hdst
  · have hn' : ({ n with seqno := replySeqno n.seqno rq.dstSeqno } : Aodv).Sane :=
      hn.congr rfl (replySeqno_even _ _)
    exact sendReply_gives hn' hl (replySeqno_even _ _)
  · cases hlook : n.rtLookup rq.dst with
    | none => exact hforward _
    | some e =>
        simp only
        split_ifs with hfresh
        · have he := hn.entry rq.dst e hlook
          have hreply := sendReply_gives (h := e.hops + 1) (d := rq.dst) hn hl
            (he.seqno (he.flags_ne_down hfresh.1))
          refine ⟨?_, fun r hr => ?_, fun r hr => ?_⟩
          · rw [Option.isSome_map]
            exact hreply.isSome_iff
          · obtain ⟨r', hr', rfl⟩ := Option.map_eq_some_iff.mp hr
            exact addPrecursors_sane (hreply.sane r' hr')
          · obtain ⟨r', hr', rfl⟩ := Option.map_eq_some_iff.mp hr
            exact hreply.genuine r' hr'
        · exact hforward _

theorem takeReply_sane {rp : AodvReply} (hn : n.Sane) (hs : rp.dstSeqno % 2 = 0)
    (hh : rp.hopCount ≠ infinity2) :
    (n.write rp.dst ((n.rtEntry rp.dst).rtUpdate rp.dstSeqno rp.hopCount rp.src)).Sane :=
  hn.write (AodvRtEntry.rtUpdate_valid hs hh)

theorem forwardReply_gives {daddr : ℕ} {rp : AodvReply} (hn : n.Sane) (hs : rp.dstSeqno % 2 = 0) :
    Gives (n.underRepair daddr = none) (n.forwardReply daddr rp) := by
  rw [forwardReply]
  cases hl : n.rtLookup daddr with
  | none =>
      refine (Gives.silent hn).congr (iff_of_true trivial ?_)
      rw [underRepair, hl, Option.bind_none]
  | some rt0 =>
      have hrt := hn.entry daddr rt0 hl
      rw [underRepair_of_rtLookup hl]
      simp only
      split_ifs with hh hup
      · refine (Gives.some (pcInsert_sane hn) fun m hm => ?_).congr (iff_of_true trivial ?_)
        · obtain rfl := List.mem_singleton.mp hm
          exact hs
        · exact AodvRtEntry.repair_eq_none_iff.mpr (hup.trans_ne (by decide))
      · refine Gives.none.congr (iff_of_false id fun hrep => hup ?_)
        exact ((hrt.up_iff hh).mpr hrep).1
      · refine (Gives.silent hn).congr (iff_of_true trivial ?_)
        rw [AodvRtEntry.repair_eq_none_iff]
        exact fun hf => hrt.hops (hf.trans_ne (by decide)) (not_not.mp hh)

/-- No route under repair is taken back by `u`, which comes from `saddr`. -/
def NoneTaken (saddr : ℕ) (n : Aodv) (u : ℕ × ℕ) : Prop :=
  ∀ v, n.underRepair u.1 = some v → v.1 = saddr → u.2 < v.2

theorem errorEntry_losing {saddr : ℕ} (ht : Losing n t) (h : errorEntry saddr t u = some t') :
    Losing n t' := by
  rw [errorEntry] at h
  cases hl : t.1.rtLookup u.1 with
  | none =>
      rw [hl] at h
      exact Option.some.inj h ▸ ht
  | some rt =>
      have hrt := ht.sane.entry u.1 rt hl
      simp only [hl] at h
      split_ifs at h with hvia hup hpc
      · obtain rfl := Option.some.inj h
        have hrep := (hrt.up_iff hvia.1).mp hup
        exact ht.write (hrt.down (k := u.2)) hl (hrep ▸ repair_rtDown)
      · obtain rfl := Option.some.inj h
        have hrep := (hrt.up_iff hvia.1).mp hup
        exact ht.write hrt.down hl (hrep ▸ repair_rtDown)
      · exact Option.some.inj h ▸ ht

theorem errorEntry_isSome_iff {saddr : ℕ} (ht : Losing n t) :
    (errorEntry saddr t u).isSome ↔ NoneTaken saddr n u := by
  rw [NoneTaken, ← ht.underRepair, errorEntry]
  cases hl : t.1.rtLookup u.1 with
  | none =>
      rw [underRepair, hl]
      exact iff_of_true rfl fun u hu => by cases hu
  | some rt =>
      have hrt := ht.sane.entry u.1 rt hl
      rw [underRepair_of_rtLookup hl]
      simp only
      by_cases hvia : rt.hops ≠ infinity2 ∧ rt.nexthop = saddr ∧ rt.seqno ≤ u.2
      · rw [if_pos hvia]
        by_cases hrep : rt.repair = none
        · rw [if_pos ((hrt.up_iff hvia.1).mpr hrep), hrep]
          refine iff_of_true ?_ fun v hv => by cases hv
          split_ifs <;> rfl
        · rw [if_neg fun hup => hrep ((hrt.up_iff hvia.1).mp hup)]
          refine iff_of_false Bool.false_ne_true fun h => ?_
          rw [AodvRtEntry.repair] at h hrep
          split_ifs at h hrep with hf
          · exact (h _ rfl hvia.2.1).not_ge hvia.2.2
          · exact hrep rfl
      · rw [if_neg hvia]
        refine iff_of_true rfl fun v hv hsaddr => ?_
        rw [AodvRtEntry.repair] at hv
        split_ifs at hv with hf
        obtain rfl := Option.some.inj hv
        by_contra hle
        exact hvia ⟨hrt.hops (hf.trans_ne (by decide)), hsaddr, not_lt.mp hle⟩

theorem recvError_gives {saddr : ℕ} {us : List (ℕ × ℕ)} (hn : n.Sane) :
    Gives (∀ u ∈ us, NoneTaken saddr n u) (n.recvError saddr us) :=
  gives_foldlM hn (fun _ ht _ => errorEntry_isSome_iff ht) fun _ _ _ => errorEntry_losing

end Aodv

end Afabric
