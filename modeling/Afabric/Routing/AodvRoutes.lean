import Afabric.Routing.Aodv
import Mathlib.Order.Nat

/-!
# Routing — what an AODV handler keeps

An entry `Serves` a neighbour that heard of it sequence number `s` and hop count `h` when it is
newer, or as new, not down and closer.  No handler takes that back (`Improves`): an entry only gets
a greater sequence number, or keeps its number and stays up with no more hops.

`Handled G n r` says this of a handler that takes the agent `n` to `r`, and that the routes of `n`
and the packets it sends are good, when `G j d s h` is what is known of the other agents: that `j`
serves `s` and `h` for `d`.  The one handler not here is the timeout of a local repair, which brings
a route down under its old, even sequence number (`rtDown_not_improves`).
-/

namespace Afabric

/-- A sequence number that a destination gives out; that of a broken route is odd. -/
def LiveSeqno (s : ℕ) : Prop := 0 < s ∧ s % 2 = 0

instance (s : ℕ) : Decidable (LiveSeqno s) := inferInstanceAs (Decidable (_ ∧ _))

theorem not_liveSeqno_zero : ¬ LiveSeqno 0 := fun h => h.1.false

theorem not_liveSeqno_succ {s : ℕ} (h : s % 2 = 0) : ¬ LiveSeqno (s + 1) := by
  rintro ⟨-, h'⟩
  omega

/-! ### Entries -/

namespace AodvRtEntry

def Serves (s h : ℕ) (e : AodvRtEntry) : Prop :=
  s < e.seqno ∨ (s = e.seqno ∧ e.flags ≠ .down ∧ e.hops < h)

def Improves (e e' : AodvRtEntry) : Prop :=
  e.seqno < e'.seqno ∨
    (e.seqno = e'.seqno ∧ (e.flags ≠ .down → e'.flags ≠ .down ∧ e'.hops ≤ e.hops))

structure Ok (e : AodvRtEntry) : Prop where
  live : e.flags ≠ .down → LiveSeqno e.seqno
  not_liveSeqno : e.flags = .down → ¬ LiveSeqno e.seqno
  hops : e.flags = .down → e.hops = infinity2

variable {e e' e'' : AodvRtEntry} {s h : ℕ}

theorem Improves.refl (e : AodvRtEntry) : e.Improves e := .inr ⟨rfl, fun hf => ⟨hf, le_rfl⟩⟩

theorem Improves.trans (h₁ : e.Improves e') (h₂ : e'.Improves e'') : e.Improves e'' := by
  rcases h₁ with h₁ | ⟨h₁, hf₁⟩
  · rcases h₂ with h₂ | ⟨h₂, -⟩
    · exact .inl (h₁.trans h₂)
    · exact .inl (h₂ ▸ h₁)
  · rcases h₂ with h₂ | ⟨h₂, hf₂⟩
    · exact .inl (h₁ ▸ h₂)
    · refine .inr ⟨h₁.trans h₂, fun hf => ?_⟩
      exact ⟨(hf₂ (hf₁ hf).1).1, (hf₂ (hf₁ hf).1).2.trans (hf₁ hf).2⟩

theorem Serves.mono (hs : e.Serves s h) (hi : e.Improves e') : e'.Serves s h := by
  rcases hs with hs | ⟨rfl, hf, hh⟩
  · rcases hi with hi | ⟨hi, -⟩
    · exact .inl (hs.trans hi)
    · exact .inl (hi ▸ hs)
  · rcases hi with hi | ⟨hi, hk⟩
    · exact .inl hi
    · exact .inr ⟨hi, (hk hf).1, (hk hf).2.trans_lt hh⟩

theorem added_ok : added.Ok where
  live := fun hf => absurd rfl hf
  not_liveSeqno := fun _ => not_liveSeqno_zero
  hops := fun _ => rfl

theorem Ok.flags_ne_down (hok : e.Ok) (hh : e.hops ≠ infinity2) : e.flags ≠ .down :=
  fun hf => hh (hok.hops hf)

theorem Ok.flags_ne_down_of_liveSeqno (hok : e.Ok) (hl : LiveSeqno e.seqno) : e.flags ≠ .down :=
  fun hf => hok.not_liveSeqno hf hl

theorem rtDown_flags : e.rtDown.flags = .down := by
  rw [rtDown]
  split_ifs with hf
  · exact hf
  · rfl

theorem rtDown_seqno : e.rtDown.seqno = e.seqno := by
  rw [rtDown]
  split_ifs <;> rfl

end AodvRtEntry

/-! ### Agents -/

namespace Aodv

variable {n n' n'' : Aodv} {rt e : AodvRtEntry} {d d' j s h : ℕ}

@[simp] theorem rtLookup_write : (n.write d rt).rtLookup d' = if d' = d then some rt else
    n.rtLookup d' := Assoc.lookup_put

@[simp] theorem index_write : (n.write d rt).index = n.index := rfl

theorem rtEntry_of_rtLookup (he : n.rtLookup d = some e) : n.rtEntry d = e := by
  rw [rtEntry, he, Option.getD_some]

/-- `n` is the destination, or has an entry that serves. -/
def Keeps (d s h : ℕ) (n : Aodv) : Prop :=
  n.index = d ∨ ∃ e, n.rtLookup d = some e ∧ e.Serves s h

theorem keeps_write (hs : rt.Serves s h) : (n.write d rt).Keeps d s h :=
  .inr ⟨rt, by rw [rtLookup_write, if_pos rfl], hs⟩

/-- What an agent knows of itself. -/
def Own (n : Aodv) (j d s h : ℕ) : Prop := j = n.index ∧ n.Keeps d s h

structure Improves (n n' : Aodv) : Prop where
  index : n'.index = n.index
  entry : ∀ d e, n.rtLookup d = some e → ∃ e', n'.rtLookup d = some e' ∧ e.Improves e'

theorem Improves.refl (n : Aodv) : n.Improves n := ⟨rfl, fun _ e he => ⟨e, he, .refl e⟩⟩

theorem Improves.trans (h₁ : n.Improves n') (h₂ : n'.Improves n'') : n.Improves n'' where
  index := h₂.index.trans h₁.index
  entry := by
    intro d e he
    obtain ⟨e', he', hi⟩ := h₁.entry d e he
    obtain ⟨e'', he'', hi'⟩ := h₂.entry d e' he'
    exact ⟨e'', he'', hi.trans hi'⟩

theorem Keeps.mono (hk : n.Keeps d s h) (hi : n.Improves n') : n'.Keeps d s h := by
  rcases hk with hk | ⟨e, he, hs⟩
  · exact .inl (hi.index.trans hk)
  · obtain ⟨e', he', hee'⟩ := hi.entry d e he
    exact .inr ⟨e', he', hs.mono hee'⟩

theorem Own.mono (ho : n.Own j d s h) (hi : n.Improves n') : n'.Own j d s h :=
  ⟨ho.1.trans hi.index.symm, ho.2.mono hi⟩

end Aodv

/-- What a packet tells holds. -/
def AodvPacket.Ok (G : ℕ → ℕ → ℕ → ℕ → Prop) : AodvPacket → Prop
  | .rreq saddr rq => LiveSeqno rq.srcSeqno ∧ G saddr rq.src rq.srcSeqno rq.hopCount
  | .rrep _ rp => LiveSeqno rp.dstSeqno ∧ G rp.src rp.dst rp.dstSeqno rp.hopCount
  | .rerr _ unreachable => ∀ u ∈ unreachable, ¬ LiveSeqno u.2

theorem AodvPacket.Ok.mono {G G' : ℕ → ℕ → ℕ → ℕ → Prop} {p : AodvPacket} (hp : p.Ok G)
    (hG : ∀ j d s h, G j d s h → G' j d s h) : p.Ok G' := by
  cases p with
  | rreq saddr rq => exact ⟨hp.1, hG _ _ _ _ hp.2⟩
  | rrep daddr rp => exact ⟨hp.1, hG _ _ _ _ hp.2⟩
  | rerr saddr unreachable => exact hp

namespace Aodv

variable {G : ℕ → ℕ → ℕ → ℕ → Prop} {n n' n'' : Aodv} {rt e : AodvRtEntry} {o o' : AodvOut}
  {r : Aodv × AodvOut} {d j s h : ℕ}

structure Ok (G : ℕ → ℕ → ℕ → ℕ → Prop) (n : Aodv) : Prop where
  entry : ∀ d e, n.rtLookup d = some e → e.Ok
  route : ∀ d e, n.rtLookup d = some e → e.flags = .up →
    d ≠ n.index ∧ G e.nexthop d e.seqno e.hops

theorem Ok.rtEntry (hok : n.Ok G) (d : ℕ) : (n.rtEntry d).Ok := by
  cases he : n.rtLookup d with
  | none =>
      rw [Aodv.rtEntry, he]
      exact AodvRtEntry.added_ok
  | some e =>
      rw [rtEntry_of_rtLookup he]
      exact hok.entry d e he

structure Handled (G : ℕ → ℕ → ℕ → ℕ → Prop) (n : Aodv) (r : Aodv × AodvOut) : Prop where
  ok : r.1.Ok G
  improves : n.Improves r.1
  out : ∀ m ∈ r.2, m.2.Ok r.1.Own

theorem Handled.refl (hok : n.Ok G) : Handled G n (n, []) :=
  ⟨hok, .refl n, fun _ hm => absurd hm List.not_mem_nil⟩

theorem Handled.trans (h₁ : Handled G n (n', o)) (h₂ : Handled G n' (n'', o')) :
    Handled G n (n'', o ++ o') where
  ok := h₂.ok
  improves := h₁.improves.trans h₂.improves
  out := by
    intro m hm
    rcases List.mem_append.mp hm with hm | hm
    · exact (h₁.out m hm).mono fun _ _ _ _ ho => ho.mono h₂.improves
    · exact h₂.out m hm

/-- A handler after a change without a packet. -/
theorem Handled.after (h₁ : Handled G n (n', [])) (h₂ : Handled G n' r) : Handled G n r :=
  h₁.trans h₂

theorem Handled.silent (h₁ : Handled G n (n', o)) (h₂ : Handled G n' (n'', [])) :
    Handled G n (n'', o) := by
  have := h₁.trans h₂
  rwa [List.append_nil] at this

theorem Handled.send (h₁ : Handled G n (n', [])) (ho : ∀ m ∈ o, m.2.Ok n'.Own) :
    Handled G n (n', o) :=
  ⟨h₁.ok, h₁.improves, ho⟩

/-- Only the routing table is read. -/
theorem handled_of_rtable (hok : n.Ok G) (hi : n'.index = n.index) (ht : n'.rtable = n.rtable) :
    Handled G n (n', []) := by
  have hl (d : ℕ) : n'.rtLookup d = n.rtLookup d := by rw [rtLookup, rtLookup, ht]
  refine ⟨⟨fun d e he => ?_, fun d e he hf => ?_⟩, ⟨hi, fun d e he => ?_⟩, fun _ hm => ?_⟩
  · exact hok.entry d e (hl d ▸ he)
  · rw [hi]
    exact hok.route d e (hl d ▸ he) hf
  · exact ⟨e, (hl d).trans he, .refl e⟩
  · exact absurd hm List.not_mem_nil

theorem write_handled (hok : n.Ok G) (hrt : rt.Ok)
    (hroute : rt.flags = .up → d ≠ n.index ∧ G rt.nexthop d rt.seqno rt.hops)
    (hi : (n.rtEntry d).Improves rt) : Handled G n (n.write d rt, []) := by
  refine ⟨⟨fun d' e he => ?_, fun d' e he hf => ?_⟩, ⟨rfl, fun d' e he => ?_⟩, fun _ hm => ?_⟩
  · rw [rtLookup_write] at he
    split_ifs at he with hd
    · exact Option.some.inj he ▸ hrt
    · exact hok.entry d' e he
  · rw [rtLookup_write] at he
    split_ifs at he with hd
    · obtain rfl := Option.some.inj he
      exact hd ▸ hroute hf
    · exact hok.route d' e he hf
  · rw [rtLookup_write]
    split_ifs with hd
    · subst hd
      exact ⟨rt, rfl, rtEntry_of_rtLookup he ▸ hi⟩
    · exact ⟨e, he, .refl e⟩
  · exact absurd hm List.not_mem_nil

/-- An entry that is written with the same route. -/
theorem write_same_handled (hok : n.Ok G) (hs : rt.seqno = (n.rtEntry d).seqno)
    (hh : rt.hops = (n.rtEntry d).hops) (hn : rt.nexthop = (n.rtEntry d).nexthop)
    (hf : rt.flags = (n.rtEntry d).flags) : Handled G n (n.write d rt, []) := by
  have he := hok.rtEntry d
  refine write_handled hok ⟨?_, ?_, ?_⟩ (fun hup => ?_) (.inr ⟨hs.symm, fun hf' => ?_⟩)
  · rw [hs, hf]
    exact he.live
  · rw [hs, hf]
    exact he.not_liveSeqno
  · rw [hh, hf]
    exact he.hops
  · cases hl : n.rtLookup d with
    | none =>
        rw [hf, Aodv.rtEntry, hl] at hup
        cases hup
    | some e =>
        rw [rtEntry_of_rtLookup hl] at hs hh hn hf
        rw [hs, hh, hn]
        exact hok.route d e hl (hf ▸ hup)
  · exact ⟨hf ▸ hf', hh.le⟩

/-! ### Sending -/

theorem sendRequest_handled {allowed : Bool} (hok : n.Ok G)
    (hr : n.sendRequest d allowed = some r) : Handled G n r := by
  rw [sendRequest] at hr
  cases hl : n.rtLookup d with
  | none =>
      rw [hl] at hr
      cases hr
  | some rt =>
      simp only [hl] at hr
      split_ifs at hr with hup hh hall heven
      · exact Option.some.inj hr ▸ .refl hok
      · exact Option.some.inj hr ▸ .refl hok
      · obtain rfl := Option.some.inj hr
        have h : Handled G n ({ n with bid := n.bid + 1, seqno := n.seqno + 2 }, []) :=
          handled_of_rtable hok rfl rfl
        refine h.send fun m hm => ?_
        obtain rfl := List.mem_singleton.mp hm
        exact ⟨⟨Nat.succ_pos _, heven⟩, rfl, .inl rfl⟩

theorem sendReply_handled {ipdst : ℕ} (hok : n.Ok G) (hl : LiveSeqno s) (hk : n.Keeps d s h)
    (hr : n.sendReply ipdst h d s = some r) : Handled G n r := by
  rw [sendReply] at hr
  cases hlook : n.rtLookup ipdst with
  | none =>
      rw [hlook] at hr
      cases hr
  | some rt =>
      rw [hlook] at hr
      obtain rfl := Option.some.inj hr
      refine (Handled.refl hok).send fun m hm => ?_
      obtain rfl := List.mem_singleton.mp hm
      exact ⟨hl, rfl, hk⟩

theorem sendError_ok {us : List (ℕ × ℕ)} (hus : ∀ u ∈ us, ¬ LiveSeqno u.2) :
    ∀ m ∈ n.sendError us, m.2.Ok n.Own := by
  intro m hm
  rw [sendError] at hm
  split_ifs at hm
  · cases hm
  · obtain rfl := List.mem_singleton.mp hm
    exact hus

theorem pcInsert_handled {id : ℕ} (hok : n.Ok G) : Handled G n (n.pcInsert d id, []) := by
  rw [pcInsert]
  cases hl : n.rtLookup d with
  | none => exact .refl hok
  | some e =>
      have he := rtEntry_of_rtLookup hl
      refine write_same_handled hok ?_ ?_ ?_ ?_
      all_goals
        rw [he, AodvRtEntry.pcInsert]
        split_ifs <;> rfl

/-! ### Routes that break -/

/-- The state of a loop that gathers unreachable destinations. -/
structure Breaking (G : ℕ → ℕ → ℕ → ℕ → Prop) (n : Aodv) (s : Aodv × List (ℕ × ℕ)) : Prop where
  handled : Handled G n (s.1, [])
  not_liveSeqno : ∀ u ∈ s.2, ¬ LiveSeqno u.2

theorem Breaking.sent {s : Aodv × List (ℕ × ℕ)} (hs : Breaking G n s) :
    Handled G n (s.1, s.1.sendError s.2) :=
  hs.handled.send (sendError_ok hs.not_liveSeqno)

/-- A route goes down under a sequence number that is greater and not live. -/
theorem down_handled (hok : n.Ok G) (he : n.rtLookup d = some e) (hlt : e.seqno < rt.seqno)
    (hl : ¬ LiveSeqno rt.seqno) (hf : rt.flags = .down) (hh : rt.hops = infinity2) :
    Handled G n (n.write d rt, []) := by
  refine write_handled hok ⟨fun h => absurd hf h, fun _ => hl, fun _ => hh⟩ (fun hup => ?_) ?_
  · rw [hf] at hup
    cases hup
  · exact rtEntry_of_rtLookup he ▸ .inl hlt

theorem rtDown_hops (hf : rt.flags ≠ .down) : rt.rtDown.hops = infinity2 := by
  rw [AodvRtEntry.rtDown, if_neg hf]

theorem failEntry_breaking {id : ℕ} {s t : Aodv × List (ℕ × ℕ)} (hs : Breaking G n s)
    (ht : failEntry id s d = some t) : Breaking G n t := by
  rw [failEntry] at ht
  cases hl : s.1.rtLookup d with
  | none =>
      rw [hl] at ht
      exact Option.some.inj ht ▸ hs
  | some rt =>
      simp only [hl] at ht
      split_ifs at ht with hvia hup
      · obtain rfl := Option.some.inj ht
        have hf : rt.flags ≠ .down := by
          rw [hup.1]
          exact fun h => by cases h
        refine ⟨hs.handled.after (down_handled hs.handled.ok hl ?_ ?_ ?_ ?_), fun u hu => ?_⟩
        · rw [AodvRtEntry.pcDelete, AodvRtEntry.rtDown_seqno]
          exact Nat.lt_succ_self _
        · rw [AodvRtEntry.pcDelete, AodvRtEntry.rtDown_seqno]
          exact not_liveSeqno_succ hup.2
        · exact AodvRtEntry.rtDown_flags
        · exact rtDown_hops hf
        · rcases List.mem_append.mp hu with hu | hu
          · exact hs.not_liveSeqno u hu
          · obtain rfl := List.mem_singleton.mp hu
            exact not_liveSeqno_succ hup.2
      · obtain rfl := Option.some.inj ht
        have he := rtEntry_of_rtLookup hl
        refine ⟨hs.handled.after (write_same_handled hs.handled.ok ?_ ?_ ?_ ?_), hs.not_liveSeqno⟩
        all_goals
          rw [he]
          rfl

theorem handleLinkFailure_handled {id : ℕ} (hok : n.Ok G)
    (hr : n.handleLinkFailure id = some r) : Handled G n r := by
  obtain ⟨s, hs, rfl⟩ := Option.map_eq_some_iff.mp hr
  refine Breaking.sent (foldlM_invariant (Breaking G n) hs ⟨.refl hok, fun _ hu => ?_⟩ ?_)
  · cases hu
  · exact fun d _ t t' ht ht' => failEntry_breaking ht ht'

theorem nbDelete_handled {id : ℕ} (hok : n.Ok G) (hr : n.nbDelete id = some r) :
    Handled G n r := by
  rw [nbDelete] at hr
  split_ifs at hr
  have h : Handled G n ({ n with seqno := n.seqno + 2 }, []) := handled_of_rtable hok rfl rfl
  exact h.after (handleLinkFailure_handled h.ok hr)

theorem localRtRepair_handled {allowed : Bool} (hok : n.Ok G) (he : n.rtLookup d = some e)
    (hf : e.flags ≠ .down) (hr : n.localRtRepair d e allowed = some r) : Handled G n r := by
  have hw : Handled G n (n.write d { e with flags := .inRepair }, []) := by
    have heok := hok.entry d e he
    refine write_handled hok ⟨fun _ => heok.live hf, ?_, ?_⟩ ?_ ?_
    · exact fun h => by cases h
    · exact fun h => by cases h
    · exact fun h => by cases h
    · rw [rtEntry_of_rtLookup he]
      exact .inr ⟨rfl, fun _ => ⟨fun h => (by cases h), le_rfl⟩⟩
  have h : Handled G n
      ({ n.write d { e with flags := .inRepair } with lrtimer := d :: n.lrtimer }, []) :=
    hw.after (handled_of_rtable hw.ok rfl rfl)
  exact h.after (sendRequest_handled h.ok hr)

theorem rtLlFailed_handled {nextHop numForwards : ℕ} {allowed : Bool} (hok : n.Ok G)
    (hnum : numForwards ≤ infinity2) (hr : n.rtLlFailed nextHop d numForwards allowed = some r) :
    Handled G n r := by
  rw [rtLlFailed] at hr
  cases hl : n.rtLookup d with
  | none =>
      rw [hl] at hr
      exact Option.some.inj hr ▸ .refl hok
  | some rt =>
      simp only [hl] at hr
      split_ifs at hr with hfar
      · refine localRtRepair_handled hok hl ?_ hr
        exact (hok.entry d rt hl).flags_ne_down (hfar.trans_le hnum).ne
      · exact nbDelete_handled hok hr

theorem repairTimeout_handled (hok : n.Ok G)
    (hrep : ∀ e, n.rtLookup d = some e → e.flags ≠ .inRepair)
    (hr : n.repairTimeout d = some r) : Handled G n r := by
  rw [repairTimeout] at hr
  split_ifs at hr
  have h : Handled G n ({ n with lrtimer := n.lrtimer.erase d }, []) :=
    handled_of_rtable hok rfl rfl
  cases hl : n.rtLookup d with
  | none =>
      simp only [show ({ n with lrtimer := n.lrtimer.erase d } : Aodv).rtLookup d = none from hl]
        at hr
      exact Option.some.inj hr ▸ h
  | some rt =>
      have hl' : ({ n with lrtimer := n.lrtimer.erase d } : Aodv).rtLookup d = some rt := hl
      simp only [hl'] at hr
      split_ifs at hr with hf
      · obtain rfl := Option.some.inj hr
        have hdown : rt.flags = .down := by
          cases hflag : rt.flags with
          | down => rfl
          | up => exact absurd hflag hf
          | inRepair => exact absurd hflag (hrep rt hl)
        rw [AodvRtEntry.rtDown, if_pos hdown]
        have he := rtEntry_of_rtLookup hl'
        exact h.after (write_same_handled h.ok (by rw [he]) (by rw [he]) (by rw [he]) (by rw [he]))
      · exact Option.some.inj hr ▸ h

/-! ### Routes that are resolved or expire -/

theorem rtEntry_handled (hok : n.Ok G) : Handled G n (n.write d (n.rtEntry d), []) :=
  write_same_handled hok rfl rfl rfl rfl

theorem rtResolve_handled {saddr : ℕ} {allowed : Bool} (hok : n.Ok G)
    (hr : n.rtResolve saddr d allowed = some r) : Handled G n r := by
  have h : Handled G n (n.write d (n.rtEntry d), []) := rtEntry_handled hok
  simp only [rtResolve] at hr
  split_ifs at hr with hup hh hown hrep
  · exact Option.some.inj hr ▸ h
  · exact h.after (sendRequest_handled h.ok hr)
  · exact Option.some.inj hr ▸ h
  · obtain rfl := Option.some.inj hr
    refine h.send (sendError_ok fun u hu => ?_)
    obtain rfl := List.mem_singleton.mp hu
    refine (hok.rtEntry d).not_liveSeqno ?_
    cases hf : (n.rtEntry d).flags with
    | down => rfl
    | up => exact absurd hf hup
    | inRepair => exact absurd hf hrep

theorem purgeEntry_handled {expired waiting : List ℕ} {s t : Aodv × AodvOut}
    (hs : Handled G n s) (ht : purgeEntry expired waiting s d = some t) : Handled G n t := by
  rw [purgeEntry] at ht
  cases hl : s.1.rtLookup d with
  | none =>
      rw [hl] at ht
      exact Option.some.inj ht ▸ hs
  | some rt =>
      simp only [hl] at ht
      split_ifs at ht with hexp hodd hup hh hwait
      · obtain rfl := Option.some.inj ht
        have hf : rt.flags ≠ .down := by
          rw [hexp.1]
          exact fun h => by cases h
        refine hs.silent (down_handled hs.ok hl ?_ ?_ AodvRtEntry.rtDown_flags (rtDown_hops hf))
        · rw [AodvRtEntry.rtDown_seqno]
          exact Nat.lt_succ_self _
        · rw [AodvRtEntry.rtDown_seqno]
          rintro ⟨-, heven⟩
          rw [hodd.2] at heven
          cases heven
      · exact Option.some.inj ht ▸ hs
      · obtain ⟨r, hr, rfl⟩ := Option.map_eq_some_iff.mp ht
        exact hs.trans (sendRequest_handled hs.ok hr)
      · exact Option.some.inj ht ▸ hs

theorem rtPurge_handled {expired waiting : List ℕ} (hok : n.Ok G)
    (hr : n.rtPurge expired waiting = some r) : Handled G n r :=
  foldlM_invariant (Handled G n) hr (.refl hok) fun _ _ _ _ hs ht => purgeEntry_handled hs ht

theorem idPurge_handled {expired : List (ℕ × ℕ)} (hok : n.Ok G)
    (hr : n.idPurge expired = some r) : Handled G n r := by
  obtain rfl := Option.some.inj hr
  exact handled_of_rtable hok rfl rfl

/-! ### Packets received -/

/-- A route that is taken is newer, or as new and shorter. -/
theorem rtUpdate_handled (hok : n.Ok G) (hne : d ≠ n.index) (hl : LiveSeqno s) (hG : G j d s h)
    (hbetter : (n.rtEntry d).seqno < s ∨ ((n.rtEntry d).seqno = s ∧ h < (n.rtEntry d).hops)) :
    Handled G n (n.write d ((n.rtEntry d).rtUpdate s h j), []) := by
  refine write_handled hok ⟨fun _ => hl, ?_, ?_⟩ (fun _ => ⟨hne, hG⟩) ?_
  · exact fun hf => by cases hf
  · exact fun hf => by cases hf
  · rcases hbetter with hlt | ⟨heq, hlt⟩
    · exact .inl hlt
    · exact .inr ⟨heq, fun _ => ⟨fun hf => (by cases hf), hlt.le⟩⟩

theorem reverseRoute_handled {saddr : ℕ} {rq : AodvRequest} (hok : n.Ok G)
    (hne : rq.src ≠ n.index) (hp : (AodvPacket.rreq saddr rq).Ok G) :
    Handled G n (n.reverseRoute saddr rq, []) := by
  rw [reverseRoute]
  split_ifs with hbetter
  · exact rtUpdate_handled hok hne hp.1 hp.2 (hbetter.imp_right fun hb => ⟨hb.1.symm, hb.2⟩)
  · exact rtEntry_handled hok

/-- The reverse route is as good as what is told of it one hop further. -/
theorem reverseRoute_keeps {saddr : ℕ} {rq : AodvRequest} (hok : n.Ok G)
    (hl : LiveSeqno rq.srcSeqno) :
    (n.reverseRoute saddr rq).Keeps rq.src rq.srcSeqno (rq.hopCount + 1) := by
  refine keeps_write ?_
  split_ifs with hbetter
  · exact .inr ⟨rfl, fun hf => (by cases hf), Nat.lt_succ_self _⟩
  · rcases lt_trichotomy rq.srcSeqno (n.rtEntry rq.src).seqno with hlt | heq | hgt
    · exact .inl hlt
    · refine .inr ⟨heq, (hok.rtEntry rq.src).flags_ne_down_of_liveSeqno (heq ▸ hl), ?_⟩
      exact Nat.lt_succ_of_le (not_lt.mp fun hlt => hbetter (.inr ⟨heq, hlt⟩))
    · exact absurd (.inl hgt) hbetter

theorem replySeqno_liveSeqno (seqno dstSeqno : ℕ) : LiveSeqno (replySeqno seqno dstSeqno) := by
  rw [replySeqno]
  split_ifs with hodd
  · exact ⟨Nat.succ_pos _, by omega⟩
  · exact ⟨Nat.succ_pos _, not_not.mp hodd⟩

theorem addPrecursors_handled {src dst : ℕ} (hok : n.Ok G) :
    Handled G n (n.addPrecursors src dst, []) := by
  rw [addPrecursors]
  have h : Handled G n (n.pcInsert dst (n.rtEntry src).nexthop, []) := pcInsert_handled hok
  exact h.after (pcInsert_handled h.ok)

theorem answer_handled {rq : AodvRequest} (hok : n.Ok G) (hl : LiveSeqno rq.srcSeqno)
    (hk : n.Keeps rq.src rq.srcSeqno (rq.hopCount + 1)) (hr : n.answer rq = some r) :
    Handled G n r := by
  -- the request that is sent on, with any number for the destination
  have hforward (dstSeqno : ℕ) : Handled G n (n, [(none, .rreq n.index
      { rq with hopCount := rq.hopCount + 1, dstSeqno := dstSeqno })]) := by
    refine (Handled.refl hok).send fun m hm => ?_
    obtain rfl := List.mem_singleton.mp hm
    exact ⟨hl, rfl, hk⟩
  rw [answer] at hr
  split_ifs at hr with hdst
  · have h : Handled G n ({ n with seqno := replySeqno n.seqno rq.dstSeqno }, []) :=
      handled_of_rtable hok rfl rfl
    exact h.after (sendReply_handled h.ok (replySeqno_liveSeqno _ _) (.inl rfl) hr)
  · cases hlook : n.rtLookup rq.dst with
    | none =>
        rw [hlook] at hr
        exact Option.some.inj hr ▸ hforward rq.dstSeqno
    | some rt =>
        simp only [hlook] at hr
        split_ifs at hr with hfresh
        · obtain ⟨r', hr', rfl⟩ := Option.map_eq_some_iff.mp hr
          have hrt := hok.entry rq.dst rt hlook
          have hf : rt.flags ≠ .down := hrt.flags_ne_down hfresh.1
          have h : Handled G n r' := sendReply_handled hok (hrt.live hf)
            (.inr ⟨rt, hlook, .inr ⟨rfl, hf, Nat.lt_succ_self _⟩⟩) hr'
          exact h.silent (addPrecursors_handled h.ok)
        · exact Option.some.inj hr ▸ hforward _

theorem recvRequest_handled {saddr : ℕ} {rq : AodvRequest} (hok : n.Ok G)
    (hp : (AodvPacket.rreq saddr rq).Ok G) (hr : n.recvRequest saddr rq = some r) :
    Handled G n r := by
  rw [recvRequest] at hr
  split_ifs at hr with hdrop
  · exact Option.some.inj hr ▸ .refl hok
  · have hheard : Handled G n ({ n with bihead := (rq.src, rq.bcastId) :: n.bihead }, []) :=
      handled_of_rtable hok rfl rfl
    have hrev := reverseRoute_handled hheard.ok (fun he => hdrop (.inl he)) hp
    have hk : (reverseRoute saddr rq { n with bihead := (rq.src, rq.bcastId) :: n.bihead }).Keeps
        rq.src rq.srcSeqno (rq.hopCount + 1) := reverseRoute_keeps hheard.ok hp.1
    exact (hheard.after hrev).after (answer_handled hrev.ok hp.1 hk hr)

theorem forwardReply_handled {daddr : ℕ} {rp : AodvReply} (hok : n.Ok G) (hl : LiveSeqno rp.dstSeqno)
    (hk : n.Keeps rp.dst rp.dstSeqno (rp.hopCount + 1)) (hr : n.forwardReply daddr rp = some r) :
    Handled G n r := by
  rw [forwardReply] at hr
  cases hlook : n.rtLookup daddr with
  | none =>
      rw [hlook] at hr
      exact Option.some.inj hr ▸ .refl hok
  | some rt0 =>
      simp only [hlook] at hr
      split_ifs at hr with hh hup
      · obtain rfl := Option.some.inj hr
        have h : Handled G n (n.pcInsert rp.dst rt0.nexthop, []) := pcInsert_handled hok
        refine h.send fun m hm => ?_
        obtain rfl := List.mem_singleton.mp hm
        exact ⟨hl, h.improves.index.symm, hk.mono h.improves⟩
      · exact Option.some.inj hr ▸ .refl hok

theorem recvReply_handled {daddr : ℕ} {rp : AodvReply} (hok : n.Ok G) (hne : rp.dst ≠ n.index)
    (hp : (AodvPacket.rrep daddr rp).Ok G) (hr : n.recvReply daddr rp = some r) :
    Handled G n r := by
  simp only [recvReply] at hr
  split_ifs at hr with hbetter hdaddr
  · exact Option.some.inj hr ▸ rtUpdate_handled hok hne hp.1 hp.2 hbetter
  · have h := rtUpdate_handled hok hne hp.1 hp.2 hbetter
    refine h.after (forwardReply_handled h.ok hp.1 (keeps_write (.inr ⟨rfl, ?_, ?_⟩)) hr)
    · exact fun hf => by cases hf
    · exact Nat.lt_succ_self _
  · exact Option.some.inj hr ▸ rtEntry_handled hok

/-- The entry of a route that is told to be unreachable, with its precursors or without. -/
theorem errored_handled {s : Aodv × List (ℕ × ℕ)} {seq : ℕ} (hs : Breaking G n s)
    (he : s.1.rtLookup d = some e) (hf : e.flags = .up) (hle : e.seqno ≤ seq) (hl : ¬ LiveSeqno seq) :
    Handled G s.1 (s.1.write d (AodvRtEntry.rtDown { e with seqno := seq }), []) ∧
      Handled G s.1 (s.1.write d { AodvRtEntry.rtDown { e with seqno := seq } with pclist := [] },
        []) := by
  have hne : e.flags ≠ .down := by
    rw [hf]
    exact fun h => by cases h
  have hlt : e.seqno < seq :=
    lt_of_le_of_ne hle fun h => hl (h ▸ (hs.handled.ok.entry d e he).live hne)
  rw [AodvRtEntry.rtDown, if_neg hne]
  exact ⟨down_handled hs.handled.ok he hlt hl rfl rfl, down_handled hs.handled.ok he hlt hl rfl rfl⟩

theorem errorEntry_breaking {saddr : ℕ} {u : ℕ × ℕ} {s t : Aodv × List (ℕ × ℕ)}
    (hs : Breaking G n s) (hu : ¬ LiveSeqno u.2) (ht : errorEntry saddr s u = some t) :
    Breaking G n t := by
  rw [errorEntry] at ht
  cases hl : s.1.rtLookup u.1 with
  | none =>
      rw [hl] at ht
      exact Option.some.inj ht ▸ hs
  | some rt =>
      simp only [hl] at ht
      split_ifs at ht with hvia hup hpc
      · obtain rfl := Option.some.inj ht
        obtain ⟨hd, hdown⟩ := errored_handled hs hl hup.1 hvia.2.2 hu
        exact ⟨hs.handled.after hd, hs.not_liveSeqno⟩
      · obtain rfl := Option.some.inj ht
        obtain ⟨hd, hdown⟩ := errored_handled hs hl hup.1 hvia.2.2 hu
        refine ⟨hs.handled.after hdown, fun v hv => ?_⟩
        rcases List.mem_append.mp hv with hv | hv
        · exact hs.not_liveSeqno v hv
        · obtain rfl := List.mem_singleton.mp hv
          exact hu
      · exact Option.some.inj ht ▸ hs

theorem recvError_handled {saddr : ℕ} {us : List (ℕ × ℕ)} (hok : n.Ok G)
    (hp : (AodvPacket.rerr saddr us).Ok G) (hr : n.recvError saddr us = some r) :
    Handled G n r := by
  obtain ⟨s, hs, rfl⟩ := Option.map_eq_some_iff.mp hr
  refine Breaking.sent (foldlM_invariant (Breaking G n) hs ⟨.refl hok, fun _ hu => ?_⟩ ?_)
  · cases hu
  · exact fun u hu t t' ht ht' => errorEntry_breaking ht (hp u hu) ht'

end Aodv

end Afabric
