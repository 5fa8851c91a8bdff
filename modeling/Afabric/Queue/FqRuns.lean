import Afabric.Queue.Fq

/-!
# Queue — fair queueing over runs

Between two events every flow is in order (`FlowOk`): its queue is blocked exactly while its slot
is taken, and a slot is empty only if the queue is.  While a packet is on its way from the queue to
the slot (`Handing`), or the queue is about to be asked for one (`Slot`), this fails for that flow
and no other.

A call of `recv` that comes out of `deque` is made either by a blocked `FQ`, and then it puts the
packet in the slot and returns, or not at all: an `FQ` that is not blocked has nothing in the
queues, so the handler that `deque` calls finds none to send (`resumeUp_spec`).
-/

namespace Afabric

namespace FQ

variable {D : FifoQueue} {R : Type}

/-! ### Flows in order -/

/-- The packets of flow `i`. -/
def ofFlow (i : Fin 32) (l : List Packet) : List Packet := l.filter fun p => p.fid = i.val

/-- The queue of flow `i`, when nothing is said of the slot: the flow has a queue, which holds its
packets only.  `out` are the packets of the flow that are out of the `FQ`, the slot included. -/
structure Slot (m : Int) (i : Fin 32) (f : FlowState R) (u : Upstream D)
    (out handed arrived : List Packet) : Prop where
  q : f.q = true
  le : i.val ≤ m
  fids : ∀ p ∈ D.pkts u.q, p.fid = i.val
  out_eq : out = handed
  order : (handed ++ D.pkts u.q).Sublist arrived

/-- Flow `i` is in order. -/
structure FlowOk (m : Int) (i : Fin 32) (f : FlowState R) (u : Upstream D)
    (out handed arrived : List Packet) : Prop where
  blocked : u.blocked = true ↔ f.hol ≠ none
  empty : f.hol = none → D.pkts u.q = []
  hol : ∀ p, f.hol = some p → f.handler = some i ∧ p.fid = i.val
  idle : f.q = false → f.hol = none
  le : f.q = true → i.val ≤ m
  fids : ∀ p ∈ D.pkts u.q, p.fid = i.val
  out_eq : out ++ f.hol.toList = handed
  order : (handed ++ D.pkts u.q).Sublist arrived

/-- Flow `i` of `s`, with `pend` on its way to the link. -/
abbrev Ok (s : FQ D R) (pend : Option Packet) (i : Fin 32) : Prop :=
  FlowOk s.maxflow i (s.fs i) (s.up i) (ofFlow i (s.sent ++ pend.toList)) (s.handed i) (s.arrived i)

abbrev Open (s : FQ D R) (pend : Option Packet) (i : Fin 32) : Prop :=
  Slot s.maxflow i (s.fs i) (s.up i) (ofFlow i (s.sent ++ pend.toList)) (s.handed i) (s.arrived i)

theorem ofFlow_append (i : Fin 32) (l k : List Packet) :
    ofFlow i (l ++ k) = ofFlow i l ++ ofFlow i k := List.filter_append ..

theorem ofFlow_self {i : Fin 32} {p : Packet} (h : p.fid = i.val) : ofFlow i [p] = [p] := by
  rw [ofFlow, List.filter_cons_of_pos (by simpa using h), List.filter_nil]

theorem ofFlow_of_ne {i j : Fin 32} {p : Packet} (h : p.fid = j.val) (hij : i ≠ j) :
    ofFlow i [p] = [] := by
  have hne : ¬ p.fid = i.val := by
    intro e
    exact hij (Fin.ext (by omega))
  rw [ofFlow, List.filter_cons_of_neg (by simpa using hne), List.filter_nil]

/-- A flow whose slot is empty. -/
theorem FlowOk.slot {m : Int} {i : Fin 32} {f : FlowState R} {u : Upstream D}
    {out handed arrived : List Packet} (h : FlowOk m i f u out handed arrived) (hq : f.q = true)
    (hh : f.hol = none) : Slot m i f u out handed arrived := by
  refine ⟨hq, h.le hq, h.fids, ?_, h.order⟩
  have hho := h.out_eq
  rwa [hh, Option.toList_none, List.append_nil] at hho

/-- An empty slot of an empty queue. -/
theorem Slot.flowOk {m : Int} {i : Fin 32} {f : FlowState R} {u : Upstream D}
    {out handed arrived : List Packet} (h : Slot m i f u out handed arrived) (hh : f.hol = none)
    (he : D.pkts u.q = []) (hb : u.blocked = false) : FlowOk m i f u out handed arrived := by
  refine ⟨by simp [hb, hh], fun _ => he, by simp [hh], fun _ => hh, fun _ => h.le, h.fids, ?_,
    h.order⟩
  rw [hh, Option.toList_none, List.append_nil]
  exact h.out_eq

/-! ### The queue of a flow gives a packet -/

/-- The queue of flow `i` has given `p`, which is not in the slot yet. -/
structure Handing (s : FQ D R) (pend : Option Packet) (i : Fin 32) (p : Packet) : Prop where
  q : (s.fs i).q = true
  le : i.val ≤ s.maxflow
  hol : (s.fs i).hol = none
  fid : p.fid = i.val
  blocked : (s.up i).blocked = true
  fids : ∀ x ∈ D.pkts (s.up i).q, x.fid = i.val
  handed : ofFlow i (s.sent ++ pend.toList) ++ [p] = s.handed i
  order : (s.handed i ++ D.pkts (s.up i).q).Sublist (s.arrived i)

/-- What `deque` of the queue of a flow leaves alone. -/
structure UpOnly (s s' : FQ D R) (i : Fin 32) : Prop where
  fs : s'.fs = s.fs
  maxflow : s'.maxflow = s.maxflow
  secsPerByte : s'.secsPerByte = s.secsPerByte
  blocked : s'.blocked = s.blocked
  inService : s'.inService = s.inService
  sent : s'.sent = s.sent
  arrived : s'.arrived = s.arrived
  up : ∀ j, j ≠ i → s'.up j = s.up j
  handed : ∀ j, j ≠ i → s'.handed j = s.handed j

theorem upDeque_spec (s : FQ D R) (i : Fin 32) :
    ∃ s', s.upDeque i = some ((D.pkts (s.up i).q).head?, s') ∧ UpOnly s s' i ∧
      (s'.up i).blocked = (s.up i).blocked ∧
      D.pkts (s'.up i).q = (D.pkts (s.up i).q).tail ∧
      s'.handed i = s.handed i ++ (D.pkts (s.up i).q).head?.toList := by
  obtain ⟨q', hq, ht⟩ := D.deque_spec (s.up i).q
  simp only [upDeque, hq, Option.map_some]
  refine ⟨_, rfl, ⟨rfl, rfl, rfl, rfl, rfl, rfl, rfl, ?_, ?_⟩, ?_, ?_, ?_⟩
  · intro j hj
    exact Function.update_of_ne hj _ _
  · intro j hj
    exact Function.update_of_ne hj _ _
  · simp
  · simpa using ht
  · simp

theorem UpOnly.setBlocked {s s' : FQ D R} {i : Fin 32} (h : UpOnly s s' i) (b : Bool) :
    UpOnly s (s'.setBlocked i b) i := by
  refine ⟨h.fs, h.maxflow, h.secsPerByte, h.blocked, h.inService, h.sent, h.arrived, ?_, h.handed⟩
  intro j hj
  rw [← h.up j hj]
  exact Function.update_of_ne hj _ _

/-- The other flows do not notice. -/
theorem UpOnly.ok {s s' : FQ D R} {i : Fin 32} (h : UpOnly s s' i) {pend : Option Packet}
    {j : Fin 32} (hj : j ≠ i) (ho : Ok s pend j) : Ok s' pend j := by
  rw [Ok, h.fs, h.maxflow, h.sent, h.arrived, h.up j hj, h.handed j hj]
  exact ho

/-- A queue that has nothing stays as it is. -/
theorem UpOnly.ok_self {s s' : FQ D R} {i : Fin 32} (h : UpOnly s s' i) {pend : Option Packet}
    (hb : (s'.up i).blocked = (s.up i).blocked) (hp : D.pkts (s'.up i).q = D.pkts (s.up i).q)
    (hh : s'.handed i = s.handed i) (ho : Ok s pend i) : Ok s' pend i := by
  rw [Ok, h.fs, h.maxflow, h.sent, h.arrived, hh]
  refine ⟨?_, ?_, ho.hol, ho.idle, ho.le, ?_, ho.out_eq, ?_⟩
  · rw [hb]
    exact ho.blocked
  · rw [hp]
    exact ho.empty
  · rw [hp]
    exact ho.fids
  · rw [hp]
    exact ho.order

/-- The first packet of an open slot's queue is on its way. -/
theorem Slot.handing {s s' : FQ D R} {i : Fin 32} {pend : Option Packet} {p : Packet}
    (h : Open s pend i) (hh : (s.fs i).hol = none) (hu : UpOnly s s' i)
    (hp : (D.pkts (s.up i).q).head? = some p)
    (ht : D.pkts (s'.up i).q = (D.pkts (s.up i).q).tail)
    (hd : s'.handed i = s.handed i ++ (D.pkts (s.up i).q).head?.toList)
    (hb : (s'.up i).blocked = true) : Handing s' pend i p := by
  obtain ⟨rest, hrest⟩ := List.head?_eq_some_iff.mp hp
  have hf := h.fids
  have ho := h.order
  rw [hrest] at ht hd hf ho
  rw [List.tail_cons] at ht
  rw [List.head?_cons, Option.toList_some] at hd
  refine ⟨by rw [hu.fs]; exact h.q, by rw [hu.maxflow]; exact h.le, by rw [hu.fs]; exact hh,
    hf p (by simp), hb, ?_, ?_, ?_⟩
  · rw [ht]
    exact fun x hx => hf x (by simp [hx])
  · rw [hu.sent, hd, h.out_eq]
  · rw [hd, ht, hu.arrived]
    simpa using ho

/-! ### `update` -/

/-- `update` finds nothing to take. -/
structure Like (s s' : FQ D R) : Prop where
  fs : s'.fs = s.fs
  blocked : s'.blocked = s.blocked
  inService : s'.inService = s.inService
  sent : s'.sent = s.sent
  pkts : ∀ i, D.pkts (s'.up i).q = D.pkts (s.up i).q
  ok : ∀ i, Ok s none i → Ok s' none i

theorem Like.refl (s : FQ D R) : Like s s :=
  ⟨rfl, rfl, rfl, rfl, fun _ => rfl, fun _ h => h⟩

theorem Like.trans {s s₁ s₂ : FQ D R} (h₁ : Like s s₁) (h₂ : Like s₁ s₂) : Like s s₂ :=
  ⟨h₂.fs.trans h₁.fs, h₂.blocked.trans h₁.blocked, h₂.inService.trans h₁.inService,
    h₂.sent.trans h₁.sent, fun i => (h₂.pkts i).trans (h₁.pkts i),
    fun i h => h₂.ok i (h₁.ok i h)⟩

theorem updateFlow_spec {s : FQ D R} (h : ∀ j, Ok s none j) (n : Nat) (i : Fin 32) :
    ∃ s' n', updateFlow (s, n) i = some (s', n') ∧ Like s s' := by
  simp only [updateFlow]
  split_ifs with hq hh
  · obtain ⟨s', he, hu, hub, ht, hd⟩ := upDeque_spec s i
    have hnil := (h i).empty hh
    rw [hnil] at he ht hd
    rw [he]
    refine ⟨s', n, rfl, hu.fs, hu.blocked, hu.inService, hu.sent, fun j => ?_, fun j hj => ?_⟩
    · by_cases e : j = i
      · rw [e, ht, hnil, List.tail_nil]
      · rw [hu.up j e]
    · by_cases e : j = i
      · subst e
        exact hu.ok_self hub (by rw [ht, hnil]; rfl) (by rw [hd]; simp) hj
      · exact hu.ok e hj
  · exact ⟨s, n + 1, rfl, .refl s⟩
  · exact ⟨s, n, rfl, .refl s⟩

theorem update_spec {s : FQ D R} (h : ∀ j, Ok s none j) :
    ∃ s' n, s.update = some (s', n) ∧ Like s s' := by
  have hfold : ∀ (l : List (Fin 32)) (s₁ : FQ D R) (n : Nat), Like s s₁ →
      ∃ s' n', l.foldlM updateFlow (s₁, n) = some (s', n') ∧ Like s s' := by
    intro l
    induction l with
    | nil => exact fun s₁ n hl => ⟨s₁, n, rfl, hl⟩
    | cons i l ih =>
        intro s₁ n hl
        obtain ⟨s₂, n₂, he, hl₂⟩ := updateFlow_spec (fun j => hl.ok j (h j)) n i
        rw [List.foldlM_cons, he]
        exact ih s₂ n₂ (hl.trans hl₂)
  exact hfold s.flows s 0 (.refl s)

/-- The packet leaves its slot. -/
theorem leave_open {s : FQ D R} {p : Packet} {t : Fin 32} (h : ∀ j, Ok s none j)
    (ht : (s.fs t).hol = some p) (best : R) :
    Open (s.leave t best) (some p) t ∧ ∀ j, j ≠ t → Ok (s.leave t best) (some p) j := by
  have hq : (s.fs t).q = true := by
    by_contra hq
    have hn := (h t).idle (by simpa using hq)
    simp [ht] at hn
  have hfid := ((h t).hol p ht).2
  constructor
  · refine ⟨by simpa [leave] using hq, (h t).le hq, (h t).fids, ?_, (h t).order⟩
    have hout := (h t).out_eq
    rw [ht, Option.toList_none, List.append_nil] at hout
    show ofFlow t (s.sent ++ [p]) = s.handed t
    rw [ofFlow_append, ofFlow_self hfid]
    exact hout
  · intro j hj
    have hf : (s.leave t best).fs j = s.fs j := Function.update_of_ne hj _ _
    have hout : ofFlow j ((s.leave t best).sent ++ (some p).toList) =
        ofFlow j (s.sent ++ (none : Option Packet).toList) := by
      show ofFlow j (s.sent ++ [p]) = _
      rw [ofFlow_append, ofFlow_of_ne hfid hj, Option.toList_none, List.append_nil, List.append_nil]
    rw [Ok, hf, hout]
    exact h j

/-! ### The target -/

section Select

variable [LT R] [DecidableLT R] [Add R] [Mul R] [NatCast R] {s : FQ D R} {i : Fin 32}

theorem selectFlow_none {k : Nat} {b : Option (Fin 32 × R)} :
    s.selectFlow k b i = none ↔ b = none ∧ (s.fs i).hol = none := by
  unfold selectFlow
  by_cases hi : (s.fs i).hol = none
  · simp [hi]
  · rw [if_pos hi]
    cases b with
    | none => simp [hi]
    | some u => by_cases hlt : finish (s.fs i) k < u.2 <;> simp [hlt]

theorem selectFlow_some {k : Nat} {b : Option (Fin 32 × R)} {t : Fin 32 × R}
    (hb : ∀ t, b = some t → (s.fs t.1).hol ≠ none) (ht : s.selectFlow k b i = some t) :
    (s.fs t.1).hol ≠ none := by
  unfold selectFlow at ht
  by_cases hi : (s.fs i).hol = none
  · rw [if_neg (by simpa using hi)] at ht
    exact hb t ht
  · rw [if_pos hi] at ht
    cases b with
    | none =>
        obtain rfl := Option.some.inj ht
        exact hi
    | some u =>
        by_cases hlt : finish (s.fs i) k < u.2
        · simp only [if_pos hlt, Option.some.injEq] at ht
          subst ht
          exact hi
        · simp only [if_neg hlt] at ht
          exact hb t ht

variable (s) in
theorem foldl_selectFlow (k : Nat) (l : List (Fin 32)) (b : Option (Fin 32 × R))
    (hb : ∀ t, b = some t → (s.fs t.1).hol ≠ none) :
    match l.foldl (s.selectFlow k) b with
    | none => b = none ∧ ∀ i ∈ l, (s.fs i).hol = none
    | some t => (s.fs t.1).hol ≠ none := by
  induction l generalizing b with
  | nil =>
      cases b with
      | none => simp
      | some t => exact hb t rfl
  | cons i l ih =>
      have hl := ih (s.selectFlow k b i) fun t ht => selectFlow_some hb ht
      rw [List.foldl_cons]
      split at hl
      case h_1 hnone =>
        obtain ⟨hb', hi⟩ := selectFlow_none.mp hl.1
        exact ⟨hb', List.forall_mem_cons.mpr ⟨hi, hl.2⟩⟩
      case h_2 t ht => exact hl

/-- The target has a packet, and there is one if any flow has. -/
theorem select_spec (h : ∀ j, Ok s none j) (k : Nat) :
    match s.select k with
    | none => ∀ i, (s.fs i).hol = none
    | some t => (s.fs t.1).hol ≠ none := by
  have hl := foldl_selectFlow s k s.flows none (by simp)
  rw [select]
  split at hl
  case h_1 hnone =>
    intro i
    by_contra hi
    have hq : (s.fs i).q = true := by
      by_contra hq
      exact hi ((h i).idle (by simpa using hq))
    have hmem : i ∈ s.flows := by
      rw [flows, List.mem_filter]
      exact ⟨List.mem_finRange i, by simpa using (h i).le hq⟩
    exact hi (hl.2 i hmem)
  case h_2 t ht => exact hl

end Select

/-! ### `recv` and `resume` -/

variable [LT R] [DecidableLT R] [Add R] [Mul R] [NatCast R] [IntCast R]
variable {s : FQ D R} {pend : Option Packet} {i : Fin 32} {p : Packet} {now : R}

omit [Add R] [NatCast R] in
/-- The packet arrives in its slot. -/
theorem Handing.place (h : Handing s pend i p) (ho : ∀ j, j ≠ i → Ok s pend j) (now : R)
    (j : Fin 32) : Ok (s.place now i p i) pend j := by
  by_cases hj : j = i
  · subst hj
    have hf : ((s.place now j p j).fs j).hol = some p ∧
        ((s.place now j p j).fs j).handler = some j ∧ ((s.place now j p j).fs j).q = true := by
      simp [FQ.place, h.q]
    refine ⟨?_, ?_, ?_, ?_, fun _ => h.le, h.fids, ?_, h.order⟩
    · simp only [hf.1]
      exact iff_of_true h.blocked (by simp)
    · simp [hf.1]
    · intro x hx
      rw [hf.1] at hx
      obtain rfl := Option.some.inj hx
      exact ⟨hf.2.1, h.fid⟩
    · simp [hf.2.2]
    · rw [hf.1]
      exact h.handed
  · have hf : (s.place now i p i).fs j = s.fs j := Function.update_of_ne hj _ _
    rw [Ok, hf]
    exact ho j hj

theorem recv_eq (h : Handing s pend i p) (n : Nat) :
    recv now (n + 1) s p i =
      if s.blocked then some (s.place now i p i)
      else ((s.place now i p i).deque (recv now n)).bind fun r =>
        match r.1 with
        | some p => some ({ r.2 with blocked := true }.send p)
        | none => some r.2 := by
  have hi := i.isLt
  have hfid := h.fid
  have hix : (⟨p.fid.toNat, by omega⟩ : Fin 32) = i := Fin.ext (by simp [hfid])
  rw [recv, dif_pos (by omega)]
  dsimp only
  rw [hix, if_neg (by simp [h.hol])]
  have hb : (s.place now i p i).blocked = s.blocked := rfl
  rw [hb]
  cases s.blocked <;> rfl

/-- The queue of a flow resumes.  Either the `FQ` is blocked, or the queue has nothing to send. -/
theorem resumeUp_spec (h : Open s pend i) (hh : (s.fs i).hol = none)
    (hub : (s.up i).blocked = true) (ho : ∀ j, j ≠ i → Ok s pend j)
    (hb : s.blocked = true ∨ D.pkts (s.up i).q = []) (now : R) (n : Nat) :
    ∃ s', s.resumeUp (recv now (n + 1)) i = some s' ∧ (∀ j, Ok s' pend j) ∧
      s'.blocked = s.blocked ∧ s'.inService = s.inService ∧ s'.sent = s.sent := by
  obtain ⟨s₁, he, hu, hub₁, ht, hd⟩ := upDeque_spec s i
  have ho₁ : ∀ j, j ≠ i → Ok s₁ pend j := fun j hj => hu.ok hj (ho j hj)
  rw [resumeUp, he]
  cases hp : (D.pkts (s.up i).q).head? with
  | some p =>
      have hne : D.pkts (s.up i).q ≠ [] := fun e => by simp [e] at hp
      have hbl : s₁.blocked = true := by
        rw [hu.blocked]
        exact hb.resolve_right hne
      have hg := h.handing hh hu hp ht hd (hub₁.trans hub)
      refine ⟨s₁.place now i p i, ?_, hg.place ho₁ now, hu.blocked, hu.inService, hu.sent⟩
      show recv now (n + 1) s₁ p i = _
      rw [recv_eq hg, if_pos hbl]
  | none =>
      have hnil := List.head?_eq_none_iff.mp hp
      rw [hnil] at ht hd
      refine ⟨_, rfl, fun j => ?_, hu.blocked, hu.inService, hu.sent⟩
      have hu' := hu.setBlocked false
      by_cases hj : j = i
      · subst hj
        have hup : (s₁.setBlocked j false).up j = ⟨(s₁.up j).q, false⟩ := by simp [setBlocked]
        have hsl : Open (s₁.setBlocked j false) pend j := by
          refine ⟨?_, ?_, ?_, ?_, ?_⟩
          · rw [hu'.fs]
            exact h.q
          · rw [hu'.maxflow]
            exact h.le
          · rw [hup, ht]
            simp
          · rw [hu'.sent]
            show _ = s₁.handed j
            rw [hd, h.out_eq]
            simp
          · show (s₁.handed j ++ _).Sublist (s₁.arrived j)
            have hor := h.order
            rw [hup, ht, hd, hu.arrived]
            rw [hnil] at hor
            simpa using hor
        refine hsl.flowOk ?_ ?_ (by rw [hup])
        · rw [hu'.fs]
          exact hh
        · rw [hup, ht]
          rfl
      · exact hu'.ok hj (ho j hj)

/-! ### `deque` -/

/-- **`deque`**, of an `FQ` that is blocked or has nothing in its queues. -/
theorem deque_spec (h : ∀ j, Ok s none j) (hb : s.blocked = true ∨ ∀ j, D.pkts (s.up j).q = [])
    (now : R) (n : Nat) :
    ∃ r s', s.deque (recv now (n + 1)) = some (r, s') ∧ (∀ j, Ok s' r j) ∧
      s'.blocked = s.blocked ∧ s'.inService = s.inService ∧ s'.sent = s.sent ∧
      (r = none → ∀ j, (s'.fs j).hol = none) := by
  obtain ⟨s₁, k, he, hl⟩ := update_spec h
  have h₁ : ∀ j, Ok s₁ none j := fun j => hl.ok j (h j)
  have hsel := select_spec h₁ k
  simp only [deque, he, Option.bind_eq_bind, Option.bind_some]
  split at hsel
  case h_1 hnone =>
    rw [hnone]
    exact ⟨none, s₁, rfl, h₁, hl.blocked, hl.inService, hl.sent, fun _ => hsel⟩
  case h_2 t ht =>
    obtain ⟨t, best⟩ := t
    obtain ⟨p, hp⟩ := Option.ne_none_iff_exists'.mp hsel
    dsimp only at hp
    obtain ⟨hopen, hok⟩ := leave_open h₁ hp best
    have hhol : ((s₁.leave t best).fs t).hol = none := by simp [leave]
    have hub : (s₁.up t).blocked = true := (h₁ t).blocked.mpr (by simp [hp])
    have hb₁ : (s₁.leave t best).blocked = true ∨ D.pkts ((s₁.leave t best).up t).q = [] := by
      rcases hb with hb | hb
      · exact .inl (hl.blocked.trans hb)
      · exact .inr ((hl.pkts t).trans (hb t))
    obtain ⟨s₂, he₂, hok₂, hb₂, hi₂, hs₂⟩ := resumeUp_spec hopen hhol hub hok hb₁ now n
    rw [ht]
    simp only [((h₁ t).hol p hp).1, hp, Option.bind_some, he₂]
    exact ⟨some p, s₂, rfl, hok₂, hb₂.trans hl.blocked, hi₂.trans hl.inService, hs₂.trans hl.sent,
      by simp⟩

/-! ### Runs -/

/-- Every flow is in order; the `FQ` is blocked while the link has a packet, and otherwise it has
none. -/
structure Inv (s : FQ D R) : Prop where
  ok : ∀ j, Ok s none j
  link : if s.blocked then s.inService = 1 else s.inService = 0 ∧ ∀ j, (s.fs j).hol = none

omit [LT R] [DecidableLT R] [Add R] [Mul R] [NatCast R] [IntCast R] in
/-- The packet that `deque` has returned goes to the link. -/
theorem ok_send (h : ∀ j, Ok s (some p) j) : ∀ j, Ok (s.send p) none j := by
  intro j
  have hs : ofFlow j ((s.send p).sent ++ (none : Option Packet).toList) =
      ofFlow j (s.sent ++ (some p).toList) := by
    show ofFlow j (s.sent ++ [p] ++ []) = _
    rw [List.append_nil]
    rfl
  rw [Ok, hs]
  exact h j

/-- **`recv`**, from the queue of a flow that has just had nothing in its slot. -/
theorem recv_spec (h : Handing s none i p) (ho : ∀ j, j ≠ i → Ok s none j)
    (hl : if s.blocked then s.inService = 1 else
      s.inService = 0 ∧ ∀ j, D.pkts (s.up j).q = []) (now : R) (n : Nat) :
    ∃ s', recv now (n + 2) s p i = some s' ∧ s'.Inv := by
  rw [recv_eq h]
  have hok := h.place ho now
  cases hb : s.blocked with
  | true =>
      rw [hb] at hl
      refine ⟨_, rfl, hok, ?_⟩
      show if s.blocked then s.inService = 1 else _
      rw [hb]
      exact hl
  | false =>
      rw [hb] at hl
      obtain ⟨hi, hq⟩ : s.inService = 0 ∧ ∀ j, D.pkts (s.up j).q = [] := hl
      obtain ⟨r, s', he, hok', hb', hi', -, hr⟩ := deque_spec hok (.inr hq) now n
      rw [if_neg (by simp), he, Option.bind_some]
      have hin : s'.inService = 0 := hi'.trans hi
      cases r with
      | some x =>
          refine ⟨_, rfl, ok_send fun j => hok' j, ?_⟩
          show s'.inService + 1 = 1
          rw [hin]
      | none =>
          refine ⟨s', rfl, hok', ?_⟩
          have hbl : s'.blocked = false := hb'.trans hb
          rw [hbl]
          exact ⟨hin, hr rfl⟩

/-- What the link needs, while the slot of a flow is still to be filled. -/
def Idle (s : FQ D R) (i : Fin 32) : Prop :=
  if s.blocked then s.inService = 1
  else s.inService = 0 ∧ ∀ j, j ≠ i → D.pkts (s.up j).q = []

/-- A queue that held nothing sends its first packet on, if it has kept it. -/
theorem pull_spec (h : Open s none i) (hh : (s.fs i).hol = none) (hb : (s.up i).blocked = false)
    (hone : (D.pkts (s.up i).q).tail = []) (ho : ∀ j, j ≠ i → Ok s none j) (hl : Idle s i)
    (hol : s.blocked = false → ∀ j, (s.fs j).hol = none) (now : R) (n : Nat) :
    ∃ s', s.pull now (n + 2) i = some s' ∧ s'.Inv := by
  obtain ⟨s₁, he, hu, hub, ht, hd⟩ := upDeque_spec s i
  have htail : D.pkts (s₁.up i).q = [] := ht.trans hone
  rw [pull, hb, Bool.not_false, if_pos rfl, he]
  cases hx : (D.pkts (s.up i).q).head? with
  | some x =>
      have hu' := hu.setBlocked true
      have hup : (s₁.setBlocked i true).up i = ⟨(s₁.up i).q, true⟩ := by simp [setBlocked]
      have hg : Handing (s₁.setBlocked i true) none i x :=
        h.handing hh hu' hx (by rw [hup]; exact ht) hd (by rw [hup])
      refine recv_spec hg (fun j hj => hu'.ok hj (ho j hj)) ?_ now n
      rw [hu'.blocked, hu'.inService]
      rw [Idle] at hl
      cases hbl : s.blocked with
      | true =>
          rw [hbl] at hl
          exact hl
      | false =>
          rw [hbl] at hl
          refine ⟨hl.1, fun j => ?_⟩
          by_cases hj : j = i
          · rw [hj, hup]
            exact htail
          · rw [hu'.up j hj]
            exact hl.2 j hj
  | none =>
      -- the packet has been dropped
      have hnil := List.head?_eq_none_iff.mp hx
      refine ⟨s₁, rfl, fun j => ?_, ?_⟩
      · by_cases hj : j = i
        · subst hj
          have hok := h.flowOk hh hnil hb
          exact hu.ok_self hub (by rw [htail, hnil]) (by rw [hd, hnil]; simp) hok
        · exact hu.ok hj (ho j hj)
      · rw [hu.blocked, hu.inService, hu.fs]
        rw [Idle] at hl
        cases hbl : s.blocked with
        | true =>
            rw [hbl] at hl
            exact hl
        | false =>
            rw [hbl] at hl
            exact ⟨hl.1, hol hbl⟩

/-- A packet comes to the queue of its flow. -/
theorem Inv.arrive (h : s.Inv) (hq : (s.fs i).q = true) (hp : p.fid = i.val) (now : R) (n : Nat) :
    ∃ s', s.arrive now (n + 2) i p = some s' ∧ s'.Inv := by
  obtain ⟨q', he, hsub⟩ := D.enque_spec (s.up i).q p
  have hup : (s.accept i q' p).up i = ⟨q', (s.up i).blocked⟩ := by simp [accept]
  have harr : (s.accept i q' p).arrived i = s.arrived i ++ [p] := by simp [accept]
  have hfids : ∀ x ∈ D.pkts q', x.fid = i.val := by
    intro x hx
    rcases List.mem_append.mp (hsub.mem hx) with hx | hx
    · exact (h.ok i).fids x hx
    · rw [List.mem_singleton.mp hx, hp]
  have horder : (s.handed i ++ D.pkts q').Sublist (s.arrived i ++ [p]) := by
    refine (List.Sublist.append_left hsub _).trans ?_
    rw [← List.append_assoc]
    exact List.Sublist.append_right (h.ok i).order _
  have hupj : ∀ j, j ≠ i → (s.accept i q' p).up j = s.up j := fun j hj =>
    Function.update_of_ne hj _ _
  have ho : ∀ j, j ≠ i → Ok (s.accept i q' p) none j := by
    intro j hj
    have ha : (s.accept i q' p).arrived j = s.arrived j := Function.update_of_ne hj _ _
    rw [Ok, hupj j hj, ha]
    exact h.ok j
  rw [FQ.arrive, he, Option.bind_eq_bind, Option.bind_some]
  cases hb : (s.up i).blocked with
  | true =>
      have hh := (h.ok i).blocked.mp hb
      refine ⟨s.accept i q' p, by rw [pull, hup, hb]; rfl, fun j => ?_, h.link⟩
      by_cases hj : j = i
      · subst hj
        refine ⟨by rw [hup, hb]; exact iff_of_true rfl hh, fun e => absurd e hh, (h.ok j).hol,
          (h.ok j).idle, (h.ok j).le, by rw [hup]; exact hfids, (h.ok j).out_eq, ?_⟩
        rw [hup, harr]
        exact horder
      · exact ho j hj
  | false =>
      -- the slot is empty, and so was the queue
      have hh : (s.fs i).hol = none := by
        by_contra hh
        rw [(h.ok i).blocked.mpr hh] at hb
        exact absurd hb (by simp)
      have hsl := (h.ok i).slot hq hh
      rw [(h.ok i).empty hh, List.nil_append] at hsub
      have hopen : Open (s.accept i q' p) none i := by
        refine ⟨hq, hsl.le, by rw [hup]; exact hfids, hsl.out_eq, ?_⟩
        rw [hup, harr]
        exact horder
      have hlink := h.link
      refine pull_spec hopen hh (by rw [hup, hb]) ?_ ho ?_ (fun hbl => ?_) now n
      · rw [hup]
        rcases List.sublist_singleton.mp hsub with e | e <;> simp [e]
      · rw [Idle]
        show if s.blocked then s.inService = 1 else s.inService = 0 ∧ _
        cases hbl : s.blocked with
        | true =>
            rw [hbl] at hlink
            exact hlink
        | false =>
            rw [hbl] at hlink
            exact ⟨hlink.1, fun j hj => (ho j hj).empty (hlink.2 j)⟩
      · have hbl' : s.blocked = false := hbl
        rw [hbl'] at hlink
        exact hlink.2

/-- The link calls back. -/
theorem Inv.ready (h : s.Inv) (hs : 0 < s.inService) (now : R) (n : Nat) :
    ∃ s', FQ.resume now (n + 2) { s with inService := s.inService - 1 } = some s' ∧ s'.Inv := by
  have hlink := h.link
  have hb : s.blocked = true := by
    by_contra hb
    rw [if_neg hb] at hlink
    exact absurd hlink.1 hs.ne'
  rw [if_pos hb] at hlink
  obtain ⟨r, s', he, hok, hb', hi', -, hr⟩ :=
    deque_spec (s := { s with inService := s.inService - 1 }) h.ok (.inl hb) now (n + 1)
  have hin : s'.inService = 0 := by
    rw [hi']
    show s.inService - 1 = 0
    rw [hlink]
  rw [FQ.resume, he, Option.bind_eq_bind, Option.bind_some]
  cases r with
  | some x =>
      refine ⟨_, rfl, ok_send hok, ?_⟩
      have hbl : (s'.send x).blocked = true := hb'.trans hb
      rw [if_pos hbl]
      show s'.inService + 1 = 1
      rw [hin]
  | none => exact ⟨_, rfl, hok, hin, hr rfl⟩

omit [LT R] [DecidableLT R] [Add R] [Mul R] [NatCast R] [IntCast R] in
theorem Inv.install (h : s.Inv) (hq : (s.fs i).q = false) {q : D.Q} (hn : D.pkts q = []) :
    (s.install i q).Inv := by
  have hh := (h.ok i).idle hq
  have hmax : s.maxflow ≤ (s.install i q).maxflow ∧ (i.val : Int) ≤ (s.install i q).maxflow := by
    simp only [FQ.install]
    split_ifs <;> omega
  have hhol : ∀ j, ((s.install i q).fs j).hol = (s.fs j).hol := by
    intro j
    by_cases hj : j = i
    · subst hj
      simp [FQ.install]
    · simp [FQ.install, hj]
  refine ⟨fun j => ?_, ?_⟩
  · by_cases hj : j = i
    · subst hj
      have hup : (s.install j q).up j = ⟨q, false⟩ := by simp [FQ.install]
      have hout := (h.ok j).out_eq
      have hord := (h.ok j).order
      refine ⟨by rw [hup, hhol, hh]; simp, fun _ => by rw [hup, hn], by simp [hhol, hh],
        fun _ => by rw [hhol, hh], fun _ => hmax.2, by simp [hup, hn], by rw [hhol]; exact hout, ?_⟩
      rw [hup, hn]
      rw [(h.ok j).empty hh] at hord
      exact hord
    · have hf : (s.install i q).fs j = s.fs j := Function.update_of_ne hj _ _
      have hu : (s.install i q).up j = s.up j := Function.update_of_ne hj _ _
      have hj' := h.ok j
      rw [Ok, hf, hu]
      exact ⟨hj'.blocked, hj'.empty, hj'.hol, hj'.idle, fun hq => (hj'.le hq).trans hmax.1,
        hj'.fids, hj'.out_eq, hj'.order⟩
  · show if s.blocked then s.inService = 1 else s.inService = 0 ∧ _
    simp only [hhol]
    exact h.link

/-- Every event is dealt with, and keeps the invariant. -/
theorem Inv.step (h : s.Inv) (n : Nat) (e : Event D R) (ha : s.Allows e) :
    ∃ s', s.step (n + 2) e = some s' ∧ s'.Inv := by
  cases e with
  | install i q => exact ⟨_, rfl, h.install ha.1 ha.2⟩
  | arrival now i p => exact h.arrive ha.1 ha.2 now n
  | ready now => exact h.ready ha now n

omit [LT R] [DecidableLT R] [Add R] [Mul R] [NatCast R] [IntCast R] in
theorem Fresh.inv (h : s.Fresh) : s.Inv := by
  refine ⟨fun j => ?_, ?_⟩
  · have hout : ofFlow j (s.sent ++ (none : Option Packet).toList) = [] := by
      rw [h.sent]
      rfl
    refine ⟨by simp [h.up, h.hol], fun _ => h.empty j, by simp [h.hol], fun _ => h.hol j,
      by simp [h.q], by simp [h.empty], by rw [hout, h.hol, h.handed]; rfl, ?_⟩
    rw [h.handed, h.empty]
    exact List.nil_sublist _
  · rw [h.blocked]
    exact ⟨h.inService, h.hol⟩

theorem Reach.inv {n : Nat} (h : Reach (n + 2) s) : s.Inv := by
  induction h with
  | init h => exact h.inv
  | step _ e ha he ih =>
      obtain ⟨s', he', hi⟩ := ih.step n e ha
      obtain rfl := Option.some.inj (he.symm.trans he')
      exact hi

/-- **Fair queueing.**  Over every interleaving of arrivals and callbacks no call aborts; a flow
whose slot is empty has an empty queue; the link has at most one packet; an `FQ` that is not
blocked holds nothing; and of the packets of a flow, those its queue has handed over are those that
have left and the one in the slot, and with those still in the queue they are in order of
arrival. -/
theorem fair_queueing {n : Nat} (h : Reach (n + 2) s) :
    (∀ e, s.Allows e → ∃ s', s.step (n + 2) e = some s') ∧
      (∀ i, (s.fs i).hol = none → D.pkts (s.up i).q = []) ∧
      s.inService ≤ 1 ∧
      (s.blocked = false → ∀ i, (s.fs i).hol = none ∧ D.pkts (s.up i).q = []) ∧
      ∀ i, ofFlow i s.sent ++ (s.fs i).hol.toList = s.handed i ∧
        (s.handed i ++ D.pkts (s.up i).q).Sublist (s.arrived i) := by
  have hi := h.inv
  have hlink := hi.link
  refine ⟨fun e ha => ?_, fun i => (hi.ok i).empty, ?_, fun hb i => ?_, fun i => ?_⟩
  · obtain ⟨s', he, -⟩ := hi.step n e ha
    exact ⟨s', he⟩
  · cases hb : s.blocked with
    | true =>
        rw [hb] at hlink
        exact Nat.le_of_eq hlink
    | false =>
        rw [hb] at hlink
        rw [hlink.1]
        exact Nat.zero_le 1
  · rw [hb] at hlink
    exact ⟨hlink.2 i, (hi.ok i).empty (hlink.2 i)⟩
  · have hout := (hi.ok i).out_eq
    rw [Option.toList_none, List.append_nil] at hout
    exact ⟨hout, (hi.ok i).order⟩

end FQ

/-! ### `DropTail` queues -/

namespace DropTail

variable {cfg : DropTailConfig}

/-- The options under which `DropTail` serves out of turn, or marks a packet, are off. -/
structure Plain (cfg : DropTailConfig) : Prop where
  dropSmart : cfg.dropSmart = false
  dropPrio : cfg.dropPrio = false
  dequePrio : cfg.dequePrio = false
  ecnEnable : cfg.ecnEnable = false

/-- The packet is added, or it or the first one is dropped. -/
theorem Plain.enque (h : Plain cfg) (d : DropTail) (p : Packet) :
    ∃ x, d.enque cfg p = some x ∧ x.state.q.pkts.Sublist (d.q.pkts ++ [p]) := by
  have hq : ∀ q : BadTrackingPacketQueue, (q.enque p).pkts = q.pkts ++ [p] := by
    intro q
    simp only [BadTrackingPacketQueue.enque, BadTrackingPacketQueue.noteEnque]
    split_ifs <;> rfl
  have htake : ∃ x, d.takeIn cfg p = some x ∧ x.state.q.pkts.Sublist (d.q.pkts ++ [p]) := by
    rw [takeIn, handleOverflow, h.dropPrio, h.dropSmart]
    by_cases hw : d.willOverflow cfg p
    · rw [if_pos hw]
      by_cases hf : cfg.dropFront
      · rw [if_pos hf]
        refine ⟨_, rfl, ?_⟩
        rw [← hq d.q]
        simp only [DropTail.dropFront, BadTrackingPacketQueue.deque]
        cases hp : (d.q.enque p).pkts with
        | nil => rw [hp]
        | cons x rest =>
            simp only [BadTrackingPacketQueue.noteDeque]
            split_ifs <;> exact List.sublist_cons_self x rest
      · rw [if_neg hf]
        exact ⟨_, rfl, List.sublist_append_left _ _⟩
    · rw [if_neg hw]
      exact ⟨_, rfl, by rw [hq]⟩
  obtain ⟨x, hx, hsub⟩ := htake
  refine ⟨x, ?_, hsub⟩
  rw [DropTail.enque, hx]
  simp [h.ecnEnable]

theorem Plain.deque (h : Plain cfg) (d : DropTail) :
    ∃ x, d.deque cfg = some x ∧ x.result = d.q.pkts.head? ∧ x.state.q.pkts = d.q.pkts.tail := by
  rw [DropTail.deque, h.dequePrio, h.dropSmart]
  refine ⟨_, rfl, ?_⟩
  simp only [BadTrackingPacketQueue.deque]
  cases hp : d.q.pkts with
  | nil => exact ⟨rfl, hp⟩
  | cons x rest =>
      simp only [BadTrackingPacketQueue.noteDeque]
      split_ifs <;> exact ⟨rfl, rfl⟩

/-- `DropTail` as the queue of a flow. -/
def fifoQueue (cfg : DropTailConfig) (h : Plain cfg) : FifoQueue where
  Q := DropTail
  pkts := fun d => d.q.pkts
  enque := fun d p => (d.enque cfg p).map (·.state)
  deque := fun d => (d.deque cfg).map fun x => (x.result, x.state)
  enque_spec := by
    intro d p
    obtain ⟨x, hx, hsub⟩ := h.enque d p
    exact ⟨x.state, by rw [hx]; rfl, hsub⟩
  deque_spec := by
    intro d
    obtain ⟨x, hx, hr, hs⟩ := h.deque d
    exact ⟨x.state, by rw [hx, ← hr]; rfl, hs⟩

end DropTail

namespace NsDefault

/-- The options of `Queue/DropTail`. -/
def dropTail : DropTailConfig where
  dropFront := false
  dropSmart := false
  dropPrio := false
  dequePrio := false
  keepOrder := false
  qib := false
  ecnEnable := false
  dropLowPrio := false
  goodPrioQlim := -1
  meanPktsize := 500
  sqLimit := 10
  thresh := 0
  qlim := 50
  hash := fun _ => 0

theorem dropTail_plain : DropTail.Plain dropTail := ⟨rfl, rfl, rfl, rfl⟩

/-- An `FQ` as it is constructed, on a link of which a byte takes eight units of time. -/
def fq : FQ (DropTail.fifoQueue dropTail dropTail_plain) Int where
  fs := fun _ => ⟨false, none, 0, 0, none⟩
  up := fun _ => ⟨DropTail.init, false⟩
  maxflow := -1
  secsPerByte := 8
  blocked := false
  inService := 0
  sent := []
  arrived := fun _ => []
  handed := fun _ => []

theorem fq_fresh : fq.Fresh :=
  ⟨fun _ => rfl, fun _ => rfl, fun _ => rfl, fun _ => rfl, rfl, rfl, rfl, fun _ => rfl,
    fun _ => rfl⟩

/-- Three packets of a flow.  When the link calls back, the second leaves and the third takes its
slot. -/
theorem fair_queueing_three :
    ∃ s : FQ (DropTail.fifoQueue dropTail dropTail_plain) Int, FQ.Reach 2 s ∧
      s.sent.length = 2 ∧ s.inService ≤ 1 ∧
      ∀ i, FQ.ofFlow i s.sent ++ (s.fs i).hol.toList = s.handed i := by
  have h₁ := FQ.Reach.step (n := 2) (.init fq_fresh) (.install 3 DropTail.init) ⟨rfl, rfl⟩ rfl
  have h₂ := h₁.step (.arrival 0 3 ⟨⟨1500, 9, 0, 1, 3, false, false⟩, 0⟩) ⟨rfl, rfl⟩ rfl
  have h₃ := h₂.step (.arrival 5 3 ⟨⟨1500, 9, 0, 1, 3, false, false⟩, 1⟩) ⟨rfl, rfl⟩ rfl
  have h₄ := h₃.step (.arrival 6 3 ⟨⟨1500, 9, 0, 1, 3, false, false⟩, 2⟩) ⟨rfl, rfl⟩ rfl
  have h₅ := h₄.step (.ready 100) Nat.one_pos rfl
  obtain ⟨-, -, hin, -, hflow⟩ := FQ.fair_queueing (n := 0) h₅
  exact ⟨_, h₅, rfl, hin, fun i => (hflow i).1⟩

end NsDefault

end Afabric
