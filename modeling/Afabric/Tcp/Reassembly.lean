import Afabric.Tcp.Input
import Afabric.Tcp.RqFlags
import Afabric.Tcp.RqRuns

/-!
# Tcp — reassembly

`FullTcpAgent::reass` on a receiver whose queue lies above `rcv_nxt_`: a segment above `rcv_nxt_`
is buffered (`reass_ahead`), and a segment at `rcv_nxt_` delivers itself and the blocks it reaches,
and returns their flags (`reass_fill`).

The rest is about the flags, in particular FIN.  `flags_exact_iff` says when the blocks have the
flags of the segments merged into them: for the pointer structure of `ReassemblyQueue`, over every
sequence of calls of `add`, if and only if no call is a join that loses flags; and for a receiver,
that while no segment makes such a join, the segment that reaches a block with a FIN returns it.
-/

namespace Afabric

/-- The queue of a receiver: what is in it lies above `rcv_nxt_`. -/
structure RcvState.Wf (r : RcvState) : Prop where
  wf : SegList.Wf r.rq
  above : ∀ x ∈ r.rq, r.rcvNxt < x.start

open SegList

/-- A segment above `rcv_nxt_` leaves it where it is, below the queue. -/
theorem RcvState.Wf.add_ahead {r : RcvState} {start stop : Int} (h : r.Wf) (ti : TcpFlag)
    (hs : r.rcvNxt < start) (hlt : start < stop) :
    (add r.rq r.rcvNxt start stop ti).rcvNxt = r.rcvNxt ∧
      ∀ x ∈ (add r.rq r.rcvNxt start stop ti).blocks, r.rcvNxt < x.start := by
  obtain ⟨a, t, b, m, hj, hr⟩ := add_spec h.wf hlt r.rcvNxt ti
  refine ⟨hj.rcvNxt_eq hr hs h.above, ?_⟩
  rw [hr.blocks]
  have hold : ∀ x ∈ a ++ (t ++ b), r.rcvNxt < x.start := hj.eq ▸ h.above
  intro x hx
  rcases List.mem_append.mp hx with hx | hx
  · exact hold x (by simp [hx])
  · rcases List.mem_cons.mp hx with rfl | hx
    · rcases hj.start_eq with e | ⟨y, hy, e⟩
      · omega
      · rw [← e]
        exact hold y (by simp [hy])
    · exact hold x (by simp [hx])

/-- A segment at `rcv_nxt_` joins the blocks `t` that it reaches into the first one, `m`, which is
then cut off. -/
theorem RcvState.Wf.add_fill {r : RcvState} {stop : Int} (h : r.Wf) (ti : TcpFlag)
    (hlt : r.rcvNxt < stop) :
    ∃ t b m, Joined r.rcvNxt stop ti r.rq [] t b m ∧ m.start = r.rcvNxt ∧
      m.flags = ti ||| orFlags t ∧
      (add r.rq r.rcvNxt r.rcvNxt stop ti).blocks = m :: b ∧
      (add r.rq r.rcvNxt r.rcvNxt stop ti).rcvNxt = m.stop ∧
      (add r.rq r.rcvNxt r.rcvNxt stop ti).flags ||| m.flags = m.flags ∧
      clearto (m :: b) m.stop = (b, m.flags) := by
  obtain ⟨a, t, b, m, hj, hr⟩ := add_spec h.wf hlt r.rcvNxt ti
  obtain ⟨rfl, hms, hrcv⟩ := hj.rcvNxt_fill hr h.wf h.above
  have habove : ∀ x ∈ t, r.rcvNxt ≤ x.start := fun x hx =>
    Int.le_of_lt (h.above x (by rw [hj.eq]; simp [hx]))
  have hclear : clearto (m :: b) m.stop = (b, m.flags) := by
    obtain ⟨-, hmb, hwb⟩ := Normal.cons_iff.mp (hj.wf h.wf hlt)
    rw [clearto, if_pos (Int.le_refl _), clearto_eq hwb hmb]
    simp
  exact ⟨t, b, m, hj, hms, by rw [hj.flags, kept_of_le habove], hr.blocks, hrcv, hr.flags, hclear⟩

namespace FullTcpAgent

variable {κ : Type} {s : FullTcpAgent κ} {start len : Int} {ti : TcpFlag}

variable (ti) in
/-- A segment above `rcv_nxt_` is buffered. -/
theorem reass_ahead (h : s.rcv.Wf) (hs : s.rcv.rcvNxt < start) (hlen : 0 < len) :
    s.reass start len ti = some (0, s.setRcv fun t =>
      { t with rq := (add t.rq t.rcvNxt start (start + len) ti).blocks }) ∧
    ∀ x ∈ (add s.rcv.rq s.rcv.rcvNxt start (start + len) ti).blocks, s.rcv.rcvNxt < x.start := by
  obtain ⟨hrcv, habove⟩ := h.add_ahead ti hs (show start < start + len by omega)
  refine ⟨?_, habove⟩
  rw [reass, if_neg (by omega)]
  simp only [hrcv]
  rw [if_pos (.inr (by simpa using Int.ne_of_gt hs))]
  rfl

variable (ti) in
/-- A segment at `rcv_nxt_` delivers itself and the blocks `t` that it reaches. -/
theorem reass_fill (h : s.rcv.Wf) (hst : s.state.haveReceivedSyn = true)
    (hsr : s.state ≠ .synReceived) (hs : start = s.rcv.rcvNxt) (hlen : 0 < len) :
    ∃ t b m, Joined start (start + len) ti s.rcv.rq [] t b m ∧ m.start = start ∧
      m.flags = ti ||| orFlags t ∧
      s.reass start len ti =
        some (m.flags, s.setRcv fun t => { t with rq := b, rcvNxt := m.stop }) := by
  subst hs
  obtain ⟨t, b, m, hj, hms, hfl, hbl, hrcv, hret, hclear⟩ :=
    h.add_fill ti (show s.rcv.rcvNxt < s.rcv.rcvNxt + len by omega)
  refine ⟨t, b, m, hj, hms, hfl, ?_⟩
  rw [reass, if_neg (by omega)]
  simp only [hrcv, hbl]
  rw [if_neg (by simp [setRcv, hst]), if_neg (by simp [setRcv, hsr])]
  simp only [setRcv, hclear, hret]

/-- What is left above `rcv_nxt_` after a hole is filled. -/
theorem wf_after_fill {t b : List Block} {m : Block} {stop : Int} (h : s.rcv.Wf)
    (hlt : start < stop) (hj : Joined start stop ti s.rcv.rq [] t b m) :
    SegList.Wf b ∧ ∀ x ∈ b, m.stop < x.start := by
  obtain ⟨-, hmb, hwb⟩ := Normal.cons_iff.mp (hj.wf h.wf hlt)
  exact ⟨hwb, hmb⟩

/-! ### The flags a receiver collects -/

/-- A receiver, with the segments that have gone through `reass`, the latest first.  Between them
the agent does as it likes with the rest of its state, and a segment in order is delivered without
the queue when that is empty.  No segment makes a join that loses flags. -/
inductive Receives : List Block → FullTcpAgent κ → Prop where
  | init {s : FullTcpAgent κ} : s.rcv.rq = [] → Receives [] s
  | other {segs : List Block} {s s' : FullTcpAgent κ} :
      Receives segs s → s'.rcv.rq = s.rcv.rq → s'.rcv.rcvNxt = s.rcv.rcvNxt → Receives segs s'
  | inOrder {segs : List Block} {s : FullTcpAgent κ} (n : Int) :
      Receives segs s → s.rcv.rq = [] → 0 ≤ n →
      Receives segs (s.setRcv fun t => { t with rcvNxt := t.rcvNxt + n })
  | reass {segs : List Block} {s s' : FullTcpAgent κ} {f : TcpFlag} (sg : Block) :
      Receives segs s → s.state.haveReceivedSyn = true → s.state ≠ .synReceived →
      s.rcv.rcvNxt ≤ sg.start → sg.start < sg.stop → ¬ JoinLoses s.rcv.rq sg →
      s.reass sg.start (sg.stop - sg.start) sg.flags = some (f, s') → Receives (sg :: segs) s'

/-- The segments that are not below `rcv`. -/
def ahead (rcv : Int) (segs : List Block) : List Block := segs.filter fun z => rcv < z.start

theorem merged_ahead {rcv : Int} {segs : List Block} {b : Block} (hb : rcv < b.start) :
    merged (ahead rcv segs) b = merged segs b := by
  rw [merged, ahead, List.filter_filter, merged]
  refine List.filter_congr fun z _ => ?_
  rw [Bool.and_eq_left_iff_imp, decide_eq_true_eq, decide_eq_true_eq]
  rintro ⟨h, -⟩
  omega

/-- The invariant of `Receives`: every segment is below `rcv_nxt_` or lies in a block. -/
structure Buffered (segs : List Block) (r : RcvState) : Prop where
  wf : r.Wf
  exact : Exact segs r.rq
  live : ∀ z ∈ segs, z.start < z.stop ∧ (z.stop ≤ r.rcvNxt ∨ ∃ b ∈ r.rq, Inside b z)

theorem Buffered.exact_ahead {segs : List Block} {r : RcvState} (h : Buffered segs r) :
    Exact (ahead r.rcvNxt segs) r.rq := fun b hb => by
  rw [merged_ahead (h.wf.above b hb)]
  exact h.exact b hb

theorem Buffered.live_ahead {segs : List Block} {r : RcvState} (h : Buffered segs r) :
    Live (ahead r.rcvNxt segs) r.rq := fun z hz => by
  obtain ⟨hz, hlt⟩ := List.mem_filter.mp hz
  obtain ⟨hne, hz'⟩ := h.live z hz
  refine ⟨hne, hz'.resolve_left fun hle => ?_⟩
  have hlt : r.rcvNxt < z.start := by simpa using hlt
  omega

theorem Buffered.reass {segs : List Block} {sg : Block} {s' : FullTcpAgent κ} {f : TcpFlag}
    (h : Buffered segs s.rcv) (hst : s.state.haveReceivedSyn = true) (hsr : s.state ≠ .synReceived)
    (hle : s.rcv.rcvNxt ≤ sg.start) (hlt : sg.start < sg.stop) (hnl : ¬ JoinLoses s.rcv.rq sg)
    (he : s.reass sg.start (sg.stop - sg.start) sg.flags = some (f, s')) :
    Buffered (sg :: segs) s'.rcv := by
  have hlen : 0 < sg.stop - sg.start := by omega
  have hstop : sg.start + (sg.stop - sg.start) = sg.stop := by omega
  rcases Int.lt_or_eq_of_le hle with hlt' | heq
  · -- ahead of `rcv_nxt_` the segment is queued
    obtain ⟨he', habove⟩ := reass_ahead sg.flags h.wf hlt' hlen
    rw [hstop] at he' habove
    obtain ⟨-, rfl⟩ := Prod.mk.inj (Option.some.inj (he.symm.trans he'))
    have hex := (exact_add_iff s.rcv.rcvNxt h.wf.wf h.live_ahead h.exact_ahead hlt).mpr hnl
    have hli := live_add s.rcv.rcvNxt h.wf.wf h.live_ahead hlt
    have hcons : sg :: ahead s.rcv.rcvNxt segs = ahead s.rcv.rcvNxt (sg :: segs) := by
      rw [ahead, ahead, List.filter_cons_of_pos (by simpa using hlt')]
    rw [hcons] at hex hli
    refine ⟨⟨add_wf h.wf.wf hlt, habove⟩, fun b hb => ?_, fun z hz => ?_⟩
    · rw [← merged_ahead (habove b hb)]
      exact hex b hb
    · by_cases hz' : s.rcv.rcvNxt < z.start
      · have hz := hli z (List.mem_filter.mpr ⟨hz, by simpa using hz'⟩)
        exact ⟨hz.1, .inr hz.2⟩
      · rcases List.mem_cons.mp hz with rfl | hz
        · exact absurd hlt' hz'
        · obtain ⟨hne, hz''⟩ := h.live z hz
          refine ⟨hne, .inl (hz''.resolve_right ?_)⟩
          rintro ⟨b, hb, hin⟩
          exact hz' (Int.lt_of_lt_of_le (h.wf.above b hb) hin.1)
  · -- at `rcv_nxt_` it fills the hole, and the blocks it meets are taken out
    obtain ⟨t, b, m, hj, hms, -, he'⟩ :=
      reass_fill sg.flags h.wf hst hsr heq.symm hlen
    rw [hstop] at hj
    obtain ⟨-, rfl⟩ := Prod.mk.inj (Option.some.inj (he.symm.trans he'))
    obtain ⟨hwb, hmb⟩ := wf_after_fill h.wf hlt hj
    have hold : ∀ x ∈ b, x ∈ s.rcv.rq := fun x hx => by rw [hj.eq]; simp [hx]
    refine ⟨⟨hwb, hmb⟩, fun x hx => ?_, fun z hz => ?_⟩
    · rw [merged_cons_of_apart hlt (.inr (hj.above x hx))]
      exact h.exact x (hold x hx)
    · rcases List.mem_cons.mp hz with rfl | hz
      · exact ⟨hlt, .inl hj.le_stop⟩
      obtain ⟨hne, hz'⟩ := h.live z hz
      refine ⟨hne, ?_⟩
      rcases hz' with hz' | ⟨x, hx, hin⟩
      · refine .inl (Int.le_trans hz' ?_)
        have hle : m.start ≤ m.stop := Int.le_trans hj.start_le (Int.le_trans (Int.le_of_lt hlt)
          hj.le_stop)
        show s.rcv.rcvNxt ≤ m.stop
        omega
      · rw [hj.eq, List.nil_append] at hx
        rcases List.mem_append.mp hx with hx | hx
        · exact .inl (Int.le_trans hin.2 (hj.spans x hx).2)
        · exact .inr ⟨x, hx, hin⟩

theorem Receives.buffered {segs : List Block} (h : Receives segs s) : Buffered segs s.rcv := by
  induction h with
  | init h =>
      refine ⟨⟨by rw [h]; exact .nil, by simp [h]⟩, ?_, by simp⟩
      rw [h]
      exact fun b hb => absurd hb (by simp)
  | other _ h₁ h₂ ih =>
      refine ⟨⟨h₁ ▸ ih.wf.wf, ?_⟩, h₁ ▸ ih.exact, ?_⟩
      · rw [h₁, h₂]
        exact ih.wf.above
      · rw [h₁, h₂]
        exact ih.live
  | inOrder n _ hq hn ih =>
      refine ⟨⟨ih.wf.wf, ?_⟩, ih.exact, fun z hz => ?_⟩
      · intro x hx
        simp [setRcv, hq] at hx
      · obtain ⟨hne, hz'⟩ := ih.live z hz
        refine ⟨hne, .inl ?_⟩
        rcases hz' with hz' | ⟨b, hb, -⟩
        · exact Int.le_trans hz' (by simp only [setRcv]; omega)
        · rw [hq] at hb
          simp at hb
  | reass sg _ hst hsr hle hlt hnl he ih => exact ih.reass hst hsr hle hlt hnl he

theorem containsAll_of_sub {f g w : TcpFlag} (h : f ||| g = g) (hf : containsAll f w = true) :
    containsAll g w = true := by
  simp only [containsAll, decide_eq_true_eq] at hf ⊢
  rw [← h, BitVec.and_comm, BitVec.and_or_distrib_left, BitVec.and_comm w f, hf]
  ext i hi
  simp
  tauto

/-- The segment that reaches a block returns the flags of the segments in it. -/
theorem Receives.reass_returns {segs : List Block} (h : Receives segs s)
    (hst : s.state.haveReceivedSyn = true) (hsr : s.state ≠ .synReceived) {sg b z : Block}
    (hs : sg.start = s.rcv.rcvNxt) (hlt : sg.start < sg.stop) (hb : b ∈ s.rcv.rq)
    (hbs : b.start ≤ sg.stop) (hz : z ∈ segs) (hin : Inside b z) {w : TcpFlag}
    (hw : containsAll z.flags w = true) :
    ∃ f s', s.reass sg.start (sg.stop - sg.start) sg.flags = some (f, s') ∧
      containsAll f w = true := by
  have hB := h.buffered
  have hlen : 0 < sg.stop - sg.start := by omega
  obtain ⟨t, b', m, hj, hms, hfl, he⟩ := reass_fill sg.flags hB.wf hst hsr hs hlen
  refine ⟨_, _, he, ?_⟩
  have hbt : b ∈ t := by
    have hstop : sg.start + (sg.stop - sg.start) = sg.stop := by omega
    rw [hj.eq, List.nil_append] at hb
    refine (List.mem_append.mp hb).resolve_right fun hb' => ?_
    have := hj.above b hb'
    omega
  have hzb : z.flags ||| b.flags = b.flags := by
    rw [hB.exact b hb]
    exact flags_sub_orFlags (mem_merged.mpr ⟨hz, hin⟩)
  rw [hfl]
  exact containsAll_of_sub (sub_or_right (sub_trans hzb (flags_sub_orFlags hbt))) hw

end FullTcpAgent

/-! ### The flags of the pointer structure -/

namespace Rq

/-- The call of `add` for a segment, with the flags of the queue for it. -/
def addSeg (o : Block × Int) : RqOp := .add o.1.start o.1.stop o.1.flags o.2

/-- The calls for the segments return, and the flags of every block in the FIFO are then those of
the segments merged into it. -/
def FlagsExact (s : Rq) (segs : List (Block × Int)) : Prop :=
  ∃ s' L, s.exec (segs.map addSeg) = some s' ∧ DLL s'.next s'.prev s'.head s'.tail L ∧
    Exact (segs.map Prod.fst) (L.map s'.blk)

/-- After the calls for `pre`, the segment makes a join that loses flags. -/
def Loses (s : Rq) (pre : List (Block × Int)) (o : Block × Int) : Prop :=
  ∃ s' L, s.exec (pre.map addSeg) = some s' ∧ DLL s'.next s'.prev s'.head s'.tail L ∧
    JoinLoses (L.map s'.blk) o.1

/-- What the segments leave, whatever their flags. -/
structure Takes (s : Rq) (segs : List (Block × Int)) (s' : Rq) (L : List Nat) : Prop where
  exec : s.exec (segs.map addSeg) = some s'
  holds : Holds s' L
  wf : SegList.Wf (L.map s'.blk)
  live : Live (segs.map Prod.fst) (L.map s'.blk)

theorem exact_perm {segs segs' l : List Block} (h : segs.Perm segs') (he : Exact segs l) :
    Exact segs' l := fun b hb => by
  rw [he b hb]
  refine List.Perm.foldr_eq' (h.filter _) (fun x _ y _ z => ?_) 0
  rw [← BitVec.or_assoc, ← BitVec.or_assoc, BitVec.or_comm x.flags]

variable {s s' : Rq} {L : List Nat} {segs : List (Block × Int)} {o : Block × Int}

theorem Takes.flagsExact_iff (h : s.Takes segs s' L) :
    s.FlagsExact segs ↔ Exact (segs.map Prod.fst) (L.map s'.blk) := by
  refine ⟨?_, fun he => ⟨s', L, h.exec, h.holds.fifo, he⟩⟩
  rintro ⟨s₁, L₁, he, hL, hex⟩
  obtain rfl := Option.some.inj (he.symm.trans h.exec)
  obtain rfl := hL.unique h.holds.fifo
  exact hex

theorem Takes.loses_iff (h : s.Takes segs s' L) :
    s.Loses segs o ↔ JoinLoses (L.map s'.blk) o.1 := by
  refine ⟨?_, fun he => ⟨s', L, h.exec, h.holds.fifo, he⟩⟩
  rintro ⟨s₁, L₁, he, hL, hj⟩
  obtain rfl := Option.some.inj (he.symm.trans h.exec)
  obtain rfl := hL.unique h.holds.fifo
  exact hj

/-- One more segment. -/
theorem Takes.concat (h : s.Takes segs s' L) (ho : o.1.start < o.1.stop) :
    (∃ s₁ L₁, s.Takes (segs ++ [o]) s₁ L₁) ∧
      (s.FlagsExact segs → (s.FlagsExact (segs ++ [o]) ↔ ¬ s.Loses segs o)) := by
  obtain ⟨s₁, L₁, he, hs₁, hb, -⟩ := add_refines h.holds h.wf ho o.1.flags o.2
  have hperm : (o.1 :: segs.map Prod.fst).Perm ((segs ++ [o]).map Prod.fst) := by
    rw [List.map_append]
    exact (List.perm_append_singleton _ _).symm
  have hexec : s.exec ((segs ++ [o]).map addSeg) = some s₁ := by
    rw [List.map_append, Rq.exec, List.foldlM_append]
    show (s.exec (segs.map addSeg)).bind _ = _
    rw [h.exec]
    simp [addSeg, RqOp.exec, he]
  have h₁ : s.Takes (segs ++ [o]) s₁ L₁ := by
    refine ⟨hexec, hs₁, hb ▸ add_wf h.wf ho, ?_⟩
    rw [hb]
    intro z hz
    exact live_add _ h.wf h.live ho z (hperm.mem_iff.mpr hz)
  refine ⟨⟨s₁, L₁, h₁⟩, fun hex => ?_⟩
  rw [h₁.flagsExact_iff, h.loses_iff, hb,
    ← exact_add_iff s'.rcvNxt h.wf h.live (h.flagsExact_iff.mp hex) ho]
  exact ⟨exact_perm hperm.symm, exact_perm hperm⟩

variable (segs) in
theorem Fresh.takes (hs : s.Fresh) (hne : ∀ o ∈ segs, o.1.start < o.1.stop) :
    ∃ s' L, s.Takes segs s' L := by
  induction segs using List.reverseRecOn with
  | nil =>
      obtain ⟨L, hL, hwf, -⟩ := hs.inv
      exact ⟨s, L, rfl, hL, hwf, by simp [Live]⟩
  | append_singleton segs o ih =>
      obtain ⟨s', L, h⟩ := ih fun o' ho' => hne o' (by simp [ho'])
      exact (h.concat (hne o (by simp))).1

theorem Fresh.flagsExact_nil (hs : s.Fresh) : s.FlagsExact [] := by
  obtain ⟨s', L, h⟩ := hs.takes [] (by simp)
  have he : s' = s := (Option.some.inj h.exec).symm
  have hL : L = [] := h.holds.fifo.eq_nil_iff.mp (by rw [he]; exact hs.head)
  exact h.flagsExact_iff.mpr (by simp [hL, Exact])

/-- The flags stay exact as long as no segment makes a join that loses flags. -/
theorem Fresh.flagsExact_iff (hs : s.Fresh) (hne : ∀ o ∈ segs, o.1.start < o.1.stop) :
    (∀ pre, pre <+: segs → s.FlagsExact pre) ↔
      ∀ pre o, pre ++ [o] <+: segs → ¬ s.Loses pre o := by
  have hstep : ∀ pre o, pre ++ [o] <+: segs → s.FlagsExact pre →
      (s.FlagsExact (pre ++ [o]) ↔ ¬ s.Loses pre o) := by
    intro pre o hp
    have hmem : ∀ o' ∈ pre ++ [o], o'.1.start < o'.1.stop := fun o' ho' => hne o' (hp.subset ho')
    obtain ⟨s', L, h⟩ := hs.takes pre fun o' ho' => hmem o' (by simp [ho'])
    exact (h.concat (hmem o (by simp))).2
  constructor
  · intro hex pre o hp
    exact (hstep pre o hp (hex pre ((List.prefix_append _ _).trans hp))).mp (hex _ hp)
  · intro hl pre
    induction pre using List.reverseRecOn with
    | nil => exact fun _ => hs.flagsExact_nil
    | append_singleton pre o ih =>
        intro hp
        exact (hstep pre o hp (ih ((List.prefix_append _ _).trans hp))).mpr (hl pre o hp)

end Rq

/-- **When no flag is lost in reassembly.**  Over any sequence of calls of `add`, the flags of the
blocks are exact after each of them if and only if none is a join that loses flags; and a receiver
for which no segment makes such a join gets the FIN of a buffered segment back from `reass` with
the segment that fills the hole below its block. -/
theorem flags_exact_iff (κ : Type) :
    (∀ (s : Rq) (segs : List (Block × Int)), s.Fresh → (∀ o ∈ segs, o.1.start < o.1.stop) →
      ((∀ pre, pre <+: segs → s.FlagsExact pre) ↔
        ∀ pre o, pre ++ [o] <+: segs → ¬ s.Loses pre o)) ∧
    (∀ (segs : List Block) (s : FullTcpAgent κ) (sg b z : Block), FullTcpAgent.Receives segs s →
      s.state.haveReceivedSyn = true → s.state ≠ .synReceived →
      sg.start = s.rcv.rcvNxt → sg.start < sg.stop → b ∈ s.rcv.rq → b.start ≤ sg.stop →
      z ∈ segs → Inside b z → containsAll z.flags TcpFlag.fin = true →
      ∃ f s', s.reass sg.start (sg.stop - sg.start) sg.flags = some (f, s') ∧
        containsAll f TcpFlag.fin = true) :=
  ⟨fun _ _ hs hne => hs.flagsExact_iff hne,
    fun _ _ _ _ _ h hst hsr hs hlt hb hbs hz hin hw =>
      h.reass_returns hst hsr hs hlt hb hbs hz hin hw⟩

/-- The segments of a stream whose last one, with the FIN, comes before the middle one. -/
def bridged : List (Block × Int) :=
  [(⟨20, 30, 0⟩, 0), (⟨40, 50, TcpFlag.fin⟩, 0), (⟨30, 40, 0⟩, 0)]

/-- A receiver that has all up to byte 10. -/
def NsDefault.receiver : FullTcpAgent Bool :=
  { NsDefault.agent with state := .established, rcv := ⟨10, 0, [], -1, []⟩ }

/-- The receiver after `reass` of the segments. -/
def FullTcpAgent.reassAll {κ : Type} (s : FullTcpAgent κ) (segs : List Block) :
    Option (FullTcpAgent κ) :=
  segs.foldlM (fun s sg => (s.reass sg.start (sg.stop - sg.start) sg.flags).map Prod.snd) s

/-- The segment in the middle joins the two blocks and the FIN is lost: the block has it no more,
and the segment that fills the hole below it does not get it. -/
theorem fin_lost_in_bridge :
    ¬ Rq.empty.FlagsExact bridged ∧
    (NsDefault.receiver.reassAll (bridged.map Prod.fst)).map (·.rcv.rq) = some [⟨20, 50, 0⟩] ∧
    ((NsDefault.receiver.reassAll (bridged.map Prod.fst)).bind fun s =>
      (s.reass 10 10 0).map fun r => (r.1, r.2.rcv.rcvNxt)) = some (0, 50) ∧
    containsAll (0 : TcpFlag) TcpFlag.fin = false := by
  refine ⟨?_, by decide, by decide, by decide⟩
  rintro ⟨s', L, he, hL, hex⟩
  have hs' : (Rq.empty.exec (bridged.map Rq.addSeg)).map (fun s => (s.head, s.next 0, s.blk 0)) =
      some (some 0, none, ⟨20, 50, 0⟩) := by decide
  rw [he, Option.map_some, Option.some_inj, Prod.mk.injEq, Prod.mk.injEq] at hs'
  obtain ⟨hhd, hnx, hbl⟩ := hs'
  have hL' : SLL s'.next s'.head L := hL.head_eq ▸ hL.linked.sll
  obtain rfl : L = [0] := hL'.unique ⟨hhd, hnx⟩
  have := hex (s'.blk 0) (by simp)
  rw [hbl] at this
  exact absurd this (by decide)

theorem not_joinLoses_nil (sg : Block) : ¬ JoinLoses [] sg := by
  rintro ⟨x, k, y, h, -⟩
  simp [touched] at h

/-- A FIN segment that is buffered alone, and the segment before it. -/
theorem flags_exact_iff_ahead :
    (∀ pre, pre <+: [(⟨20, 30, TcpFlag.fin⟩, 0)] → Rq.empty.FlagsExact pre) ∧
    ∃ s f s', NsDefault.receiver.reass 20 10 TcpFlag.fin = some (0, s) ∧
      s.reass 10 (20 - 10) 0 = some (f, s') ∧ containsAll f TcpFlag.fin = true := by
  refine ⟨((flags_exact_iff Bool).1 Rq.empty _ Rq.empty_fresh (by decide)).mpr ?_, ?_⟩
  · intro pre o hp
    obtain rfl : pre = [] := by
      have hlen : pre.length + 1 ≤ 1 := by simpa using hp.length_le
      exact List.length_eq_zero_iff.mp (by omega)
    rintro ⟨s', L, he, hL, hj⟩
    obtain rfl := Option.some.inj he
    obtain rfl : L = [] := hL.eq_nil_iff.mp rfl
    exact not_joinLoses_nil _ hj
  · have hr : FullTcpAgent.Receives [⟨20, 30, TcpFlag.fin⟩]
        (NsDefault.receiver.setRcv fun t => { t with rq := [⟨20, 30, TcpFlag.fin⟩] }) :=
      .reass ⟨20, 30, TcpFlag.fin⟩ (.init (s := NsDefault.receiver) rfl) rfl (by decide) (by decide)
        (by decide) (not_joinLoses_nil _) rfl
    obtain ⟨f, s', he, hf⟩ := (flags_exact_iff Bool).2 _ _ ⟨10, 20, 0⟩ ⟨20, 30, TcpFlag.fin⟩
      ⟨20, 30, TcpFlag.fin⟩ hr rfl (by decide) rfl (by decide) (by simp [FullTcpAgent.setRcv])
      (by decide) (by simp) (by decide) (by decide)
    exact ⟨_, f, s', rfl, he, hf⟩

end Afabric
