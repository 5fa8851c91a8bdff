import Afabric.Support.Assoc
import Afabric.Tcp.SessionSched
import Mathlib.Algebra.Order.BigOperators.Group.Finset

/-!
# Tcp — a session that sends

`TcpSessionAgent` (`tcp-session.cc`) with what it keeps of its `CorresHost` (`chost.cc`), over the
choice of `SessionSched`.  Congestion control, the acknowledgments' effect on the list of segments
and the applications are events with any outcome; `double`s are rationals.

In every state that a run reaches, the choice finds a connection with data exactly when
`SessionSched.Ready` says so, and a `send_much` whose turns are all ready stops at the edge of the
window, at the burst limit, or with no data left (`session_conserves_iff`).
-/

namespace Afabric

/-- `Segment`, a packet that is not acknowledged. -/
structure SessionSegment where
  sender : ℕ
  seqno : ℤ
  sessionSeqno : ℤ
  size : ℤ
deriving DecidableEq

structure TcpSession where
  sched : SessionSched := {}
  /-- The weights of the agents that `add_agent` turned away. -/
  refused : List ℤ := []
  cwnd : ℚ := 0
  maxcwnd : ℤ := 0
  ownd : ℚ := 0
  owndCorrection : ℚ := 0
  seglist : List SessionSegment := []
  sessionSeqno : ℤ := 0
  schedDisp : SchedDisp := .fineRoundRobin
  maxburst : ℤ := 0
  fixedIw : Bool := false
  /-- `burstsnd_timer_` is pending. -/
  burstPending : Bool := false
deriving DecidableEq

/-- Where `send_much` stops. -/
inductive SendStop where
  | pending
  | full
  | burst
  | noSender
  | fault
deriving DecidableEq

inductive SessionEvent where
  | addAgent (c : IntTcpAgent)
  | setWeight (i : ℕ) (wt : ℤ)
  /-- The weight of an agent that was turned away. -/
  | setWeightRefused (i : ℕ) (wt : ℤ)
  | resetwt
  | bind (schedDisp : SchedDisp) (maxburst maxcwnd : ℤ) (fixedIw : Bool)
  /-- The application of a connection has sent up to here. -/
  | app (i : ℕ) (curseq : ℤ)
  | newack (i : ℕ) (seqno : ℤ)
  /-- `output` of a segment that is sent again. -/
  | output (i : ℕ) (seqno : ℤ)
  /-- `opencwnd`, `closecwnd`, `slowdown` and `clean_segs`. -/
  | congestion (cwnd ownd owndCorrection : ℚ) (seglist : List SessionSegment)
  /-- `timeout`, up to the call of `send_much`. -/
  | timeout (reset : Bool)
  /-- A turn of the loop of `send_much`. -/
  | turn
  | burst (pending : Bool)

def MAX_PARALLEL_CONN : ℕ := 1000

namespace TcpSession

def window (s : TcpSession) : ℤ :=
  if s.maxcwnd = 0 then truncate s.cwnd else truncate (min s.cwnd s.maxcwnd)

def okToSnd (s : TcpSession) : Prop := s.ownd + 1 ≤ s.cwnd

instance (s : TcpSession) : Decidable s.okToSnd := inferInstanceAs (Decidable (_ ≤ _))

/-- `add_agent` of the session. -/
def addAgent (s : TcpSession) (c : IntTcpAgent) : TcpSession :=
  let s :=
    if MAX_PARALLEL_CONN ≤ s.sched.conns.length then { s with refused := s.refused ++ [c.wt] }
    else
      { s with
        cwnd := if !s.fixedIw ∧ 1 < s.sched.conns.length + 1 ∨ s.cwnd = 0 then s.cwnd + 1
          else s.cwnd
        sched := { s.sched with conns := s.sched.conns ++ [c] } }
  { s with sched := ({ s.sched with wtSum := s.sched.wtSum + c.wt }).resetDynWeights }

/-- `set_weight` of a connection. -/
def setWeight (s : TcpSession) (i : ℕ) (wt : ℤ) : TcpSession :=
  { s with sched := { s.sched with
      conns := s.sched.conns.modify i fun c => { c with wt := wt }
      wtSum := s.sched.wtSum - (s.sched.conn i).wt + wt } }

def setWeightRefused (s : TcpSession) (i : ℕ) (wt : ℤ) : TcpSession :=
  { s with
    refused := s.refused.set i wt
    sched := { s.sched with wtSum := s.sched.wtSum - s.refused.getD i 0 + wt } }

/-- The command `resetwt`. -/
def resetwt (s : TcpSession) : TcpSession :=
  { s with sched := { s.sched with
      conns := s.sched.conns.map fun c => { c with wt := 1 }
      wtSum := s.sched.conns.length } }

/-- A connection goes on by itself. -/
def update (s : TcpSession) (i : ℕ) (f : IntTcpAgent → IntTcpAgent) : TcpSession :=
  { s with sched := { s.sched with conns := s.sched.conns.modify i f } }

def adjustOwnd (s : TcpSession) (size : ℤ) : TcpSession :=
  { s with
    ownd := if s.owndCorrection < size then s.ownd - min s.ownd (size - s.owndCorrection)
      else s.ownd
    owndCorrection := s.owndCorrection - min s.owndCorrection size }

/-- `findSessionSeqno`. -/
def findSessionSeqno (s : TcpSession) (sender : ℕ) (seqno : ℤ) : ℤ :=
  let m := s.seglist.foldl (fun m cur =>
    if sender = cur.sender ∧ seqno ≤ cur.seqno ∧ cur.sessionSeqno < m then cur.sessionSeqno else m)
    s.sessionSeqno
  if m = s.sessionSeqno then s.sessionSeqno - 1 else m

/-- `removeSessionSeqno`. -/
def removeSessionSeqno (s : TcpSession) (k : ℤ) : TcpSession :=
  match s.seglist.find? fun cur => cur.sessionSeqno = k with
  | none => s
  | some cur =>
    ({ s with seglist := s.seglist.eraseP fun cur => cur.sessionSeqno = k }).adjustOwnd cur.size

/-- `send_one`, with the `output` and the `add_pkts` that it calls. -/
def sendOne (s : TcpSession) (i : ℕ) (k : ℤ) : TcpSession :=
  let seqno := (s.sched.conn i).tSeqno
  { s.update i .sent with
    ownd := s.ownd + 1
    seglist := s.seglist ++ [⟨i, seqno, k, 1⟩] }

/-- The body of the loop of `send_much`, for a sender. -/
def sendTo (s : TcpSession) (i : ℕ) : TcpSession :=
  if (s.sched.conn i).tSeqno < (s.sched.conn i).maxseq then
    let k := s.findSessionSeqno i (s.sched.conn i).tSeqno
    (s.removeSessionSeqno k).sendOne i k
  else ({ s with sessionSeqno := s.sessionSeqno + 1 }).sendOne i s.sessionSeqno

/-- The loop of `send_much`, after `npackets`. -/
def sendLoop : ℕ → ℕ → TcpSession → Option (SendStop × ℕ × TcpSession)
  | 0, _, _ => none
  | fuel + 1, npackets, s =>
    if s.okToSnd then
      match s.sched.whoToSnd s.window s.schedDisp with
      | none => some (.fault, npackets, s)
      | some (none, c) => some (.noSender, npackets, { s with sched := c })
      | some (some i, c) =>
        let s := ({ s with sched := c }).sendTo i
        if s.maxburst ≠ 0 ∧ (npackets : ℤ) + 1 = s.maxburst then
          some (.burst, npackets + 1, { s with burstPending := s.okToSnd ∨ s.burstPending })
        else sendLoop fuel (npackets + 1) s
    else some (.full, npackets, s)

/-- `send_much`; `cwnd` is the congestion window after the restart that follows idle time. -/
def sendMuch (fuel : ℕ) (timeout : Bool) (cwnd : ℚ) (s : TcpSession) :
    Option (SendStop × ℕ × TcpSession) :=
  if !timeout ∧ s.burstPending then some (.pending, 0, s)
  else sendLoop fuel 0 { s with cwnd := cwnd }

/-- `timeout`, for the timer of the retransmissions or that of fast start. -/
def timeout (s : TcpSession) (reset : Bool) : TcpSession :=
  { s with
    ownd := 0
    owndCorrection := 0
    seglist := s.seglist.map fun cur => { cur with size := 0 }
    sched := { s.sched with conns := s.sched.conns.map fun c =>
      { c with
        tSeqno := c.highestAck + 1
        maxseq := if reset then c.highestAck else c.maxseq } } }

open SessionEvent in
/-- What an event does; a turn that ends the program leaves nothing. -/
def handle (s : TcpSession) : SessionEvent → Option TcpSession
  | .addAgent c => some (s.addAgent { c with wt := 1 })
  | .setWeight i wt => if i < s.sched.conns.length then some (s.setWeight i wt) else none
  | .setWeightRefused i wt => if i < s.refused.length then some (s.setWeightRefused i wt) else none
  | .resetwt => some s.resetwt
  | .bind d b m f => some { s with schedDisp := d, maxburst := b, maxcwnd := m, fixedIw := f }
  | .app i n => some (s.update i fun c => { c with curseq := n })
  | .newack i n =>
    some (s.update i fun c => { c with highestAck := n, tSeqno := max c.tSeqno (n + 1) })
  | .output i n => some (s.update i fun c => { c with maxseq := max c.maxseq n })
  | .congestion w o k l =>
    some { s with cwnd := w, ownd := o, owndCorrection := k, seglist := l }
  | .timeout reset => some (s.timeout reset)
  | .turn =>
    if s.okToSnd then
      match s.sched.whoToSnd s.window s.schedDisp with
      | none => none
      | some (none, c) => some { s with sched := c }
      | some (some i, c) => some (({ s with sched := c }).sendTo i)
    else none
  | .burst pending => some { s with burstPending := pending }

def run (es : List SessionEvent) : Option TcpSession := es.foldlM handle {}

/-! ### What the events keep -/

/-- The iterator is in the list; the sums are right until an agent is turned away. -/
structure Inv (s : TcpSession) : Prop where
  inList : s.sched.InList
  books : s.refused = [] → s.sched.Books

variable {s t : TcpSession} {i : ℕ}

theorem Inv.init : Inv {} where
  inList := nofun
  books := fun _ => ⟨rfl, rfl⟩

theorem Inv.congr (h : Inv s) (hc : t.sched = s.sched) (hr : t.refused = s.refused) : Inv t where
  inList := hc ▸ h.inList
  books := fun ht => hc ▸ h.books (hr ▸ ht)

theorem Inv.addAgent (h : Inv s) (c : IntTcpAgent) : Inv (s.addAgent c) := by
  rw [TcpSession.addAgent]
  split
  · refine ⟨fun k hk => ?_, fun hr => absurd hr (by simp)⟩
    have hlt := h.inList k hk
    simpa only [SessionSched.resetDynWeights, List.length_map] using hlt
  · refine ⟨fun k hk => ?_, fun hr => SessionSched.resetDynWeights_books ?_⟩
    · have hlt := h.inList k hk
      simp only [SessionSched.resetDynWeights, List.length_map, List.length_append]
      omega
    · simp only [List.map_append, List.sum_append, (h.books hr).wtSum, List.map_cons, List.map_nil,
        List.sum_singleton]

theorem Inv.update (h : Inv s) (i : ℕ) {f : IntTcpAgent → IntTcpAgent}
    (hwt : ∀ c, (f c).wt = c.wt) (hdyn : ∀ c, (f c).dynWt = c.dynWt) : Inv (s.update i f) := by
  have hmap : ∀ g : IntTcpAgent → ℤ, (∀ c, g (f c) = g c) →
      (s.sched.conns.modify i f).map g = s.sched.conns.map g := by
    intro g hg
    refine List.ext_getElem? fun k => ?_
    rw [List.getElem?_map, List.getElem?_map, List.getElem?_modify]
    cases s.sched.conns[k]? with
    | none => rfl
    | some c =>
      by_cases hik : i = k
      · simp [hik, hg]
      · simp [hik]
  refine ⟨fun k hk => ?_, fun hr => ⟨?_, ?_⟩⟩
  · rw [TcpSession.update, List.length_modify]
    exact h.inList k hk
  · simp only [TcpSession.update, hmap (·.wt) hwt]
    exact (h.books hr).wtSum
  · simp only [TcpSession.update, hmap (·.dynWt) hdyn]
    exact (h.books hr).dynWtSum

theorem Inv.setWeight (h : Inv s) (i : ℕ) (wt : ℤ) (hi : i < s.sched.conns.length) :
    Inv (s.setWeight i wt) := by
  refine ⟨fun k hk => ?_, fun hr => ⟨?_, ?_⟩⟩
  · rw [TcpSession.setWeight, List.length_modify]
    exact h.inList k hk
  · have hsum := (h.books hr).wtSum
    simp only [TcpSession.setWeight, SessionSched.sum_map_modify (·.wt) hi, SessionSched.conn, hsum]
    ring
  · have hsum := (h.books hr).dynWtSum
    simp only [TcpSession.setWeight, SessionSched.sum_map_modify (·.dynWt) hi, sub_self, add_zero]
    exact hsum

theorem Inv.map (h : Inv s) {f : IntTcpAgent → IntTcpAgent} {w : ℤ}
    (hwt : s.refused = [] → w = (s.sched.conns.map fun c => (f c).wt).sum)
    (hdyn : ∀ c, (f c).dynWt = c.dynWt) :
    Inv { s with sched := { s.sched with conns := s.sched.conns.map f, wtSum := w } } := by
  refine ⟨fun k hk => ?_, fun hr => ⟨?_, ?_⟩⟩
  · rw [List.length_map]
    exact h.inList k hk
  · rw [List.map_map]
    exact hwt hr
  · have hd : (fun c : IntTcpAgent => c.dynWt) ∘ f = (·.dynWt) := funext hdyn
    rw [List.map_map, hd]
    exact (h.books hr).dynWtSum

theorem Inv.resetwt (h : Inv s) : Inv s.resetwt := by
  refine h.map (fun _ => ?_) fun _ => rfl
  simp

theorem Inv.timeout (h : Inv s) (reset : Bool) : Inv (s.timeout reset) := by
  have hs := h.map (f := fun c => { c with
    tSeqno := c.highestAck + 1, maxseq := if reset then c.highestAck else c.maxseq })
    (fun hr => (h.books hr).wtSum) fun _ => rfl
  exact hs.congr rfl rfl

theorem removeSessionSeqno_leaves (s : TcpSession) (k : ℤ) :
    (s.removeSessionSeqno k).sched = s.sched ∧ (s.removeSessionSeqno k).refused = s.refused ∧
      (s.removeSessionSeqno k).maxburst = s.maxburst := by
  rw [TcpSession.removeSessionSeqno]
  split <;> exact ⟨rfl, rfl, rfl⟩

theorem sendTo_leaves (s : TcpSession) (i : ℕ) :
    (s.sendTo i).sched = (s.update i .sent).sched ∧ (s.sendTo i).refused = s.refused ∧
      (s.sendTo i).maxburst = s.maxburst := by
  rw [TcpSession.sendTo]
  split
  · obtain ⟨hc, hr, hm⟩ := s.removeSessionSeqno_leaves
      (s.findSessionSeqno i (s.sched.conn i).tSeqno)
    refine ⟨?_, hr, hm⟩
    simp only [sendOne, TcpSession.update, hc]
  · exact ⟨rfl, rfl, rfl⟩

theorem Inv.sendTo (h : Inv s) (i : ℕ) : Inv (s.sendTo i) :=
  (h.update i (f := .sent) (fun _ => rfl) fun _ => rfl).congr (s.sendTo_leaves i).1
    (s.sendTo_leaves i).2.1

theorem Inv.choice {r : Option ℕ} {c : SessionSched} (h : Inv s)
    (hw : s.sched.whoToSnd s.window s.schedDisp = some (r, c)) : Inv { s with sched := c } := by
  obtain ⟨hk, hi, -⟩ := SessionSched.whoToSnd_some h.inList hw
  exact ⟨hi, fun hr => hk.books (h.books hr)⟩

theorem Inv.handle (h : Inv s) {e : SessionEvent} (he : s.handle e = some t) : Inv t := by
  cases e with
  | addAgent c =>
    cases he
    exact h.addAgent _
  | setWeight i wt =>
    rw [TcpSession.handle] at he
    split at he
    next hi =>
      cases he
      exact h.setWeight i wt hi
    next => cases he
  | setWeightRefused i wt =>
    rw [TcpSession.handle] at he
    split at he
    next hi =>
      cases he
      refine ⟨h.inList, fun hr => ?_⟩
      have hl := congrArg List.length hr
      rw [TcpSession.setWeightRefused, List.length_set] at hl
      rw [hl] at hi
      exact absurd hi (Nat.not_lt_zero i)
    next => cases he
  | resetwt =>
    cases he
    exact h.resetwt
  | app i n =>
    cases he
    exact h.update i (fun _ => rfl) fun _ => rfl
  | newack i n =>
    cases he
    exact h.update i (fun _ => rfl) fun _ => rfl
  | output i n =>
    cases he
    exact h.update i (fun _ => rfl) fun _ => rfl
  | timeout reset =>
    cases he
    exact h.timeout reset
  | turn =>
    rw [TcpSession.handle] at he
    split at he
    · split at he
      next => cases he
      next hw =>
        cases he
        exact h.choice hw
      next hw =>
        cases he
        exact (h.choice hw).sendTo _
    · cases he
  | bind | congestion | burst =>
    cases he
    exact h.congr rfl rfl

theorem run_inv {es : List SessionEvent} (h : run es = some s) : Inv s :=
  foldlM_invariant Inv h .init fun _ _ _ _ hs he => hs.handle he

/-! ### Where `send_much` stops -/

/-- The turns of the loop of `send_much` that send a packet. -/
inductive Turns : TcpSession → ℕ → TcpSession → Prop where
  | refl (s : TcpSession) : Turns s 0 s
  | more {s t : TcpSession} {i n : ℕ} {c : SessionSched} (hok : s.okToSnd)
      (hw : s.sched.whoToSnd s.window s.schedDisp = some (some i, c))
      (h : Turns (({ s with sched := c }).sendTo i) n t) : Turns s (n + 1) t

/-- Every turn up to the burst limit that asks for a connection is ready for it. -/
def ReadyTurns (npackets : ℕ) (s : TcpSession) : Prop :=
  ∀ n t, Turns s n t → t.okToSnd → (t.maxburst ≤ 0 ∨ (npackets + n : ℕ) < t.maxburst) →
    t.sched.Ready t.window t.schedDisp

/-- The reasons to stop. -/
def Stopped : SendStop → ℕ → TcpSession → Prop
  | .pending, _, t => t.burstPending = true
  | .full, _, t => ¬ t.okToSnd
  | .burst, n, t => n = t.maxburst
  | .noSender, _, t => ¬ t.sched.HasData
  | .fault, _, _ => False

/-- The data left to send. -/
def work (s : TcpSession) : ℕ :=
  ∑ k ∈ Finset.range s.sched.conns.length, ((s.sched.conn k).curseq - (s.sched.conn k).tSeqno).toNat

theorem work_congr {c : SessionSched} (hk : SessionSched.Kept s.sched c) :
    work { s with sched := c } = s.work := by
  rw [work, work, hk.length]
  refine Finset.sum_congr rfl fun k _ => ?_
  have hc := hk.conn k
  rw [IntTcpAgent.mk.injEq] at hc
  rw [hc.2.2.1, hc.2.2.2.1]

theorem sendTo_conn (hi : i < s.sched.conns.length) (k : ℕ) :
    (s.sendTo i).sched.conn k
      = if k = i then (s.sched.conn k).sent else s.sched.conn k := by
  rw [(s.sendTo_leaves i).1]
  exact SessionSched.getD_modify hi

theorem sendTo_length (s : TcpSession) (i : ℕ) :
    (s.sendTo i).sched.conns.length = s.sched.conns.length := by
  rw [(s.sendTo_leaves i).1]
  exact List.length_modify _ _ _

theorem work_sendTo (hd : (s.sched.conn i).dataLeft) : (s.sendTo i).work < s.work := by
  have hi := SessionSched.lt_of_dataLeft hd
  rw [work, work, sendTo_length]
  refine Finset.sum_lt_sum (fun k _ => ?_) ⟨i, Finset.mem_range.mpr hi, ?_⟩
  · rw [sendTo_conn hi]
    split
    · simp only [IntTcpAgent.sent]
      omega
    · rfl
  · rw [IntTcpAgent.dataLeft] at hd
    rw [sendTo_conn hi, if_pos rfl]
    simp only [IntTcpAgent.sent]
    omega

theorem positiveWeights_sendTo (hw : s.sched.PositiveWeights) (hi : i < s.sched.conns.length) :
    (s.sendTo i).sched.PositiveWeights := by
  intro k hk
  rw [sendTo_length] at hk
  rw [sendTo_conn hi]
  split
  · exact hw k hk
  · exact hw k hk

/-- The loop comes to an end, for one of the reasons, as long as its turns are ready. -/
theorem sendLoop_stopped {fuel npackets : ℕ} (h : Inv s) (hn : s.sched.conns ≠ [])
    (hw : s.sched.PositiveWeights) (hready : ReadyTurns npackets s)
    (hburst : s.maxburst ≤ 0 ∨ npackets < s.maxburst) (hfuel : s.work < fuel) :
    ∃ stop n t, sendLoop fuel npackets s = some (stop, n, t) ∧ Stopped stop n t := by
  induction fuel generalizing s npackets with
  | zero => exact absurd hfuel (Nat.not_lt_zero _)
  | succ fuel ih =>
    by_cases hok : s.okToSnd
    · have hr := hready 0 s (.refl s) hok hburst
      have h0 : s.schedDisp = .coarseRoundRobin → s.sched.curConn ≠ none → s.sched.wtSum ≠ 0 := by
        intro hd
        rw [hd] at hr
        exact hr.1
      obtain ⟨r, c, hrun, hk, -, hdata, hsome⟩ :=
        SessionSched.whoToSnd_spec s.window (h.inList.standing_lt hn) h0
      cases r with
      | none =>
        refine ⟨.noSender, npackets, { s with sched := c }, ?_, fun hd => ?_⟩
        · rw [sendLoop, if_pos hok, hrun]
        · exact absurd ((hsome hw (hk.hasData.mp hd)).mpr hr) (by decide)
      | some i =>
        -- the packet of this turn
        have hd : ({ s with sched := c }.sched.conn i).dataLeft := (hk.dataLeft i).mpr (hdata i rfl)
        have hi := SessionSched.lt_of_dataLeft hd
        obtain ⟨t, ht⟩ : ∃ t, t = ({ s with sched := c }).sendTo i := ⟨_, rfl⟩
        have hmax : t.maxburst = s.maxburst := ht ▸ (sendTo_leaves _ i).2.2
        by_cases hstop : s.maxburst ≠ 0 ∧ (npackets : ℤ) + 1 = s.maxburst
        · refine ⟨.burst, npackets + 1, { t with burstPending := t.okToSnd ∨ t.burstPending },
            ?_, ?_⟩
          · rw [sendLoop, if_pos hok, hrun]
            subst ht
            exact if_pos (hmax.symm ▸ hstop)
          · rw [Stopped, hmax]
            exact_mod_cast hstop.2
        · have hloop : sendLoop (fuel + 1) npackets s = sendLoop fuel (npackets + 1) t := by
            rw [sendLoop, if_pos hok, hrun]
            subst ht
            exact if_neg (hmax.symm ▸ hstop)
          rw [hloop]
          have hwork : t.work < s.work := by
            rw [ht, ← work_congr hk]
            exact work_sendTo hd
          refine ih (ht ▸ (h.choice hrun).sendTo i) ?_ ?_ ?_ ?_ (by omega)
          · rw [← List.length_pos_iff, ht, sendTo_length, hk.length]
            exact List.length_pos_iff.mpr hn
          · exact ht ▸ positiveWeights_sendTo (hk.positiveWeights hw) hi
          · intro n u hu hok' hb
            refine hready (n + 1) u (.more hok hrun (ht ▸ hu)) hok' ?_
            rw [Nat.add_comm n 1, ← Nat.add_assoc]
            exact hb
          · rw [hmax]
            push_cast
            omega
    · exact ⟨.full, npackets, s, by rw [sendLoop, if_neg hok], hok⟩

/-- **Work conservation.** In every state that a run of a session reaches, with positive weights, a
choice ends and finds a connection with data if there is one, exactly when the session is ready for
it.  The weights add up to something as long as no agent was turned away.  And a `send_much` whose
turns are ready ends, with the window full, at the burst limit, or with no data left. -/
theorem session_conserves_iff {es : List SessionEvent} (hrun : run es = some s)
    (hn : s.sched.conns ≠ []) (hw : s.sched.PositiveWeights) :
    (∀ window how, s.sched.Conserving window how ↔ s.sched.Ready window how) ∧
      (s.refused = [] → s.sched.Books) ∧
      ∀ timeout cwnd, ReadyTurns 0 { s with cwnd := cwnd } → ∀ fuel, s.work < fuel →
        ∃ stop n t, s.sendMuch fuel timeout cwnd = some (stop, n, t) ∧ Stopped stop n t := by
  have h := run_inv hrun
  refine ⟨fun window how => SessionSched.conserving_iff (h.inList.standing_lt hn) hw, h.books,
    fun timeout cwnd hready fuel hfuel => ?_⟩
  by_cases hp : !timeout ∧ s.burstPending
  · refine ⟨.pending, 0, s, by rw [sendMuch, if_pos hp], hp.2⟩
  · rw [sendMuch, if_neg hp]
    refine sendLoop_stopped (s := { s with cwnd := cwnd }) (h.congr rfl rfl) hn hw hready ?_ hfuel
    by_cases hb : s.maxburst ≤ 0
    · exact .inl hb
    · exact .inr (by push_cast; omega)

/-! ### A connection that has run dry -/

/-- Two connections, the second with twice the weight and with data for two packets; after two
packets of each, the second has a credit left, and no data. -/
def dryRun : List SessionEvent :=
  [.addAgent { curseq := 5 }, .addAgent { curseq := 2 }, .setWeight 1 2, .congestion 10 0 0 [],
    .turn, .turn, .turn, .turn]

def dry : TcpSession where
  sched :=
    { conns :=
        [{ dynWt := 0, curseq := 5, tSeqno := 2, maxseq := 1 },
          { wt := 2, dynWt := 1, curseq := 2, tSeqno := 2, maxseq := 1 }]
      iter := none
      wtSum := 3
      dynWtSum := 1 }
  cwnd := 10
  ownd := 4
  seglist := [⟨0, 0, 0, 1⟩, ⟨1, 0, 1, 1⟩, ⟨0, 1, 2, 1⟩, ⟨1, 1, 3, 1⟩]
  sessionSeqno := 4

theorem dryRun_eq : run dryRun = some dry := by decide +kernel

/-- The first connection has data, and the choice comes to none. -/
theorem dry_not_conserving : run dryRun = some dry ∧ dry.sched.conns ≠ [] ∧
    dry.sched.PositiveWeights ∧ ¬ dry.sched.Conserving dry.window dry.schedDisp ∧
    ∃ t, dry.sendMuch 5 false dry.cwnd = some (.noSender, 0, t) ∧ t.okToSnd ∧ t.sched.HasData := by
  have hnone : (dry.sched.whoToSnd dry.window dry.schedDisp).map (·.1) = some none := by
    decide +kernel
  refine ⟨dryRun_eq, by decide, by decide, ?_, ?_⟩
  · rintro ⟨r, s', hrun, hfound⟩
    obtain ⟨i, hi, -⟩ := hfound (by decide)
    rw [hrun] at hnone
    cases hnone
    cases hi
  · refine ⟨{ dry with sched := { dry.sched with
      conns := dry.sched.conns.map fun c => { c with dynWt := 0 }, dynWtSum := 0 } }, ?_, ?_, ?_⟩
    · decide +kernel
    · decide +kernel
    · decide

theorem session_conserves_dry : (run dryRun = some dry ∧ dry.sched.conns ≠ [] ∧
    dry.sched.PositiveWeights) ∧ dry.sched.Books ∧
    ∀ window how, dry.sched.Conserving window how ↔ dry.sched.Ready window how :=
  have h := session_conserves_iff dryRun_eq (by decide) (by decide)
  ⟨⟨dryRun_eq, by decide, by decide⟩, h.2.1 rfl, h.1⟩

end TcpSession

end Afabric
