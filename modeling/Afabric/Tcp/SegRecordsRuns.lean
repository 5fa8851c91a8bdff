import Afabric.Tcp.SegRecords

/-!
# Tcp — the records of a session in its runs

A packet that is sent again takes its record's place, unless it counts as a new one: the last packet
of a connection after a timeout, and any packet after `TCP_TIMER_RESET`.  And a marked record that
is acknowledged, or sent again in a turn, is counted on.  In every run without these (`Tidy`) the
records are right (`run_recorded`).
-/

namespace Afabric

namespace CorresHost

open HostState

variable {h h' : HostState} {s t : CorresHost} {l a b : List ℕ} {x : ℕ} {top : ℕ → ℤ} {i : ℕ}
  {k : ℤ} {ts : ℚ} {ks : List (ℕ × ℤ × ℤ)}

/-! ### Turns -/

/-- The least of what counts, from `m` on. -/
theorem foldl_least {c : ℕ → Prop} [DecidablePred c] {f : ℕ → ℤ} {m : ℤ} (hm : k ≤ m)
    (hall : ∀ y ∈ l, c y → k ≤ f y) (hex : m = k ∨ ∃ x ∈ l, c x ∧ f x = k) :
    l.foldl (fun m y => if c y ∧ f y < m then f y else m) m = k := by
  induction l generalizing m with
  | nil =>
      rcases hex with hm | ⟨x, hx, -⟩
      · exact hm
      · exact absurd hx List.not_mem_nil
  | cons y l ih =>
      rw [List.foldl_cons]
      have hy := hall y List.mem_cons_self
      refine ih ?_ (fun z hz => hall z (List.mem_cons_of_mem y hz)) ?_
      · split_ifs with hc
        · exact hy hc.1
        · exact hm
      · rcases hex with rfl | ⟨x, hx, hcx, hfx⟩
        · exact Or.inl (if_neg fun hc => absurd hc.2 (not_lt.mpr (hy hc.1)))
        · rcases List.mem_cons.mp hx with rfl | hx
          · refine Or.inl ?_
            split_ifs with hc
            · exact hfx
            · exact le_antisymm (hfx ▸ not_lt.mp fun hlt => hc ⟨hcx, hlt⟩) hm
          · exact Or.inr ⟨x, hx, hcx, hfx⟩

theorem findNumbered_of_mem (seg : ℕ → HostSegment) (p : Option ℕ) (hx : x ∈ l)
    (hk : (seg x).sessionSeqno = k) : ∃ y prev, findNumbered seg k p l = some (y, prev) := by
  induction l generalizing p with
  | nil => exact absurd hx List.not_mem_nil
  | cons z l ih =>
      rw [findNumbered]
      split_ifs with hz
      · exact ⟨z, p, rfl⟩
      · rcases List.mem_cons.mp hx with rfl | hx
        · exact absurd hk hz
        · exact ih _ hx

/-- A listed packet is found by its number. -/
theorem Records.findSessionSeqno (hr : Records s.toHostState l top) (hl : s.seglist.items = l)
    (hx : x ∈ l) (hi : (s.seg x).sender = i) :
    s.findSessionSeqno i (s.seg x).seqno = (s.seg x).sessionSeqno := by
  have hlog : ∀ y ∈ l, s.key y ∈ s.sent := fun y hy => hr.keyed.logged _ (List.mem_map_of_mem hy)
  have hlt : (s.seg x).sessionSeqno < s.sessionSeqno := (hr.keyed.bound _ (hlog x hx)).1
  have hleast : s.leastSession i (s.seg x).seqno = (s.seg x).sessionSeqno := by
    have hfold := foldl_least (l := l) (f := fun y => (s.seg y).sessionSeqno)
      (c := fun y => i = (s.seg y).sender ∧ (s.seg x).seqno ≤ (s.seg y).seqno) hlt.le
      (fun y hy hc => hr.keyed.number_le (hlog x hx) (hlog y hy) (hi.trans hc.1) hc.2)
      (Or.inr ⟨x, hx, ⟨hi.symm, le_rfl⟩, rfl⟩)
    rw [leastSession, hl]
    simpa only [and_assoc] using hfold
  rw [CorresHost.findSessionSeqno, hleast, if_neg hlt.ne]

/-- The packet at `t_seqno_` is listed if it counts as sent before. -/
theorem Records.exists_record (hr : Records s.toHostState l top)
    (hlt : (s.conn i).tSeqno < (s.conn i).maxseq) :
    ∃ x ∈ l, (s.seg x).sender = i ∧ (s.seg x).seqno = (s.conn i).tSeqno := by
  obtain ⟨e, he, hp⟩ := List.mem_map.mp ((hr.keyed.listed i (s.conn i).tSeqno).mpr
    ⟨(hr.keyed.next i).1, hlt.le.trans (hr.keyed.maxseq i)⟩)
  obtain ⟨x, hx, rfl⟩ := List.mem_map.mp he
  exact ⟨x, hx, Prod.mk.inj hp⟩

/-- The windows when a packet is sent. -/
theorem Keyed.advance (hk : Keyed h ks top) (hle : (h.conn i).tSeqno ≤ top i) :
    Keyed (h.updateConn i fun c =>
      { c with tSeqno := c.tSeqno + 1, maxseq := max c.maxseq c.tSeqno }) ks top := by
  generalize hf : (fun c : HostConn =>
    { c with tSeqno := c.tSeqno + 1, maxseq := max c.maxseq c.tSeqno }) = f
  have hack : ∀ c, (f c).highestAck = c.highestAck := fun c => by rw [← hf]
  have hlast : ∀ c, (f c).lastAck = c.lastAck := fun c => by rw [← hf]
  have hself : (h.updateConn i f).conn i = f (h.conn i) := Function.update_self _ _ _
  have hother : ∀ j, j ≠ i → (h.updateConn i f).conn j = h.conn j := fun j hj =>
    Function.update_of_ne hj _ _
  refine hk.window (updateConn_conn (·.highestAck) hack i) (updateConn_conn (·.lastAck) hlast i)
    (fun j => ?_) (fun j => ?_) rfl rfl
  · have hnext := hk.next j
    rcases eq_or_ne j i with rfl | hj
    · rw [hself, ← hf]
      exact ⟨by linarith, by linarith⟩
    · rw [hother j hj]
      exact hnext
  · have hmax := hk.maxseq j
    rcases eq_or_ne j i with rfl | hj
    · rw [hself, ← hf]
      exact max_le hmax hle
    · rw [hother j hj]
      exact hmax

/-- What `send_one` does to records of which the keys are known. -/
theorem Records.sendOne (hsize : ∀ y ∈ l, 0 ≤ (s.seg y).size ∧ (s.seg y).size ≤ 1)
    (hm : Marks s.toHostState l) (hx : s.fresh ∉ l)
    (hk : Keyed (s.sendOne i k ts).toHostState (l.map s.key ++ [(i, (s.conn i).tSeqno, k)]) top) :
    Records (s.sendOne i k ts).toHostState (l ++ [s.fresh]) top := by
  have hold : ∀ y ∈ l, (s.sendOne i k ts).seg y = s.seg y := fun y hy =>
    Function.update_of_ne (fun e : y = s.fresh => hx (e ▸ hy)) _ _
  have hnew : (s.sendOne i k ts).seg s.fresh =
      { sender := i, seqno := (s.conn i).tSeqno, sessionSeqno := k, size := 1, ts := ts } :=
    Function.update_self _ _ _
  generalize hf : (fun c : HostConn =>
    { c with tSeqno := c.tSeqno + 1, maxseq := max c.maxseq c.tSeqno }) = f
  have hnum : ∀ c, (f c).numThreshDupackSegs = c.numThreshDupackSegs := fun c => by rw [← hf]
  have hm' : Marks (s.updateConn i f) l :=
    hm.same (updateConn_conn (·.numThreshDupackSegs) hnum i) fun _ _ => ⟨rfl, rfl⟩
  have hkeys : (l ++ [s.fresh]).map (s.sendOne i k ts).key =
      l.map s.key ++ [(i, (s.conn i).tSeqno, k)] := by
    rw [List.map_append, List.map_singleton, key, hnew]
    exact congrArg (· ++ _) (List.map_congr_left fun y hy => by rw [key, hold y hy, key])
  refine ⟨hkeys.symm ▸ hk, fun y hy => ?_, ?_⟩
  · rcases List.mem_append.mp hy with hy | hy
    · rw [hold y hy]
      exact hsize y hy
    · rw [List.mem_singleton.mp hy, hnew]
      exact ⟨zero_le_one, le_rfl⟩
  · have hadd := hm'.addSeg (g := { sender := i, seqno := (s.conn i).tSeqno, sessionSeqno := k,
                                    size := 1, ts := ts }) hx rfl
    rw [← hf] at hadd
    exact hadd

/-- **A retransmission** in a turn: the record goes, and its number is used again. -/
theorem Records.turn_again (hb : Books s l) (hr : Records s.toHostState l top)
    (hlt : (s.conn i).tSeqno < (s.conn i).maxseq)
    (hclear : ∀ x ∈ l, (s.seg x).sender = i → (s.seg x).seqno = (s.conn i).tSeqno →
      (s.seg x).threshDupacks = false) :
    ∃ l', Books (s.turn i ts) l' ∧ Records (s.turn i ts).toHostState l' top := by
  obtain ⟨x, hx, hi, hn⟩ := Records.exists_record hr hlt
  have hnumber := Records.findSessionSeqno hr hb.holds.items_eq hx hi
  rw [hn] at hnumber
  obtain ⟨y, prev, hfind⟩ := findNumbered_of_mem s.seg none hx rfl
  obtain ⟨a, b, rfl, hprev, hk⟩ := findNumbered_spec hfind
  rw [Option.or_none] at hprev
  -- the record that is found is of the same packet
  have hkey : s.key y = s.key x :=
    hr.keyed.eq_of_number (hr.keyed.logged _ (List.mem_map_of_mem (by simp)))
      (hr.keyed.logged _ (List.mem_map_of_mem hx)) hk
  obtain ⟨hyi, hyn⟩ := Prod.mk.inj hkey
  have hfalse := hclear y (by simp) (hyi.trans hi) ((Prod.mk.inj hyn).1.trans hn)
  have heq := removeSessionSeqno_eq hb hfind
  have hb' := hb.removeSessionSeqno hfind hprev
  rw [turn, if_pos hlt]
  simp only [hnumber]
  refine ⟨_, hb'.sendOne i _ ts, ?_⟩
  rw [heq] at hb' ⊢
  have hnew : s.fresh ∉ a ++ b := fun hm => absurd (hb'.fresh _ hm) (lt_irrefl _)
  refine Records.sendOne (fun z hz => hr.size z (mem_mid hz)) (hr.marks.drop hfalse) hnew ?_
  have hperm : ((a ++ y :: b).map s.key).Perm
      ((a ++ b).map s.key ++ [(i, (s.conn i).tSeqno, (s.seg x).sessionSeqno)]) := by
    have hp : s.key y = (i, (s.conn i).tSeqno, (s.seg x).sessionSeqno) := by
      rw [hkey, key, hi, hn]
    rw [← hp]
    simp only [List.map_append, List.map_cons, List.append_assoc]
    exact (List.perm_append_singleton _ _).symm.append_left _
  have hle : (s.conn i).tSeqno ≤ top i := hlt.le.trans (hr.keyed.maxseq i)
  have hadvance := Keyed.advance (hr.keyed.perm hperm) hle
  exact hadvance.same ⟨fun _ => rfl, fun _ => rfl, fun _ => rfl, fun _ => rfl, rfl, rfl⟩

/-- A packet that is sent for the first time. -/
theorem Keyed.sendNew (hk : Keyed h ks top) (htop : (h.conn i).tSeqno = top i + 1) :
    Keyed
      (HostState.updateConn i
        (fun c => { c with tSeqno := c.tSeqno + 1, maxseq := max c.maxseq c.tSeqno })
        { h with
          sessionSeqno := h.sessionSeqno + 1
          sent := (i, (h.conn i).tSeqno, h.sessionSeqno) :: h.sent })
      (ks ++ [(i, (h.conn i).tSeqno, h.sessionSeqno)])
      (Function.update top i (h.conn i).tSeqno) := by
  generalize hf : (fun c : HostConn =>
    { c with tSeqno := c.tSeqno + 1, maxseq := max c.maxseq c.tSeqno }) = f
  have hack : ∀ c, (f c).highestAck = c.highestAck := fun c => by rw [← hf]
  have hlast : ∀ c, (f c).lastAck = c.lastAck := fun c => by rw [← hf]
  have hself : Function.update h.conn i (f (h.conn i)) i = f (h.conn i) :=
    Function.update_self _ _ _
  have hother : ∀ j, j ≠ i → Function.update h.conn i (f (h.conn i)) j = h.conn j := fun j hj =>
    Function.update_of_ne hj _ _
  have htops : ∀ j, top j ≤ Function.update top i (h.conn i).tSeqno j := fun j => by
    rcases eq_or_ne j i with rfl | hj
    · rw [Function.update_self]
      omega
    · rw [Function.update_of_ne hj]
  have hpackets : (ks ++ [(i, (h.conn i).tSeqno, h.sessionSeqno)]).map packet =
      ks.map packet ++ [(i, (h.conn i).tSeqno)] := by
    rw [List.map_append]
    rfl
  have hnot : (i, (h.conn i).tSeqno) ∉ ks.map packet := by
    rw [hk.listed]
    omega
  refine ⟨?_, fun j m => ?_, fun e he => ?_, ?_, fun e he => ?_, fun j => ?_, fun j => ?_,
    fun j => ?_⟩
  · rw [hpackets]
    refine List.nodup_append.mpr ⟨hk.unique, List.nodup_singleton _, fun p hp q hq e => ?_⟩
    rw [List.mem_singleton.mp hq] at e
    exact hnot (e ▸ hp)
  · rw [hpackets, List.mem_append, List.mem_singleton, hk.listed,
      updateConn_conn (·.highestAck) hack]
    have hnext := hk.next i
    rcases eq_or_ne j i with rfl | hj
    · rw [Function.update_self, Prod.mk.injEq]
      simp only [true_and]
      omega
    · rw [Function.update_of_ne hj, Prod.mk.injEq]
      simp only [hj, false_and, or_false]
  · rcases List.mem_append.mp he with he | he
    · exact List.mem_cons_of_mem _ (hk.logged e he)
    · rw [List.mem_singleton.mp he]
      exact List.mem_cons_self
  · refine List.pairwise_cons.mpr ⟨fun e he => ⟨(hk.bound e he).1, fun hi => ?_⟩, hk.order⟩
    have hle := (hk.bound e he).2
    rw [hi] at hle
    exact Int.lt_of_le_of_lt hle (htop ▸ lt_add_one (top i))
  · rcases List.mem_cons.mp he with rfl | he
    · refine ⟨lt_add_one _, ?_⟩
      rw [Function.update_self]
    · exact ⟨(hk.bound e he).1.trans (lt_add_one _), (hk.bound e he).2.trans (htops e.1)⟩
  · rw [updateConn_conn (·.lastAck) hlast, updateConn_conn (·.highestAck) hack]
    exact hk.acks j
  · have hnext := hk.next j
    change (Function.update h.conn i (f (h.conn i)) j).highestAck <
      (Function.update h.conn i (f (h.conn i)) j).tSeqno ∧
        (Function.update h.conn i (f (h.conn i)) j).tSeqno ≤ _
    rcases eq_or_ne j i with rfl | hj
    · rw [hself, Function.update_self, ← hf]
      exact ⟨by linarith, le_rfl⟩
    · rw [hother j hj, Function.update_of_ne hj]
      exact hnext
  · have hmax := hk.maxseq j
    change (Function.update h.conn i (f (h.conn i)) j).maxseq ≤ _
    rcases eq_or_ne j i with rfl | hj
    · rw [hself, Function.update_self, ← hf]
      exact max_le (hmax.trans (by omega)) le_rfl
    · rw [hother j hj, Function.update_of_ne hj]
      exact hmax

/-- **A new packet** in a turn, if it has no record. -/
theorem Records.turn_new (hb : Books s l) (hr : Records s.toHostState l top)
    (hn : ¬ (s.conn i).tSeqno < (s.conn i).maxseq)
    (hfree : ∀ x ∈ l, (s.seg x).sender = i → (s.seg x).seqno ≠ (s.conn i).tSeqno) :
    ∃ top', Books (s.turn i ts) (l ++ [s.fresh]) ∧
      Records (s.turn i ts).toHostState (l ++ [s.fresh]) top' := by
  have hnot : (i, (s.conn i).tSeqno) ∉ (l.map s.key).map packet := fun hm => by
    obtain ⟨e, he, hp⟩ := List.mem_map.mp hm
    obtain ⟨x, hx, rfl⟩ := List.mem_map.mp he
    exact hfree x hx (Prod.mk.inj hp).1 (Prod.mk.inj hp).2
  have htop : (s.conn i).tSeqno = top i + 1 := by
    rw [hr.keyed.listed] at hnot
    have hnext := hr.keyed.next i
    omega
  have hnew : s.fresh ∉ l := fun hm => absurd (hb.fresh _ hm) (lt_irrefl _)
  refine ⟨Function.update top i (s.conn i).tSeqno, hb.turn_new hn ts, ?_⟩
  rw [turn, if_neg hn]
  refine Records.sendOne hr.size hr.marks hnew ?_
  exact (Keyed.sendNew hr.keyed htop).same
    ⟨fun _ => rfl, fun _ => rfl, fun _ => rfl, fun _ => rfl, rfl, rfl⟩

/-! ### Timeouts -/

theorem Records.expire (reset : Bool) (hb : Books s l) (hr : Records s.toHostState l top) :
    Records (s.expire reset).toHostState l top := by
  by_cases hi : s.seglist.count = 0 ∧ s.slowStartRestart = false
  · rw [expire_idle reset hi]
    exact hr
  · have hconn := expire_conn reset hi
    have hseg : ∀ x ∈ l, (s.expire reset).seg x = { s.seg x with size := 0 } := fun x hx => by
      rw [expire_seg reset hi]
      exact if_pos (hb.holds.items_eq.symm ▸ hx)
    have hkeys : l.map (s.expire reset).key = l.map s.key :=
      List.map_congr_left fun x hx => by rw [key, hseg x hx, key]
    refine ⟨?_, fun x hx => ?_, hr.marks.same (fun j => ?_) fun x hx => ?_⟩
    · have hlog : (s.expire reset).sent = s.sent ∧
          (s.expire reset).sessionSeqno = s.sessionSeqno := by
        rw [CorresHost.expire, if_neg hi]
        exact ⟨rfl, rfl⟩
      rw [hkeys]
      refine hr.keyed.window (fun j => ?_) (fun j => ?_) (fun j => ?_) (fun j => ?_) hlog.1 hlog.2
      · rw [hconn]
      · rw [hconn]
      · have hnext := hr.keyed.next j
        rw [hconn]
        exact ⟨lt_add_one _, by linarith⟩
      · have hnext := hr.keyed.next j
        have hmax := hr.keyed.maxseq j
        rw [hconn]
        cases reset
        · exact hmax
        · exact Int.lt_add_one_iff.mp (hnext.1.trans_le hnext.2)
    · rw [hseg x hx]
      exact ⟨le_rfl, zero_le_one⟩
    · rw [hconn]
    · rw [hseg x hx]
      exact ⟨rfl, rfl⟩

theorem Records.timeout (e : HostTimer) (hb : Books s l) (hr : Records s.toHostState l top) :
    Records (s.timeout e).toHostState l top := by
  cases e
  case rtx => exact Records.expire false hb hr
  case reset => exact Records.expire true hb hr
  case resetRtx => exact Records.expire false (hb.expire true) (Records.expire true hb hr)

/-! ### Whole runs -/

/-- A turn that sends a listed packet takes it for one that was sent before, and the record is not
marked; and an acknowledgement takes out no record that is marked, or that it would mark. -/
def Tidy (s : CorresHost) : HostEvent → Prop
  | .turn i _ => (s.conn i).dataLeft → ∀ x ∈ s.seglist.items, (s.seg x).sender = i →
      (s.seg x).seqno = (s.conn i).tSeqno →
        (s.conn i).tSeqno < (s.conn i).maxseq ∧ (s.seg x).threshDupacks = false
  | .ack i n _ _ _ _ => ∀ x ∈ s.seglist.items, (s.seg x).sender = i → (s.seg x).seqno ≤ n →
      (s.seg x).threshDupacks = false ∧
        (s.seg x).dupacks + (s.seg x).laterAcks < (s.conn i).numdupacks
  | _ => True

/-- One record of each packet, with the number of its first sending; and the marks are counted. -/
def Recorded (s : CorresHost) : Prop :=
  ∃ l, s.seglist.Holds l ∧
    (∀ x ∈ l, ∀ y ∈ l, (s.seg x).sender = (s.seg y).sender → (s.seg x).seqno = (s.seg y).seqno →
      x = y) ∧
    (∀ x ∈ l, ((s.seg x).sender, (s.seg x).seqno, (s.seg x).sessionSeqno) ∈ s.sent) ∧
    (∀ i n k k', (i, n, k) ∈ s.sent → (i, n, k') ∈ s.sent → k = k') ∧
    ∀ i, (s.conn i).numThreshDupackSegs =
      (l.countP fun x => (s.seg x).sender = i ∧ (s.seg x).threshDupacks = true : ℕ)

theorem recorded (hb : Books s l) (hr : Records s.toHostState l top) : Recorded s := by
  refine ⟨l, hb.holds, fun x hx y hy hi hn => ?_, fun x hx => ?_, fun i n k k' hk hk' => ?_,
    hr.marks⟩
  · have hinj := List.inj_on_of_nodup_map (List.map_map ▸ hr.keyed.unique)
    exact hinj hx hy (Prod.ext hi hn)
  · exact hr.keyed.logged _ (List.mem_map_of_mem hx)
  · exact congrArg (fun e => e.2.2) (hr.keyed.eq_of_packet hk hk' rfl)

theorem tidy_ack {n : ℤ} {tsEcho : ℚ} {stamp : ℕ → ℚ} {fs before : Bool} (hb : Books s l)
    (ht : Tidy s (.ack i n tsEcho stamp fs before)) :
    ∀ x ∈ l, Clear (s.ackOf i n tsEcho) (s.newack i n).toHostState x := by
  intro x hx hacked
  have hseg := newack_seg i n s
  have hnum : ((s.newack i n).conn i).numdupacks = (s.conn i).numdupacks := by
    by_cases hn : (s.conn i).lastAck < n
    · rw [(newack_eq hn).2, Function.update_self]
    · rw [newack, if_neg hn]
  rw [hseg] at hacked ⊢
  obtain ⟨hmark, hlt⟩ := ht x (hb.holds.items_eq.symm ▸ hx) hacked.1.symm hacked.2
  refine ⟨hmark, fun hreach => absurd hlt (not_lt.mpr ?_)⟩
  rw [← hnum]
  exact hreach

/-- What else a connection keeps does not matter. -/
theorem Records.updateConn (hr : Records h l top) (i : ℕ) (f : HostConn → HostConn)
    (hack : ∀ c, (f c).highestAck = c.highestAck) (hlast : ∀ c, (f c).lastAck = c.lastAck)
    (hnext : ∀ c, (f c).tSeqno = c.tSeqno) (hmax : ∀ c, (f c).maxseq = c.maxseq)
    (hnum : ∀ c, (f c).numThreshDupackSegs = c.numThreshDupackSegs) :
    Records (h.updateConn i f) l top :=
  hr.same (updateConn_windows hack hlast hnext hmax) rfl
    (updateConn_conn (·.numThreshDupackSegs) hnum i)

theorem Records.correct (hr : Records h l top) (A : HostAck) (sc : AckScan) :
    Records (h.correct A sc) l top := by
  rw [HostState.correct]
  split_ifs
  · exact hr.same ⟨fun _ => rfl, fun _ => rfl, fun _ => rfl, fun _ => rfl, rfl, rfl⟩ rfl
      fun _ => rfl
  · exact hr

theorem Records.recv {n : ℤ} {tsEcho : ℚ} {stamp : ℕ → ℚ} {fs before : Bool} (hb : Books s l)
    (hr : Records s.toHostState l top) (ht : Tidy s (.ack i n tsEcho stamp fs before))
    (he : s.recv i n tsEcho stamp fs before = some t) :
    ∃ l' top', Books t l' ∧ Records t.toHostState l' top' := by
  have hb' := hb.newack i n
  have hf : Fits s (.ack i n tsEcho stamp fs before) := by
    by_contra hf
    rw [hb.recv_none hf] at he
    cases he
  rw [Fits, hb'.holds.items_eq] at hf
  obtain ⟨u, hstate, hu, hrun⟩ := hb'.scan hf
  obtain ⟨top', hkept⟩ := Records.scan hr hb.holds.circle.nodup (tidy_ack hb ht)
  rw [← hstate] at hkept
  rw [CorresHost.recv, cleanSegs, hrun] at he
  simp only [Option.bind_eq_bind, Option.bind_some] at he
  split at he
  · cases he
    exact ⟨_, top', hu.timeout _, Records.timeout _ hu hkept⟩
  · cases he
    have hu' := hu.correct (s.ackOf i n tsEcho)
      (scanList (s.ackOf i n tsEcho) l {} (s.newack i n).toHostState).flags
    have hsub := (scanList_sublist (s.ackOf i n tsEcho) l {} (s.newack i n).toHostState).2
    obtain ⟨hclean, hbooks⟩ := hu'.clean hsub u.sessionSeqno stamp
    refine ⟨_, top', hbooks, ?_⟩
    rw [hclean]
    exact cleanList_keeps (P := fun h l => Records h l top') stamp
      (fun _ _ _ _ _ hr hnew hnd => hr.resend hnew hnd) _ (Records.correct hkept _ _)
      hu'.holds.circle.nodup (hsub.nodup hu'.holds.circle.nodup) (fun x hx => hsub.subset hx)
      hu'.fresh

/-- Every event that is tidy keeps the records. -/
theorem Records.handle {e : HostEvent} (hb : Books s l) (hr : Records s.toHostState l top)
    (ht : Tidy s e) (he : s.handle e = some t) :
    ∃ l' top', Books t l' ∧ Records t.toHostState l' top' := by
  cases e with
  | app i n =>
      cases he
      refine ⟨l, top, hb.same rfl rfl ⟨rfl, rfl, rfl, fun _ => rfl, fun _ => rfl⟩, ?_⟩
      exact Records.updateConn hr i (fun c => { c with curseq := n }) (fun _ => rfl)
        (fun _ => rfl) (fun _ => rfl) (fun _ => rfl) fun _ => rfl
  | knobs i n p d r =>
      cases he
      refine ⟨l, top, hb.same rfl rfl ⟨rfl, rfl, rfl, fun _ => rfl, fun _ => rfl⟩, ?_⟩
      have hr' := Records.updateConn hr i (fun c => { c with numdupacks := n }) (fun _ => rfl)
        (fun _ => rfl) (fun _ => rfl) (fun _ => rfl) fun _ => rfl
      exact hr'.same ⟨fun _ => rfl, fun _ => rfl, fun _ => rfl, fun _ => rfl, rfl, rfl⟩ rfl
        fun _ => rfl
  | quench i n =>
      cases he
      rw [CorresHost.quench]
      split_ifs
      · refine ⟨l, top, hb.same rfl rfl ⟨rfl, rfl, rfl, fun _ => rfl, fun _ => rfl⟩, ?_⟩
        have hr' := Records.updateConn hr i
          (fun c => { c with recover := c.maxseq, lastCwndAction := .ecn }) (fun _ => rfl)
          (fun _ => rfl) (fun _ => rfl) (fun _ => rfl) fun _ => rfl
        exact hr'.same ⟨fun _ => rfl, fun _ => rfl, fun _ => rfl, fun _ => rfl, rfl, rfl⟩ rfl
          fun _ => rfl
      · exact ⟨l, top, hb, hr⟩
  | ack i n tsEcho stamp fs before => exact Records.recv hb hr ht he
  | timeout e =>
      cases he
      exact ⟨l, top, hb.timeout e, Records.timeout e hb hr⟩
  | turn i ts =>
      rw [CorresHost.handle] at he
      split_ifs at he with hdata
      · cases he
        rw [Tidy, hb.holds.items_eq] at ht
        by_cases hn : (s.conn i).tSeqno < (s.conn i).maxseq
        · obtain ⟨l', hb', hr'⟩ := Records.turn_again hb hr hn fun x hx hi hseq =>
            (ht hdata x hx hi hseq).2
          exact ⟨l', top, hb', hr'⟩
        · obtain ⟨top', hb', hr'⟩ := Records.turn_new hb hr hn fun x hx hi hseq =>
            hn (ht hdata x hx hi hseq).1
          exact ⟨_, top', hb', hr'⟩
      · cases he
        exact ⟨l, top, hb, hr⟩

theorem init_records (conn : ℕ → HostConn) (p d r : Bool) :
    Records (init conn p d r).toHostState [] fun _ => -1 where
  keyed := by
    refine ⟨List.nodup_nil, fun i n => ?_, by simp, List.Pairwise.nil, by simp [init],
      fun _ => rfl, fun _ => ?_, fun _ => le_rfl⟩
    · simp [init]
    · simp [init]
  size := by simp
  marks := fun _ => rfl

/-- **The records of a session** are right in every state of a run whose events are all tidy. -/
theorem run_recorded {conn : ℕ → HostConn} {p d r : Bool}
    (hrun : HostRun Tidy (init conn p d r) s) : Recorded s := by
  have hrecords : ∃ l top, Books s l ∧ Records s.toHostState l top := by
    induction hrun with
    | start => exact ⟨[], fun _ => -1, init_books conn p d r, init_records conn p d r⟩
    | step _ ht he ih =>
        obtain ⟨l, top, hb, hr⟩ := ih
        exact Records.handle hb hr ht he
  obtain ⟨l, top, hb, hr⟩ := hrecords
  exact recorded hb hr

/-- Connections with two packets each. -/
def twoPackets : CorresHost := init (fun _ => { curseq := 2 }) false false false

/-- Both packets are sent, and the first one again after a timeout. -/
theorem run_recorded_again :
    ∃ s, HostRun Tidy twoPackets s ∧ s.seglist.items = [1, 2] ∧ Recorded s := by
  have hfirst : Tidy twoPackets (.turn 0 0) := by
    rw [Tidy]
    decide +kernel
  have hsecond : Tidy (twoPackets.turn 0 0) (.turn 0 1) := by
    rw [Tidy]
    decide +kernel
  have hagain : Tidy (((twoPackets.turn 0 0).turn 0 1).timeout .rtx) (.turn 0 2) := by
    rw [Tidy]
    decide +kernel
  have hsent : HostRun Tidy twoPackets ((twoPackets.turn 0 0).turn 0 1) :=
    .step (.step .start hfirst (handle_turn 0 (by decide))) hsecond
      (handle_turn 1 (by decide +kernel))
  have hrun := HostRun.step (.step (e := .timeout .rtx) hsent trivial rfl) hagain
    (handle_turn 2 (by decide +kernel))
  exact ⟨_, hrun, by decide +kernel, run_recorded hrun⟩

/-- A packet that is the last of its connection has two records after a timeout. -/
theorem last_packet_twice : ∃ s, HostRun (fun _ _ => True) onePacket s ∧ ¬ Recorded s := by
  obtain ⟨s, l, hrun, hr⟩ := repeated_run 1
  refine ⟨s, hrun, ?_⟩
  rintro ⟨l', hl', hunique, -⟩
  obtain rfl : l = l' := hr.books.holds.items_eq.symm.trans hl'.items_eq
  obtain ⟨x, y, rfl⟩ := List.length_eq_two.mp hr.length
  have hx := hr.stale x (by simp)
  have hy := hr.stale y (by simp)
  have heq := hunique x (by simp) y (by simp) (hx.sender.trans hy.sender.symm)
    (hx.seqno.trans hy.seqno.symm)
  have hnd := hr.books.holds.circle.nodup
  rw [heq] at hnd
  simp at hnd

end CorresHost

end Afabric
