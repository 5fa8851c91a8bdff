import Afabric.Tcp.Moves

/-!
# Tcp — the sequence numbers of the sender

`SeqInv` is what every step of an agent keeps of its sequence numbers: `highest_ack_` is at most
`t_seqno_` and `maxseq_`, and for a `SackFullTcpAgent` at most `h_seqno_`, so that a hole it fills
lies above what is acknowledged.  `seq_space` states it for the runs of a connection.

The fast path does not raise `h_seqno_`.  A run that takes an ACK beyond it there can later send
again what has been acknowledged (`acked_bytes_sent_again`).
-/

namespace Afabric

/-- Data is sent above what is acknowledged, and it is data that the application has handed over. -/
def Emission.Sound (e : Emission) : Prop :=
  0 < e.datalen → e.snd.highestAck ≤ e.seqno ∧
    (e.infiniteSend = false → e.seqno + e.datalen ≤ e.snd.curseq + 1)

namespace FullTcpAgent

variable {κ : Type} {cfg : FullTcpConfig} {h : Hooks κ} {q : Option Segment}
  {s s' : FullTcpAgent κ}

/-- The invariant of the sequence numbers. -/
structure SeqInv (cfg : FullTcpConfig) (s : FullTcpAgent κ) : Prop where
  floor : -1 ≤ s.snd.highestAck
  sent : s.snd.highestAck ≤ s.snd.maxseq
  next : s.snd.highestAck ≤ s.snd.tSeqno
  top : s.snd.tSeqno ≤ max s.snd.maxseq cfg.iss
  opening : Opening s.state → s.snd.highestAck = -1
  syn : s.state = .synSent → cfg.iss ≤ s.snd.tSeqno
  hole : cfg.kind.isSack = true → s.snd.highestAck ≤ s.sack.hSeqno
  maxseg : 0 ≤ s.snd.maxseg

/-- What a step does besides keeping the invariant: what it sends is sound, and `highest_ack_` goes
back at a reset only. -/
structure Grows (s s' : FullTcpAgent κ) : Prop where
  sound : ∀ e ∈ s'.trace.sent, e ∈ s.trace.sent ∨ e.Sound
  resets : s.trace.resets ≤ s'.trace.resets
  acked : s'.trace.resets = s.trace.resets → s.snd.highestAck ≤ s'.snd.highestAck

theorem Grows.refl (s : FullTcpAgent κ) : Grows s s := ⟨fun _ => .inl, le_rfl, fun _ => le_rfl⟩

theorem Grows.trans {s₁ : FullTcpAgent κ} (h₁ : Grows s s₁) (h₂ : Grows s₁ s') : Grows s s' := by
  refine ⟨fun e he => ?_, h₁.resets.trans h₂.resets, fun hr => ?_⟩
  · rcases h₂.sound e he with he | he
    · exact h₁.sound e he
    · exact .inr he
  · have := h₁.resets
    have := h₂.resets
    exact (h₁.acked (by omega)).trans (h₂.acked (by omega))

/-- A step that sends nothing. -/
theorem Grows.of_sent (hs : s'.trace.sent = s.trace.sent) (hr : s'.trace.resets = s.trace.resets)
    (ha : s.snd.highestAck ≤ s'.snd.highestAck) : Grows s s' :=
  ⟨fun _ he => .inl (hs ▸ he), hr.ge, fun _ => ha⟩

/-! ### Output -/

theorem FromSeq.le (hi : SeqInv cfg s) (hiss : 0 ≤ cfg.iss) {seq : Int} (hf : FromSeq cfg s seq) :
    s.snd.highestAck ≤ seq := by
  rcases hf with rfl | rfl | ⟨rfl, hsyn⟩ | hf
  · exact hi.next
  · exact le_rfl
  · have hopen : Opening s.state := by
      cases hst : s.state <;> rw [hst] at hsyn <;> first | exact absurd hsyn (by decide) | decide
    have := hi.opening hopen
    omega
  · exact (hi.hole hf.sack).trans (hf.above hi.maxseg)

theorem Out.nonneg {seq n : Int} {o : Option Emission} (ho : Out cfg s seq n o s')
    (hm : 0 ≤ s.snd.maxseg) (hsize : 0 ≤ cfg.size) : 0 ≤ n := by
  cases o with
  | none => exact (ho.unsent rfl).ge
  | some e =>
      obtain ⟨f, hn, hf⟩ := ho.length e rfl
      have hd := dataLen_nonneg hm hsize seq
      rw [← ho.datalen e rfl] at hd
      have hsyn : 0 ≤ synLen s.state := by cases s.state <;> decide
      omega

/-- `foutput` keeps the invariant, whatever it sends, and the segment ends below `maxseq_`. -/
theorem Out.seqInv {seq n : Int} {o : Option Emission} (ho : Out cfg s seq n o s')
    (hi : SeqInv cfg s) (hsize : 0 ≤ cfg.size) :
    SeqInv cfg s' ∧ s'.snd.tSeqno = s.snd.tSeqno ∧ s'.snd.highestAck = s.snd.highestAck ∧
      (0 < n → seq + n ≤ s'.snd.maxseq) := by
  obtain ⟨m, hm, hle, hend⟩ : ∃ m, s'.snd = { s.sized cfg with maxseq := m } ∧
      s.snd.maxseq ≤ m ∧ (0 < n → seq + n ≤ m) := by
    cases o with
    | none => exact ⟨_, ho.snd, le_rfl, fun hpos => absurd (ho.unsent rfl) hpos.ne'⟩
    | some e => exact ⟨_, ho.snd, le_max_left _ _, fun _ => le_max_right _ _⟩
  have hst : Opening s'.state → s'.state = s.state := by
    intro hop
    rcases ho.state with e | ⟨e, -⟩
    · exact e
    · rw [e] at hop
      exact absurd hop (by decide)
  have hseg : 0 ≤ s.segsize cfg := segsize_nonneg hi.maxseg hsize
  refine ⟨?_, by rw [hm]; rfl, by rw [hm]; rfl, fun hpos => by rw [hm]; exact hend hpos⟩
  refine ⟨?_, ?_, ?_, ?_, fun hop => ?_, fun hsyn => ?_, fun hk => ?_, ?_⟩
  · rw [hm]; exact hi.floor
  · rw [hm]; exact hi.sent.trans hle
  · rw [hm]; exact hi.next
  · rw [hm]; exact hi.top.trans (max_le_max_right _ hle)
  · rw [hm]
    exact hi.opening (hst hop ▸ hop)
  · rw [hm]
    exact hi.syn (hst (.inr (.inl hsyn)) ▸ hsyn)
  · rw [hm, ho.sack]
    exact hi.hole hk
  · rw [hm]; exact hseg

theorem Out.grows {seq n : Int} {o : Option Emission} (ho : Out cfg s seq n o s')
    (hseq : s.snd.highestAck ≤ seq) (hha : s'.snd.highestAck = s.snd.highestAck) :
    Grows s s' := by
  refine ⟨fun e he => ?_, ho.resets.ge, fun _ => hha.ge⟩
  rw [ho.sent, List.mem_append] at he
  rcases he with he | he
  swap
  · exact .inl he
  refine .inr fun hpos => ?_
  have he : e ∈ o := by simpa using he
  obtain ⟨hsnd, hinf⟩ := ho.emitted e he
  rw [hsnd, hinf, ho.seqno e he]
  refine ⟨hseq, fun hi => ?_⟩
  rw [ho.datalen e he] at hpos ⊢
  have hle : s.dataLen cfg seq ≤ 0 ∨ seq + s.dataLen cfg seq ≤
      if s.snd.highestAck < 0 then s.snd.curseq else s.snd.curseq + 1 := dataLen_le hi
  rcases hle with hle | hle
  · omega
  · show _ ≤ s.snd.curseq + 1
    split_ifs at hle <;> omega

theorem sent_snd (cfg : FullTcpConfig) (s : FullTcpAgent κ) (seq amt : Int) :
    (seq = s.snd.tSeqno ∧
        (s.sent cfg seq amt).snd = { s.snd with tSeqno := s.snd.tSeqno + amt }) ∨
      (s.sent cfg seq amt).snd = s.snd := by
  obtain ⟨t, ht⟩ : ∃ t, t = (if cfg.kind.isSack = true ∧ seq = s.sack.hSeqno then
    s.setSack fun t => { t with hSeqno := t.hSeqno + amt } else s) := ⟨_, rfl⟩
  have hsnd : t.snd = s.snd := by
    rw [ht]
    split_ifs <;> rfl
  simp only [FullTcpAgent.sent, ← ht, ← hsnd]
  by_cases hseq : seq = t.snd.tSeqno
  · rw [if_pos hseq]
    refine .inl ⟨hseq, ?_⟩
    split_ifs <;> rfl
  · rw [if_neg hseq]
    refine .inr ?_
    split_ifs <;> rfl

theorem sent_hSeqno (cfg : FullTcpConfig) (s : FullTcpAgent κ) (seq amt : Int) :
    (s.sent cfg seq amt).sack.hSeqno = s.sack.hSeqno ∨
      (s.sent cfg seq amt).sack.hSeqno = s.sack.hSeqno + amt := by
  simp only [FullTcpAgent.sent]
  split_ifs <;>
    first
    | exact .inl rfl
    | exact .inr rfl

/-- `sent` moves `t_seqno_` and `h_seqno_` up, and not beyond what has been sent. -/
theorem SeqInv.after_sent {seq amt : Int} (hi : SeqInv cfg s) (hamt : 0 ≤ amt)
    (hend : 0 < amt → seq + amt ≤ s.snd.maxseq) : SeqInv cfg (s.sent cfg seq amt) := by
  have hst := sent_state cfg s seq amt
  have hsack : s.sack.hSeqno ≤ (s.sent cfg seq amt).sack.hSeqno := by
    rcases sent_hSeqno cfg s seq amt with e | e <;> omega
  rcases sent_snd cfg s seq amt with ⟨hseq, e⟩ | e
  · have htop : s.snd.tSeqno + amt ≤ max s.snd.maxseq cfg.iss := by
      have := hi.top
      rcases hamt.lt_or_eq with hpos | rfl
      · have := hend hpos
        omega
      · omega
    refine ⟨?_, ?_, ?_, ?_, fun hop => ?_, fun hsyn => ?_, fun hk => ?_, ?_⟩ <;> rw [e]
    · exact hi.floor
    · exact hi.sent
    · have := hi.next
      dsimp only
      omega
    · exact htop
    · exact hi.opening (hst ▸ hop)
    · have := hi.syn (hst ▸ hsyn)
      dsimp only
      omega
    · exact (hi.hole hk).trans hsack
    · exact hi.maxseg
  · refine ⟨?_, ?_, ?_, ?_, fun hop => ?_, fun hsyn => ?_, fun hk => ?_, ?_⟩ <;> rw [e]
    · exact hi.floor
    · exact hi.sent
    · exact hi.next
    · exact hi.top
    · exact hi.opening (hst ▸ hop)
    · exact hi.syn (hst ▸ hsyn)
    · exact (hi.hole hk).trans hsack
    · exact hi.maxseg

/-! ### One step -/

/-- An ACK of what has been sent. -/
theorem SeqInv.ack {a : Int} {k : SackState} (hi : SeqInv cfg s) (hlo : s.snd.highestAck ≤ a)
    (hhi : a ≤ s.snd.maxseq) (hst : s.state.toNat ≥ TcpState.established.toNat)
    (hk : cfg.kind.isSack = true → a ≤ k.hSeqno) :
    SeqInv cfg { s with snd := s.snd.acked a, sack := k } := by
  have hopen : ¬ Opening s.state := by
    rintro (e | e | e) <;> rw [e] at hst <;> exact absurd hst (by decide)
  have := hi.floor
  have := hi.next
  have := hi.top
  refine ⟨?_, ?_, ?_, ?_, fun hop => absurd hop hopen,
    fun hsyn => absurd (.inr (.inl hsyn)) hopen, fun hs => ?_, hi.maxseg⟩ <;>
    simp only [SndSeq.acked]
  · omega
  · omega
  · omega
  · omega
  · have := hk hs
    omega

theorem cut_hSeqno (t : SackState) (a : Int) : a ≤ (t.cut a).hSeqno := by
  rw [SackState.cut]
  generalize (if t.sq ≠ [] ∧ t.sackMin < a then
    { t with sackMin := a, sq := (SegList.clearto t.sq a).1 } else t) = u
  split_ifs with hlt
  · exact le_rfl
  · exact not_lt.mp hlt

/-- The sequence numbers and the SACK queue are the same, but for what the invariant leaves open. -/
theorem SeqInv.congr (hi : SeqInv cfg s) (hsnd : s'.snd = s.snd) (hsack : s'.sack = s.sack)
    (hst : s'.state = s.state ∨ ¬ Opening s'.state) : SeqInv cfg s' := by
  have hop : Opening s'.state → s'.state = s.state := fun hop =>
    hst.resolve_right fun hno => hno hop
  refine ⟨?_, ?_, ?_, ?_, fun h => ?_, fun h => ?_, fun hk => ?_, ?_⟩ <;> rw [hsnd]
  · exact hi.floor
  · exact hi.sent
  · exact hi.next
  · exact hi.top
  · exact hi.opening (hop h ▸ h)
  · exact hi.syn (hop (.inr (.inl h)) ▸ h)
  · rw [hsack]
    exact hi.hole hk
  · exact hi.maxseg

/-- A step that changes `h_seqno_`, not below `highest_ack_`. -/
theorem SeqInv.setSack {f : SackState → SackState} (hi : SeqInv cfg s)
    (hf : cfg.kind.isSack = true → s.snd.highestAck ≤ (f s.sack).hSeqno) :
    SeqInv cfg (s.setSack f) :=
  ⟨hi.floor, hi.sent, hi.next, hi.top, hi.opening, hi.syn, hf, hi.maxseg⟩

theorem addBlocks_hSeqno {fin : Bool} {l : List (Int × Int)} {t k : SackState}
    (he : addBlocks fin l t = some k) : k.hSeqno = t.hSeqno := by
  induction l generalizing t with
  | nil =>
      obtain rfl := Option.some.inj he
      rfl
  | cons b l ih =>
      obtain ⟨left, right⟩ := b
      rw [addBlocks] at he
      split_ifs at he
      · exact ih he
      · have := ih he
        exact this

/-- **One step of the sender.** -/
theorem Act.seqInv (ha : Act cfg q s s') (hi : SeqInv cfg s) (hiss : 0 ≤ cfg.iss)
    (hsize : 0 ≤ cfg.size) : SeqInv cfg s' ∧ Grows s s' := by
  cases ha with
  | ctl hc =>
      exact ⟨hi.congr hc.snd hc.sack (.inl hc.state),
        .of_sent (by rw [hc.trace]) (by rw [hc.trace]) (by rw [hc.snd])⟩
  | done => exact ⟨hi.congr rfl rfl (.inl rfl), .of_sent rfl rfl le_rfl⟩
  | out hf ho =>
      obtain ⟨hi', -, hha, -⟩ := ho.seqInv hi hsize
      exact ⟨hi', ho.grows (hf.le hi hiss) hha⟩
  | @sent t seq n amt o hf ho hamt =>
      obtain ⟨hi', -, hha, hend⟩ := ho.seqInv hi hsize
      have hn := ho.nonneg hi.maxseg hsize
      refine ⟨hi'.after_sent (by omega) fun hpos => ?_, (ho.grows (hf.le hi hiss) hha).trans ?_⟩
      · have := hend (by omega)
        omega
      · have hsame : (t.sent cfg seq amt).snd.highestAck = t.snd.highestAck := by
          rcases sent_snd cfg t seq amt with ⟨-, e⟩ | e <;> rw [e]
        exact .of_sent (by rw [sent_trace]) (by rw [sent_trace]) hsame.ge
  | @rtx t n o ho =>
      obtain ⟨hi', -, hha, -⟩ := ho.seqInv hi hsize
      have hn := ho.nonneg hi.maxseg hsize
      have hg := ho.grows le_rfl hha
      refine ⟨hi'.setSack fun _ => ?_, hg.trans (.of_sent rfl rfl le_rfl)⟩
      dsimp only
      omega
  | hseqno hv =>
      refine ⟨hi.setSack fun hk => ?_, .of_sent rfl rfl le_rfl⟩
      exact (hi.hole hk).trans (hv.above hi.maxseg)
  | rewindHseqno => exact ⟨hi.setSack fun _ => le_rfl, .of_sent rfl rfl le_rfl⟩
  -- `t_seqno_` goes back to the first byte not acknowledged
  | rewind =>
      have := hi.floor
      have := hi.sent
      refine ⟨⟨hi.floor, hi.sent, ?_, ?_, hi.opening, fun _ => ?_, hi.hole, hi.maxseg⟩,
        .of_sent rfl rfl le_rfl⟩ <;>
        simp only [FullTcpAgent.rewind, setSnd]
      · split_ifs <;> omega
      · split_ifs <;> omega
      · rename_i hsyn
        rw [if_pos (by have := hi.opening (.inr (.inl hsyn)); omega)]
  | restart hst =>
      refine ⟨⟨hi.floor, hi.sent, le_rfl, hi.sent.trans (le_max_left _ _), hi.opening, ?_, hi.hole,
        hi.maxseg⟩, .of_sent rfl rfl le_rfl⟩
      intro hsyn
      have hsyn : s.state = .synSent := hsyn
      rw [hsyn] at hst
      exact absurd hst (by decide)
  | recover => exact ⟨⟨hi.floor, hi.sent, hi.next, hi.top, hi.opening, hi.syn, hi.hole, hi.maxseg⟩,
      .of_sent rfl rfl le_rfl⟩
  | @ack p k hp hlo hhi hst hk =>
      refine ⟨hi.ack hlo hhi hst fun hs => ?_, .of_sent rfl rfl (le_max_left _ _)⟩
      rcases hk with rfl | ⟨rfl, hk⟩
      · rw [if_pos hs]
        exact cut_hSeqno s.sack p.ackno
      · exact hk hs
  | sacked _ he =>
      refine ⟨⟨hi.floor, hi.sent, hi.next, hi.top, hi.opening, hi.syn, fun hk => ?_, hi.maxseg⟩,
        .of_sent rfl rfl le_rfl⟩
      rw [addBlocks_hSeqno he]
      exact hi.hole hk
  | clearSack => exact ⟨hi.setSack hi.hole, .of_sent rfl rfl le_rfl⟩
  | finWait2 _ =>
      exact ⟨hi.congr rfl rfl (.inr (show ¬ Opening .finWait2 by decide)),
        .of_sent rfl rfl le_rfl⟩
  | closed _ =>
      exact ⟨hi.congr rfl rfl (.inr (show ¬ Opening .closed by decide)), .of_sent rfl rfl le_rfl⟩

theorem seqInv_reset (hm : 0 ≤ s.snd.maxseg) (h : Hooks κ) (hiss : 0 ≤ cfg.iss) (st : TcpState) :
    SeqInv cfg ((s.reset cfg h).newstate st) := by
  refine ⟨le_rfl, le_rfl, show -1 ≤ cfg.iss by omega, le_max_right _ _, fun _ => rfl,
    fun _ => le_rfl, fun hk => ?_, hm⟩
  show -1 ≤ (if cfg.kind.isSack = true then (⟨[], -1, -1⟩ : SackState) else s.sack).hSeqno
  rw [if_pos hk]

/-- **One step of an agent.** -/
theorem Move.seqInv (hm : Move cfg h q s s') (hi : SeqInv cfg s) (hiss : 0 ≤ cfg.iss)
    (hsize : 0 ≤ cfg.size) : SeqInv cfg s' ∧ Grows s s' := by
  cases hm with
  | act ha => exact ha.seqInv hi hiss hsize
  | quiet hq => exact ⟨hi.congr hq.snd hq.sack hq.state, .of_sent hq.sent hq.resets (by rw [hq.snd])⟩
  | pure he hd =>
      refine ⟨hi.congr (by rw [he]) (by rw [he]) (.inl (by rw [he])), ⟨fun x hx => ?_, ?_, ?_⟩⟩
      · rw [he] at hx
        rcases List.mem_cons.mp hx with rfl | hx
        · exact .inr fun hpos => by omega
        · exact .inl hx
      · rw [he]
      · rw [he]
        exact fun _ => le_rfl
  | curseq =>
      exact ⟨⟨hi.floor, hi.sent, hi.next, hi.top, hi.opening, hi.syn, hi.hole, hi.maxseg⟩,
        .of_sent rfl rfl le_rfl⟩
  | listen hst =>
      have hha := hi.opening (.inl hst)
      refine ⟨⟨hi.floor, hi.sent, show s.snd.highestAck ≤ cfg.iss by omega, le_max_right _ _,
        fun _ => hha, fun hsyn => ?_, hi.hole, hi.maxseg⟩, .of_sent rfl rfl le_rfl⟩
      simp [newstate] at hsyn
  | cross hst =>
      have hha := hi.opening (.inr (.inl hst))
      have hsyn := hi.syn hst
      have htop := hi.top
      refine ⟨⟨hi.floor, hi.sent, show s.snd.highestAck ≤ s.snd.tSeqno - 1 by omega,
        show s.snd.tSeqno - 1 ≤ max s.snd.maxseq cfg.iss by omega, fun _ => hha, fun h => ?_,
        hi.hole, hi.maxseg⟩, .of_sent rfl rfl le_rfl⟩
      simp [newstate] at h
  | reset st =>
      exact ⟨seqInv_reset hi.maxseg h hiss st, ⟨fun _ => .inl, Nat.le_succ _, fun hr => absurd hr (by
        show s.trace.resets + 1 ≠ _
        omega)⟩⟩

theorem Moves.seqInv (hm : Moves cfg h q s s') (hi : SeqInv cfg s) (hiss : 0 ≤ cfg.iss)
    (hsize : 0 ≤ cfg.size) : SeqInv cfg s' ∧ Grows s s' := by
  induction hm with
  | refl => exact ⟨hi, .refl s⟩
  | tail _ hst ih =>
      obtain ⟨hi', hg⟩ := hst.seqInv ih.1 hiss hsize
      exact ⟨hi', ih.2.trans hg⟩

/-! ### Runs -/

/-- The states of a connection that starts fresh, in which the fast path takes no ACK beyond
`h_seqno_`. -/
inductive InStep (cfg : FullTcpConfig) (h : Hooks κ) : FullTcpAgent κ → Prop where
  | fresh {s : FullTcpAgent κ} : Fresh cfg h s → 0 ≤ s.snd.maxseg → InStep cfg h s
  | step {s s' : FullTcpAgent κ} {now : ℚ} {fuel : Nat} {ev : Event} : InStep cfg h s →
      (∀ p ∈ ev.segment, ¬ Overtakes cfg h (s.tick now) p) →
      (s.tick now).step cfg h fuel ev = some s' → InStep cfg h s'

theorem SeqInv.step {now : ℚ} {fuel : Nat} {ev : Event} (hi : SeqInv cfg s) (hiss : 0 ≤ cfg.iss)
    (hsize : 0 ≤ cfg.size) (hno : ∀ p ∈ ev.segment, ¬ Overtakes cfg h (s.tick now) p)
    (he : (s.tick now).step cfg h fuel ev = some s') : SeqInv cfg s' ∧ Grows s s' := by
  have htick : Quiet s (s.tick now) := setCtl_quiet _ _
  have hi' := hi.congr htick.snd htick.sack htick.state
  have hsyn : (s.tick now).state = .synSent → (s.tick now).snd.highestAck ≤ cfg.iss := fun hst => by
    have := hi'.opening (.inr (.inl hst))
    omega
  exact Moves.seqInv (.trans htick.moves (step_moves hsyn hno he)) hi hiss hsize

theorem InStep.seqInv (hs : InStep cfg h s) (hiss : 0 ≤ cfg.iss) (hsize : 0 ≤ cfg.size) :
    SeqInv cfg s ∧ ∀ e ∈ s.trace.sent, e.Sound := by
  induction hs with
  | @fresh s hf hm =>
      obtain ⟨s₀, he⟩ := hf.reset
      have hm₀ : s.snd.maxseg = s₀.snd.maxseg := by rw [he]; rfl
      rw [hm₀] at hm
      have hinv := seqInv_reset hm h hiss s.state
      rw [newstate, ← he] at hinv
      exact ⟨hinv, by simp [hf.sent]⟩
  | step _ hno he ih =>
      obtain ⟨hi, hg⟩ := ih.1.step hiss hsize hno he
      refine ⟨hi, fun e hmem => ?_⟩
      exact (hg.sound e hmem).elim (ih.2 e) id

/-- **The sequence space of the sender.**  As long as the fast path takes no ACK beyond
`h_seqno_`: in every state `highest_ack_` is at most `maxseq_`, and once the SYN is acknowledged
`t_seqno_` lies between them; every segment with data starts at or above `highest_ack_` and ends
with what the application has handed over; and `highest_ack_` never goes back between two resets. -/
theorem seq_space (cfg : FullTcpConfig) (h : Hooks κ) (s : FullTcpAgent κ) (hiss : 0 ≤ cfg.iss)
    (hsize : 0 ≤ cfg.size) (hs : InStep cfg h s) :
    s.snd.highestAck ≤ s.snd.maxseq ∧
    (cfg.iss < s.snd.highestAck →
      s.snd.highestAck ≤ s.snd.tSeqno ∧ s.snd.tSeqno ≤ s.snd.maxseq) ∧
    (∀ e ∈ s.trace.sent, 0 < e.datalen → e.snd.highestAck ≤ e.seqno ∧
      (e.infiniteSend = false → e.seqno + e.datalen ≤ e.snd.curseq + 1)) ∧
    ∀ now fuel ev s', (∀ p ∈ ev.segment, ¬ Overtakes cfg h (s.tick now) p) →
      (s.tick now).step cfg h fuel ev = some s' → s'.trace.resets = s.trace.resets →
      s.snd.highestAck ≤ s'.snd.highestAck := by
  obtain ⟨hi, hsound⟩ := hs.seqInv hiss hsize
  refine ⟨hi.sent, fun hack => ⟨hi.next, ?_⟩, hsound, fun now fuel ev s' hno he hr => ?_⟩
  · have := hi.top
    have := hi.sent
    omega
  · exact (hi.step hiss hsize hno he).2.acked hr

end FullTcpAgent

namespace NsDefault

open FullTcpAgent

/-- A sender with SACK and a window of two segments. -/
def narrow : FullTcpConfig := { config .sack with wnd := 2 }

/-- The sender after `reset`. -/
def sender : FullTcpAgent Bool := { agent.reset narrow (hooks narrow) with state := .closed }

/-- Five bytes to send, and the handshake. -/
def opens : List (ℚ × FullTcpAgent.Event) :=
  [(0, .sendmsg 5 .plain), (1, .recv (segment 0 1 0 (TcpFlag.syn ||| TcpFlag.ack)))]

/-- Two timeouts, with two ACKs on the fast path between them, and then a SACK block. -/
def overtaken : List (ℚ × FullTcpAgent.Event) :=
  [(2, .sendmsg 100 .plain), (3, .timeout .rtx), (4, .recv (segment 1 11 0 TcpFlag.ack)),
    (5, .recv (segment 1 21 0 TcpFlag.ack)), (6, .timeout .rtx),
    (7, .recv { segment 1 21 0 TcpFlag.ack with sack := [(31, 41)] })]

theorem sender_fresh : Fresh narrow (hooks narrow) sender := ⟨⟨agent, rfl⟩, .inl rfl, rfl, rfl⟩

end NsDefault

open NsDefault in
/-- After the fast path has taken it past `h_seqno_`, the sender fills a hole below what is
acknowledged: ten bytes from 16 on, when 20 bytes are acknowledged. -/
theorem acked_bytes_sent_again : FullTcpAgent.Fresh narrow (hooks narrow) sender ∧
    ∃ s, sender.run narrow (hooks narrow) 50 (opens ++ overtaken) = some s ∧
      ∃ e ∈ s.trace.sent, 0 < e.datalen ∧ e.seqno < e.snd.highestAck := by
  have hrun : ((sender.run narrow (hooks narrow) 50 (opens ++ overtaken)).bind
      fun s => s.trace.sent.find? fun e => decide (0 < e.datalen ∧ e.seqno < e.snd.highestAck)).map
        (fun e => (e.seqno, e.datalen, e.snd.highestAck)) = some (16, 10, 21) := by decide +kernel
  obtain ⟨e, he, -⟩ := Option.map_eq_some_iff.mp hrun
  obtain ⟨s, hs, hfind⟩ := Option.bind_eq_some_iff.mp he
  exact ⟨sender_fresh, s, hs, e, List.mem_of_find?_eq_some hfind,
    by simpa using List.find?_some hfind⟩

namespace FullTcpAgent

open NsDefault in
/-- The sequence numbers after a handshake. -/
theorem seq_space_handshake : ∃ s, sender.run narrow (hooks narrow) 50 opens = some s ∧
    s.snd.highestAck = 1 ∧ s.snd.highestAck ≤ s.snd.tSeqno ∧ s.snd.tSeqno ≤ s.snd.maxseq := by
  have hrun : (sender.run narrow (hooks narrow) 50 opens).map (fun s => s.snd.highestAck) =
      some 1 := by decide +kernel
  obtain ⟨s, he, hack⟩ := Option.map_eq_some_iff.mp hrun
  have hsteps := he
  rw [run, opens, List.foldlM_cons] at hsteps
  obtain ⟨s₁, he₁, hsteps⟩ := Option.bind_eq_some_iff.mp hsteps
  rw [List.foldlM_cons] at hsteps
  obtain ⟨s₂, he₂, hend⟩ := Option.bind_eq_some_iff.mp hsteps
  obtain rfl : s₂ = s := Option.some_inj.mp hend
  have hslow : ((sender.tick 0).step narrow (hooks narrow) 50 (.sendmsg 5 .plain)).map (fun s =>
      (s.tick 1).fastAck narrow (hooks narrow) (segment 0 1 0 (TcpFlag.syn ||| TcpFlag.ack))) =
        some false := by decide +kernel
  rw [he₁, Option.map_some, Option.some_inj] at hslow
  have hs₁ : InStep narrow (hooks narrow) s₁ :=
    .step (.fresh sender_fresh (by decide)) (by simp [Event.segment]) he₁
  have hs₂ : InStep narrow (hooks narrow) s₂ := by
    refine .step hs₁ ?_ he₂
    rintro p hp ⟨-, hfast, -⟩
    rw [Event.segment, Option.mem_some_iff] at hp
    rw [← hp, hslow] at hfast
    cases hfast
  obtain ⟨-, hnext, -⟩ := seq_space narrow (hooks narrow) s₂ (by decide) (by decide) hs₂
  exact ⟨s₂, he, hack, hnext (by rw [hack]; decide)⟩

end FullTcpAgent

end Afabric
