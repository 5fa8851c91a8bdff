import Afabric.Linkstate.LsNetwork

/-!
# Linkstate — nothing is invented

Link changes, advertisements, topology maps and deliveries interleave in any way.  What a node has in
its database of another still comes link by link from lists that the other has had of itself, with
status, cost and sequence number, and an advertisement carries such a list under its own number.

What the nodes have had of themselves is a parameter `O` of what one node does.
-/

namespace Afabric

variable {O O' : ℕ → List LsLinkState → Prop} {l new : LsLinkState} {lsl olds : List LsLinkState}
  {db : LsTopoMap} {my o : ℕ}

/-! ### The database -/

namespace LsTopoMap

theorem mem_mergeLink (h : l ∈ (mergeLink false new olds).1) : l = new ∨ l ∈ olds := by
  induction olds with
  | nil => exact .inl (List.mem_singleton.mp h)
  | cons old olds ih =>
      rw [mergeLink] at h
      split at h
      next hn =>
        rcases List.mem_cons.mp h with rfl | h
        · exact .inl (by rw [← hn]; rfl)
        · exact .inr (List.mem_cons_of_mem old h)
      next =>
        rcases List.mem_cons.mp h with rfl | h
        · exact .inr List.mem_cons_self
        · exact (ih h).imp_right (List.mem_cons_of_mem old)

theorem mem_merge {b : Bool} (h : l ∈ (lsl.foldl (mergeRound false) (olds, b)).1) :
    l ∈ lsl ∨ l ∈ olds := by
  induction lsl generalizing olds b with
  | nil => exact .inr h
  | cons new lsl ih =>
      rcases ih h with h | h
      · exact .inl (List.mem_cons_of_mem new h)
      · rcases mem_mergeLink h with rfl | h
        · exact .inl List.mem_cons_self
        · exact .inr h

/-- A link of another node is a new or an old one. -/
theorem mem_update (ho : o ≠ my) {found : List LsLinkState}
    (h : (db.update my o lsl).1.find o = some found) (hl : l ∈ found) :
    l ∈ lsl ∨ ∃ old, db.find o = some old ∧ l ∈ old := by
  unfold update at h
  cases hold : db.find o with
  | none =>
      rw [hold, OrdMap.find_set, if_pos rfl] at h
      exact .inl (Option.some.inj h ▸ hl)
  | some old =>
      rw [hold, OrdMap.find_set, if_pos rfl, decide_eq_false ho] at h
      exact (mem_merge (Option.some.inj h ▸ hl)).imp_right fun h => ⟨old, rfl, h⟩

theorem find_update_of_ne {j : ℕ} (hj : j ≠ o) : (db.update my o lsl).1.find j = db.find j := by
  unfold update
  cases db.find o <;> exact OrdMap.find_set.trans (if_neg hj)

/-- Every link is from a list that its node has had. -/
def From (O : ℕ → List LsLinkState → Prop) (o : ℕ) (lsl : List LsLinkState) : Prop :=
  ∀ l ∈ lsl, ∃ had, O o had ∧ l ∈ had

end LsTopoMap

open LsTopoMap

/-! ### One node -/

/-- A message leads to a list that its originator has had, under the number of the message. -/
def LsUpdate.Genuine (O : ℕ → List LsLinkState → Prop) (m : LsUpdate) : Prop :=
  ∀ lsl ∈ m.lsl, O m.msg.originNodeId lsl ∧ ∀ l ∈ lsl, l.sequenceNumber = m.msg.sequenceNumber

theorem LsUpdate.Genuine.mono {m : LsUpdate} (h : m.Genuine O)
    (hO : ∀ o lsl, O o lsl → O' o lsl) : m.Genuine O' :=
  fun lsl hl => (h lsl hl).imp_left (hO _ _)

theorem LsTopoMap.From.mono (h : From O o lsl) (hO : ∀ o lsl, O o lsl → O' o lsl) :
    From O' o lsl :=
  fun l hl => (h l hl).imp fun had hh => ⟨hO o had hh.1, hh.2⟩

namespace LsRouting

/-- What a node knows of others. -/
structure Knows (O : ℕ → List LsLinkState → Prop) (n : LsRouting) : Prop where
  database : ∀ o ≠ n.myNodeId, ∀ lsl ∈ n.database.find o, From O o lsl
  buffer : ∀ m ∈ n.messageBuffer, m.2.Genuine O

/-- `n` becomes `n'` and sends `out`. -/
structure Acts (O : ℕ → List LsLinkState → Prop) (n n' : LsRouting) (out : LsOut) : Prop where
  id : n'.myNodeId = n.myNodeId
  knows : n'.Knows O
  sent : ∀ m ∈ out, m.2.Genuine O

variable {n n' : LsRouting} {c : LsMessageCenter} {u : LsUpdate}
  {s s' : LsRouting × LsMessageCenter}

theorem Knows.mono (h : Knows O n) (hO : ∀ o lsl, O o lsl → O' o lsl) : Knows O' n :=
  ⟨fun o ho lsl hf => (h.database o ho lsl hf).mono hO, fun m hm => (h.buffer m hm).mono hO⟩

theorem Knows.send (h : Knows O n) {out : LsOut} (hout : ∀ m ∈ out, m.2.Genuine O) :
    Knows O (n.bufferedSend out) :=
  ⟨h.database, fun m hm => (List.mem_append.mp hm).elim (h.buffer m) (hout m)⟩

theorem genuine_toPeers {but : List ℕ} (hu : u.Genuine O) :
    ∀ m ∈ n.toPeers but u, m.2.Genuine O := by
  intro m hm
  obtain ⟨p, -, rfl⟩ := List.mem_map.mp hm
  exact hu

theorem genuine_none (m : LsMessage) : LsUpdate.Genuine O ⟨m, none⟩ := nofun

/-- The list of `o` has changed; if it is the node's own, this says nothing of others. -/
theorem Knows.change (h : Knows O n) (hdb : ∀ j ≠ o, db.find j = n.database.find j)
    (hnew : o ≠ n.myNodeId → ∀ lsl ∈ db.find o, From O o lsl) :
    Knows O { n with database := db } := by
  refine ⟨fun j hj lsl hf => ?_, h.buffer⟩
  by_cases hjo : j = o
  · subst hjo
    exact hnew hj lsl hf
  · exact h.database j hj lsl (hdb j hjo ▸ hf)

theorem Knows.sendLinkStates (h : Knows O n) (b : Bool)
    (hown : ∀ lsl ∈ (n.sendLinkStates b c).1.database.find n.myNodeId, O n.myNodeId lsl) :
    Acts O n (n.sendLinkStates b c).1 (n.sendLinkStates b c).2.1 := by
  unfold LsRouting.sendLinkStates at hown ⊢
  cases hf : n.database.find n.myNodeId with
  | none => exact ⟨rfl, h, nofun⟩
  | some lsl =>
      simp only [hf] at hown ⊢
      by_cases he : n.peerIdList = [] ∨ lsl = []
      · rw [if_pos he]
        exact ⟨rfl, h, nofun⟩
      rw [if_neg he] at hown ⊢
      generalize hm : (c.newMessage n.myNodeId .lsa).1 = m at hown ⊢
      have hid : m.originNodeId = n.myNodeId := hm ▸ rfl
      generalize hlsl : lsl.map (fun l => { l with sequenceNumber := m.sequenceNumber }) = sent
        at hown ⊢
      have hk : Knows O { n with database := n.database.set n.myNodeId sent } :=
        h.change (fun o ho => OrdMap.find_set.trans (if_neg ho)) fun ho => absurd rfl ho
      have hO : O n.myNodeId sent := by
        refine hown sent ?_
        cases b <;> exact OrdMap.find_set.trans (if_pos rfl)
      have hg : LsUpdate.Genuine O ⟨m, some sent⟩ := by
        intro lsl' hl
        obtain rfl := Option.some.inj hl
        refine ⟨hid ▸ hO, fun l hl => ?_⟩
        obtain ⟨l', -, rfl⟩ := List.mem_map.mp (hlsl ▸ hl)
        rfl
      cases b with
      | true => exact ⟨rfl, hk.send (genuine_toPeers hg), nofun⟩
      | false => exact ⟨rfl, hk, genuine_toPeers hg⟩

/-- Topology maps lead to no list. -/
theorem foldl_sendTopo (ps : List ℕ) (s : LsRouting × LsMessageCenter) :
    (ps.foldl LsRouting.sendTopo s).1.myNodeId = s.1.myNodeId ∧
      (ps.foldl LsRouting.sendTopo s).1.database = s.1.database ∧
      (Knows O s.1 → Knows O (ps.foldl LsRouting.sendTopo s).1) := by
  induction ps generalizing s with
  | nil => exact ⟨rfl, rfl, id⟩
  | cons p ps ih =>
      obtain ⟨hid, hdb, hk⟩ := ih (LsRouting.sendTopo s p)
      exact ⟨hid, hdb, fun h => hk (h.send fun _ hm => List.mem_singleton.mp hm ▸ genuine_none _)⟩

theorem Knows.intfChanged {now : ℕ → LsStatus × ℕ} (h : Knows O n)
    (hs : n.intfChanged now c = some s)
    (hown : ∀ lsl ∈ s.1.database.find n.myNodeId, O n.myNodeId lsl) : Acts O n s.1 [] := by
  unfold LsRouting.intfChanged linkStateChanged at hs
  simp only at hs
  split at hs
  next => cases hs
  next old hold =>
    obtain ⟨ps, -, rfl⟩ := Option.map_eq_some_iff.mp hs
    generalize n.linkStateList.map _ = links at hown ⊢
    have hk : Knows O { n with
        linkStateList := links, database := (n.database.update n.myNodeId n.myNodeId links).1 } :=
      { h.change (fun o ho => find_update_of_ne ho) fun ho => absurd rfl ho with }
    by_cases hch : (n.database.update n.myNodeId n.myNodeId links).2 = true
    · rw [if_pos hch] at hown ⊢
      obtain ⟨hid, hdb, hkeep⟩ := foldl_sendTopo (O := O) ps (_, _)
      rw [hdb] at hown
      have ha := hk.sendLinkStates true hown
      exact ⟨hid.trans ha.id, hkeep ha.knows, nofun⟩
    · rw [if_neg hch]
      obtain ⟨hid, -, hkeep⟩ := foldl_sendTopo (O := O) ps (_, c)
      exact ⟨hid, hkeep hk, nofun⟩

theorem Knows.receiveLSA (h : Knows O n) (src : ℕ) (hu : u.Genuine O) :
    Acts O n (n.receiveLSA src u).1 (n.receiveLSA src u).2 := by
  unfold LsRouting.receiveLSA
  split
  · exact ⟨rfl, h, nofun⟩
  · have hk : Knows O { n with lsaHistory := LsMessageHistory.saved u.msg n.lsaHistory } :=
      { h with }
    cases hl : u.lsl with
    | none => exact ⟨rfl, hk, genuine_toPeers hu⟩
    | some lsl =>
        refine ⟨rfl, ?_, genuine_toPeers hu⟩
        refine hk.change (fun j hj => find_update_of_ne hj) fun hne found hf l hl' => ?_
        rcases mem_update hne hf hl' with hin | ⟨old, hold, hin⟩
        · exact ⟨lsl, (hu lsl hl).1, hin⟩
        · exact h.database _ hne old hold l hin

theorem Knows.takeRecord {p : ℕ} {e : ℕ × List LsLinkState} (h : Knows O s.1)
    (he : From O e.1 e.2) (hs : LsRouting.takeRecord p s e = some s') : Acts O s.1 s'.1 [] := by
  unfold LsRouting.takeRecord at hs
  split_ifs at hs with hid
  · exact Option.some.inj hs ▸ ⟨rfl, h, nofun⟩
  · obtain rfl := Option.some.inj hs
    have hk : Knows O { s.1 with database := s.1.database.set e.1 e.2 } := by
      refine h.change (fun j hj => OrdMap.find_set.trans (if_neg hj)) fun _ found hf => ?_
      rw [OrdMap.find_set, if_pos rfl] at hf
      exact Option.some.inj hf ▸ he
    exact ⟨rfl, hk.send (genuine_toPeers (genuine_none _)), nofun⟩
  · exact Option.some.inj hs ▸ ⟨rfl, h, nofun⟩

theorem Knows.takeRecords {p : ℕ} {es : List (ℕ × List LsLinkState)} (h : Knows O s.1)
    (hes : ∀ e ∈ es, From O e.1 e.2) (hs : es.foldlM (LsRouting.takeRecord p) s = some s') :
    Acts O s.1 s'.1 [] := by
  induction es generalizing s with
  | nil => exact Option.some.inj hs ▸ ⟨rfl, h, nofun⟩
  | cons e es ih =>
      obtain ⟨s₁, h₁, hs⟩ := Option.bind_eq_some_iff.mp hs
      have ha := h.takeRecord (hes e List.mem_cons_self) h₁
      have ha' := ih ha.knows (fun e' he' => hes e' (List.mem_cons_of_mem e he')) hs
      exact ⟨ha'.id.trans ha.id, ha'.knows, nofun⟩

theorem Knows.receiveTopo {p : ℕ} {topo : LsTopoMap} (h : Knows O n)
    (htopo : ∀ o, ∀ lsl ∈ topo.find o, From O o lsl) (hs : n.receiveTopo p u topo c = some s) :
    Acts O n s.1 [] := by
  unfold LsRouting.receiveTopo at hs
  split at hs
  · have hk : Knows O { n with tpmHistory := LsMessageHistory.saved u.msg n.tpmHistory } :=
      { h with }
    have ha := Knows.takeRecords (s := (_, c)) hk (fun e he =>
      htopo e.1 e.2 (OrdMap.find_eq_some_iff.mpr he)) hs
    exact ⟨ha.id, ha.knows, nofun⟩
  · exact Option.some.inj hs ▸ ⟨rfl, h, nofun⟩

end LsRouting

/-! ### The network -/

namespace LsNet

variable {T : LsTopology} {P : LsNet → Event → Prop} {s s' : LsNet} {e : Event} {u : ℕ}
  {n : LsRouting} {out : LsOut} {c : LsMessageCenter}

/-- A list that `o` has had of itself: the first, or one that it has come to have in an event. -/
def Had (T : LsTopology) (s : LsNet) (o : ℕ) (lsl : List LsLinkState) : Prop :=
  lsl = T.links o ∨ lsl ∈ s.origin o

structure Genuine (T : LsTopology) (s : LsNet) : Prop where
  id : ∀ u, (s.node u).myNodeId = u
  own : ∀ u, ∀ lsl ∈ (s.database u).find u, Had T s u lsl
  knows : ∀ u, (s.node u).Knows (Had T s)
  flight : ∀ m ∈ s.flight, m.2.2.Genuine (Had T s)

/-- An event at `u`. -/
theorem Genuine.after (h : Genuine T s) (hact : ∀ O : ℕ → List LsLinkState → Prop,
    (s.node u).Knows O → (∀ o lsl, Had T s o lsl → O o lsl) →
      (∀ lsl ∈ n.database.find (s.node u).myNodeId, O (s.node u).myNodeId lsl) →
        (s.node u).Acts O n out) : Genuine T (after u s n out c) := by
  have hmono : ∀ o lsl, Had T s o lsl → Had T (LsNet.after u s n out c) o lsl := by
    refine fun o lsl => Or.imp_right fun h => ?_
    change lsl ∈ note u s n o
    unfold note
    split
    · exact h
    · rw [Function.update_apply]
      split
      next ho => exact List.mem_append_right _ (ho ▸ h)
      next => exact h
  have hown : ∀ lsl ∈ n.database.find u, Had T (LsNet.after u s n out c) u lsl := by
    intro lsl hl
    by_cases hsame : n.database.find u = (s.node u).database.find u
    · exact hmono u lsl (h.own u lsl (hsame ▸ hl))
    · right
      change lsl ∈ note u s n u
      rw [note, if_neg hsame, Function.update_self, Option.mem_def.mp hl]
      exact List.mem_cons_self
  have ha := hact _ ((h.knows u).mono hmono) hmono (by rwa [h.id])
  have hnode : ∀ v, (LsNet.after u s n out c).node v = if v = u then n else s.node v := fun v =>
    Function.update_apply s.node u n v
  refine ⟨fun v => ?_, fun v => ?_, fun v => ?_, fun m hm => ?_⟩
  · rw [hnode]
    split
    next hv => rw [ha.id, h.id, hv]
    next => exact h.id v
  · rw [database, hnode]
    split
    next hv => exact hv ▸ hown
    next => exact fun lsl hl => hmono v lsl (h.own v lsl hl)
  · rw [hnode]
    split
    next => exact ha.knows
    next => exact (h.knows v).mono hmono
  · rcases List.mem_append.mp hm with hm | hm
    · exact (h.flight m hm).mono hmono
    · obtain ⟨m', hm', rfl⟩ := List.mem_map.mp hm
      exact ha.sent m' hm'

theorem Genuine.known (h : Genuine T s) (u o : ℕ) :
    ∀ lsl ∈ (s.database u).find o, From (Had T s) o lsl := by
  intro lsl hf
  rcases eq_or_ne o u with rfl | ho
  · exact fun l hl => ⟨lsl, h.own o lsl hf, hl⟩
  · exact (h.knows u).database o (by rwa [h.id]) lsl hf

theorem Genuine.receiveMessage (h : Genuine T s) {src dst : ℕ} {m : LsUpdate}
    (hm : m.Genuine (Had T s)) (hs : s.receiveMessage src dst m = some s') : Genuine T s' := by
  unfold LsNet.receiveMessage at hs
  split at hs
  · obtain rfl := Option.some.inj hs
    exact h.after fun O hk hO _ => hk.receiveLSA src (hm.mono hO)
  · obtain ⟨r, hr, rfl⟩ := Option.map_eq_some_iff.mp hs
    exact h.after fun O hk hO _ => hk.receiveTopo
      (fun o lsl hf => (h.known m.msg.originNodeId o lsl hf).mono hO) hr
  · exact Option.some.inj hs ▸ h

theorem Genuine.step (h : Genuine T s) (hs : s.step e = some s') : Genuine T s' := by
  cases e with
  | changed u now =>
      obtain ⟨r, hr, rfl⟩ := Option.map_eq_some_iff.mp hs
      exact h.after fun O hk _ hown => hk.intfChanged hr hown
  | sendUpdates u =>
      obtain rfl := Option.some.inj hs
      exact h.after fun O hk _ hown => hk.sendLinkStates false hown
  | sendBuffered u =>
      obtain rfl := Option.some.inj hs
      exact h.after fun O hk _ _ => ⟨rfl, ⟨hk.database, nofun⟩, hk.buffer⟩
  | deliver src dst m =>
      rw [LsNet.step] at hs
      split_ifs at hs with hm
      have hg : Genuine T { s with flight := s.flight.erase (src, dst, m) } :=
        { h with flight := fun m' hm' => h.flight m' (List.mem_of_mem_erase hm') }
      exact hg.receiveMessage (h.flight _ hm) hs

theorem reach_genuine (h : Reach T P s) : Genuine T s := by
  induction h with
  | init =>
      refine ⟨fun _ => rfl, fun u lsl hf => .inl ?_, fun u => ⟨fun o ho lsl hf => ?_, nofun⟩, nofun⟩
      · exact (Option.some.inj ((OrdMap.find_set.trans (if_pos rfl)).symm.trans hf)).symm
      · exact absurd ((OrdMap.find_set.trans (if_neg ho)).symm.trans hf) nofun
  | next e _ _ hs ih => exact ih.step hs

/-- **Provenance.**  In every run, each link that is in a database is from a list that its node has
had of itself, and each list that a message carries is one that its originator has had. -/
theorem provenance (h : Reach T P s) :
    (∀ u o, ∀ lsl ∈ (s.database u).find o, From (Had T s) o lsl) ∧
      ∀ m ∈ s.flight, m.2.2.Genuine (Had T s) :=
  ⟨(reach_genuine h).known, (reach_genuine h).flight⟩

/-- Two nodes with a link. -/
def pair : LsTopology where
  peers := fun u => if u ≤ 1 then [1 - u] else []
  links := fun u => if u ≤ 1 then [⟨1 - u, .up, 1, 0⟩] else []
  mem_peers := fun u v => by split <;> rfl
  nodup := fun u => by split <;> simp
  symm := fun u v => by
    split
    · rintro h
      obtain rfl := List.mem_singleton.mp h
      rw [if_pos (Nat.sub_le 1 u)]
      exact List.mem_singleton.mpr (by omega)
    · exact nofun
  irrefl := fun u => by
    split
    · exact fun h => absurd (List.mem_singleton.mp h) (by omega)
    · exact nofun

/-- An advertisement of 0 reaches 1. -/
theorem provenance_pair : ∃ s, Reach pair (fun _ _ => True) s ∧
    (s.database 1).find 0 = some [⟨1, .up, 1, 1⟩] ∧
    ∀ u o, ∀ lsl ∈ (s.database u).find o, From (Had pair s) o lsl := by
  have hrun : (run (fun _ _ => True) (init pair) [.sendUpdates 0,
      .deliver 0 1 ⟨⟨.lsa, 1, 1, 0⟩, some [⟨1, .up, 1, 1⟩]⟩]).any
        (fun s => decide ((s.database 1).find 0 = some [⟨1, .up, 1, 1⟩])) = true := by
    decide +kernel
  obtain ⟨s, hs, hfind⟩ := (Option.any_eq_true _ _).mp hrun
  have hr : Reach pair (fun _ _ => True) s := Reach.init.run hs
  exact ⟨s, hr, of_decide_eq_true hfind, (provenance hr).1⟩

end LsNet

end Afabric
