import Afabric.Mcast.Srm
import Afabric.Support.Outcome

/-!
# Mcast — the objects of an SRM agent

What the methods of a request or a repair do to the agent (`Touches`), and the invariant that ties
`pending_`, the objects and the scheduled commands to the messages that have come (`Inv`): one lemma
for each way in which an instproc writes them.
-/

namespace Afabric

/-- The kind of an object and the message that it is about, which no method changes. -/
def SrmObject.tag (o : SrmObject) : SrmKind × SrmKey := (o.kind, o.key)

/-- A request that has been put off has its `ignore_`. -/
def SrmObject.Ready (o : SrmObject) : Prop := o.kind = .request → 2 ≤ o.round → o.ignore ≠ none

/-- The object that a command is about. -/
def SrmCommand.obj? : SrmCommand → Option ℕ
  | .sendRequest id | .sendRepair id | .clear id _ _ => some id
  | .cleanup => none

/-- What `eventID_` of its object says while the command is scheduled. -/
def SrmAt.timer (e : SrmAt) : Option ℕ :=
  match e.command with
  | .clear _ _ _ => none
  | _ => some e.uid

/-- The command of the timer of an object. -/
def SrmObject.timer (o : SrmObject) (id : ℕ) : SrmCommand :=
  match o.kind with
  | .request => .sendRequest id
  | .repair => .sendRepair id

namespace SrmAgent

/-- `b` is `a` but for the object `id`, the commands scheduled, and what it has sent and counted. -/
structure Touches (a : SrmAgent) (id : ℕ) (o : SrmObject) (b : SrmAgent) : Prop where
  objects : b.objects = Function.update a.objects id (some o)
  info : b.info = a.info
  pending : b.pending = a.pending
  done : b.done = a.done
  old : b.old = a.old
  created : b.created = a.created

variable {cfg : SrmConfig} {a b c : SrmAgent} {id : ℕ} {o o' : SrmObject} {now : ℚ}
variable {F : SrmFault → Prop}

theorem Touches.refl (h : a.objects id = some o) : Touches a id o a :=
  ⟨by rw [← h, Function.update_eq_self], rfl, rfl, rfl, rfl, rfl⟩

theorem Touches.trans (hab : Touches a id o b) (hbc : Touches b id o' c) : Touches a id o' c where
  objects := by rw [hbc.objects, hab.objects, Function.update_idem]
  info := hbc.info.trans hab.info
  pending := hbc.pending.trans hab.pending
  done := hbc.done.trans hab.done
  old := hbc.old.trans hab.old
  created := hbc.created.trans hab.created

theorem Touches.self (h : Touches a id o b) : b.objects id = some o := by
  rw [h.objects, Function.update_self]

theorem touches_put : Touches a id o (a.put id o) := ⟨rfl, rfl, rfl, rfl, rfl, rfl⟩

theorem Touches.nsAt {t : ℚ} {cmd : SrmCommand} (h : Touches a id o b) :
    Touches a id o (b.nsAt t cmd) :=
  ⟨h.objects, h.info, h.pending, h.done, h.old, h.created⟩

/-! ### The methods of an object -/

theorem find_spec (h : a.objects id = some o) : Outcome F (· = o) (a.find id) := by
  rw [find, h]
  rfl

theorem cancel_spec (h : a.objects id = some o) :
    Outcome F (fun b => Touches a id { o with eventID := none } b ∧ b.uids = a.uids ∧
      ∀ e ∈ b.queue, e ∈ a.queue ∧ o.eventID ≠ some e.uid) (a.cancel id) := by
  refine Outcome.bind (find_spec h) ?_
  rintro _ rfl
  split
  next uid hev =>
    refine ⟨⟨rfl, rfl, rfl, rfl, rfl, rfl⟩, rfl, ?_⟩
    intro e he
    obtain ⟨he, hne⟩ := List.mem_filter.mp he
    refine ⟨he, ?_⟩
    rw [hev]
    exact fun hu => of_decide_eq_true hne (Option.some.inj hu).symm
  next hev =>
    refine ⟨Touches.refl ?_, rfl, ?_⟩
    · rw [h, ← hev]
    · intro e he
      exact ⟨he, by rw [hev]; nofun⟩

theorem schedule_spec (h : a.objects id = some o) :
    Outcome F (fun b => ∃ o', Touches a id o' b ∧ o'.tag = o.tag ∧ o'.round = o.round + 1 ∧
      o'.ignore = o.ignore ∧ o'.eventID = some a.uids ∧
      ∀ e ∈ b.queue, e ∈ a.queue ∨ (e.uid = a.uids ∧ e.command = o.timer id))
      (a.schedule cfg now id) := by
  refine Outcome.bind (find_spec h) ?_
  rintro _ rfl
  dsimp only
  split
  all_goals
    rename_i hk
    refine ⟨_, ⟨rfl, rfl, rfl, rfl, rfl, rfl⟩, rfl, rfl, rfl, rfl, ?_⟩
    intro e he
    rcases List.mem_append.mp he with he | he
    · exact .inl he
    · obtain rfl := List.mem_singleton.mp he
      exact .inr ⟨rfl, by rw [SrmObject.timer, hk]⟩

/-- A request puts a request object off, unless it is ignored; a repair object takes no notice. -/
theorem objRecvRequest_spec (h : a.objects id = some o) :
    Outcome F (fun b => ∃ o', Touches a id o' b ∧ o'.tag = o.tag ∧ (o.Ready → o'.Ready) ∧
      ((o' = o ∧ b.queue = a.queue) ∨
        (o.kind = .request ∧ (¬ o.ignore.any fun t => now < t) ∧ o'.eventID = some a.uids ∧
          ∀ e ∈ b.queue, (e ∈ a.queue ∧ o.eventID ≠ some e.uid) ∨
            (e.uid = a.uids ∧ e.command = o.timer id)))) (a.objRecvRequest cfg now id) := by
  refine Outcome.bind (find_spec h) ?_
  rintro _ rfl
  split
  next hk =>
    split_ifs with hi
    · exact ⟨_, Touches.refl h, rfl, fun h => h, .inl ⟨rfl, rfl⟩⟩
    refine Outcome.bind (cancel_spec h) ?_
    rintro b ⟨hb, hu, hbq⟩
    refine Outcome.bind (schedule_spec hb.self) ?_
    rintro c ⟨o₁, hc, htag, -, -, hev, hcq⟩
    refine Outcome.bind (find_spec hc.self) ?_
    rintro _ rfl
    refine ⟨_, (hb.trans hc).trans touches_put, htag, fun _ _ _ => nofun,
      .inr ⟨hk, hi, hev.trans (congrArg some hu), ?_⟩⟩
    intro e he
    rcases hcq e he with he | ⟨he, hcmd⟩
    · exact .inl (hbq e he)
    · exact .inr ⟨he.trans hu, hcmd⟩
  next => exact ⟨_, Touches.refl h, rfl, fun h => h, .inl ⟨rfl, rfl⟩⟩

/-- A repair puts an object on hold, unless it already is. -/
theorem objRecvRepair_spec (h : a.objects id = some o) :
    Outcome F (fun b => ∃ o', Touches a id o' b ∧ o'.tag = o.tag ∧ (o.Ready → o'.Ready) ∧
      ((o' = o ∧ b.queue = a.queue) ∨
        (o.eventID ≠ none ∧ o'.eventID = none ∧
          ∀ e ∈ b.queue, (e ∈ a.queue ∧ o.eventID ≠ some e.uid) ∨
            (e.uid = a.uids ∧ e.command = .clear id o.sender o.msgid))))
      (a.objRecvRepair cfg now id) := by
  refine Outcome.bind (find_spec h) ?_
  rintro _ rfl
  split
  next uid hev =>
    refine Outcome.imp (cancel_spec (Function.update_self _ _ _)) ?_
    rintro b ⟨hb, -, hbq⟩
    refine ⟨_, touches_put.nsAt.trans hb, rfl, ?_, .inr ⟨?_, rfl, ?_⟩⟩
    · intro _ hk _
      dsimp only at hk ⊢
      rw [hk]
      nofun
    · rw [hev]
      nofun
    · intro e he
      obtain ⟨he, hne⟩ := hbq e he
      rcases List.mem_append.mp he with he | he
      · exact .inl ⟨he, hne⟩
      · obtain rfl := List.mem_singleton.mp he
        exact .inr ⟨rfl, rfl⟩
  next => exact ⟨_, Touches.refl h, rfl, fun h => h, .inl ⟨rfl, rfl⟩⟩

theorem dupRequest?_spec (h : a.objects id = some o) (hr : o.Ready) :
    Outcome F (fun _ => True) (a.dupRequest? now id) := by
  refine Outcome.bind (find_spec h) ?_
  rintro _ rfl
  split
  next hk =>
    split_ifs with hround
    · split
      · trivial
      next hi => exact absurd hi (hr hk hround.ge)
    · trivial
  next => trivial

theorem dupRepair?_spec (h : a.objects id = some o) :
    Outcome F (fun _ => True) (a.dupRepair? id) := by
  refine Outcome.bind (find_spec h) ?_
  rintro _ rfl
  split <;> trivial

/-! ### The invariant -/

/-- An object has at most one command scheduled, and only as long as it is pending: its timer, or
the `clear` that ends its hold-down.  The objects in `done_` are there. -/
structure Tight (a : SrmAgent) : Prop where
  command : ∀ e ∈ a.queue, ∀ id, e.command.obj? = some id →
    ∃ o, a.objects id = some o ∧ a.pending o.key = some id ∧ o.eventID = e.timer
  once : ∀ e ∈ a.queue, ∀ e' ∈ a.queue, ∀ id, e.command.obj? = some id →
    e'.command.obj? = some id → e.uid = e'.uid
  done : ∀ d ∈ a.done, ∃ o, a.objects d.2 = some o ∧ o.key = d.1
  nodup : (a.done.map Prod.fst).Nodup

theorem Tight.not_obj {e : SrmAt} (ht : Tight a) (ho : a.objects id = some o) (he : e ∈ a.queue)
    (hnone : o.eventID ≠ none) (hne : o.eventID ≠ some e.uid) : e.command.obj? ≠ some id := by
  intro hid
  obtain ⟨x, hx, -, hev⟩ := ht.command e he id hid
  rw [ho] at hx
  obtain rfl := Option.some.inj hx
  rw [SrmAt.timer] at hev
  split at hev
  · exact hnone hev
  · exact hne hev

/-- A method of an object leaves its command alone, or takes it off and schedules another. -/
theorem Tight.touch (hi : Tight a) (ho : a.objects id = some o) (ht : Touches a id o' b)
    (hkey : o'.key = o.key)
    (hq : (b.queue = a.queue ∧ o'.eventID = o.eventID) ∨
      (a.pending o.key = some id ∧ ∀ e ∈ b.queue, (e ∈ a.queue ∧ e.command.obj? ≠ some id) ∨
        (e.uid = a.uids ∧ e.command.obj? = some id ∧ o'.eventID = e.timer))) : Tight b := by
  have hself : b.objects id = some o' := ht.self
  have hother : ∀ j, j ≠ id → b.objects j = a.objects j := by
    intro j hj
    rw [ht.objects, Function.update_of_ne hj]
  have hcommand : ∀ e ∈ a.queue, ∀ j, j ≠ id → e.command.obj? = some j →
      ∃ x, b.objects j = some x ∧ b.pending x.key = some j ∧ x.eventID = e.timer := by
    intro e he j hj hid
    obtain ⟨x, hx, hp, hev⟩ := hi.command e he j hid
    exact ⟨x, (hother j hj).trans hx, ht.pending ▸ hp, hev⟩
  constructor
  case command =>
    intro e he j hid
    rcases hq with ⟨hq, hev⟩ | ⟨hp, hq⟩
    · rw [hq] at he
      by_cases hj : j = id
      · subst hj
        obtain ⟨x, hx, hp, hx'⟩ := hi.command e he j hid
        rw [ho] at hx
        obtain rfl := Option.some.inj hx
        exact ⟨o', hself, by rw [hkey, ht.pending, hp], hev.trans hx'⟩
      · exact hcommand e he j hj hid
    · rcases hq e he with ⟨he, hne⟩ | ⟨-, hid', hev⟩
      · have hj : j ≠ id := fun hj => hne (hj ▸ hid)
        exact hcommand e he j hj hid
      · obtain rfl := Option.some.inj (hid'.symm.trans hid)
        exact ⟨o', hself, by rw [hkey, ht.pending, hp], hev⟩
  case once =>
    intro e he e' he' j hid hid'
    rcases hq with ⟨hq, -⟩ | ⟨-, hq⟩
    · rw [hq] at he he'
      exact hi.once e he e' he' j hid hid'
    · rcases hq e he with ⟨he, hne⟩ | ⟨hu, hnew, -⟩
      · rcases hq e' he' with ⟨he', -⟩ | ⟨-, hnew, -⟩
        · exact hi.once e he e' he' j hid hid'
        · exact absurd (hid.trans (hid'.symm.trans hnew)) hne
      · rcases hq e' he' with ⟨-, hne⟩ | ⟨hu', -, -⟩
        · exact absurd (hid'.trans (hid.symm.trans hnew)) hne
        · exact hu.trans hu'.symm
  case done =>
    intro d hd
    rw [ht.done] at hd
    obtain ⟨x, hx, hk⟩ := hi.done d hd
    by_cases hj : d.2 = id
    · rw [hj, ho] at hx
      obtain rfl := Option.some.inj hx
      exact ⟨o', hj ▸ hself, hkey.trans hk⟩
    · exact ⟨x, (hother _ hj).trans hx, hk⟩
  case nodup =>
    rw [ht.done]
    exact hi.nodup

/-- What is true of an agent that has heard of the messages of `s` up to `h s`, and to which the
messages `arr` have come.  `T` says that no message has disturbed a hold-down. -/
structure Inv (T : Prop) (a : SrmAgent) (h : Int → Int) (arr : SrmKey → Prop) : Prop where
  heard : ∀ s, -1 ≤ h s
  received : ∀ s i, (a.info s).received i = true → i ≤ h s
  arrived : ∀ k, arr k → k.2 ≤ h k.1
  pending : ∀ k id, a.pending k = some id → ∃ o, a.objects id = some o ∧ o.key = k
  object : ∀ id o, a.objects id = some o → id < a.created ∧ o.msgid ≤ h o.sender ∧ o.Ready
  only : ∀ id o, a.objects id = some o → ¬ arr o.key → a.pending o.key = some id
  missing : ∀ k : SrmKey, 0 ≤ k.2 → k.2 ≤ h k.1 → ¬ arr k →
    ∃ id o, a.pending k = some id ∧ a.objects id = some o ∧ o.kind = .request
  done : ∀ d ∈ a.done, d.2 < a.created ∧ ∀ k, a.pending k ≠ some d.2
  old : ∀ k r, a.old k = some r → arr k
  clear : ∀ e ∈ a.queue, ∀ id s m, e.command = .clear id s m →
    arr (s, m) ∧ id < a.created ∧ ∀ o, a.objects id = some o → o.key = (s, m)
  tight : T → Tight a

variable {T : Prop} {h h' : Int → Int} {arr arr' : SrmKey → Prop} {k : SrmKey}

theorem of_update_none {α β : Type*} [DecidableEq α] {f : α → Option β} {i j : α} {x : β}
    (h : Function.update f i none j = some x) : j ≠ i ∧ f j = some x := by
  by_cases hj : j = i
  · rw [hj, Function.update_self] at h
    cases h
  · rw [Function.update_of_ne hj] at h
    exact ⟨hj, h⟩

namespace Inv

theorem key_of_pending (hi : Inv T a h arr) (hp : a.pending k = some id)
    (ho : a.objects id = some o) : o.key = k := by
  obtain ⟨o', ho', hk⟩ := hi.pending k id hp
  rw [ho] at ho'
  rwa [Option.some.inj ho']

/-- More is heard of: the messages that are new have come. -/
theorem hear (hi : Inv T a h arr) (hh : ∀ s, h s ≤ h' s) (harr : ∀ k, arr k → arr' k)
    (hle : ∀ k, arr' k → k.2 ≤ h' k.1) (hnew : ∀ k, k.2 ≤ h' k.1 → k.2 ≤ h k.1 ∨ arr' k) :
    Inv T a h' arr' where
  heard := fun s => (hi.heard s).trans (hh s)
  received := fun s i hr => (hi.received s i hr).trans (hh s)
  arrived := hle
  pending := hi.pending
  object := fun id o ho =>
    ⟨(hi.object id o ho).1, (hi.object id o ho).2.1.trans (hh _), (hi.object id o ho).2.2⟩
  only := fun id o ho hn => hi.only id o ho fun hk => hn (harr _ hk)
  missing := by
    intro k h₀ hk hn
    exact hi.missing k h₀ ((hnew k hk).resolve_right hn) fun h => hn (harr _ h)
  done := hi.done
  old := fun k r hr => harr _ (hi.old k r hr)
  clear := fun e he id s m hc =>
    ⟨harr _ (hi.clear e he id s m hc).1, (hi.clear e he id s m hc).2⟩
  tight := hi.tight

/-- The tables of the C++ half are written. -/
theorem withInfo (hi : Inv T a h arr) {info : Int → SrmInfo}
    (hr : ∀ s i, (info s).received i = true → i ≤ h s) : Inv T { a with info := info } h arr where
  heard := hi.heard
  received := hr
  arrived := hi.arrived
  pending := hi.pending
  object := hi.object
  only := hi.only
  missing := hi.missing
  done := hi.done
  old := hi.old
  clear := hi.clear
  tight := fun hT => ⟨(hi.tight hT).command, (hi.tight hT).once, (hi.tight hT).done,
    (hi.tight hT).nodup⟩

/-- Commands come off the schedule, and `cleanup` gets on it. -/
theorem requeue (hi : Inv T a h arr) {q : List SrmAt} {u : ℕ}
    (hq : ∀ e ∈ q, e ∈ a.queue ∨ e.command = .cleanup) :
    Inv T { a with queue := q, uids := u } h arr := by
  have hmem : ∀ e ∈ q, ∀ id, e.command.obj? = some id → e ∈ a.queue := by
    intro e he id hid
    refine (hq e he).resolve_right ?_
    intro hc
    rw [hc] at hid
    cases hid
  have hclear : ∀ e ∈ q, ∀ id s m, e.command = .clear id s m → e ∈ a.queue := by
    intro e he id s m hc
    exact hmem e he id (by rw [hc]; rfl)
  refine ⟨hi.heard, hi.received, hi.arrived, hi.pending, hi.object, hi.only, hi.missing, hi.done,
    hi.old, fun e he id s m hc => hi.clear e (hclear e he id s m hc) id s m hc, ?_⟩
  intro hT
  refine ⟨fun e he id hid => (hi.tight hT).command e (hmem e he id hid) id hid, ?_,
    (hi.tight hT).done, (hi.tight hT).nodup⟩
  intro e he e' he' id hid hid'
  exact (hi.tight hT).once e (hmem e he id hid) e' (hmem e' he' id hid') id hid hid'

/-- A method of an object keeps the invariant. -/
theorem touch (hi : Inv T a h arr) (ho : a.objects id = some o) (ht : Touches a id o' b)
    (htag : o'.tag = o.tag) (hready : o'.Ready)
    (hq : ∀ e ∈ b.queue, ∀ id' s m, e.command = .clear id' s m →
      e ∈ a.queue ∨ (id' = id ∧ (s, m) = o.key ∧ arr o.key))
    (hT : T → Tight b) : Inv T b h arr := by
  have hkind : o'.kind = o.kind := congrArg Prod.fst htag
  have hkey : o'.key = o.key := congrArg Prod.snd htag
  have hobj : ∀ j x, b.objects j = some x → ∃ y, a.objects j = some y ∧ x.key = y.key := by
    intro j x hx
    rw [ht.objects] at hx
    by_cases hj : j = id
    · subst hj
      rw [Function.update_self] at hx
      exact ⟨o, ho, Option.some.inj hx ▸ hkey⟩
    · rw [Function.update_of_ne hj] at hx
      exact ⟨x, hx, rfl⟩
  have hback : ∀ j y, a.objects j = some y →
      ∃ x, b.objects j = some x ∧ x.key = y.key ∧ x.kind = y.kind := by
    intro j y hy
    rw [ht.objects]
    by_cases hj : j = id
    · subst hj
      rw [ho] at hy
      obtain rfl := Option.some.inj hy
      exact ⟨o', Function.update_self _ _ _, hkey, hkind⟩
    · exact ⟨y, by rw [Function.update_of_ne hj, hy], rfl, rfl⟩
  constructor
  case heard => exact hi.heard
  case received => rw [ht.info]; exact hi.received
  case arrived => exact hi.arrived
  case pending =>
    intro k j hj
    rw [ht.pending] at hj
    obtain ⟨y, hy, hk⟩ := hi.pending k j hj
    obtain ⟨x, hx, hxk, -⟩ := hback j y hy
    exact ⟨x, hx, hxk.trans hk⟩
  case object =>
    intro j x hx
    obtain ⟨y, hy, hk⟩ := hobj j x hx
    obtain ⟨hlt, hle, hr⟩ := hi.object j y hy
    refine ⟨ht.created ▸ hlt, ?_, ?_⟩
    · have h₁ : x.sender = y.sender := congrArg Prod.fst hk
      have h₂ : x.msgid = y.msgid := congrArg Prod.snd hk
      rwa [h₁, h₂]
    · rw [ht.objects] at hx
      by_cases hj : j = id
      · subst hj
        rw [Function.update_self] at hx
        exact Option.some.inj hx ▸ hready
      · rw [Function.update_of_ne hj, hy] at hx
        exact Option.some.inj hx ▸ hr
  case only =>
    intro j x hx hn
    obtain ⟨y, hy, hk⟩ := hobj j x hx
    rw [hk] at hn ⊢
    rw [ht.pending]
    exact hi.only j y hy hn
  case missing =>
    intro k h₀ hk hn
    obtain ⟨j, y, hp, hy, hkd⟩ := hi.missing k h₀ hk hn
    obtain ⟨x, hx, -, hxk⟩ := hback j y hy
    exact ⟨j, x, ht.pending ▸ hp, hx, hxk.trans hkd⟩
  case done => rw [ht.done, ht.created, ht.pending]; exact hi.done
  case old => rw [ht.old]; exact hi.old
  case clear =>
    intro e he j s m hc
    rw [ht.created]
    rcases hq e he j s m hc with he | ⟨rfl, hk, ha⟩
    · obtain ⟨ha, hlt, hkey⟩ := hi.clear e he j s m hc
      refine ⟨ha, hlt, ?_⟩
      intro x hx
      obtain ⟨y, hy, hk⟩ := hobj j x hx
      exact hk.trans (hkey y hy)
    · refine ⟨hk ▸ ha, (hi.object j o ho).1, ?_⟩
      intro x hx
      obtain ⟨y, hy, hxy⟩ := hobj j x hx
      rw [ho] at hy
      obtain rfl := Option.some.inj hy
      exact hxy.trans hk.symm
  case tight => exact hT

/-- A new object for a message that has none. -/
theorem setPending (hi : Inv T a h arr) (hh : ∀ s, h s ≤ h' s) (hp : a.pending o.key = none)
    (hle : o.msgid ≤ h' o.sender) (hready : o.Ready)
    (hnew : ∀ k, k.2 ≤ h' k.1 → k.2 ≤ h k.1 ∨ (k = o.key ∧ o.kind = .request)) :
    Inv T (a.setPending o) h' arr := by
  have hobj : ∀ j x, a.objects j = some x → (a.setPending o).objects j = some x := by
    intro j x hx
    exact (Function.update_of_ne (hi.object j x hx).1.ne _ _).trans hx
  have hself : (a.setPending o).objects a.created = some o := Function.update_self _ _ _
  have hother : ∀ j x, (a.setPending o).objects j = some x → j ≠ a.created →
      a.objects j = some x := by
    intro j x hx hj
    exact (Function.update_of_ne hj _ _).symm.trans hx
  have hpend : ∀ k, k ≠ o.key → (a.setPending o).pending k = a.pending k :=
    fun k hk => Function.update_of_ne hk _ _
  have hpself : (a.setPending o).pending o.key = some a.created := Function.update_self _ _ _
  constructor
  case heard => exact fun s => (hi.heard s).trans (hh s)
  case received => exact fun s i hr => (hi.received s i hr).trans (hh s)
  case arrived => exact fun k hk => (hi.arrived k hk).trans (hh _)
  case pending =>
    intro k j hj
    by_cases hk : k = o.key
    · rw [hk, hpself] at hj
      exact ⟨o, Option.some.inj hj ▸ hself, hk.symm⟩
    · rw [hpend k hk] at hj
      obtain ⟨x, hx, hxk⟩ := hi.pending k j hj
      exact ⟨x, hobj j x hx, hxk⟩
  case object =>
    intro j x hx
    by_cases hj : j = a.created
    · rw [hj, hself] at hx
      obtain rfl := Option.some.inj hx
      exact ⟨hj ▸ Nat.lt_succ_self _, hle, hready⟩
    · obtain ⟨h₁, h₂, h₃⟩ := hi.object j x (hother j x hx hj)
      exact ⟨Nat.lt_succ_of_lt h₁, h₂.trans (hh _), h₃⟩
  case only =>
    intro j x hx hn
    by_cases hj : j = a.created
    · rw [hj, hself] at hx
      obtain rfl := Option.some.inj hx
      rw [hj, hpself]
    · have hpx := hi.only j x (hother j x hx hj) hn
      have hk : x.key ≠ o.key := by
        intro hk
        rw [hk, hp] at hpx
        cases hpx
      rw [hpend _ hk, hpx]
  case missing =>
    intro k h₀ hk hn
    by_cases hko : k = o.key
    · rcases hnew k hk with hkh | ⟨-, hkind⟩
      · obtain ⟨j, x, hpj, -⟩ := hi.missing k h₀ hkh hn
        rw [hko, hp] at hpj
        cases hpj
      · exact ⟨a.created, o, hko ▸ hpself, hself, hkind⟩
    · have hkh := (hnew k hk).resolve_right fun h => hko h.1
      obtain ⟨j, x, hpj, hx, hkind⟩ := hi.missing k h₀ hkh hn
      exact ⟨j, x, (hpend k hko).trans hpj, hobj j x hx, hkind⟩
  case done =>
    intro d hd
    obtain ⟨hlt, hne⟩ := hi.done d hd
    refine ⟨Nat.lt_succ_of_lt hlt, ?_⟩
    intro k hk
    by_cases hko : k = o.key
    · rw [hko, hpself] at hk
      exact hlt.ne' (Option.some.inj hk)
    · exact hne k ((hpend k hko).symm.trans hk)
  case old => exact hi.old
  case clear =>
    intro e he j s m hc
    obtain ⟨ha, hlt, hkey⟩ := hi.clear e he j s m hc
    exact ⟨ha, Nat.lt_succ_of_lt hlt, fun x hx => hkey x (hother j x hx hlt.ne)⟩
  case tight =>
    intro hT
    refine ⟨?_, (hi.tight hT).once, ?_, (hi.tight hT).nodup⟩
    · intro e he j hj
      obtain ⟨x, hx, hpx, hev⟩ := (hi.tight hT).command e he j hj
      have hk : x.key ≠ o.key := by
        intro hk
        rw [hk, hp] at hpx
        cases hpx
      exact ⟨x, hobj j x hx, (hpend _ hk).trans hpx, hev⟩
    · intro d hd
      obtain ⟨x, hx, hk⟩ := (hi.tight hT).done d hd
      exact ⟨x, hobj _ x hx, hk⟩

/-- `delete` of the object of a message that has come, and `unset` of its `pending_`. -/
theorem unset (hi : Inv T a h arr) (hk : arr k) (hp : a.pending k = some id)
    (hfree : T → ∀ e ∈ a.queue, e.command.obj? ≠ some id) :
    Inv T { a with
      objects := Function.update a.objects id none
      pending := Function.update a.pending k none } h arr := by
  have hlive : ∀ k' j x, k' ≠ k → a.pending k' = some j → a.objects j = some x →
      Function.update a.objects id none j = some x := by
    intro k' j x hkk hj hx
    have hne : j ≠ id := by
      rintro rfl
      exact hkk ((hi.key_of_pending hj hx).symm.trans (hi.key_of_pending hp hx))
    rw [Function.update_of_ne hne, hx]
  constructor
  case heard => exact hi.heard
  case received => exact hi.received
  case arrived => exact hi.arrived
  case pending =>
    intro k' j hj
    obtain ⟨hkk, hj⟩ := of_update_none hj
    obtain ⟨x, hx, hxk⟩ := hi.pending k' j hj
    exact ⟨x, hlive k' j x hkk hj hx, hxk⟩
  case object => exact fun j x hx => hi.object j x (of_update_none hx).2
  case only =>
    intro j x hx hn
    have hne : x.key ≠ k := fun he => hn (he ▸ hk)
    exact (Function.update_of_ne hne _ _).trans (hi.only j x (of_update_none hx).2 hn)
  case missing =>
    intro k' h₀ hle hn
    have hne : k' ≠ k := fun he => hn (he ▸ hk)
    obtain ⟨j, x, hj, hx, hkind⟩ := hi.missing k' h₀ hle hn
    exact ⟨j, x, (Function.update_of_ne hne _ _).trans hj, hlive k' j x hne hj hx, hkind⟩
  case done =>
    intro d hd
    exact ⟨(hi.done d hd).1, fun k' hk' => (hi.done d hd).2 k' (of_update_none hk').2⟩
  case old => exact hi.old
  case clear =>
    intro e he j s m hc
    obtain ⟨ha, hlt, hkey⟩ := hi.clear e he j s m hc
    exact ⟨ha, hlt, fun x hx => hkey x (of_update_none hx).2⟩
  case tight =>
    intro hT
    refine ⟨?_, (hi.tight hT).once, ?_, (hi.tight hT).nodup⟩
    · intro e he j hj
      obtain ⟨x, hx, hpx, hev⟩ := (hi.tight hT).command e he j hj
      have hne : x.key ≠ k := by
        intro hxk
        rw [hxk, hp] at hpx
        exact hfree hT e he (hj.trans hpx.symm)
      exact ⟨x, hlive x.key j x hne hpx hx, (Function.update_of_ne hne _ _).trans hpx, hev⟩
    · intro d hd
      obtain ⟨x, hx, hxk⟩ := (hi.tight hT).done d hd
      have hne : d.2 ≠ id := fun he => (hi.done d hd).2 k (he ▸ hp)
      exact ⟨x, (Function.update_of_ne hne _ _).trans hx, hxk⟩

/-- `delete` of an object in `done_`. -/
theorem forget {d : SrmKey × ℕ} {l : List (SrmKey × ℕ)}
    (hi : Inv T { a with done := d :: l } h arr) :
    Inv T { a with objects := Function.update a.objects d.2 none, done := l } h arr := by
  have hp : ∀ k, a.pending k ≠ some d.2 := (hi.done d List.mem_cons_self).2
  have hlive : ∀ k j x, a.pending k = some j → a.objects j = some x →
      Function.update a.objects d.2 none j = some x := by
    intro k j x hj hx
    have hne : j ≠ d.2 := fun he => hp k (he ▸ hj)
    rw [Function.update_of_ne hne, hx]
  constructor
  case heard => exact hi.heard
  case received => exact hi.received
  case arrived => exact hi.arrived
  case pending =>
    intro k j hj
    obtain ⟨x, hx, hk⟩ := hi.pending k j hj
    exact ⟨x, hlive k j x hj hx, hk⟩
  case object => exact fun j x hx => hi.object j x (of_update_none hx).2
  case only => exact fun j x hx hn => hi.only j x (of_update_none hx).2 hn
  case missing =>
    intro k h₀ hle hn
    obtain ⟨j, x, hj, hx, hkind⟩ := hi.missing k h₀ hle hn
    exact ⟨j, x, hj, hlive k j x hj hx, hkind⟩
  case done => exact fun d' hd' => hi.done d' (List.mem_cons_of_mem d hd')
  case old => exact hi.old
  case clear =>
    intro e he j s m hc
    obtain ⟨ha, hlt, hkey⟩ := hi.clear e he j s m hc
    exact ⟨ha, hlt, fun x hx => hkey x (of_update_none hx).2⟩
  case tight =>
    intro hT
    obtain ⟨hcmd, honce, hdone, hnd⟩ := hi.tight hT
    rw [List.map_cons, List.nodup_cons] at hnd
    refine ⟨?_, honce, ?_, hnd.2⟩
    · intro e he j hj
      obtain ⟨x, hx, hpx, hev⟩ := hcmd e he j hj
      exact ⟨x, hlive x.key j x hpx hx, hpx, hev⟩
    · intro d' hd'
      obtain ⟨x, hx, hk⟩ := hdone d' (List.mem_cons_of_mem d hd')
      have hne : d'.2 ≠ d.2 := by
        intro he
        obtain ⟨y, hy, hyk⟩ := hdone d List.mem_cons_self
        rw [he, hy] at hx
        obtain rfl := Option.some.inj hx
        refine hnd.1 ?_
        rw [← hyk, hk]
        exact List.mem_map_of_mem hd'
      exact ⟨x, (Function.update_of_ne hne _ _).trans hx, hk⟩

/-- A message that has come is done with. -/
theorem retire (hi : Inv T a h arr) (hk : arr k) (ho : a.objects id = some o) (hok : o.key = k)
    (hp : T → a.pending k = some id) (hfree : T → ∀ e ∈ a.queue, e.command.obj? ≠ some id) {r : ℕ} :
    Inv T { a with
      done := (k, id) :: a.done.filter fun d => d.1 ≠ k
      old := Function.update a.old k (some r)
      pending := Function.update a.pending k none } h arr := by
  have hstay : ∀ k', ¬ arr k' → Function.update a.pending k none k' = a.pending k' := by
    intro k' hn
    have hne : k' ≠ k := fun he => hn (he ▸ hk)
    exact Function.update_of_ne hne _ _
  constructor
  case heard => exact hi.heard
  case received => exact hi.received
  case arrived => exact hi.arrived
  case pending => exact fun k' j hj => hi.pending k' j (of_update_none hj).2
  case object => exact hi.object
  case only => exact fun j x hx hn => (hstay _ hn).trans (hi.only j x hx hn)
  case missing =>
    intro k' h₀ hle hn
    obtain ⟨j, x, hj, hx⟩ := hi.missing k' h₀ hle hn
    exact ⟨j, x, (hstay k' hn).trans hj, hx⟩
  case done =>
    intro d hd
    rcases List.mem_cons.mp hd with rfl | hd
    · refine ⟨(hi.object id o ho).1, ?_⟩
      intro k' hk'
      obtain ⟨hne, hk'⟩ := of_update_none hk'
      exact hne ((hi.key_of_pending hk' ho).symm.trans hok)
    · obtain ⟨hlt', hne⟩ := hi.done d (List.mem_filter.mp hd).1
      exact ⟨hlt', fun k' hk' => hne k' (of_update_none hk').2⟩
  case old =>
    intro k' r' hr
    by_cases hkk : k' = k
    · exact hkk ▸ hk
    · exact hi.old k' r' ((Function.update_of_ne hkk _ _).symm.trans hr)
  case clear => exact hi.clear
  case tight =>
    intro hT
    obtain ⟨hcmd, honce, hdone, hnd⟩ := hi.tight hT
    refine ⟨?_, honce, ?_, ?_⟩
    · intro e he j hj
      obtain ⟨x, hx, hpx, hev⟩ := hcmd e he j hj
      have hne : x.key ≠ k := by
        intro hxk
        rw [hxk, hp hT] at hpx
        exact hfree hT e he (hj.trans hpx.symm)
      exact ⟨x, hx, (Function.update_of_ne hne _ _).trans hpx, hev⟩
    · intro d hd
      rcases List.mem_cons.mp hd with rfl | hd
      · exact ⟨o, ho, hok⟩
      · exact hdone d (List.mem_filter.mp hd).1
    · rw [List.map_cons, List.nodup_cons]
      refine ⟨?_, hnd.sublist (List.filter_sublist.map _)⟩
      intro hmem
      obtain ⟨d, hd, hdk⟩ := List.mem_map.mp hmem
      exact of_decide_eq_true (List.mem_filter.mp hd).2 hdk

end Inv

end SrmAgent

end Afabric
