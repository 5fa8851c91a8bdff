import Afabric.Mcast.SrmObjects

/-!
# Mcast — loss detection

`Inv` is kept by every handler, and as long as no data comes for an id that has been heard of and
has no object, no handler fails: each id is asked for when it is first heard of, and the request
stays until the message has come (`loss_detection`).  Data that comes a second time ends the run
(`duplicate_data`), where a second repair is tolerated.
-/

namespace Afabric

/-- `n` ids from `i` on. -/
def SrmInfo.ids (i : Int) : ℕ → List Int
  | 0 => []
  | n + 1 => i :: SrmInfo.ids (i + 1) n

/-- None of the ids above those heard of has been received. -/
theorem SrmInfo.missing_spec {F : SrmFault → Prop} {sp : SrmInfo} {i : Int} {n : ℕ} (h₀ : 0 ≤ i)
    (hr : ∀ j, i ≤ j → sp.received j = false) :
    Outcome F (· = SrmInfo.ids i n) (sp.missing i n) := by
  induction n generalizing i with
  | zero => rfl
  | succ n ih =>
      rw [SrmInfo.missing, SrmInfo.ifReceived, if_pos h₀, hr i le_rfl]
      refine Outcome.bind (P := (· = false)) rfl ?_
      rintro _ rfl
      refine Outcome.bind (ih (by omega) fun j hj => hr j (by omega)) ?_
      rintro _ rfl
      rfl

namespace SrmAgent

variable {cfg : SrmConfig} {a b c : SrmAgent} {id : ℕ} {o o' : SrmObject} {now : ℚ}
variable {F : SrmFault → Prop} {T : Prop} {h h' : Int → Int} {arr arr' : SrmKey → Prop} {k : SrmKey}

/-! ### The instprocs of the agent -/

/-- What every handler leaves: the invariant, and the tables of the C++ half. -/
def Keeps (T : Prop) (a : SrmAgent) (h : Int → Int) (arr : SrmKey → Prop) (b : SrmAgent) : Prop :=
  Inv T b h arr ∧ b.info = a.info

theorem Inv.objRecvRepair (hi : Inv T a h arr) (ho : a.objects id = some o)
    (hp : a.pending o.key = some id) (hk : arr o.key) :
    Outcome F (Keeps T a h arr) (a.objRecvRepair cfg now id) := by
  refine Outcome.imp (objRecvRepair_spec ho) ?_
  rintro b ⟨o', ht, htag, hready, hq⟩
  have hkey : o'.key = o.key := congrArg Prod.snd htag
  refine ⟨hi.touch ho ht htag (hready (hi.object id o ho).2.2) ?_ ?_, ht.info⟩
  · intro e he j s m hc
    rcases hq with ⟨-, hq⟩ | ⟨-, -, hq⟩
    · exact .inl (hq ▸ he)
    · rcases hq e he with he | ⟨-, he⟩
      · exact .inl he.1
      · rw [he] at hc
        obtain ⟨rfl, rfl, rfl⟩ := SrmCommand.clear.inj hc
        exact .inr ⟨rfl, rfl, hk⟩
  · intro hT
    refine (hi.tight hT).touch ho ht hkey ?_
    rcases hq with ⟨ho', hq⟩ | ⟨hne, hnone, hq⟩
    · exact .inl ⟨hq, congrArg _ ho'⟩
    · refine .inr ⟨hp, ?_⟩
      intro e he
      rcases hq e he with ⟨he, hu⟩ | ⟨hu, hc⟩
      · exact .inl ⟨he, (hi.tight hT).not_obj ho he hne hu⟩
      · exact .inr ⟨hu, by rw [hc]; rfl, by rw [hnone, SrmAt.timer, hc]⟩

/-- A new timer of an object. -/
theorem timer_eq {e : SrmAt} {u : ℕ} (hu : e.uid = u) (hc : e.command = o.timer id) :
    e.command.obj? = some id ∧ some u = e.timer := by
  rw [SrmAt.timer, hc, SrmObject.timer]
  split
  · exact ⟨rfl, congrArg some hu.symm⟩
  · exact ⟨rfl, congrArg some hu.symm⟩

theorem timer_ne_clear {j : ℕ} {s m : Int} : o.timer id ≠ .clear j s m := by
  intro hc
  rw [SrmObject.timer] at hc
  split at hc
  · cases hc
  · cases hc

theorem Inv.objRecvRequest (hi : Inv T a h arr) (ho : a.objects id = some o)
    (hp : a.pending o.key = some id)
    (hspare : T → o.kind = .request → o.eventID = none → o.ignore.any fun t => now < t) :
    Outcome F (Keeps T a h arr) (a.objRecvRequest cfg now id) := by
  refine Outcome.imp (objRecvRequest_spec ho) ?_
  rintro b ⟨o', ht, htag, hready, hq⟩
  have hkey : o'.key = o.key := congrArg Prod.snd htag
  refine ⟨hi.touch ho ht htag (hready (hi.object id o ho).2.2) ?_ ?_, ht.info⟩
  · intro e he j s m hc
    rcases hq with ⟨-, hq⟩ | ⟨-, -, -, hq⟩
    · exact .inl (hq ▸ he)
    · rcases hq e he with he | ⟨-, he⟩
      · exact .inl he.1
      · exact absurd (he.symm.trans hc) timer_ne_clear
  · intro hT
    refine (hi.tight hT).touch ho ht hkey ?_
    rcases hq with ⟨ho', hq⟩ | ⟨hkind, hlate, hev, hq⟩
    · exact .inl ⟨hq, congrArg _ ho'⟩
    · have hne : o.eventID ≠ none := fun hnone => hlate (hspare hT hkind hnone)
      refine .inr ⟨hp, ?_⟩
      intro e he
      rcases hq e he with ⟨he, hu⟩ | ⟨hu, hc⟩
      · exact .inl ⟨he, (hi.tight hT).not_obj ho he hne hu⟩
      · obtain ⟨hid, htimer⟩ := timer_eq hu hc
        exact .inr ⟨hu, hid, hev.trans htimer⟩

/-- The counters of the agent do not matter. -/
theorem Inv.count (hi : Inv T a h arr) {i j : ℤ} :
    Inv T { a with dupReq := i, dupRep := j } h arr :=
  ⟨hi.heard, hi.received, hi.arrived, hi.pending, hi.object, hi.only, hi.missing, hi.done, hi.old,
    hi.clear, fun hT => ⟨(hi.tight hT).command, (hi.tight hT).once, (hi.tight hT).done,
      (hi.tight hT).nodup⟩⟩

theorem Inv.tclRecvData (hi : Inv T a h arr) {s m : Int} (hk : arr (s, m))
    (hp : a.pending (s, m) = some id)
    (hspare : T → ∀ o, a.objects id = some o → o.round = 1 → o.eventID ≠ none) :
    Outcome F (Keeps T a h arr) (a.tclRecvData cfg now s m) := by
  obtain ⟨o, ho, hok⟩ := hi.pending _ id hp
  rw [SrmAgent.tclRecvData, hp]
  refine Outcome.bind (find_spec ho) ?_
  rintro _ rfl
  split_ifs with hround
  · refine Outcome.bind (cancel_spec ho) ?_
    rintro b ⟨ht, -, hq⟩
    refine Outcome.bind (Outcome.bind (find_spec ht.self) fun _ _ => rfl) ?_
    rintro _ rfl
    -- the object's own timer was the only command about it, and it is cancelled
    have hfree : T → ∀ e ∈ b.queue, e ∈ a.queue ∧ e.command.obj? ≠ some id := by
      intro hT e he
      obtain ⟨he, hu⟩ := hq e he
      exact ⟨he, (hi.tight hT).not_obj ho he (hspare hT _ ho hround) hu⟩
    have hib : Inv T b h arr := by
      refine hi.touch ho ht rfl (hi.object id _ ho).2.2 ?_ ?_
      · exact fun e he _ _ _ _ => .inl (hq e he).1
      · intro hT
        exact (hi.tight hT).touch ho ht rfl
          (.inr ⟨hok.symm ▸ hp, fun e he => .inl (hfree hT e he)⟩)
    exact ⟨hib.unset hk (ht.pending ▸ hp) fun hT e he => (hfree hT e he).2, ht.info⟩
  · exact hi.objRecvRepair ho (hok.symm ▸ hp) (hok.symm ▸ hk)

theorem Inv.tclRecvRepair (hi : Inv T a h arr) {round s m : Int} (hk : arr (s, m)) :
    Outcome F (Keeps T a h arr) (a.tclRecvRepair cfg now round s m) := by
  rw [SrmAgent.tclRecvRepair]
  split
  · exact ⟨hi, rfl⟩
  next id hp =>
    obtain ⟨o, ho, hok⟩ := hi.pending _ id hp
    have hdup : Outcome F (fun _ => True) (if round = 1 then a.dupRepair? id else .ok 0) := by
      split_ifs
      · exact dupRepair?_spec ho
      · trivial
    refine Outcome.bind hdup ?_
    intro dup _
    exact hi.count.objRecvRepair ho (hok.symm ▸ hp) (hok.symm ▸ hk)

/-- A new object is scheduled. -/
theorem Inv.schedule_new (hi : Inv T (a.setPending o) h arr)
    (hready : o.kind = .request → o.round = 0)
    (hfree : T → ∀ e ∈ a.queue, e.command.obj? ≠ some a.created) :
    Outcome F (Keeps T a h arr) ((a.setPending o).schedule cfg now a.created) := by
  have ho : (a.setPending o).objects a.created = some o := Function.update_self _ _ _
  have hp : (a.setPending o).pending o.key = some a.created := Function.update_self _ _ _
  refine Outcome.imp (schedule_spec ho) ?_
  rintro b ⟨o', ht, htag, hround, -, hev, hq⟩
  have hkind : o'.kind = o.kind := congrArg Prod.fst htag
  refine ⟨hi.touch ho ht htag ?_ ?_ ?_, ht.info⟩
  · intro hk h2
    have := hready (hkind.symm.trans hk)
    omega
  · intro e he j s m hc
    refine .inl ((hq e he).resolve_right ?_)
    rintro ⟨-, he⟩
    exact timer_ne_clear (he.symm.trans hc)
  · intro hT
    refine (hi.tight hT).touch ho ht (congrArg Prod.snd htag) (.inr ⟨hp, ?_⟩)
    intro e he
    rcases hq e he with he | ⟨hu, hc⟩
    · exact .inl ⟨he, hfree hT e he⟩
    · obtain ⟨hid, htimer⟩ := timer_eq hu hc
      exact .inr ⟨hu, hid, hev.trans htimer⟩

/-- No command is about an object that is still to be made. -/
theorem Inv.fresh (hi : Inv T a h arr) (hT : T) : ∀ e ∈ a.queue, e.command.obj? ≠ some a.created := by
  intro e he hid
  obtain ⟨x, hx, -⟩ := (hi.tight hT).command e he _ hid
  exact (hi.object _ x hx).1.false

theorem Inv.repair (hi : Inv T a h arr) {requestor s m : Int} (hp : a.pending (s, m) = none)
    (hle : m ≤ h s) : Outcome F (Keeps T a h arr) (a.repair cfg now requestor s m) := by
  rw [SrmAgent.repair, hp, Option.isSome_none, if_neg Bool.false_ne_true]
  have hnew : Inv T (a.setPending (a.newObject cfg .repair requestor s m)) h arr :=
    hi.setPending (fun _ => le_rfl) hp hle nofun fun _ => .inl
  refine Outcome.bind (hnew.schedule_new nofun hi.fresh) ?_
  rintro b ⟨hb, hinfo⟩
  exact ⟨hb.count, hinfo⟩

theorem Inv.tclRecvRequest (hi : Inv T a h arr) {requestor round s m : Int} (hle : m ≤ h s)
    (hspare : T → ∀ id o, a.pending (s, m) = some id → a.objects id = some o →
      o.kind = .request → o.eventID = none → o.ignore.any fun t => now < t) :
    Outcome F (Keeps T a h arr) (a.tclRecvRequest cfg now requestor round s m) := by
  rw [SrmAgent.tclRecvRequest]
  split
  next id hp =>
    obtain ⟨o, ho, hok⟩ := hi.pending _ id hp
    have hdup : Outcome F (fun _ => True) (if round = 1 then a.dupRequest? now id else .ok 0) := by
      split_ifs
      · exact dupRequest?_spec ho (hi.object id o ho).2.2
      · trivial
    refine Outcome.bind hdup ?_
    intro dup _
    exact hi.count.objRecvRequest ho (hok.symm ▸ hp) fun hT => hspare hT id o hp ho
  next hp => exact hi.repair hp hle

/-! ### Detecting a loss -/

theorem Inv.pending_eq_none (hi : Inv T a h arr) (hk : h k.1 < k.2) : a.pending k = none := by
  by_contra hp
  obtain ⟨id, hid⟩ := Option.ne_none_iff_exists'.mp hp
  obtain ⟨o, ho, rfl⟩ := hi.pending k id hid
  exact absurd (hi.object id o ho).2.1 (not_le.mpr hk)

theorem Inv.not_arrived (hi : Inv T a h arr) (hk : h k.1 < k.2) : ¬ arr k :=
  fun ha => absurd (hi.arrived k ha) (not_le.mpr hk)

/-- The next id is heard of, and missed. -/
theorem Inv.detect (hi : Inv T a h arr) {s m : Int} (hm : m = h s + 1) :
    Outcome F (Keeps T a (Function.update h s m) arr) (detect cfg now s a m) := by
  have hlt : h s < m := by omega
  have hp : a.pending (s, m) = none := hi.pending_eq_none hlt
  have hold : a.round? (s, m) = 0 := by
    rw [round?]
    cases hr : a.old (s, m) with
    | none => rfl
    | some r => exact absurd (hi.old _ r hr) (hi.not_arrived hlt)
  rw [SrmAgent.detect, hp, Option.isSome_none, if_neg Bool.false_ne_true]
  have hh : ∀ t, h t ≤ Function.update h s m t := by
    intro t
    by_cases ht : t = s
    · rw [ht, Function.update_self]
      exact hlt.le
    · rw [Function.update_of_ne ht]
  refine Inv.schedule_new (hi.setPending hh hp ?_ ?_ ?_) (fun _ => hold) hi.fresh
  · exact (Function.update_self s m h).ge
  · intro _ h2
    exact absurd (hold ▸ h2 : 2 ≤ 0) (by omega)
  · intro k hk
    by_cases hs : k.1 = s
    · rw [hs, Function.update_self] at hk
      rcases hk.lt_or_eq with hk | hk
      · exact .inl (by rw [hs]; omega)
      · exact .inr ⟨Prod.ext hs hk, rfl⟩
    · rw [Function.update_of_ne hs] at hk
      exact .inl hk

theorem Inv.detectAll {n : ℕ} {i s : Int} (hi : Inv T a h arr) (hs : i = h s + 1) :
    Outcome F (Keeps T a (Function.update h s (h s + n)) arr)
      ((SrmInfo.ids i n).foldlM (SrmAgent.detect cfg now s) a) := by
  induction n generalizing a h i with
  | zero =>
      rw [Nat.cast_zero, add_zero, Function.update_eq_self]
      exact ⟨hi, rfl⟩
  | succ n ih =>
      rw [SrmInfo.ids, List.foldlM_cons]
      refine Outcome.bind (hi.detect hs) ?_
      rintro b ⟨hb, hinfo⟩
      refine Outcome.imp (ih hb (i := i + 1) ?_) ?_
      · rw [Function.update_self]
      · rintro c ⟨hc, hc'⟩
        rw [Function.update_idem, Function.update_self] at hc
        have hn : i + (n : Int) = h s + (n + 1 : ℕ) := by omega
        rw [hn] at hc
        exact ⟨hc, hc'.trans hinfo⟩

/-- The highest id that an agent has heard of. -/
def ldata (a : SrmAgent) (s : Int) : Int := (a.info s).ldata

/-- `SRMAgent::request` puts a request on every id up to `hi` that is new. -/
theorem Inv.request (hi : Inv T a a.ldata arr) {s top : Int} :
    Outcome F (Keeps T a (Function.update a.ldata s (max (a.ldata s) top)) arr)
      (a.request cfg now s top) := by
  rw [SrmAgent.request, ← ldata]
  rcases le_or_gt top (a.ldata s) with htop | htop
  · rw [if_pos htop, max_eq_left htop, Function.update_eq_self]
    exact ⟨hi, rfl⟩
  rw [if_neg (not_le.mpr htop)]
  obtain ⟨n, hn⟩ : ∃ n : ℕ, (top - a.ldata s).toNat = n + 1 :=
    ⟨(top - a.ldata s).toNat - 1, by omega⟩
  have hmax : max (a.ldata s) top = a.ldata s + (n + 1 : ℕ) := by
    rw [max_eq_right htop.le]
    omega
  rw [hn, hmax]
  refine Outcome.bind (SrmInfo.missing_spec ?_ ?_) ?_
  · have := hi.heard s
    omega
  · intro j hj
    by_contra hr
    have := hi.received s j (Bool.of_not_eq_false hr)
    omega
  rintro _ rfl
  have hlen : (SrmInfo.ids (a.ldata s + 1) (n + 1)).length ≠ 0 := nofun
  rw [if_neg hlen]
  refine Outcome.bind (hi.detectAll rfl) ?_
  rintro b ⟨hb, hinfo⟩
  rw [if_pos hlen]
  exact ⟨hb.count, hinfo⟩

/-! ### The handlers -/

/-- What a handler leaves that writes the tables of the C++ half. -/
def Stands (T : Prop) (arr : SrmKey → Prop) (a : SrmAgent) : Prop := Inv T a a.ldata arr

theorem Keeps.stands (hb : Keeps T a a.ldata arr b) : Stands T arr b := by
  have hl : b.ldata = a.ldata := by
    funext s
    rw [ldata, hb.2, ← ldata]
  rw [Stands, hl]
  exact hb.1

theorem ldata_setInfo {s : Int} {sp : SrmInfo} :
    (a.setInfo s sp).ldata = Function.update a.ldata s sp.ldata :=
  (Function.comp_update SrmInfo.ldata a.info s sp)

/-- The tables are written for one sender. -/
theorem Inv.stands {s m : Int} {sp : SrmInfo} (hb : Inv T b (Function.update a.ldata s m) arr)
    (hinfo : b.info = a.info) (hm : sp.ldata = m) (hr : ∀ i, sp.received i = true → i ≤ m) :
    Stands T arr (b.setInfo s sp) := by
  have hl : b.ldata = a.ldata := by
    funext t
    rw [ldata, hinfo, ← ldata]
  rw [Stands, ldata_setInfo, hl, hm]
  refine hb.withInfo ?_
  intro t i hti
  by_cases ht : t = s
  · rw [ht, Function.update_self] at hti ⊢
    exact hr i hti
  · rw [Function.update_of_ne ht] at hti
    exact hb.received t i hti

theorem setLdata_setInfo {s m : Int} {sp : SrmInfo} :
    (a.setInfo s sp).setLdata s m = a.setInfo s { sp with ldata := m } := by
  have hs : (a.setInfo s sp).info s = sp := Function.update_self _ _ _
  rw [setLdata, hs, setInfo, setInfo, setInfo, Function.update_idem]

theorem update_mono {s m m' : Int} (hm : m ≤ m') (t : Int) :
    Function.update h s m t ≤ Function.update h s m' t := by
  by_cases ht : t = s
  · rw [ht, Function.update_self, Function.update_self]
    exact hm
  · rw [Function.update_of_ne ht, Function.update_of_ne ht]

/-- A message above those heard of comes. -/
theorem Stands.recvNew {s m : Int} (ha : Stands T arr a) (hm : a.ldata s < m)
    (harr : ∀ k, arr' k ↔ arr k ∨ k = (s, m)) :
    Outcome F (Stands T arr') (a.recvNew cfg now s m) := by
  have hs := ha.heard s
  refine Outcome.bind ha.request ?_
  rintro b ⟨hb, hinfo⟩
  rw [max_eq_right (by omega)] at hb
  rw [SrmInfo.setReceived, if_pos (by omega)]
  refine Outcome.bind (P := (· = _)) rfl ?_
  rintro _ rfl
  rw [setLdata_setInfo]
  refine Inv.stands (a := a) (m := m) ?_ hinfo rfl ?_
  · refine hb.hear (update_mono (by omega)) (fun k hk => (harr k).mpr (.inl hk)) ?_ ?_
    · intro k hk
      rcases (harr k).mp hk with hk | rfl
      · exact (hb.arrived k hk).trans (update_mono (by omega) _)
      · exact (Function.update_self s m a.ldata).ge
    · intro k hk
      by_cases hks : k.1 = s
      · rw [hks, Function.update_self] at hk ⊢
        rcases hk.lt_or_eq with hk | hk
        · exact .inl (by omega)
        · exact .inr ((harr k).mpr (.inr (Prod.ext hks hk)))
      · rw [Function.update_of_ne hks] at hk ⊢
        exact .inl hk
  · intro i hr
    by_cases him : i = m
    · exact him.le
    · have hr : (b.info s).received i = true := (Function.update_of_ne him _ _).symm.trans hr
      rw [hinfo] at hr
      exact (ha.received s i hr).trans hm.le

/-- Ids up to `m` are heard of, and asked for. -/
theorem Stands.heard {s m : Int} (ha : Stands T arr a) :
    Outcome F (Stands T arr) (a.heard cfg now s m) := by
  refine Outcome.bind ha.request ?_
  rintro b ⟨hb, hinfo⟩
  have hl : (b.info s).ldata = a.ldata s := by rw [hinfo, ldata]
  rw [hl]
  split_ifs with hm
  · rw [max_eq_right hm.le] at hb
    refine Inv.stands hb hinfo rfl ?_
    intro i hr
    rw [hinfo] at hr
    exact (ha.received s i hr).trans hm.le
  · rw [max_eq_left (not_lt.mp hm), Function.update_eq_self] at hb
    exact Keeps.stands ⟨hb, hinfo⟩

/-- A request above those heard of comes. -/
theorem Stands.recvRqst {requestor round s m : Int} (ha : Stands T arr a)
    (hspare : T → m ≤ a.ldata s → ∀ id o, a.pending (s, m) = some id → a.objects id = some o →
      o.kind = .request → o.eventID = none → o.ignore.any fun t => now < t) :
    Outcome F (Stands T arr) (a.recvRqst cfg now requestor round s m) := by
  rw [SrmAgent.recvRqst, ← ldata]
  split_ifs with hm
  · refine Outcome.bind ha.request ?_
    rintro b ⟨hb, hinfo⟩
    rw [max_eq_right hm.le] at hb
    refine Inv.stands hb hinfo rfl ?_
    intro i hr
    rw [hinfo] at hr
    exact (ha.received s i hr).trans hm.le
  · have hle := not_lt.mp hm
    exact Outcome.imp (ha.tclRecvRequest hle fun hT => hspare hT hle) fun _ => Keeps.stands

theorem Stands.recvBlock {sentBy sentAt : Int} {x : SrmBlock} (ha : Stands T arr a) :
    Outcome F (Stands T arr) (SrmAgent.recvBlock cfg now sentBy sentAt a x) := by
  rw [SrmAgent.recvBlock]
  split_ifs
  · have hself : Inv T a (Function.update a.ldata sentBy (a.ldata sentBy)) arr := by
      rw [Function.update_eq_self]
      exact ha
    exact hself.stands rfl rfl (ha.received sentBy)
  · exact ha.heard

theorem Stands.recvSess {sessCtr : Int} {first : SrmBlock} {blocks : List SrmBlock}
    (ha : Stands T arr a) : Outcome F (Stands T arr) (a.recvSess cfg now sessCtr first blocks) := by
  rw [SrmAgent.recvSess]
  split_ifs
  · exact ha
  · exact ha
  · have hself : Inv T a (Function.update a.ldata first.sender (a.ldata first.sender)) arr := by
      rw [Function.update_eq_self]
      exact ha
    refine Outcome.bind (Stands.heard (hself.stands rfl rfl (ha.received first.sender))) ?_
    intro b hb
    exact Outcome.foldlM hb fun _ _ _ => Stands.recvBlock

/-! ### The commands that are due -/

theorem find_any (hT : T → ∃ o, a.objects id = some o) (hF : ¬ T → F .noObject) :
    Outcome F (fun o => a.objects id = some o) (a.find id) := by
  rw [find]
  cases ho : a.objects id with
  | some o => rfl
  | none =>
      refine hF ?_
      intro h
      obtain ⟨o, ho'⟩ := hT h
      rw [ho] at ho'
      cases ho'

/-- A timer sends a message. -/
theorem Inv.send (hi : Inv T a h arr) (ho : a.objects id = some o) {n : ℕ}
    {out : List (SrmMsg × Int)} :
    Keeps T a h arr { a.put id { o with sent := n } with out := out } := by
  have ht : Touches a id { o with sent := n } { a.put id { o with sent := n } with out := out } :=
    ⟨rfl, rfl, rfl, rfl, rfl, rfl⟩
  refine ⟨hi.touch ho ht rfl (hi.object id o ho).2.2 (fun e he _ _ _ _ => .inl he) ?_, rfl⟩
  exact fun hT => (hi.tight hT).touch ho ht rfl (.inl ⟨rfl, rfl⟩)

theorem Inv.clearing (hi : Inv T a h arr) {s m : Int} (hk : arr (s, m))
    (hkey : ∀ o, a.objects id = some o → o.key = (s, m))
    (hT : T → (∃ o, a.objects id = some o ∧ a.pending o.key = some id) ∧
      ∀ e ∈ a.queue, e.command.obj? ≠ some id)
    (hF : ¬ T → F .noObject) (hF' : ¬ T → F .noPending) :
    Outcome F (Keeps T a h arr) (a.clear now id s m) := by
  have hobj : T → ∃ o, a.objects id = some o := by
    intro h
    obtain ⟨⟨o, ho, -⟩, -⟩ := hT h
    exact ⟨o, ho⟩
  have hpend : T → a.pending (s, m) = some id := by
    intro h
    obtain ⟨⟨o, ho, hp⟩, -⟩ := hT h
    exact hkey o ho ▸ hp
  refine Outcome.bind (find_any hobj hF) ?_
  intro o ho
  have hdone := hi.retire hk ho (hkey o ho) hpend (fun h => (hT h).2) (r := o.round)
  dsimp only
  split_ifs with hnone
  · refine hF' ?_
    intro h
    rw [hpend h] at hnone
    cases hnone
  · refine ⟨hdone.requeue ?_, rfl⟩
    intro e he
    rcases List.mem_append.mp he with he | he
    · exact .inl he
    · exact .inr (congrArg SrmAt.command (List.mem_singleton.mp he))
  · exact ⟨hdone, rfl⟩

theorem Inv.deleteAll {l : List (SrmKey × ℕ)} (hi : Inv T { a with done := l } h arr)
    (hF : ¬ T → F .noObject) :
    Outcome F (fun b => Keeps T a h arr { b with done := [] })
      (l.foldlM (fun a d => a.delete d.2) a) := by
  induction l generalizing a with
  | nil => exact ⟨hi, rfl⟩
  | cons d l ih =>
      have hobj : T → ∃ o, a.objects d.2 = some o := by
        intro hT
        obtain ⟨o, ho, -⟩ := (hi.tight hT).done d List.mem_cons_self
        exact ⟨o, ho⟩
      rw [List.foldlM_cons]
      refine Outcome.bind (Outcome.bind (find_any hobj hF) fun _ _ => rfl) ?_
      rintro _ rfl
      exact ih hi.forget

theorem Inv.dispatch (hi : Inv T a h arr) {cmd : SrmCommand}
    (hclear : ∀ id s m, cmd = .clear id s m →
      arr (s, m) ∧ id < a.created ∧ ∀ o, a.objects id = some o → o.key = (s, m))
    (hT : T → ∀ id, cmd.obj? = some id → (∃ o, a.objects id = some o ∧ a.pending o.key = some id) ∧
      ∀ e ∈ a.queue, e.command.obj? ≠ some id)
    (hF : ¬ T → F .noObject) (hF' : ¬ T → F .noPending) :
    Outcome F (Keeps T a h arr) (a.dispatch cfg now cmd) := by
  have hobj : ∀ id, cmd.obj? = some id → T → ∃ o, a.objects id = some o := by
    intro id hid h
    obtain ⟨⟨o, ho, -⟩, -⟩ := hT h id hid
    exact ⟨o, ho⟩
  cases cmd with
  | sendRequest id => exact Outcome.bind (find_any (hobj id rfl) hF) fun o ho => hi.send ho
  | sendRepair id => exact Outcome.bind (find_any (hobj id rfl) hF) fun o ho => hi.send ho
  | clear id s m =>
      obtain ⟨hk, -, hkey⟩ := hclear id s m rfl
      exact hi.clearing hk hkey (fun h => hT h id rfl) hF hF'
  | cleanup =>
      refine Outcome.bind (hi.deleteAll (l := a.done) hF) ?_
      intro b hb
      exact hb

end SrmAgent

/-! ### Runs -/

/-- The message that an event brings. -/
def SrmEvent.Brings : SrmEvent → SrmKey → Prop
  | .recv _ (.data s m), k => k = (s, m)
  | .recv _ (.repr _ s m), k => k = (s, m)
  | _, _ => False

/-- The errors of the detection of losses and its `assert`s; the others come of commands to objects
that are gone. -/
def SrmFault.alarm : SrmFault → Bool
  | .oyVey | .dupLoss | .dupRepair | .miss | .negative => true
  | .noObject | .noPending | .noIgnore => false

namespace SrmAgent

variable {cfg : SrmConfig} {a b : SrmAgent} {now : ℚ} {F : SrmFault → Prop} {T : Prop}
variable {h : Int → Int} {arr : SrmKey → Prop} {P : SrmAgent → SrmEvent → Prop}

/-- No data comes for an id that has been heard of and that `pending_` has no object for. -/
def Meets (a : SrmAgent) : SrmEvent → Prop
  | .recv _ (.data s m) => m ≤ a.ldata s → a.pending (s, m) ≠ none
  | _ => True

/-- No message disturbs a hold-down: no data comes in one for an object of the first round, which
would be deleted, and no request at the very end of one, which would start the timer again. -/
def Spares (a : SrmAgent) : SrmEvent → Prop
  | .recv _ (.data s m) => m ≤ a.ldata s → ∀ id o, a.pending (s, m) = some id →
      a.objects id = some o → o.round = 1 → o.eventID ≠ none
  | .recv now (.rqst _ _ s m) => m ≤ a.ldata s → ∀ id o, a.pending (s, m) = some id →
      a.objects id = some o → o.kind = .request → o.eventID = none →
        o.ignore.any fun t => now < t
  | _ => True

/-- Messages that meet the condition are taken without an error. -/
theorem Stands.recv {m : SrmMsg} (ha : Stands T arr a) (hm : Meets a (.recv now m))
    (hspare : T → Spares a (.recv now m)) :
    Outcome F (Stands T fun k => arr k ∨ SrmEvent.Brings (.recv now m) k) (a.recv cfg now m) := by
  have hstay : ∀ {s n : Int}, n ≤ a.ldata s → Inv T a a.ldata fun k => arr k ∨ k = (s, n) := by
    intro s n hle
    refine ha.hear (fun _ => le_rfl) (fun _ => .inl) ?_ (fun _ => .inl)
    rintro k (hk | rfl)
    · exact ha.arrived k hk
    · exact hle
  have hnone : ∀ b, Stands T arr b → Stands T (fun k => arr k ∨ False) b := by
    intro b hb
    simpa only [or_false] using hb
  cases m with
  | data s n =>
      rw [SrmAgent.recv, recvData, ← ldata]
      split_ifs with hn
      · exact ha.recvNew hn fun _ => Iff.rfl
      · have hle := not_lt.mp hn
        obtain ⟨id, hid⟩ := Option.ne_none_iff_exists'.mp (hm hle)
        exact Outcome.imp ((hstay hle).tclRecvData (.inr rfl) hid fun hT o =>
          hspare hT hle id o hid) fun _ => Keeps.stands
  | rqst requestor round s n => exact Outcome.imp (ha.recvRqst hspare) hnone
  | repr round s n =>
      rw [SrmAgent.recv, recvRepr, ← ldata]
      split_ifs with hn
      · exact ha.recvNew hn fun _ => Iff.rfl
      · exact Outcome.imp ((hstay (not_lt.mp hn)).tclRecvRepair (.inr rfl)) fun _ => Keeps.stands
  | sess sessCtr first blocks => exact Outcome.imp ha.recvSess hnone

theorem Stands.due {uid : ℕ} (ha : Stands T arr a) (hF : ¬ T → F .noObject)
    (hF' : ¬ T → F .noPending) : Outcome F (Stands T arr) (a.step cfg (.due uid)) := by
  rw [step]
  split
  next e he =>
    have hmem := List.mem_of_find?_eq_some he
    have huid : e.uid = uid := by simpa using List.find?_some he
    have hi : Inv T (a.nsCancel uid) a.ldata arr :=
      ha.requeue fun e he => .inl (List.mem_filter.mp he).1
    refine Outcome.imp (hi.dispatch (ha.clear e hmem) ?_ hF hF') ?_
    · intro hT id hid
      obtain ⟨o, ho, hp, -⟩ := (ha.tight hT).command e hmem id hid
      refine ⟨⟨o, ho, hp⟩, ?_⟩
      intro e' he' hid'
      obtain ⟨he', hne⟩ := List.mem_filter.mp he'
      have := (ha.tight hT).once e hmem e' he' id hid hid'
      exact of_decide_eq_true hne (this.symm.trans huid)
    · exact fun b hb => Keeps.stands (a := a) hb
  next => exact ha

/-- One event.  An error is none of those of the detection, and comes of a disturbed hold-down. -/
theorem Stands.step {e : SrmEvent} (ha : Stands T arr a) (he : Meets a e)
    (hspare : T → Spares a e) :
    Outcome (fun f => ¬ T ∧ f.alarm = false) (Stands T fun k => arr k ∨ e.Brings k)
      (a.step cfg e) := by
  cases e with
  | recv now m => exact ha.recv he hspare
  | due uid =>
      refine Outcome.imp (ha.due (fun hT => ⟨hT, rfl⟩) fun hT => ⟨hT, rfl⟩) ?_
      intro b hb
      simpa only [SrmEvent.Brings, or_false] using hb

/-- Data that does not meet the condition is the error. -/
theorem step_of_not_meets {e : SrmEvent} (he : ¬ Meets a e) : a.step cfg e = .error .oyVey := by
  cases e with
  | recv now m =>
      cases m with
      | data s n =>
          obtain ⟨hle, hp⟩ := Classical.not_imp.mp he
          rw [SrmAgent.step, recv, recvData, ← ldata, if_neg (not_lt.mpr hle), tclRecvData,
            not_ne_iff.mp hp]
      | rqst | repr | sess => exact absurd trivial he
  | due uid => exact absurd trivial he

/-- The states that the events `es` lead to, each of which meets `P`. -/
inductive Run (cfg : SrmConfig) (P : SrmAgent → SrmEvent → Prop) :
    List SrmEvent → SrmAgent → Prop where
  | start : Run cfg P [] (start cfg)
  | next {es : List SrmEvent} {a b : SrmAgent} {e : SrmEvent} (h : Run cfg P es a) (he : P a e)
      (hs : a.step cfg e = .ok b) : Run cfg P (es ++ [e]) b

theorem info_start (s : Int) : ((start cfg).info s).ldata = -1 ∧
    ((start cfg).info s).received = fun _ => false := by
  dsimp only [start]
  by_cases hs : s = cfg.addr
  · rw [hs, Function.update_self]
    exact ⟨rfl, rfl⟩
  · rw [Function.update_of_ne hs]
    exact ⟨rfl, rfl⟩

theorem stands_start : Stands T (fun _ => False) (start cfg) where
  heard := fun s => (info_start s).1.ge
  received := by
    intro s i hr
    rw [(info_start s).2] at hr
    cases hr
  arrived := fun _ hk => hk.elim
  pending := fun _ _ hp => (Option.some_ne_none _ hp.symm).elim
  object := fun _ _ ho => (Option.some_ne_none _ ho.symm).elim
  only := fun _ _ ho _ => (Option.some_ne_none _ ho.symm).elim
  missing := by
    intro k h₀ hk
    rw [ldata, (info_start k.1).1] at hk
    omega
  done := fun _ hd => absurd hd List.not_mem_nil
  old := fun _ _ hr => (Option.some_ne_none _ hr.symm).elim
  clear := fun _ he => absurd he List.not_mem_nil
  tight := fun _ =>
    { command := fun _ he => absurd he List.not_mem_nil
      once := fun _ he => absurd he List.not_mem_nil
      done := fun _ hd => absurd hd List.not_mem_nil
      nodup := List.nodup_nil }

/-- The messages that have come in a run. -/
def Came (es : List SrmEvent) (k : SrmKey) : Prop := ∃ e ∈ es, e.Brings k

theorem Run.stands {es : List SrmEvent} (hr : Run cfg P es a) (hP : ∀ a e, P a e → Meets a e)
    (hS : T → ∀ a e, P a e → Spares a e) : Stands T (Came es) a := by
  induction hr with
  | start =>
      have hc : Came [] = fun _ => False := by
        ext k
        simp [Came]
      exact hc ▸ stands_start
  | next h he hs ih =>
      rename_i es a b e
      have hstep : Outcome _ (Stands T fun k => Came es k ∨ e.Brings k) (a.step cfg e) :=
        ih.step (hP a e he) fun hT => hS hT a e he
      rw [hs] at hstep
      have hc : Came (es ++ [e]) = fun k => Came es k ∨ e.Brings k := by
        ext k
        simp only [Came, List.mem_append, List.mem_singleton, or_and_right, exists_or,
          exists_eq_left]
      exact hc ▸ hstep

/-- `pending_` has a request object for `m` of `s`, and there is no other object for it. -/
def Asks (a : SrmAgent) (s m : Int) : Prop :=
  ∃ id o, a.pending (s, m) = some id ∧ a.objects id = some o ∧ o.kind = .request ∧
    o.key = (s, m) ∧ ∀ j x, a.objects j = some x → x.key = (s, m) → j = id

theorem Inv.asks (hi : Inv T a h arr) {s m : Int} (h₀ : 0 ≤ m) (hm : m ≤ h s) (hk : ¬ arr (s, m)) :
    Asks a s m := by
  obtain ⟨id, o, hp, ho, hkind⟩ := hi.missing (s, m) h₀ hm hk
  refine ⟨id, o, hp, ho, hkind, hi.key_of_pending hp ho, ?_⟩
  intro j x hx hxk
  have hj : a.pending (s, m) = some j := hxk ▸ hi.only j x hx (hxk.symm ▸ hk)
  exact Option.some.inj (hj.symm.trans hp)

/-- As long as no message disturbs a hold-down either, nothing fails. -/
theorem Run.no_error {es : List SrmEvent} (hr : Run cfg (fun a e => Meets a e ∧ Spares a e) es a)
    {e : SrmEvent} (he : Meets a e) (hs : Spares a e) : ∃ b, a.step cfg e = .ok b := by
  have ha : Stands True (Came es) a := hr.stands (fun _ _ h => h.1) fun _ _ _ h => h.2
  have hstep : Outcome (fun f => ¬ True ∧ f.alarm = false) _ (a.step cfg e) :=
    ha.step he fun _ => hs
  cases hb : a.step cfg e with
  | ok b => exact ⟨b, rfl⟩
  | error f =>
      rw [hb] at hstep
      exact absurd trivial hstep.1

/-- **An SRM agent detects the losses.**  As long as no data comes for an id that the agent has
heard of and has no object for, it takes every message without an error, and no timer finds a loss
or a repair twice; data that does ends the run; and every id that it has heard of and that has not
come is asked for.  As long as no message disturbs a hold-down either, nothing fails at all. -/
theorem loss_detection {es : List SrmEvent} (hr : Run cfg Meets es a) :
    (∀ now m, (∃ f, a.step cfg (.recv now m) = .error f) ↔ ¬ Meets a (.recv now m)) ∧
      (∀ e, (∃ f, a.step cfg e = .error f ∧ f.alarm) ↔ ¬ Meets a e) ∧
      (∀ s m, 0 ≤ m → m ≤ (a.info s).ldata → ¬ Came es (s, m) → Asks a s m) ∧
      (Run cfg (fun a e => Meets a e ∧ Spares a e) es a →
        ∀ e, Meets a e → Spares a e → ∃ b, a.step cfg e = .ok b) := by
  have ha : Stands False (Came es) a := hr.stands (fun _ _ h => h) fun h => h.elim
  refine ⟨?_, ?_, fun s m h₀ hm hk => ha.asks h₀ hm hk, fun hr' e he hs => hr'.no_error he hs⟩
  · intro now m
    constructor
    · rintro ⟨f, hf⟩ he
      have hrecv : Outcome (fun _ => False) _ (a.step cfg (.recv now m)) :=
        ha.recv he fun h => h.elim
      rw [hf] at hrecv
      exact hrecv
    · intro he
      exact ⟨.oyVey, step_of_not_meets he⟩
  · intro e
    constructor
    · rintro ⟨f, hf, halarm⟩ he
      have hstep : Outcome (fun f => ¬ False ∧ f.alarm = false) _ (a.step cfg e) :=
        ha.step he fun h => h.elim
      rw [hf, Outcome.error_iff, halarm] at hstep
      cases hstep.2
    · intro he
      exact ⟨.oyVey, step_of_not_meets he, rfl⟩

end SrmAgent

/-- An agent with the parameters of `srm.tcl`, for which `uniform` yields 0. -/
def SrmConfig.standard : SrmConfig where
  addr := 0
  packetSize := 1024
  c1 := 2
  c2 := 2
  d1 := 1
  d2 := 1
  requestBackoffLimit := 5
  distanceCompute := fun ave cur => if ave < 0 then cur else 3 / 4 * ave + 1 / 4 * cur
  uniform := fun _ => 0

namespace SrmAgent

/-- Data that comes twice. -/
theorem duplicate_data : ∃ a, (start .standard).step .standard (.recv 1 (.data 1 0)) = .ok a ∧
    a.step .standard (.recv 2 (.data 1 0)) = .error .oyVey :=
  ⟨_, rfl, rfl⟩

/-- A hole of one message. -/
theorem loss_detection_hole : ∃ a, Run .standard Meets [.recv 1 (.data 1 1)] a ∧
    ((∀ now m, (∃ f, a.step .standard (.recv now m) = .error f) ↔ ¬ Meets a (.recv now m)) ∧
      (∀ e, (∃ f, a.step .standard e = .error f ∧ f.alarm) ↔ ¬ Meets a e) ∧ Asks a 1 0 ∧
      ∀ e, Meets a e → Spares a e → ∃ b, a.step .standard e = .ok b) := by
  obtain ⟨a, ha, hl⟩ : ∃ a, (start .standard).step .standard (.recv 1 (.data 1 1)) = .ok a ∧
      (a.info 1).ldata = 1 := ⟨_, rfl, rfl⟩
  have hmeets : Meets (start .standard) (.recv 1 (.data 1 1)) := fun h => absurd h (by decide)
  have hspares : Spares (start .standard) (.recv 1 (.data 1 1)) := fun h => absurd h (by decide)
  have hrun : Run .standard Meets [.recv 1 (.data 1 1)] a := .next .start hmeets ha
  obtain ⟨hrecv, hstep, hasks, hall⟩ := loss_detection hrun
  refine ⟨a, hrun, hrecv, hstep, hasks 1 0 le_rfl (by rw [hl]; decide) ?_, hall ?_⟩
  · rintro ⟨e, he, hb⟩
    obtain rfl := List.mem_singleton.mp he
    cases hb
  · exact .next .start ⟨hmeets, hspares⟩ ha

end SrmAgent

end Afabric
