import Afabric.Classifier.Slots
import Mathlib.Data.Nat.Find

/-!
# Classifier — `MultiPathForwarder`

`classifier/classifier-mpath.cc`: a packet goes to the next slot in use after a position, cyclically
below `maxslot_ + 1`.  Per packet the position moves on with each packet; per flow it is a hash of
the node and the flow, to which `checkpathid_` adds the packet's `prio`.

`int` and `unsigned int` are 32-bit words, stored with the low byte first.  The digits of the path
number, which the code computes and does not use, and `nodetype_`, which only they depend on, are
left out.  A loop that has not ended within its fuel has no result.
-/

namespace Afabric

/-- The fields of the IP header that are read. -/
structure IpHdr where
  saddr : BitVec 32
  daddr : BitVec 32
  flowid : BitVec 32
  prio : BitVec 32

/-- The bound variables. -/
structure MultiPathVars where
  nodeid : BitVec 32
  perflow : ℤ
  checkpathid : ℤ
  shift : ℕ
  mask : BitVec 32

structure MultiPathForwarder (α : Type*) extends Classifier α where
  /-- `ns_`. -/
  ns : ℕ

namespace MultiPathForwarder

variable {α : Type*}

def wordBytes (w : BitVec 32) : List (BitVec 8) :=
  [w.extractLsb' 0 8, w.extractLsb' 8 8, w.extractLsb' 16 8, w.extractLsb' 24 8]

/-- `HashString`, over signed characters. -/
def hashString (bytes : List (BitVec 8)) : BitVec 32 :=
  bytes.foldl (fun result b => result + ((result <<< 3) + b.signExtend 32)) 0

def mshift (v : MultiPathVars) (val : BitVec 32) : BitVec 32 := val.sshiftRight v.shift &&& v.mask

/-- The bytes of `hkey`. -/
def hkey (v : MultiPathVars) (h : IpHdr) : List (BitVec 8) :=
  wordBytes v.nodeid ++ wordBytes (mshift v h.saddr) ++ wordBytes (mshift v h.daddr) ++
    wordBytes h.flowid

/-- `ms_` before it is reduced. -/
def pathHash (v : MultiPathVars) (h : IpHdr) : BitVec 32 :=
  let ms := hashString (hkey v h)
  if v.checkpathid ≠ 0 then ms + h.prio else ms

/-- The loop of `classify` from position `i`, with the slot it ends on and the position after. -/
def probe (slot : ℕ → Option α) (m fail : ℕ) : ℕ → ℕ → Option (ℕ × ℕ)
  | 0, _ => none
  | fuel + 1, i =>
      let next := (i + 1) % m
      if slot i = none ∧ next ≠ fail then probe slot m fail fuel next else some (i, next)

/-- `maxslot_ + 1`. -/
def slots (s : MultiPathForwarder α) : ℕ := (s.maxslot + 1).toNat

/-- Whether the path is that of the flow. -/
def PerFlow (v : MultiPathVars) : Prop := v.perflow ≠ 0 ∨ v.checkpathid ≠ 0

instance (v : MultiPathVars) : Decidable (PerFlow v) := inferInstanceAs (Decidable (_ ∨ _))

def classify (v : MultiPathVars) (fuel : ℕ) (h : IpHdr) (s : MultiPathForwarder α) :
    Option (ℕ × MultiPathForwarder α) :=
  if PerFlow v then
    let ms := (pathHash v h).toNat % s.slots
    (probe s.slot s.slots ms fuel ms).map fun r => (r.1, s)
  else (probe s.slot s.slots s.ns fuel s.ns).map fun r => (r.1, { s with ns := r.2 })

/-- Packets one after the other, with their slots. -/
def classifyAll (v : MultiPathVars) (fuel : ℕ) :
    List IpHdr → MultiPathForwarder α → Option (List ℕ × MultiPathForwarder α)
  | [], s => some ([], s)
  | h :: hs, s => do
      let (cl, s) ← classify v fuel h s
      let (cls, s) ← classifyAll v fuel hs s
      return (cl :: cls, s)

def init : MultiPathForwarder α := { Classifier.init with ns := 0 }

/-- Any sequence of `install`, `clear` and `classify`, with bound variables and a table size that
may change in between. -/
inductive Reachable : MultiPathForwarder α → Prop
  | init : Reachable init
  | install {s} (nsize i : ℕ) (p : α) (hs : Reachable s) :
      Reachable { s with toClassifier := Classifier.install nsize i p s.toClassifier }
  | clear {s c} (i : ℕ) (hs : Reachable s) (hc : Classifier.clear i s.toClassifier = some c) :
      Reachable { s with toClassifier := c }
  | classify {s s'} (v : MultiPathVars) (fuel : ℕ) (h : IpHdr) (cl : ℕ) (hs : Reachable s)
      (hused : ∃ i, s.slot i ≠ none) (hc : classify v fuel h s = some (cl, s')) : Reachable s'

variable {s s' : MultiPathForwarder α} {v : MultiPathVars}

/-! ### The loop -/

/-- `cl` is the first slot in use at or after `i`, cyclically below `m`. -/
structure FirstUsed (slot : ℕ → Option α) (m i cl : ℕ) : Prop where
  lt : cl < m
  used : slot cl ≠ none
  skipped : (i ≤ cl ∧ ∀ j, i ≤ j → j < cl → slot j = none) ∨
    (cl < i ∧ (∀ j, i ≤ j → j < m → slot j = none) ∧ ∀ j, j < cl → slot j = none)

theorem exists_firstUsed {slot : ℕ → Option α} {m i a : ℕ} (ha : a < m) (hu : slot a ≠ none) :
    ∃ cl, FirstUsed slot m i cl := by
  classical
  by_cases hex : ∃ j, i ≤ j ∧ j < m ∧ slot j ≠ none
  · obtain ⟨h₁, h₂, h₃⟩ := Nat.find_spec hex
    refine ⟨Nat.find hex, h₂, h₃, .inl ⟨h₁, fun j hij hj => ?_⟩⟩
    by_contra hne
    exact Nat.find_min hex hj ⟨hij, hj.trans h₂, hne⟩
  · have hnone : ∀ j, i ≤ j → j < m → slot j = none := by
      intro j hij hj
      by_contra hne
      exact hex ⟨j, hij, hj, hne⟩
    have hex' : ∃ j, j < m ∧ slot j ≠ none := ⟨a, ha, hu⟩
    obtain ⟨h₁, h₂⟩ := Nat.find_spec hex'
    refine ⟨Nat.find hex', h₁, h₂, .inr ⟨?_, hnone, fun j hj => ?_⟩⟩
    · by_contra hle
      exact h₂ (hnone _ (not_lt.mp hle) h₁)
    · by_contra hne
      exact Nat.find_min hex' hj ⟨hj.trans h₁, hne⟩

/-- The position after `i`. -/
theorem next_eq {m i : ℕ} (hi : i < m) : (i + 1) % m = if i + 1 = m then 0 else i + 1 := by
  split_ifs with h
  · rw [h, Nat.mod_self]
  · exact Nat.mod_eq_of_lt (lt_of_le_of_ne hi h)

theorem FirstUsed.step {slot : ℕ → Option α} {m i cl : ℕ} (h : FirstUsed slot m i cl) (hi : i < m)
    (hne : i ≠ cl) : slot i = none ∧ FirstUsed slot m ((i + 1) % m) cl := by
  have hcl := h.lt
  rw [next_eq hi]
  rcases h.skipped with ⟨hle, hskip⟩ | ⟨hlt, hskip, hlow⟩
  · have hic : i < cl := lt_of_le_of_ne hle hne
    rw [if_neg (by omega)]
    exact ⟨hskip i le_rfl hic, hcl, h.used,
      .inl ⟨hic, fun j hj hjc => hskip j (Nat.le_of_succ_le hj) hjc⟩⟩
  · refine ⟨hskip i le_rfl hi, hcl, h.used, ?_⟩
    split_ifs with hm
    · exact .inl ⟨Nat.zero_le cl, fun j _ hj => hlow j hj⟩
    · exact .inr ⟨Nat.lt_succ_of_lt hlt, fun j hj hjm => hskip j (Nat.le_of_succ_le hj) hjm, hlow⟩

/-- The steps from `i` to `cl`. -/
def ringDist (m i cl : ℕ) : ℕ := if i ≤ cl then cl - i else cl + m - i

/-- The loop ends on the first slot in use, as long as the position it gives up at is not met
before. -/
theorem probe_eq {slot : ℕ → Option α} {m fail fuel i cl : ℕ} (h : FirstUsed slot m i cl)
    (hi : i < m) (hfuel : ringDist m i cl < fuel)
    (hfail : m ≤ fail ∨ ringDist m i cl + ringDist m fail i < m) :
    probe slot m fail fuel i = some (cl, (cl + 1) % m) := by
  induction fuel generalizing i with
  | zero => exact absurd hfuel (Nat.not_lt_zero _)
  | succ fuel ih =>
      rw [probe]
      by_cases hic : i = cl
      · subst hic
        rw [if_neg fun hc => h.used hc.1]
      · obtain ⟨hnone, hstep⟩ := h.step hi hic
        have hcl := h.lt
        have hdist : ringDist m ((i + 1) % m) cl + 1 = ringDist m i cl := by
          rw [next_eq hi, ringDist, ringDist]
          split_ifs <;> omega
        have hback : fail < m → ringDist m fail i + 1 < m → (i + 1) % m ≠ fail ∧
            ringDist m fail ((i + 1) % m) = ringDist m fail i + 1 := by
          intro hf
          rw [next_eq hi, ringDist, ringDist]
          split_ifs <;> omega
        have hgo : (i + 1) % m ≠ fail ∧
            (m ≤ fail ∨ ringDist m ((i + 1) % m) cl + ringDist m fail ((i + 1) % m) < m) := by
          rcases lt_or_ge fail m with hf | hf
          · have hroom := hfail.resolve_left (not_le.mpr hf)
            obtain ⟨h₁, h₂⟩ := hback hf (by omega)
            exact ⟨h₁, .inr (by omega)⟩
          · have hlt : (i + 1) % m < m := Nat.mod_lt _ (by omega)
            exact ⟨by omega, .inl hf⟩
        rw [if_pos ⟨hnone, hgo.1⟩]
        exact ih hstep (Nat.mod_lt _ (by omega)) (by omega) hgo.2

/-! ### One packet -/

theorem Reachable.wellFormed (h : Reachable s) : s.toClassifier.WellFormed := by
  induction h with
  | init => exact Classifier.wellFormed_init
  | install nsize i p _ ih => exact ih.install nsize i p
  | clear i _ hc ih => exact ih.clear hc
  | classify v fuel h cl _ _ hc ih =>
      rw [MultiPathForwarder.classify] at hc
      split_ifs at hc
      all_goals
        obtain ⟨r, -, hr⟩ := Option.map_eq_some_iff.mp hc
        obtain ⟨-, rfl⟩ := Prod.mk.inj hr
        exact ih

/-- The slots in use are below `maxslot_ + 1`. -/
theorem used_lt_slots (h : s.toClassifier.WellFormed) {i : ℕ} (hi : s.slot i ≠ none) :
    i < s.slots := by
  have hle := h.highest.le hi
  rw [slots]
  omega

/-- The position from which a packet looks for a slot.  After a `clear` the position may lie above
the slots in use; it is passed over and wraps. -/
def start (v : MultiPathVars) (h : IpHdr) (s : MultiPathForwarder α) : ℕ :=
  if PerFlow v then (pathHash v h).toNat % s.slots
  else if s.ns < s.slots then s.ns else (s.ns + 1) % s.slots

/-- The state after a packet went to `cl`. -/
def moved (v : MultiPathVars) (cl : ℕ) (s : MultiPathForwarder α) : MultiPathForwarder α :=
  if PerFlow v then s else { s with ns := (cl + 1) % s.slots }

theorem moved_toClassifier (cl : ℕ) : (moved v cl s).toClassifier = s.toClassifier := by
  rw [moved]
  split_ifs <;> rfl

theorem ringDist_lt {m i cl : ℕ} (hi : i < m) (hcl : cl < m) : ringDist m i cl < m := by
  rw [ringDist]
  split_ifs <;> omega

theorem start_lt (h : IpHdr) (hpos : 0 < s.slots) : start v h s < s.slots := by
  rw [start]
  split_ifs with hf hn
  · exact Nat.mod_lt _ hpos
  · exact hn
  · exact Nat.mod_lt _ hpos

/-- With enough fuel `classify` ends on the first slot in use after its position. -/
theorem classify_eq (hwf : s.toClassifier.WellFormed) (h : IpHdr) {cl fuel : ℕ}
    (hcl : FirstUsed s.slot s.slots (start v h s) cl) (hfuel : s.slots < fuel) :
    classify v fuel h s = some (cl, moved v cl s) := by
  have hpos : 0 < s.slots := Nat.zero_lt_of_lt hcl.lt
  have hlt := start_lt (v := v) h hpos
  have hd := ringDist_lt hlt hcl.lt
  rw [classify, moved]
  rw [start] at hcl hlt hd
  split_ifs at hcl hlt hd ⊢ with hf hn
  · have hself : ringDist s.slots ((pathHash v h).toNat % s.slots)
        ((pathHash v h).toNat % s.slots) = 0 := by rw [ringDist, if_pos le_rfl, Nat.sub_self]
    dsimp only
    rw [probe_eq hcl hlt (by omega) (.inr (by omega))]
    rfl
  · have hself : ringDist s.slots s.ns s.ns = 0 := by rw [ringDist, if_pos le_rfl, Nat.sub_self]
    rw [probe_eq hcl hlt (by omega) (.inr (by omega))]
    rfl
  · -- the position is above the slots in use: one step takes it below
    obtain ⟨f, rfl⟩ : ∃ f, fuel = f + 1 := ⟨fuel - 1, by omega⟩
    have hnone : s.slot s.ns = none := by
      by_contra hne
      exact hn (used_lt_slots hwf hne)
    have hne : (s.ns + 1) % s.slots ≠ s.ns := by omega
    rw [probe, if_pos ⟨hnone, hne⟩, probe_eq hcl hlt (by omega) (.inl (not_lt.mp hn))]
    rfl

theorem exists_classify (hwf : s.toClassifier.WellFormed) (hused : ∃ i, s.slot i ≠ none)
    (v : MultiPathVars) (h : IpHdr) : ∃ cl, FirstUsed s.slot s.slots (start v h s) cl := by
  obtain ⟨a, ha⟩ := hused
  exact exists_firstUsed (used_lt_slots hwf ha) ha

/-! ### Packets in turn -/

/-- Of two slots in use, whether the upper one comes first from a position. -/
def UpperNext (a b x : ℕ) : Prop := a < x ∧ x ≤ b

instance (a b x : ℕ) : Decidable (UpperNext a b x) := inferInstanceAs (Decidable (_ ∧ _))

/-- The two slots take turns. -/
theorem FirstUsed.turn {slot : ℕ → Option α} {m x cl a b : ℕ} (h : FirstUsed slot m x cl)
    (hab : a < b) (hb : b < m) (ha' : slot a ≠ none) (hb' : slot b ≠ none) :
    (cl = a → ¬ UpperNext a b x ∧ UpperNext a b ((cl + 1) % m)) ∧
      (cl = b → UpperNext a b x ∧ ¬ UpperNext a b ((cl + 1) % m)) ∧
      (cl ≠ a → cl ≠ b → (UpperNext a b x ↔ UpperNext a b ((cl + 1) % m))) := by
  have hcl := h.lt
  have hnext : cl + 1 = m ∧ (cl + 1) % m = 0 ∨ cl + 1 < m ∧ (cl + 1) % m = cl + 1 := by
    rw [next_eq hcl]
    split_ifs <;> omega
  generalize (cl + 1) % m = y at hnext ⊢
  simp only [UpperNext]
  rcases h.skipped with ⟨hle, hskip⟩ | ⟨hlt, hskip, hlow⟩
  · have ha₁ : ¬ (x ≤ a ∧ a < cl) := fun hc => ha' (hskip a hc.1 hc.2)
    have hb₁ : ¬ (x ≤ b ∧ b < cl) := fun hc => hb' (hskip b hc.1 hc.2)
    omega
  · have ha₁ : ¬ x ≤ a := fun hc => ha' (hskip a hc (hab.trans hb))
    have hb₁ : ¬ x ≤ b := fun hc => hb' (hskip b hc hb)
    have ha₂ : ¬ a < cl := fun hc => ha' (hlow a hc)
    have hb₂ : ¬ b < cl := fun hc => hb' (hlow b hc)
    omega

/-- What a packet adds to the counts of two slots in use is made up for by whose turn it is. -/
theorem FirstUsed.count_turn {slot : ℕ → Option α} {m x cl a b : ℕ} (h : FirstUsed slot m x cl)
    (hab : a < b) (hb : b < m) (ha' : slot a ≠ none) (hb' : slot b ≠ none) :
    (if cl = a then 1 else 0) + (if UpperNext a b x then 1 else 0) =
      (if cl = b then 1 else 0) + if UpperNext a b ((cl + 1) % m) then 1 else 0 := by
  obtain ⟨hlow, hup, hother⟩ := h.turn hab hb ha' hb'
  by_cases hca : cl = a
  · rw [if_pos hca, if_neg (hlow hca).1, if_neg (by omega), if_pos (hlow hca).2]
  · by_cases hcb : cl = b
    · rw [if_neg hca, if_pos (hup hcb).1, if_pos hcb, if_neg (hup hcb).2]
    · rw [if_neg hca, if_neg hcb]
      simp only [hother hca hcb]

/-- The counts of two slots in use differ by the turn that is on. -/
theorem classifyAll_balance (hf : ¬ PerFlow v) (hs : List IpHdr)
    (hwf : s.toClassifier.WellFormed) (hused : ∃ i, s.slot i ≠ none) :
    ∃ cls s', (∀ fuel, s.slots < fuel → classifyAll v fuel hs s = some (cls, s')) ∧
      cls.length = hs.length ∧ ∀ a b, a < b → s.slot a ≠ none → s.slot b ≠ none → ∀ h,
        cls.count a + (if UpperNext a b (start v h s) then 1 else 0) =
          cls.count b + if UpperNext a b (start v h s') then 1 else 0 := by
  induction hs generalizing s with
  | nil => exact ⟨[], s, fun _ _ => rfl, rfl, fun _ _ _ _ _ _ => rfl⟩
  | cons h hs ih =>
      obtain ⟨cl, hcl⟩ := exists_classify hwf hused v h
      have hsame := moved_toClassifier (v := v) (s := s) cl
      have hslots : (moved v cl s).slots = s.slots := by rw [slots, hsame, slots]
      obtain ⟨cls, s', hrun, hlen, hcount⟩ := ih (s := moved v cl s) (hsame ▸ hwf) (hsame ▸ hused)
      rw [hslots] at hrun
      refine ⟨cl :: cls, s', fun fuel hfuel => ?_, by simp [hlen], fun a b hab ha hb h' => ?_⟩
      · rw [classifyAll, classify_eq hwf h hcl hfuel]
        simp [hrun fuel hfuel]
      · have hrest := hcount a b hab (hsame ▸ ha) (hsame ▸ hb) h'
        have hstart : start v h' (moved v cl s) = (cl + 1) % s.slots := by
          rw [start, if_neg hf, hslots]
          have hns : (moved v cl s).ns = (cl + 1) % s.slots := by rw [moved, if_neg hf]
          rw [hns, if_pos (Nat.mod_lt _ (Nat.zero_lt_of_lt hcl.lt))]
        have hsame' : start v h' s = start v h s := by simp only [start, if_neg hf]
        have hturn := hcl.count_turn hab (used_lt_slots hwf hb) ha hb
        rw [hstart] at hrest
        rw [hsame', List.count_cons, List.count_cons]
        simp only [beq_iff_eq]
        omega

/-- The counts of two slots in use differ by at most one. -/
theorem classifyAll_fair (hf : ¬ PerFlow v) (hs : List IpHdr)
    (hwf : s.toClassifier.WellFormed) (hused : ∃ i, s.slot i ≠ none) :
    ∃ cls s', (∀ fuel, s.slots < fuel → classifyAll v fuel hs s = some (cls, s')) ∧
      cls.length = hs.length ∧
      ∀ a b, s.slot a ≠ none → s.slot b ≠ none → cls.count a ≤ cls.count b + 1 := by
  obtain ⟨cls, s', hrun, hlen, hcount⟩ := classifyAll_balance hf hs hwf hused
  refine ⟨cls, s', hrun, hlen, fun a b ha hb => ?_⟩
  rcases lt_trichotomy a b with hlt | rfl | hgt
  · have hab := hcount a b hlt ha hb ⟨0, 0, 0, 0⟩
    split_ifs at hab <;> omega
  · exact Nat.le_succ _
  · have hba := hcount b a hgt hb ha ⟨0, 0, 0, 0⟩
    split_ifs at hba <;> omega

/-! ### The paths -/

theorem probe_mono {slot : ℕ → Option α} {m fail fuel fuel' i : ℕ} {r : ℕ × ℕ}
    (h : probe slot m fail fuel i = some r) (hle : fuel ≤ fuel') :
    probe slot m fail fuel' i = some r := by
  induction fuel generalizing fuel' i with
  | zero => cases h
  | succ fuel ih =>
      obtain ⟨f, rfl⟩ : ∃ f, fuel' = f + 1 := ⟨fuel' - 1, by omega⟩
      rw [probe] at h ⊢
      split_ifs at h ⊢ with hc
      · exact ih h (Nat.le_of_succ_le_succ hle)
      · exact h

theorem classify_mono {fuel fuel' : ℕ} {h : IpHdr} {r : ℕ × MultiPathForwarder α}
    (hc : classify v fuel h s = some r) (hle : fuel ≤ fuel') : classify v fuel' h s = some r := by
  rw [classify] at hc ⊢
  split_ifs at hc ⊢ with hf
  all_goals
    obtain ⟨q, hq, hr⟩ := Option.map_eq_some_iff.mp hc
    exact Option.map_eq_some_iff.mpr ⟨q, probe_mono hq hle, hr⟩

/-- The slot a packet is given does not depend on the fuel. -/
theorem classify_unique (hwf : s.toClassifier.WellFormed) {fuel : ℕ} {h : IpHdr} {cl cl' : ℕ}
    (hc : classify v fuel h s = some (cl, s'))
    (hcl : FirstUsed s.slot s.slots (start v h s) cl') : cl = cl' := by
  have hmono := classify_mono hc (Nat.le_add_right fuel (s.slots + 1))
  rw [classify_eq hwf h hcl (Nat.lt_of_lt_of_le (Nat.lt_succ_self _) (Nat.le_add_left _ _))] at hmono
  exact (Prod.mk.inj (Option.some.inj hmono)).1.symm

/-- The slot of a packet in per-flow mode is that of its hash and the table. -/
theorem classify_perFlow (hf : PerFlow v) {fuel fuel' : ℕ} {h h' : IpHdr}
    {t t' : MultiPathForwarder α} {cl cl' : ℕ} (hs : s.toClassifier.WellFormed)
    (ht : t.toClassifier.WellFormed) (hslot : t.slot = s.slot)
    (hash : pathHash v h' = pathHash v h) (hused : ∃ i, s.slot i ≠ none)
    (hc : classify v fuel h s = some (cl, s')) (hc' : classify v fuel' h' t = some (cl', t')) :
    cl' = cl := by
  obtain ⟨c, hcl⟩ := exists_classify hs hused v h
  have hmax : t.maxslot = s.maxslot := by
    have hhigh := ht.highest
    rw [hslot] at hhigh
    exact hhigh.eq hs.highest
  have hslots : t.slots = s.slots := by rw [slots, slots, hmax]
  have hstart : start v h' t = start v h s := by
    rw [start, start, if_pos hf, if_pos hf, hash, hslots]
  rw [classify_unique hs hc hcl]
  refine classify_unique ht hc' ?_
  rwa [hstart, hslots, hslot]

/-- Of one flow, and of one `prio` where that counts. -/
structure SameFlow (v : MultiPathVars) (h h' : IpHdr) : Prop where
  saddr : h'.saddr = h.saddr
  daddr : h'.daddr = h.daddr
  flowid : h'.flowid = h.flowid
  prio : v.checkpathid ≠ 0 → h'.prio = h.prio

theorem SameFlow.pathHash_eq {h h' : IpHdr} (hsame : SameFlow v h h') :
    pathHash v h' = pathHash v h := by
  rw [pathHash, pathHash, hkey, hkey, hsame.saddr, hsame.daddr, hsame.flowid]
  split_ifs with hc
  · rw [hsame.prio hc]
  · rfl

/-- **Multipath forwarding.**  In every state reached with a slot in use, `classify` ends on a slot
in use; per packet, the counts of any two slots in use over a run differ by at most one; per flow,
packets of one flow get the same slot from the same table. -/
theorem paths (hs : Reachable s) (hused : ∃ i, s.slot i ≠ none) (v : MultiPathVars) :
    (∀ h, ∃ cl s', (∀ fuel, s.slots < fuel → classify v fuel h s = some (cl, s')) ∧
      cl < s.nslot ∧ s.slot cl ≠ none) ∧
    (¬ PerFlow v → ∀ hs, ∃ cls s',
      (∀ fuel, s.slots < fuel → classifyAll v fuel hs s = some (cls, s')) ∧
      cls.length = hs.length ∧
      ∀ a b, s.slot a ≠ none → s.slot b ≠ none → cls.count a ≤ cls.count b + 1) ∧
    (PerFlow v → ∀ t : MultiPathForwarder α, Reachable t → t.slot = s.slot →
      ∀ h h', SameFlow v h h' → ∀ fuel fuel' cl cl' s' t',
        classify v fuel h s = some (cl, s') → classify v fuel' h' t = some (cl', t') →
        cl' = cl) := by
  have hwf := hs.wellFormed
  refine ⟨fun h => ?_, fun hf hs => ?_, fun hf t ht hslot h h' hsame fuel fuel' cl cl' s' t' => ?_⟩
  · obtain ⟨cl, hcl⟩ := exists_classify hwf hused v h
    exact ⟨cl, moved v cl s, fun fuel hfuel => classify_eq hwf h hcl hfuel,
      hwf.bound cl hcl.used, hcl.used⟩
  · exact classifyAll_fair hf hs hwf hused
  · exact classify_perFlow hf hwf ht.wellFormed hslot hsame.pathHash_eq hused

/-- Slots 0 and 1 in use. -/
def twoPaths : MultiPathForwarder Unit :=
  { toClassifier := (Classifier.init.install 0 0 ()).install 0 1 (), ns := 0 }

theorem reachable_twoPaths : Reachable twoPaths := (Reachable.init.install 0 0 ()).install 0 1 ()

theorem paths_twoPaths :
    ∃ cls s', classifyAll ⟨0, 0, 0, 0, 0⟩ 3 [⟨1, 2, 0, 0⟩, ⟨1, 2, 0, 0⟩, ⟨1, 2, 0, 0⟩] twoPaths =
      some (cls, s') ∧ cls.length = 3 ∧ cls.count 0 ≤ cls.count 1 + 1 := by
  have h₀ : twoPaths.slot 0 ≠ none := by decide
  have h₁ : twoPaths.slot 1 ≠ none := by decide
  obtain ⟨-, hturns, -⟩ := paths reachable_twoPaths ⟨0, h₀⟩ ⟨0, 0, 0, 0, 0⟩
  obtain ⟨cls, s', hrun, hlen, hfair⟩ :=
    hturns (by decide) [⟨1, 2, 0, 0⟩, ⟨1, 2, 0, 0⟩, ⟨1, 2, 0, 0⟩]
  exact ⟨cls, s', hrun 3 (by decide), hlen, hfair 0 1 h₀ h₁⟩

/-- With `checkpathid_`, packets of one flow that differ in `prio` get different slots. -/
theorem paths_by_prio :
    Reachable twoPaths ∧ PerFlow ⟨0, 1, 1, 0, -1⟩ ∧
      (classify ⟨0, 1, 1, 0, -1⟩ 3 ⟨1, 2, 0, 0⟩ twoPaths).map Prod.fst = some 1 ∧
      (classify ⟨0, 1, 1, 0, -1⟩ 3 ⟨1, 2, 0, 1⟩ twoPaths).map Prod.fst = some 0 :=
  ⟨reachable_twoPaths, by decide, by decide +kernel, by decide +kernel⟩

end MultiPathForwarder

end Afabric
