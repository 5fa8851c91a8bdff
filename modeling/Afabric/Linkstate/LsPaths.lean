import Afabric.Support.OrdMap
import Mathlib.Algebra.Order.Ring.Nat
import Mathlib.Data.List.Nodup

/-!
# Linkstate — route computation

`_computeRoutes` of `linkstate/ls.cc` with the path sets it works on.  `LsPaths` keeps for each
destination one cost and the list of the next hops of that cost; the tentative paths are kept in the
same way, and `popShortestPath` takes one next hop of a cheapest of them at a time.

A set covers a path whose destination it has at less cost, or at that cost and with that next hop;
an insertion keeps what is covered (`Covers.insertNextHopList`).

A node id is a natural number, and so is a cost, whose sums do not overflow.  `none` is an abort or
an end of the given rounds; an invalid path is no path.
-/

namespace Afabric

inductive LsStatus where
  | down
  | up
deriving DecidableEq, Repr

structure LsLinkState where
  neighborId : ℕ
  status : LsStatus
  cost : ℕ
  sequenceNumber : ℕ
deriving DecidableEq, Repr

abbrev LsTopoMap := OrdMap (List LsLinkState)

/-- `LS_INVALID_NODE_ID`. -/
def lsInvalidNodeId : ℕ := 65535

/-- `LS_INVALID_COST`. -/
def lsInvalidCost : ℕ := 65535

/-- `LS_MAX_COST`. -/
def lsMaxCost : ℕ := 65534

structure LsPath where
  destination : ℕ
  cost : ℕ
  nextHop : ℕ
deriving DecidableEq, Repr

/-- `isValid`, which compares the next hop with the invalid cost. -/
def LsPath.IsValid (p : LsPath) : Prop :=
  p.destination ≠ lsInvalidNodeId ∧ p.cost ≠ lsInvalidCost ∧ p.nextHop ≠ lsInvalidCost

instance (p : LsPath) : Decidable p.IsValid := inferInstanceAs (Decidable (_ ∧ _))

structure LsEqualPaths where
  cost : ℕ
  nextHopList : List ℕ
deriving DecidableEq, Repr

/-- `LsNodeIdList::appendUnique`. -/
def appendUnique (l x : List ℕ) : List ℕ :=
  x.foldl (fun l h => if h ∈ l then l else l ++ [h]) l

abbrev LsPaths := OrdMap LsEqualPaths

namespace LsPaths

def lookupCost (destId : ℕ) (p : LsPaths) : ℕ :=
  match p.find destId with
  | none => lsMaxCost + 1
  | some ep => ep.cost

def insertPath (path : LsPath) (p : LsPaths) : LsPaths :=
  match p.find path.destination with
  | none => p.set path.destination ⟨path.cost, [path.nextHop]⟩
  | some ep =>
      if ep.cost < path.cost then p
      else if path.cost < ep.cost then p.set path.destination ⟨path.cost, [path.nextHop]⟩
      else if path.nextHop ∈ ep.nextHopList then p
      else p.set path.destination ⟨ep.cost, ep.nextHopList ++ [path.nextHop]⟩

def insertNextHopList (destId cost : ℕ) (nextHopList : List ℕ) (p : LsPaths) : LsPaths :=
  match p.find destId with
  | none => p.set destId ⟨cost, nextHopList⟩
  | some ep =>
      if ep.cost < cost then p
      else if cost < ep.cost then p.set destId ⟨cost, nextHopList⟩
      else p.set destId ⟨ep.cost, appendUnique ep.nextHopList nextHopList⟩

/-- A round of `findMinEqualPaths`. -/
def cheaper (best : Option (ℕ × LsEqualPaths)) (e : ℕ × LsEqualPaths) :
    Option (ℕ × LsEqualPaths) :=
  let minCost := match best with
    | none => lsMaxCost + 1
    | some b => b.2.cost
  if e.2.cost < minCost ∧ e.2.nextHopList ≠ [] then some e else best

def findMinEqualPaths (t : LsPaths) : Option (ℕ × LsEqualPaths) := t.entries.foldl cheaper none

def popShortestPath (t : LsPaths) : Option (LsPath × LsPaths) :=
  match findMinEqualPaths t with
  | none => none
  | some (dest, ep) =>
      match ep.nextHopList with
      | [] => none
      | h :: rest =>
          some (⟨dest, ep.cost, h⟩,
            if rest = [] then t.erase dest else t.set dest ⟨ep.cost, rest⟩)

end LsPaths

namespace LsPaths

variable {p : LsPaths} {x y h c dest cost : ℕ} {nhl : List ℕ} {ep : LsEqualPaths}

/-- The entry at `x` is cheaper than `c`, or as cheap and with the next hop `h`. -/
def Covers (p : LsPaths) (x h c : ℕ) : Prop :=
  ∃ ep, p.find x = some ep ∧ (ep.cost < c ∨ (ep.cost = c ∧ h ∈ ep.nextHopList))

/-! ### Inserting -/

theorem appendUnique_cons (l x : List ℕ) (h : ℕ) :
    appendUnique l (h :: x) = appendUnique (if h ∈ l then l else l ++ [h]) x := rfl

theorem mem_appendUnique {l x : List ℕ} : h ∈ appendUnique l x ↔ h ∈ l ∨ h ∈ x := by
  induction x generalizing l with
  | nil => simp [appendUnique]
  | cons j x ih =>
      rw [appendUnique_cons, ih, List.mem_cons]
      by_cases hj : j ∈ l
      · rw [if_pos hj]
        constructor
        · rintro (hl | hx)
          · exact .inl hl
          · exact .inr (.inr hx)
        · rintro (hl | rfl | hx)
          · exact .inl hl
          · exact .inl hj
          · exact .inr hx
      · rw [if_neg hj, List.mem_append, List.mem_singleton, or_assoc]

theorem nodup_appendUnique {l x : List ℕ} (hl : l.Nodup) : (appendUnique l x).Nodup := by
  induction x generalizing l with
  | nil => exact hl
  | cons j x ih =>
      rw [appendUnique_cons]
      refine ih ?_
      by_cases hj : j ∈ l
      · rwa [if_pos hj]
      · rw [if_neg hj]
        exact List.nodup_append.mpr ⟨hl, List.nodup_singleton j, fun a ha b hb hab =>
          hj (List.mem_singleton.mp hb ▸ hab ▸ ha)⟩

theorem find_insertNextHopList_of_ne (hx : x ≠ dest) :
    (p.insertNextHopList dest cost nhl).find x = p.find x := by
  cases hd : p.find dest with
  | none => simp only [insertNextHopList, hd, OrdMap.find_set, if_neg hx]
  | some ep =>
      simp only [insertNextHopList, hd]
      split_ifs <;> simp only [OrdMap.find_set, if_neg hx]

/-- The entry that an insertion leaves at its destination. -/
theorem find_insertNextHopList_self (p : LsPaths) (dest cost : ℕ) (nhl : List ℕ) :
    ∃ ep, (p.insertNextHopList dest cost nhl).find dest = some ep ∧
      (ep = ⟨cost, nhl⟩ ∧ (∀ old, p.find dest = some old → cost < old.cost) ∨
        (p.find dest = some ep ∧ ep.cost < cost) ∨
        ∃ old, p.find dest = some old ∧ old.cost = cost ∧
          ep = ⟨cost, appendUnique old.nextHopList nhl⟩) := by
  cases hd : p.find dest with
  | none =>
      refine ⟨⟨cost, nhl⟩, ?_, .inl ⟨rfl, fun old ho => by cases ho⟩⟩
      simp only [insertNextHopList, hd, OrdMap.find_set, if_true]
  | some ep =>
      by_cases hlt : ep.cost < cost
      · exact ⟨ep, by simp only [insertNextHopList, hd, if_pos hlt], .inr (.inl ⟨rfl, hlt⟩)⟩
      by_cases hgt : cost < ep.cost
      · refine ⟨⟨cost, nhl⟩, ?_, .inl ⟨rfl, fun old ho => Option.some.inj ho ▸ hgt⟩⟩
        simp only [insertNextHopList, hd, if_neg hlt, if_pos hgt, OrdMap.find_set, if_true]
      · obtain rfl : ep.cost = cost := le_antisymm (not_lt.mp hgt) (not_lt.mp hlt)
        refine ⟨⟨ep.cost, appendUnique ep.nextHopList nhl⟩, ?_, .inr (.inr ⟨ep, rfl, rfl, rfl⟩)⟩
        simp only [insertNextHopList, hd, if_neg hlt, OrdMap.find_set, if_true]

theorem covers_insertNextHopList (hh : h ∈ nhl) :
    Covers (p.insertNextHopList dest cost nhl) dest h cost := by
  obtain ⟨ep, he, ⟨rfl, -⟩ | ⟨-, hlt⟩ | ⟨old, -, -, rfl⟩⟩ :=
    find_insertNextHopList_self p dest cost nhl
  · exact ⟨_, he, .inr ⟨rfl, hh⟩⟩
  · exact ⟨_, he, .inl hlt⟩
  · exact ⟨_, he, .inr ⟨rfl, mem_appendUnique.mpr (.inr hh)⟩⟩

theorem Covers.insertNextHopList (hc : Covers p x h c) :
    Covers (p.insertNextHopList dest cost nhl) x h c := by
  obtain ⟨old, ho, hold⟩ := hc
  by_cases hx : x = dest
  · subst hx
    obtain ⟨ep, he, ⟨rfl, hlt⟩ | ⟨hep, -⟩ | ⟨old', ho', hcost, rfl⟩⟩ :=
      find_insertNextHopList_self p x cost nhl
    · refine ⟨_, he, .inl ((hlt old ho).trans_le ?_)⟩
      rcases hold with hold | ⟨hold, -⟩
      · exact hold.le
      · exact hold.le
    · rw [ho] at hep
      cases hep
      exact ⟨_, he, hold⟩
    · rw [ho] at ho'
      cases ho'
      rcases hold with hold | ⟨hold, hh⟩
      · exact ⟨_, he, .inl (hcost ▸ hold)⟩
      · exact ⟨_, he, .inr ⟨hcost ▸ hold, mem_appendUnique.mpr (.inl hh)⟩⟩
  · exact ⟨old, (find_insertNextHopList_of_ne hx).trans ho, hold⟩

/-! ### Popping -/

/-- What `findMinEqualPaths` has found after some of the entries. -/
def IsMin (l : List (ℕ × LsEqualPaths)) : Option (ℕ × LsEqualPaths) → Prop
  | none => ∀ e ∈ l, e.2.nextHopList ≠ [] → lsMaxCost < e.2.cost
  | some b => b ∈ l ∧ b.2.nextHopList ≠ [] ∧ b.2.cost ≤ lsMaxCost ∧
      ∀ e ∈ l, e.2.nextHopList ≠ [] → b.2.cost ≤ e.2.cost

theorem IsMin.cheaper {l : List (ℕ × LsEqualPaths)} {b : Option (ℕ × LsEqualPaths)}
    (hb : IsMin l b) (e : ℕ × LsEqualPaths) : IsMin (l ++ [e]) (cheaper b e) := by
  cases b with
  | none =>
      by_cases he : e.2.cost < lsMaxCost + 1 ∧ e.2.nextHopList ≠ []
      · rw [LsPaths.cheaper, if_pos he]
        refine ⟨by simp, he.2, Nat.le_of_lt_succ he.1, fun f hf hne => ?_⟩
        rcases List.mem_append.mp hf with hf | hf
        · exact (Nat.le_of_lt_succ he.1).trans (hb f hf hne).le
        · exact List.mem_singleton.mp hf ▸ le_rfl
      · rw [LsPaths.cheaper, if_neg he]
        intro f hf hne
        rcases List.mem_append.mp hf with hf | hf
        · exact hb f hf hne
        · obtain rfl := List.mem_singleton.mp hf
          exact Nat.succ_le_iff.mp (not_lt.mp fun hlt => he ⟨hlt, hne⟩)
  | some b =>
      obtain ⟨hmem, hne, hle, hall⟩ := hb
      by_cases he : e.2.cost < b.2.cost ∧ e.2.nextHopList ≠ []
      · rw [LsPaths.cheaper, if_pos he]
        refine ⟨by simp, he.2, he.1.le.trans hle, fun f hf hne => ?_⟩
        rcases List.mem_append.mp hf with hf | hf
        · exact he.1.le.trans (hall f hf hne)
        · exact List.mem_singleton.mp hf ▸ le_rfl
      · rw [LsPaths.cheaper, if_neg he]
        refine ⟨List.mem_append_left _ hmem, hne, hle, fun f hf hne => ?_⟩
        rcases List.mem_append.mp hf with hf | hf
        · exact hall f hf hne
        · obtain rfl := List.mem_singleton.mp hf
          exact not_lt.mp fun hlt => he ⟨hlt, hne⟩

theorem isMin_foldl {l m : List (ℕ × LsEqualPaths)} {b : Option (ℕ × LsEqualPaths)}
    (hb : IsMin l b) : IsMin (l ++ m) (m.foldl LsPaths.cheaper b) := by
  induction m generalizing l b with
  | nil => rwa [List.append_nil]
  | cons e m ih =>
      have h := ih (hb.cheaper e)
      rwa [List.append_assoc, List.singleton_append] at h

theorem isMin_findMinEqualPaths (t : LsPaths) : IsMin t.entries t.findMinEqualPaths :=
  isMin_foldl (l := []) fun _ he => absurd he List.not_mem_nil

/-- No tentative path is popped only if all cost too much. -/
theorem popShortestPath_eq_none {t : LsPaths} (hp : t.popShortestPath = none)
    (hx : t.find x = some ep) (hne : ep.nextHopList ≠ []) : lsMaxCost < ep.cost := by
  have hmin := isMin_findMinEqualPaths t
  cases hm : t.findMinEqualPaths with
  | none =>
      rw [hm] at hmin
      exact hmin _ (OrdMap.find_eq_some_iff.mp hx) hne
  | some b =>
      rw [hm] at hmin
      obtain ⟨dest, cost, nhl⟩ := b
      cases nhl with
      | nil => exact absurd rfl hmin.2.1
      | cons h rest =>
          rw [popShortestPath, hm] at hp
          cases hp

/-- What is popped: the first next hop of a cheapest entry. -/
theorem popShortestPath_eq_some {t t' : LsPaths} {sp : LsPath}
    (hp : t.popShortestPath = some (sp, t')) :
    ∃ rest, t.find sp.destination = some ⟨sp.cost, sp.nextHop :: rest⟩ ∧ sp.cost ≤ lsMaxCost ∧
      (∀ x ep, t.find x = some ep → ep.nextHopList ≠ [] → sp.cost ≤ ep.cost) ∧
      (∀ x, x ≠ sp.destination → t'.find x = t.find x) ∧
      t'.find sp.destination = if rest = [] then none else some ⟨sp.cost, rest⟩ := by
  have hmin := isMin_findMinEqualPaths t
  cases hm : t.findMinEqualPaths with
  | none =>
      rw [popShortestPath, hm] at hp
      cases hp
  | some b =>
      rw [hm] at hmin
      rw [popShortestPath, hm] at hp
      obtain ⟨dest, cost, nhl⟩ := b
      cases nhl with
      | nil => cases hp
      | cons h rest =>
          cases hp
          obtain ⟨hmem, -, hle, hall⟩ := hmin
          refine ⟨rest, OrdMap.find_eq_some_iff.mpr hmem, hle,
            fun x ep hx hne => hall _ (OrdMap.find_eq_some_iff.mp hx) hne, fun x hx => ?_, ?_⟩
          · dsimp only at hx ⊢
            split_ifs
            · rw [OrdMap.find_erase, if_neg hx]
            · rw [OrdMap.find_set, if_neg hx]
          · dsimp only
            split_ifs
            · rw [OrdMap.find_erase, if_pos rfl]
            · rw [OrdMap.find_set, if_pos rfl]

/-! ### Putting a path in -/

/-- The next hops to a destination. -/
def hops (p : LsPaths) (x : ℕ) : List ℕ :=
  match p.find x with
  | none => []
  | some ep => ep.nextHopList

theorem hops_eq (hx : p.find x = some ep) : p.hops x = ep.nextHopList := by rw [hops, hx]

variable {sp : LsPath}

theorem find_insertPath_of_ne (hx : x ≠ sp.destination) : (p.insertPath sp).find x = p.find x := by
  cases hd : p.find sp.destination with
  | none => simp only [insertPath, hd, OrdMap.find_set, if_neg hx]
  | some ep =>
      simp only [insertPath, hd]
      split_ifs <;> simp only [OrdMap.find_set, if_neg hx]

/-- A path that is as cheap as those known, with a new next hop. -/
theorem find_insertPath_self (hold : ∀ ep, p.find sp.destination = some ep →
    ep.cost = sp.cost ∧ sp.nextHop ∉ ep.nextHopList) :
    (p.insertPath sp).find sp.destination =
      some ⟨sp.cost, p.hops sp.destination ++ [sp.nextHop]⟩ := by
  cases hd : p.find sp.destination with
  | none => simp only [insertPath, hops, hd, OrdMap.find_set, if_true, List.nil_append]
  | some ep =>
      obtain ⟨hcost, hnew⟩ := hold ep hd
      simp only [insertPath, hops, hd, hcost, lt_irrefl, if_false, if_neg hnew, OrdMap.find_set,
        if_true]

end LsPaths

namespace LsTopoMap

open LsPaths

/-- The paths found and the tentative ones. -/
structure Search where
  paths : LsPaths
  tentative : LsPaths

variable (myNodeId : ℕ) (db : LsTopoMap)

/-- A link of the node just put in the paths, whose next hops are `nhl` if it is not the source. -/
def relax (node : ℕ) (nhl : List ℕ) (paths tentative : LsPaths) (link : LsLinkState) : LsPaths :=
  let pathCost := link.cost + paths.lookupCost node
  if link.status ≠ .up then tentative
  else if paths.lookupCost link.neighborId < pathCost then tentative
  else tentative.insertNextHopList link.neighborId pathCost
    (if node = myNodeId then [link.neighborId] else nhl)

/-- The next hops to a node other than the source; it aborts if they are not known. -/
def hopsTo (node : ℕ) (paths : LsPaths) : Option (List ℕ) :=
  if node = myNodeId then some [] else (paths.find node).map LsEqualPaths.nextHopList

def expand (node : ℕ) (lsl : List LsLinkState) (s : Search) : Option Search :=
  (hopsTo myNodeId node s.paths).map fun nhl =>
    { s with tentative := lsl.foldl (relax myNodeId node nhl s.paths) s.tentative }

/-- A tentative path is put in the paths, and its destination expanded if its links are known. -/
def round (s : Search) : Option Search :=
  match s.tentative.popShortestPath with
  | none => none
  | some (sp, t) =>
      if sp.IsValid then
        match db.find sp.destination with
        | none => some ⟨s.paths.insertPath sp, t⟩
        | some lsl => expand myNodeId sp.destination lsl ⟨s.paths.insertPath sp, t⟩
      else none

def rounds : ℕ → Search → Option LsPaths
  | 0, _ => none
  | n + 1, s =>
      if s.tentative.entries = [] then some s.paths else (round myNodeId db s).bind (rounds n)

/-- `_computeRoutes`, given at most `n` rounds. -/
def computeRoutes (n : ℕ) : Option LsPaths :=
  let paths : LsPaths := OrdMap.empty.set myNodeId ⟨0, [myNodeId]⟩
  match db.find myNodeId with
  | none => some paths
  | some lsl => (expand myNodeId myNodeId lsl ⟨paths, .empty⟩).bind (rounds myNodeId db n)

end LsTopoMap

end Afabric
