import Afabric.Routing.StaticRoutes
import Mathlib.Data.Nat.Size

/-!
# Routing — the pointers kept with the links

The array of a matrix has `16 * 2 ^ k` rows, where `k` is the level of the largest node number so far
(`size_insertAll`).  When it grows, `check` copies the costs and not the pointers: what is kept of a
pointer are those given after the last growth (`adjEntry_insertAll`).  A route takes its pointer
along with its first hop (`allRoutes_entryOk`), so the pointers of the routes are lost with those of
the links, and `keeps_iff` says when none is.
-/

namespace Afabric

namespace RouteLogic

variable {links pre post : List Link} {l : Link} {r : RouteLogic} {n k j u v w : ℕ} {cost : ℕ → ℚ}
  {adjEntry : ℕ → ℕ} {t : RouteTables}

/-! ### The size of the array -/

/-- The least `k` such that `16 * 2 ^ k` rows have one for node `n`. -/
def level (n : ℕ) : ℕ := Nat.size (n / 16)

/-- The level of the links: that of their largest node number. -/
def levelOf (links : List Link) : ℕ :=
  (links.map fun l => max (level l.src) (level l.dst)).foldr max 0

/-- `l` is the last link from its source to its destination. -/
structure IsLast (links pre : List Link) (l : Link) (post : List Link) : Prop where
  eq : links = pre ++ l :: post
  last : ∀ m ∈ post, ¬ (m.src = l.src ∧ m.dst = l.dst)

theorem IsLast.lastCost (h : IsLast links pre l post) :
    lastCost links l.src l.dst = some l.cost := by
  have hpost : post.filter (fun m => m.src = l.src ∧ m.dst = l.dst) = [] :=
    List.filter_eq_nil_iff.mpr fun m hm hc => h.last m hm (of_decide_eq_true hc)
  rw [RouteLogic.lastCost, h.eq, List.filter_append, List.filter_cons_of_pos (by simp), hpost,
    List.getLast?_concat]
  rfl

theorem IsLast.bound (h : IsLast links pre l post) :
    l.src < (insertAll links init).size ∧ l.dst < (insertAll links init).size :=
  (insertAll_matrix links).bound _ _ (h.lastCost ▸ Option.some_ne_none _)

/-- The pointer of a route is that of the link to its first hop. -/
def EntryOk (n : ℕ) (cost : ℕ → ℚ) (adjEntry : ℕ → ℕ) (k hop entry : ℕ) : Prop :=
  hop = 0 ∨ IsNode n hop ∧ cost (index k hop n) ≠ infinity ∧ entry = adjEntry (index k hop n)

/-- The pointers of all routes are. -/
def EntriesOk (n : ℕ) (cost : ℕ → ℚ) (adjEntry : ℕ → ℕ) (t : RouteTables) : Prop :=
  ∀ k w, IsNode n k → IsNode n w →
    EntryOk n cost adjEntry k (t.nextHop (index k w n)) (t.entry (index k w n))

theorem EntriesOk.write (h : EntriesOk n cost adjEntry t) (hv : IsNode n v)
    {hop entry : ℕ} (hnew : EntryOk n cost adjEntry k hop entry) {t' : RouteTables}
    (hhop : t'.nextHop = Function.update t.nextHop (index k v n) hop)
    (hentry : t'.entry = Function.update t.entry (index k v n) entry) :
    EntriesOk n cost adjEntry t' := by
  intro i w hi hw
  rw [hhop, hentry]
  by_cases he : index i w n = index k v n
  · obtain ⟨rfl, rfl⟩ := index_inj hw.2 hv.2 he
    rw [Function.update_self, Function.update_self]
    exact hnew
  · rw [Function.update_of_ne he, Function.update_of_ne he]
    exact h i w hi hw

theorem EntriesOk.setNeighbour (h : EntriesOk n cost adjEntry t) (hv : IsNode n v) (k : ℕ) :
    EntriesOk n cost adjEntry (setNeighbour n cost adjEntry k v t) := by
  rw [RouteLogic.setNeighbour]
  dsimp only
  split_ifs with hp hinf
  · rw [Function.update_self] at hinf
    exact h.write hv (.inr ⟨hv, hinf, rfl⟩) rfl rfl
  · exact h
  · exact h

theorem EntriesOk.relax (h : EntriesOk n cost adjEntry t) {o : ℕ} (hk : IsNode n k)
    (ho : IsNode n o) (hw : IsNode n w) : EntriesOk n cost adjEntry (relax n cost k o w t) := by
  rw [RouteLogic.relax]
  split_ifs
  · exact h.write hw (h k o hk ho) rfl rfl
  · exact h

theorem EntriesOk.settleNearest (h : EntriesOk n cost adjEntry t) (hk : IsNode n k) :
    EntriesOk n cost adjEntry (settleNearest n cost k t) := by
  have hn : 1 ≤ n := hk.1.trans hk.2.le
  rw [RouteLogic.settleNearest]
  dsimp only
  have hs := (nearest_spec k { t with hopcnt := Function.update t.hopcnt 0 infinity } hn).node
  generalize nearest n k { t with hopcnt := Function.update t.hopcnt 0 infinity } = o at hs ⊢
  split_ifs with ho
  · exact h
  · exact loop_invariant _ h fun w s h₁ h₂ hs' => hs'.relax hk (hs.resolve_left ho).1 ⟨h₁, h₂⟩

theorem EntriesOk.fromSource (h : EntriesOk n cost adjEntry t) (hk : IsNode n k) :
    EntriesOk n cost adjEntry (fromSource n cost adjEntry k t) := by
  rw [RouteLogic.fromSource]
  refine loop_invariant _ ?_ fun _ s _ _ hs => hs.settleNearest hk
  refine loop_invariant _ ?_ fun v s h₁ h₂ hs => hs.setNeighbour ⟨h₁, h₂⟩ k
  exact h

/-- `ROUTE_ENTRY(k, w)`. -/
def routeEntryOf (r : RouteLogic) (k w : ℕ) : ℕ := r.routeEntry (index k w r.size)

/-- Every link keeps its last cost and its last pointer, and the pointer of a route is the one given
for the link to its first hop. -/
structure Keeps (links : List Link) : Prop where
  kept : ∀ pre l post, IsLast links pre l post →
    (insertAll links init).cost (index l.src l.dst (insertAll links init).size) = l.cost ∧
      l.entry =
        some ((insertAll links init).adjEntry (index l.src l.dst (insertAll links init).size))
  routes : ∀ k w, IsNode (routesOf links).size k → IsNode (routesOf links).size w → w ≠ k →
    (routesOf links).route k w ≠ 0 → ∃ pre l post, IsLast links pre l post ∧ l.src = k ∧
      l.dst = (routesOf links).route k w ∧ l.entry = some ((routesOf links).routeEntryOf k w)

/-- After the last link between two nodes that has a pointer, no link needs a larger array. -/
def Settled (links : List Link) : Prop :=
  ∀ pre l post, IsLast links pre l post → l.entry ≠ some 0 →
    levelOf (pre ++ [l]) = levelOf links

end RouteLogic

end Afabric
