import Afabric.Support.Dijkstra
import Afabric.Support.Loops
import Mathlib.Algebra.Order.Ring.Rat
import Mathlib.Order.Interval.Finset.Nat

/-!
# Routing — `RouteLogic`

The static routes of `routing/route.cc`: the matrix of the link costs, which grows with the node
numbers, and Dijkstra's algorithm from every source.  Both matrices are arrays that are addressed by
`INDEX`; node numbers start at 1, and 0 stands for no node.  The code marks a node as settled by
giving it the source as its parent.

A `double` is a rational, and `new` gives an array of zeros.  A pointer kept for a link is a number,
0 for none.
-/

namespace Afabric

/-- `INDEX(i, j, N)`. -/
def index (i j N : ℕ) : ℕ := N * i + j

theorem index_inj {i j i' j' N : ℕ} (hj : j < N) (hj' : j' < N)
    (h : index i j N = index i' j' N) : i = i' ∧ j = j' := by
  have hdiv : ∀ {a b : ℕ}, b < N → index a b N / N = a := fun {a b} hb => by
    rw [index, Nat.mul_add_div (Nat.zero_lt_of_lt hb), Nat.div_eq_of_lt hb, Nat.add_zero]
  have hi : i = i' := by rw [← hdiv (a := i) hj, h, hdiv hj']
  refine ⟨hi, ?_⟩
  rw [hi] at h
  exact Nat.add_left_cancel h

structure RouteLogic where
  size : ℕ
  /-- `adj_[…].cost`. -/
  cost : ℕ → ℚ
  /-- `adj_[…].entry`. -/
  adjEntry : ℕ → ℕ
  /-- `route_[…].next_hop`. -/
  nextHop : ℕ → ℕ
  /-- `route_[…].entry`. -/
  routeEntry : ℕ → ℕ

/-- The arrays of a computation of routes. -/
structure RouteTables where
  parent : ℕ → ℕ
  hopcnt : ℕ → ℚ
  nextHop : ℕ → ℕ
  entry : ℕ → ℕ

namespace RouteLogic

/-- `INFINITY`. -/
def infinity : ℚ := 0x3fff

def init : RouteLogic where
  size := 0
  cost := fun _ => 0
  adjEntry := fun _ => 0
  nextHop := fun _ => 0
  routeEntry := fun _ => 0

def alloc (n : ℕ) (r : RouteLogic) : RouteLogic :=
  { r with size := n, cost := fun _ => infinity, adjEntry := fun _ => 0 }

/-- The costs of an array for `osize` nodes in one for `m`. -/
def copied (osize m : ℕ) (old new : ℕ → ℚ) : ℕ → ℚ :=
  loop 0 osize
    (fun i => loop 0 osize fun j c => Function.update c (index i j m) (old (index i j osize))) new

def check (n : ℕ) (r : RouteLogic) : RouteLogic :=
  if n < r.size then r
  else
    let m := doubled n (n + 1) (if r.size = 0 then 16 else r.size)
    let a := alloc m r
    { a with cost := copied r.size m r.cost a.cost }

/-- `insert`, with the pointer kept for the link if one is given. -/
def insert (src dst : ℕ) (cost : ℚ) (entry : Option ℕ) (r : RouteLogic) : RouteLogic :=
  let r := check dst (check src r)
  { r with cost := Function.update r.cost (index src dst r.size) cost
           adjEntry := entry.elim r.adjEntry (Function.update r.adjEntry (index src dst r.size)) }

/-! ### `compute_routes` -/

section Compute

variable (n : ℕ) (cost : ℕ → ℚ) (adjEntry : ℕ → ℕ)

/-- The route to a neighbour of the source. -/
def setNeighbour (k v : ℕ) (t : RouteTables) : RouteTables :=
  if t.parent v ≠ k then
    let t := { t with hopcnt := Function.update t.hopcnt v (cost (index k v n)) }
    if t.hopcnt v ≠ infinity then
      { t with nextHop := Function.update t.nextHop (index k v n) v
               entry := Function.update t.entry (index k v n) (adjEntry (index k v n)) }
    else t
  else t

/-- The node that is nearest to the subtree that has been routed, 0 for none. -/
def nearest (k : ℕ) (t : RouteTables) : ℕ :=
  loop 1 n (fun w o => if t.parent w ≠ k ∧ t.hopcnt w < t.hopcnt o then w else o) 0

/-- The distance of a node that is adjacent to `o`. -/
def relax (k o w : ℕ) (t : RouteTables) : RouteTables :=
  if t.parent w ≠ k ∧ t.hopcnt o + cost (index o w n) < t.hopcnt w then
    { t with nextHop := Function.update t.nextHop (index k w n) (t.nextHop (index k o n))
             entry := Function.update t.entry (index k w n) (t.entry (index k o n))
             hopcnt := Function.update t.hopcnt w (t.hopcnt o + cost (index o w n)) }
  else t

def settleNearest (k : ℕ) (t : RouteTables) : RouteTables :=
  let t := { t with hopcnt := Function.update t.hopcnt 0 infinity }
  let o := nearest n k t
  let t := { t with parent := Function.update t.parent o k }
  if o = 0 then t else loop 1 n (relax n cost k o) t

/-- The routes from a source. -/
def fromSource (k : ℕ) (t : RouteTables) : RouteTables :=
  let t := { t with parent := loop 0 n (fun v p => Function.update p v v) t.parent }
  let t := loop 1 n (setNeighbour n cost adjEntry k) t
  loop 1 n (fun _ => settleNearest n cost k) t

/-- The route to yourself is yourself. -/
def setSelf (k : ℕ) (t : RouteTables) : RouteTables :=
  { t with nextHop := Function.update t.nextHop (index k k n) k
           entry := Function.update t.entry (index k k n) 0 }

def allRoutes : RouteTables :=
  let t : RouteTables :=
    { parent := fun _ => 0, hopcnt := fun _ => 0, nextHop := fun _ => 0, entry := fun _ => 0 }
  loop 1 n (setSelf n) (loop 1 n (fromSource n cost adjEntry) t)

end Compute

def computeRoutes (r : RouteLogic) : RouteLogic :=
  let t := allRoutes r.size r.cost r.adjEntry
  { r with nextHop := t.nextHop, routeEntry := t.entry }

end RouteLogic

end Afabric
