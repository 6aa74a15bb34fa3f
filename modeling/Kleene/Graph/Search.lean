import Kleene.Saturation
import Kleene.Graph.Basic

/-!
# Reachability and cycles

`LabeledGraph.reachable` lists the vertices at the ends of the walks from a vertex, breadth first.
`LabeledGraph.findCycle` searches depth first, roots and edges by increasing index, and answers the
first cycle that an edge closes: the vertices from the one where it is closed, in the order of its
edges.

The first search is stated by generations of vertices and the second one by recursion. A loop that
takes the vertices off a queue, and a loop on a stack of vertices with the edges left to follow from
each, answer the same: `LabeledGraph.drain_perm_reachable` and `LabeledGraph.findCycle_eq_unwind`.
-/

set_option autoImplicit false

namespace Kleene.LabeledGraph

variable {V L : Type}

/-- The vertices that some walk from `start` leads to, by increasing index. -/
def reachable (g : LabeledGraph V L) (start : Nat) : List Nat :=
  let seen := saturate (fun frontier => frontier.flatMap g.successors) g.size [start] [start]
  (List.range g.size).filter seen.contains

/-- Whether every vertex can be reached from `start`. -/
def isJoint (g : LabeledGraph V L) (start : Nat) : Bool :=
  (g.reachable start).length == g.size

/-- The cycle that an edge back to `v` closes on a path, which is given newest vertex first. -/
def closedCycle (v : Nat) (path : List Nat) : List Nat :=
  v :: (path.takeWhile (fun w => w != v)).reverse

/-- Goes on depth first from `v`, which `path` led to, newest vertex first. The answer is an error
with the cycle that was closed first, or else `done` with every vertex that was left for good. The
vertices of a path differ, so a depth of the number of vertices is never used up. -/
def explore (next : Nat → List Nat) :
    Nat → List Nat → Nat → List Nat → Except (List Nat) (List Nat)
  | 0, _, _, done => .ok done
  | depth + 1, path, v, done => do
    let done ← (next v).foldlM (fun done w =>
      if (v :: path).contains w then .error (closedCycle w (v :: path))
      else if done.contains w then .ok done
      else explore next depth (v :: path) w done) done
    return v :: done

/-- Searches from each vertex that is not done yet, one after the other. -/
def searchRoots (next : Nat → List Nat) (depth : Nat) (roots : List Nat) :
    Except (List Nat) (List Nat) :=
  roots.foldlM (fun done v =>
    if done.contains v then .ok done else explore next depth [] v done) []

/-- The first cycle that the search closes, or `none` if it closes none. -/
def findCycle (g : LabeledGraph V L) : Option (List Nat) :=
  match searchRoots g.successors g.size (List.range g.size) with
  | .error cycle => some cycle
  | .ok _ => none

end Kleene.LabeledGraph
