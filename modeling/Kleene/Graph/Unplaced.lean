import Kleene.Graph.Search

/-!
# Vertices without a place

A vertex whose value cannot be looked up is listed with the others but gets no place in the matrix:
`LabeledGraph.listVertex`. From then on there are fewer rows than vertices, so the last vertices
have none, and some entries of the rows are missing.

Each function here asks for the entries that it needs and answers `none` if one of them is missing.
Where none is missing it answers what its namesake without a question mark answers; that is so for
the vertices of a square graph (`LabeledGraph.Square`).
-/

set_option autoImplicit false

namespace Kleene.LabeledGraph

variable {V L : Type}

/-- The graph with one more vertex in its list and the same matrix. -/
def listVertex (g : LabeledGraph V L) (value : V) : LabeledGraph V L :=
  { g with vertices := g.vertices ++ [value] }

/-- Whether the matrix has a row for `i`. -/
def hasRow (g : LabeledGraph V L) (i : Nat) : Bool :=
  i < g.rows.length

/-- Whether the matrix has an entry in row `i` and column `j`. -/
def hasEntry (g : LabeledGraph V L) (i j : Nat) : Bool :=
  j < (g.row i).length

/-- The edge from `i` to `j`, if there is one; asks for the entry between them. -/
def findEdge? (g : LabeledGraph V L) (i j : Nat) : Option (Option (Edge L)) :=
  if g.hasEntry i j then some (g.findEdge i j) else none

/-- The graph with a label added between `i` and `j`; asks for the entry between them. -/
def addEdge? [BEq L] (g : LabeledGraph V L) (i j : Nat) (label : L) :
    Option (LabeledGraph V L) :=
  if g.hasEntry i j then some (g.addEdge i j label) else none

/-- The edges that leave `i`; asks for its row. -/
def edgesFrom? (g : LabeledGraph V L) (i : Nat) : Option (List (Edge L)) :=
  if g.hasRow i then some (g.edgesFrom i) else none

/-- The edges that enter `j`; asks for its entry in each row. -/
def edgesTo? (g : LabeledGraph V L) (j : Nat) : Option (List (Edge L)) :=
  if g.rows.all (fun row => j < row.length) then some (g.edgesTo j) else none

/-- The vertices that can be reached from `start`; asks for the row of each of them. -/
def reachable? (g : LabeledGraph V L) (start : Nat) : Option (List Nat) :=
  if (g.reachable start).all g.hasRow then some (g.reachable start) else none

/-- Whether every vertex can be reached from `start`; asks for the row of each that can. -/
def isJoint? (g : LabeledGraph V L) (start : Nat) : Option Bool :=
  (g.reachable? start).map (fun found => found.length == g.size)

/-- The first cycle that the search closes, if any; asks for the row of each vertex that the search
comes to before that. A vertex without a row is searched as if it led back to itself, which ends the
search there: it is on no other cycle. -/
def findCycle? (g : LabeledGraph V L) : Option (Option (List Nat)) :=
  let next := fun i => if g.hasRow i then g.successors i else [i]
  match searchRoots next g.size (List.range g.size) with
  | .error cycle => if cycle.all g.hasRow then some (some cycle) else none
  | .ok _ => some none

end Kleene.LabeledGraph
