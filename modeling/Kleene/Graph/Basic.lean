/-!
# Labelled directed graphs

A graph keeps its vertices in the order in which they came and a square matrix: the entry of row
`i` and column `j` holds the labels of the one edge from vertex `i` to vertex `j`, in the order in
which they came and without repetition. An entry without labels means that there is no edge.
Vertices are never taken away, so a vertex is known by its index; several may share a value.

There is no index of the vertices by value beside the list. The vertex that such an index would have
for a value is the first one that came with it, and `LabeledGraph.findVertex` reads this off the
list, which cannot disagree with itself.

`LabeledGraph.addVertex` and `LabeledGraph.addEdge` grow a graph, `LabeledGraph.labels` reads one
entry, and `LabeledGraph.edgesFrom` and `LabeledGraph.edgesTo` list a row and a column.
-/

set_option autoImplicit false

namespace Kleene

/-- Vertices with values in `V`, and for every pair of them the labels of the edge between them. -/
structure LabeledGraph (V L : Type) where
  /-- The values of the vertices, by index. -/
  vertices : List V := []
  /-- One row for each vertex, one entry in it for each vertex. -/
  rows : List (List (List L)) := []
  deriving Repr, DecidableEq

/-- An edge with its two ends, given by index, and the labels that it carries. -/
structure Edge (L : Type) where
  source : Nat
  target : Nat
  labels : List L
  deriving Repr, DecidableEq

namespace LabeledGraph

variable {V L : Type}

/-- How many vertices the graph has. -/
def size (g : LabeledGraph V L) : Nat :=
  g.vertices.length

/-- The graph with one more vertex, which has no edges yet and takes the next index. -/
def addVertex (g : LabeledGraph V L) (value : V) : LabeledGraph V L where
  vertices := g.vertices ++ [value]
  rows := g.rows.map (fun row => row ++ [[]]) ++ [List.replicate (g.size + 1) []]

/-- The lowest index of a vertex with the value. -/
def findVertex [BEq V] (g : LabeledGraph V L) (value : V) : Option Nat :=
  g.vertices.findIdx? (fun v => v == value)

/-- The entries of the row of `i`. -/
def row (g : LabeledGraph V L) (i : Nat) : List (List L) :=
  g.rows[i]?.getD []

/-- The labels of the edge from `i` to `j`; there are none if there is no edge. -/
def labels (g : LabeledGraph V L) (i j : Nat) : List L :=
  (g.row i)[j]?.getD []

/-- Whether there is an edge from `i` to `j`. -/
def hasEdge (g : LabeledGraph V L) (i j : Nat) : Bool :=
  !(g.labels i j).isEmpty

/-- What an entry of the matrix says: an entry without labels is no edge. -/
def edgeOfEntry (i j : Nat) (labels : List L) : Option (Edge L) :=
  if labels.isEmpty then none else some ⟨i, j, labels⟩

/-- The edge from `i` to `j`, if there is one. -/
def findEdge (g : LabeledGraph V L) (i j : Nat) : Option (Edge L) :=
  edgeOfEntry i j (g.labels i j)

/-- A new label comes after the others, a known one changes nothing. -/
def insertLabel [BEq L] (label : L) (labels : List L) : List L :=
  if labels.contains label then labels else labels ++ [label]

/-- Makes the edge from `i` to `j` carry the label, and makes that edge if there is none. -/
def addEdge [BEq L] (g : LabeledGraph V L) (i j : Nat) (label : L) : LabeledGraph V L :=
  { g with rows := g.rows.modify i (fun row => row.modify j (insertLabel label)) }

/-- Adds a label to an edge that is there already, and tells whether the label was new to it. -/
def addLabel? [BEq L] (g : LabeledGraph V L) (i j : Nat) (label : L) :
    Option (Bool × LabeledGraph V L) :=
  if g.hasEdge i j then some (!(g.labels i j).contains label, g.addEdge i j label) else none

/-- The edges that leave `i`, by increasing target. -/
def edgesFrom (g : LabeledGraph V L) (i : Nat) : List (Edge L) :=
  (g.row i).zipIdx.filterMap (fun entry => edgeOfEntry i entry.2 entry.1)

/-- The edges that enter `j`, by increasing source. -/
def edgesTo (g : LabeledGraph V L) (j : Nat) : List (Edge L) :=
  g.rows.zipIdx.filterMap (fun row => edgeOfEntry row.2 j (row.1[j]?.getD []))

/-- The vertices that an edge leads to from `i`, by increasing index. -/
def successors (g : LabeledGraph V L) (i : Nat) : List Nat :=
  (g.edgesFrom i).map Edge.target

end LabeledGraph

/-- The place that a position in a list of `size` entries stands for: from the front if it is not
negative, from the back if it is. -/
def place? (size : Nat) : Int → Option Nat
  | .ofNat i => if i < size then some i else none
  | .negSucc i => if i < size then some (size - 1 - i) else none

end Kleene
