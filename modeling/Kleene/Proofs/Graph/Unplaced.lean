import Kleene.Graph.Unplaced
import Kleene.Proofs.Graph.Exploration

/-!
# Graphs in which every vertex has a place

The functions that ask for the entries which they need answer nothing if one of them is missing. In
a square graph (`LabeledGraph.Square`) no entry is missing, so that they answer for its vertices
what their namesakes answer. Every graph that a permitted history leads to is square
(`square_grow`).
-/

set_option autoImplicit false

namespace Kleene.LabeledGraph

variable {V L : Type}

/-- There is a row for every vertex, with an entry for every vertex. -/
structure Square (g : LabeledGraph V L) : Prop where
  rows : g.rows.length = g.size
  columns : ∀ row ∈ g.rows, row.length = g.size

namespace Square

variable {g : LabeledGraph V L} {i j : Nat}

/-- Every vertex has a row. -/
theorem hasRow (h : g.Square) (hi : i < g.size) : g.hasRow i = true :=
  decide_eq_true (h.rows ▸ hi)

/-- The row of a vertex has an entry for every vertex. -/
theorem hasEntry (h : g.Square) (hi : i < g.size) (hj : j < g.size) : g.hasEntry i j = true := by
  have hlength : (g.row i).length = g.size := by
    have hrows : i < g.rows.length := h.rows.symm ▸ hi
    rw [row, List.getElem?_eq_getElem hrows]
    exact h.columns _ (List.getElem_mem _)
  exact decide_eq_true (hlength ▸ hj)

/-- No row has an entry for more than the vertices, so no edge leads out of the graph. -/
theorem inBounds (h : g.Square) : g.InBounds := by
  intro i j hleads
  obtain ⟨label, hlabel⟩ := leads_iff.mp hleads
  by_contra hout
  have hshort : (g.row i).length ≤ j := by
    rw [row]
    cases hrow : g.rows[i]? with
    | none => exact Nat.zero_le j
    | some found =>
      have hlength := h.columns found (List.mem_of_getElem? hrow)
      exact (Nat.le_of_eq hlength).trans (Nat.le_of_not_lt hout)
  rw [labels, List.getElem?_eq_none hshort] at hlabel
  cases hlabel

/-! ## Entries, rows and columns -/

/-- The edge between two vertices is found. -/
theorem findEdge?_eq (h : g.Square) (hi : i < g.size) (hj : j < g.size) :
    g.findEdge? i j = some (g.findEdge i j) :=
  if_pos (h.hasEntry hi hj)

/-- A label can be added between two vertices. -/
theorem addEdge?_eq [BEq L] (h : g.Square) (hi : i < g.size) (hj : j < g.size) (label : L) :
    g.addEdge? i j label = some (g.addEdge i j label) :=
  if_pos (h.hasEntry hi hj)

/-- The edges that leave a vertex are listed. -/
theorem edgesFrom?_eq (h : g.Square) (hi : i < g.size) : g.edgesFrom? i = some (g.edgesFrom i) :=
  if_pos (h.hasRow hi)

/-- The edges that enter a vertex are listed. -/
theorem edgesTo?_eq (h : g.Square) (hj : j < g.size) : g.edgesTo? j = some (g.edgesTo j) := by
  refine if_pos (List.all_eq_true.mpr (fun row hrow => decide_eq_true ?_))
  rwa [h.columns row hrow]

/-! ## Searches -/

/-- The vertices that can be reached are listed. -/
theorem reachable?_eq (h : g.Square) (start : Nat) :
    g.reachable? start = some (g.reachable start) := by
  refine if_pos (List.all_eq_true.mpr (fun i hi => h.hasRow ?_))
  exact List.mem_range.mp (List.mem_filter.mp hi).1

/-- Whether the graph is joint is answered. -/
theorem isJoint?_eq (h : g.Square) (start : Nat) : g.isJoint? start = some (g.isJoint start) := by
  rw [isJoint?, h.reachable?_eq]
  rfl

/-- The cycle that is searched for is answered. -/
theorem findCycle?_eq (h : g.Square) : g.findCycle? = some g.findCycle := by
  have hsearch : searchRoots g.successors g.size (List.range g.size) =
      searchRoots (fun i => if g.hasRow i then g.successors i else [i]) g.size
        (List.range g.size) :=
    searchRoots_congr (fun v hv => (if_pos (h.hasRow hv)).symm) (fun v w => h.inBounds v w)
      (Nat.le_refl _) (Nat.le_refl _) (fun v => List.mem_range.mp)
  simp only [findCycle?, ← hsearch]
  cases hresult : searchRoots g.successors g.size (List.range g.size) with
  | ok done => rw [findCycle, hresult]
  | error cycle =>
    have hfound : g.findCycle = some cycle := by rw [findCycle, hresult]
    have hrows : cycle.all g.hasRow = true := by
      refine List.all_eq_true.mpr (fun v hv => h.hasRow ?_)
      -- a vertex on the cycle is one that an edge leads to
      have hback := (isCycle_of_findCycle h.inBounds hfound).transGen_of_mem hv
      obtain ⟨u, -, huv⟩ := Relation.TransGen.tail'_iff.mp hback
      exact h.inBounds u v huv
    dsimp only
    rw [if_pos hrows, hfound]

end Square

/-- A graph that a permitted history leads to is square. -/
theorem square_grow [BEq L] [LawfulBEq L] {calls : List (GraphCall V L)}
    (h : GraphCall.Permitted calls) : (grow calls).Square := by
  rw [grow_eq_ofCalls h]
  constructor
  · simp [ofCalls, size]
  · intro row hrow
    obtain ⟨i, -, rfl⟩ := List.mem_map.mp hrow
    simp [ofCalls, size]

end Kleene.LabeledGraph
