import Kleene.Graph.Basic
import Mathlib.Data.List.Basic

/-!
# The edges in the rows and columns of a matrix

A row of the matrix lists the edges that leave a vertex and a column those that enter it. Both list
edges of the graph and nothing else (`mem_edgesFrom_iff`, `mem_edgesTo_iff`), in the order of the
other ends (`pairwise_edgesFrom`, `pairwise_edgesTo`), whatever the shape of the matrix is.
-/

set_option autoImplicit false

namespace Kleene.LabeledGraph

variable {V L : Type} {g : LabeledGraph V L} {i j : Nat} {edge : Edge L}

/-- The edge is one of the graph's. -/
def IsEdge (g : LabeledGraph V L) (edge : Edge L) : Prop :=
  g.findEdge edge.source edge.target = some edge

/-- An entry of the matrix is an edge exactly if it has a label. -/
theorem edgeOfEntry_eq_some_iff {labels : List L} :
    edgeOfEntry i j labels = some edge ↔ labels ≠ [] ∧ ⟨i, j, labels⟩ = edge := by
  unfold edgeOfEntry
  rw [Option.ite_none_left_eq_some, List.isEmpty_iff, Option.some_inj]

/-- What is found between two vertices is the edge of the graph between them. -/
theorem findEdge_eq_some_iff :
    g.findEdge i j = some edge ↔ g.IsEdge edge ∧ edge.source = i ∧ edge.target = j := by
  constructor
  · intro h
    obtain ⟨-, rfl⟩ := edgeOfEntry_eq_some_iff.mp h
    exact ⟨h, rfl, rfl⟩
  · rintro ⟨h, rfl, rfl⟩
    exact h

/-- An edge of the graph carries all labels of its entry, and at least one. -/
theorem isEdge_iff :
    g.IsEdge edge ↔ edge.labels = g.labels edge.source edge.target ∧ edge.labels ≠ [] := by
  obtain ⟨source, target, labels⟩ := edge
  unfold IsEdge findEdge
  rw [edgeOfEntry_eq_some_iff]
  simp only [Edge.mk.injEq, true_and]
  constructor
  · rintro ⟨hne, rfl⟩
    exact ⟨rfl, hne⟩
  · rintro ⟨rfl, hne⟩
    exact ⟨hne, rfl⟩

/-! ## What is listed -/

/-- A row lists the edges that leave its vertex. -/
theorem mem_edgesFrom_iff : edge ∈ g.edgesFrom i ↔ g.IsEdge edge ∧ edge.source = i := by
  have hentry : ∀ j, g.findEdge i j = (g.row i)[j]?.bind (edgeOfEntry i j) := by
    intro j
    unfold findEdge labels
    cases (g.row i)[j]? <;> rfl
  have hlisted : edge ∈ g.edgesFrom i ↔ ∃ j, g.findEdge i j = some edge := by
    unfold edgesFrom
    simp only [List.mem_filterMap, Prod.exists, List.mem_zipIdx_iff_getElem?, hentry,
      Option.bind_eq_some_iff]
    exact exists_comm
  simp only [hlisted, findEdge_eq_some_iff, exists_and_left, exists_eq', and_true]

/-- A column lists the edges that enter its vertex. -/
theorem mem_edgesTo_iff : edge ∈ g.edgesTo j ↔ g.IsEdge edge ∧ edge.target = j := by
  have hentry : ∀ i, g.findEdge i j =
      g.rows[i]?.bind (fun row => edgeOfEntry i j (row[j]?.getD [])) := by
    intro i
    unfold findEdge labels row
    cases g.rows[i]? <;> rfl
  have hlisted : edge ∈ g.edgesTo j ↔ ∃ i, g.findEdge i j = some edge := by
    unfold edgesTo
    simp only [List.mem_filterMap, Prod.exists, List.mem_zipIdx_iff_getElem?, hentry,
      Option.bind_eq_some_iff]
    exact exists_comm
  simp only [hlisted, findEdge_eq_some_iff, exists_and_left, exists_eq_left']

/-! ## In which order -/

/-- What is picked from an indexed list stands in the order of the indices. -/
theorem pairwise_filterMap_zipIdx {α β : Type} {pick : α × Nat → Option β} {index : β → Nat}
    (hpick : ∀ entry b, pick entry = some b → index b = entry.2) (items : List α) :
    (items.zipIdx.filterMap pick).Pairwise (fun a b => index a < index b) := by
  have hplaces : (items.zipIdx.map Prod.snd).Pairwise (· < ·) := by
    rw [List.zipIdx_map_snd]
    exact List.pairwise_lt_range' 1
  rw [List.pairwise_map] at hplaces
  rw [List.pairwise_filterMap]
  refine hplaces.imp ?_
  intro entry entry' hlt b hb b' hb'
  rw [hpick entry b hb, hpick entry' b' hb']
  exact hlt

/-- A row lists its edges by increasing target. -/
theorem pairwise_edgesFrom (g : LabeledGraph V L) (i : Nat) :
    (g.edgesFrom i).Pairwise (fun edge edge' => edge.target < edge'.target) := by
  refine pairwise_filterMap_zipIdx ?_ (g.row i)
  intro entry edge hedge
  obtain ⟨-, rfl⟩ := edgeOfEntry_eq_some_iff.mp hedge
  rfl

/-- A column lists its edges by increasing source. -/
theorem pairwise_edgesTo (g : LabeledGraph V L) (j : Nat) :
    (g.edgesTo j).Pairwise (fun edge edge' => edge.source < edge'.source) := by
  refine pairwise_filterMap_zipIdx ?_ g.rows
  intro entry edge hedge
  obtain ⟨-, rfl⟩ := edgeOfEntry_eq_some_iff.mp hedge
  rfl

/-! ## Vertices by value -/

/-- Of the vertices with a value the one with the lowest index is found. -/
theorem findVertex_eq_some_iff [BEq V] [LawfulBEq V] {value : V} :
    g.findVertex value = some i ↔
      g.vertices[i]? = some value ∧ ∀ k < i, g.vertices[k]? ≠ some value := by
  unfold findVertex
  rw [List.findIdx?_eq_some_iff_getElem]
  constructor
  · rintro ⟨hi, hvalue, hbefore⟩
    refine ⟨List.getElem?_eq_some_iff.mpr ⟨hi, eq_of_beq hvalue⟩, ?_⟩
    intro k hk hsame
    obtain ⟨_, hvalue'⟩ := List.getElem?_eq_some_iff.mp hsame
    exact hbefore k hk (beq_iff_eq.mpr hvalue')
  · rintro ⟨hvalue, hbefore⟩
    obtain ⟨hi, hvalue⟩ := List.getElem?_eq_some_iff.mp hvalue
    refine ⟨hi, beq_iff_eq.mpr hvalue, ?_⟩
    intro k hk hsame
    exact hbefore k hk (List.getElem?_eq_some_iff.mpr ⟨by omega, eq_of_beq hsame⟩)

end Kleene.LabeledGraph
