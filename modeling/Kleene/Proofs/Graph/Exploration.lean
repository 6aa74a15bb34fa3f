import Kleene.Proofs.Graph.Growth
import Kleene.Proofs.Graph.Search

/-!
# The searches of a graph that grows

No edge of a graph that a permitted history leads to goes out of the graph (`inBounds_grow`), so
that both searches do on it what they are for. Here this is said by the edges alone: `Joins` holds
of two vertices with an edge from the first to the second, whatever the searches take from the
matrix.

The main statement is `findCycle_grow`: the depth first search ends by itself, what it answers is a
cycle, and it answers nothing exactly if no walk leads from a vertex back to it.
`mem_reachable_grow` and `isJoint_grow` are the same for the breadth first search.
-/

set_option autoImplicit false

namespace Kleene.LabeledGraph

open GraphCall

variable {V L : Type}

/-- There is an edge from `i` to `j`. -/
def Joins (g : LabeledGraph V L) (i j : Nat) : Prop :=
  g.hasEdge i j = true

/-- The vertices that a search goes on to are those that an edge leads to. -/
theorem leads_eq_joins (g : LabeledGraph V L) : g.Leads = g.Joins := by
  funext i j
  rw [eq_iff_iff, leads_iff, Joins, hasEdge, Bool.not_eq_true',
    List.isEmpty_eq_false_iff_exists_mem]

/-- The search from a vertex lists no vertex twice. -/
theorem nodup_reachable (g : LabeledGraph V L) (v : Nat) : (g.reachable v).Nodup :=
  List.nodup_range.filter _

variable [BEq L] [LawfulBEq L] {calls : List (GraphCall V L)}

/-- No edge leads out of a graph that a permitted history leads to. -/
theorem inBounds_grow (h : Permitted calls) : (grow calls).InBounds := by
  rw [grow_eq_ofCalls h]
  intro i j hleads
  obtain ⟨label, hlabel⟩ := leads_iff.mp hleads
  rw [labels_ofCalls h, List.mem_eraseDups] at hlabel
  exact (h.made_of_mem hlabel).2.2

/-! ## Breadth first -/

/-- The search from a vertex lists what walks lead to. -/
theorem mem_reachable_grow (h : Permitted calls) {v w : Nat} (hv : v < (grow calls).size) :
    w ∈ (grow calls).reachable v ↔ Relation.ReflTransGen (grow calls).Joins v w := by
  rw [mem_reachable_iff (inBounds_grow h) hv, leads_eq_joins]

/-- A graph that has grown is joint exactly if edges lead from the vertex to every other. -/
theorem isJoint_grow (h : Permitted calls) {v : Nat} (hv : v < (grow calls).size) :
    (grow calls).isJoint v = true ↔
      ∀ w < (grow calls).size, Relation.ReflTransGen (grow calls).Joins v w := by
  rw [isJoint_iff (inBounds_grow h) hv, leads_eq_joins]

/-- The search from a vertex ends by itself: as many generations as there are vertices are enough,
and more of them find nothing. -/
theorem saturate_grow (h : Permitted calls) {v : Nat} (hv : v < (grow calls).size) {fuel : Nat}
    (hfuel : (grow calls).size ≤ fuel) :
    saturate (fun frontier => frontier.flatMap (grow calls).successors) fuel [v] [v] =
      saturate (fun frontier => frontier.flatMap (grow calls).successors) (grow calls).size
        [v] [v] := by
  have hstep : ∀ (frontier : List Nat) b,
      b ∈ frontier.flatMap (grow calls).successors ↔ ∃ a ∈ frontier, (grow calls).Leads a b :=
    fun _ _ => List.mem_flatMap
  have hclosed : ∀ a ∈ List.range (grow calls).size, ∀ b, (grow calls).Leads a b →
      b ∈ List.range (grow calls).size :=
    fun a _ b hab => List.mem_range.mpr (inBounds_grow h a b hab)
  have hunseen : unseen (List.range (grow calls).size) [v] ≤ (grow calls).size := by
    have hle : unseen (List.range (grow calls).size) [v] ≤ (List.range (grow calls).size).length :=
      List.length_filter_le _ _
    rwa [List.length_range] at hle
  exact saturate_congr hstep hclosed (by simpa using hv) (by omega) hunseen

/-! ## Depth first -/

/-- The search for a cycle ends by itself, as no path is longer than the number of vertices. What it
answers are different vertices, at least one, with an edge from each to the next and from the last
to the first. It answers nothing exactly if no walk that passes an edge leads back to where it
begins. -/
theorem findCycle_grow (h : Permitted calls) :
    (∀ depth, (grow calls).size ≤ depth →
      searchRoots (grow calls).successors depth (List.range (grow calls).size) =
        searchRoots (grow calls).successors (grow calls).size (List.range (grow calls).size)) ∧
    (∀ cycle, (grow calls).findCycle = some cycle →
      cycle ≠ [] ∧ cycle.Nodup ∧ (∀ v ∈ cycle, v < (grow calls).size) ∧
        cycle.IsChain (grow calls).Joins ∧
        ∀ first ∈ cycle.head?, ∀ last ∈ cycle.getLast?, (grow calls).Joins last first) ∧
    ((grow calls).findCycle = none ↔ ∀ v, ¬ Relation.TransGen (grow calls).Joins v v) := by
  have hbounds := inBounds_grow h
  refine ⟨?_, ?_, ?_⟩
  · intro depth hdepth
    exact searchRoots_congr (fun _ _ => rfl) (fun v w => hbounds v w) hdepth (Nat.le_refl _)
      (fun v => List.mem_range.mp)
  · intro cycle hfound
    have hcycle := isCycle_of_findCycle hbounds hfound
    obtain ⟨first, last, hfirst, hlast, hback⟩ := hcycle.closes
    rw [← leads_eq_joins]
    refine ⟨?_, hcycle.nodup, ?_, hcycle.chain, ?_⟩
    · rintro rfl
      cases hfirst
    · -- some edge of the cycle leads to each of its vertices
      intro v hv
      obtain ⟨u, -, huv⟩ := Relation.TransGen.tail'_iff.mp (hcycle.transGen_of_mem hv)
      exact hbounds u v huv
    · intro first' hfirst' last' hlast'
      obtain rfl := Option.some.inj (hfirst.symm.trans hfirst')
      obtain rfl := Option.some.inj (hlast.symm.trans hlast')
      exact hback
  · rw [findCycle_eq_none_iff hbounds, leads_eq_joins]

/-- Two vertices of one value on a cycle that a third one leads into, and a loop that is reached
later. -/
def ringCalls : List (GraphCall String String) :=
  [.addVertex "a", .addVertex "b", .addVertex "b", .addVertex "c", .addEdge 0 1 "x",
    .addEdge 1 2 "x", .addLabel 1 2 "y", .addEdge 2 1 "x", .addEdge 3 3 "x"]

/-- The first vertices of `ringCalls` with an edge that goes on only. -/
def rowCalls : List (GraphCall String String) :=
  [.addVertex "a", .addVertex "b", .addVertex "b", .addEdge 0 1 "x", .addEdge 0 2 "x",
    .addEdge 1 2 "x"]

/-- A graph with two cycles, of which the first one is found, and a row without a cycle. -/
theorem findCycle_grow_ringCalls :
    Permitted ringCalls ∧ (grow ringCalls).findCycle = some [1, 2] ∧
      [1, 2].IsChain (grow ringCalls).Joins ∧ (grow ringCalls).Joins 2 1 ∧
      (∃ v, Relation.TransGen (grow ringCalls).Joins v v) ∧
      Permitted rowCalls ∧ ∀ v, ¬ Relation.TransGen (grow rowCalls).Joins v v := by
  have hring : Permitted ringCalls := by decide
  have hrow : Permitted rowCalls := by decide
  have hfound : (grow ringCalls).findCycle = some [1, 2] := by decide
  obtain ⟨-, hcycle, hnone⟩ := findCycle_grow hring
  obtain ⟨-, -, -, hchain, hback⟩ := hcycle [1, 2] hfound
  obtain ⟨-, -, hacyclic⟩ := findCycle_grow hrow
  refine ⟨hring, hfound, hchain, hback 1 rfl 2 rfl, ?_, hrow, hacyclic.mp (by decide)⟩
  rw [← not_forall_not, ← hnone, hfound]
  exact Option.some_ne_none _

end Kleene.LabeledGraph
