import Kleene.Proofs.Distinct
import Kleene.Proofs.Graph.Edges
import Mathlib.Data.List.Induction

/-!
# Graphs that grow

A history is a list of calls on a graph that begins without vertices: a call adds a vertex, puts a
label between two vertices, or puts a label on an edge that is there. Vertices are known by index,
and a history is permitted if every call refers only to vertices and edges that the calls before it
have made.

Which labels a history names between two vertices can be read off its calls (`labelsBetween`), so
that the graph that it leads to has a closed form: `grow_eq_ofCalls`. The main statement is
`represents_grow`: the matrix is square, its entries are the labels that were named, each once and
in the order of the calls, and the rows and the columns list the same edges.
-/

set_option autoImplicit false

namespace Kleene

/-- One call in the building up of a graph. -/
inductive GraphCall (V L : Type) where
  | addVertex (value : V)
  | addEdge (source target : Nat) (label : L)
  | addLabel (source target : Nat) (label : L)
  deriving Repr, DecidableEq

namespace GraphCall

variable {V L : Type}

/-- The value of the vertex that a call adds, if it adds one. -/
def value? : GraphCall V L → Option V
  | addVertex value => some value
  | _ => none

/-- The two vertices between which a call makes an edge, if there is none yet. -/
def edge? : GraphCall V L → Option (Nat × Nat)
  | addEdge source target _ => some (source, target)
  | _ => none

/-- The label that a call names between two vertices. -/
def label? (i j : Nat) : GraphCall V L → Option L
  | addVertex _ => none
  | addEdge source target label => if source = i ∧ target = j then some label else none
  | addLabel source target label => if source = i ∧ target = j then some label else none

/-- The values of the vertices that are added, in the order of the calls. -/
def values (calls : List (GraphCall V L)) : List V :=
  calls.filterMap value?

/-- The labels that are named between two vertices, in the order of the calls. -/
def labelsBetween (calls : List (GraphCall V L)) (i j : Nat) : List L :=
  calls.filterMap (label? i j)

/-- What a call refers to was made by earlier calls. -/
def Refers (earlier : List (GraphCall V L)) : GraphCall V L → Prop
  | addVertex _ => True
  | addEdge source target _ =>
    source < (values earlier).length ∧ target < (values earlier).length
  | addLabel source target _ => (source, target) ∈ earlier.filterMap edge?

instance (earlier : List (GraphCall V L)) : DecidablePred (Refers earlier)
  | addVertex _ => inferInstanceAs (Decidable True)
  | addEdge source target _ => inferInstanceAs
    (Decidable (source < (values earlier).length ∧ target < (values earlier).length))
  | addLabel source target _ =>
    inferInstanceAs (Decidable ((source, target) ∈ earlier.filterMap edge?))

/-- Every call of the history refers to what the calls before it have made. -/
def Permitted (calls : List (GraphCall V L)) : Prop :=
  ∀ k (hk : k < calls.length), Refers (calls.take k) calls[k]

instance (calls : List (GraphCall V L)) : Decidable (Permitted calls) :=
  inferInstanceAs (Decidable (∀ k (hk : k < calls.length), Refers (calls.take k) calls[k]))

/-! ## What a history names -/

variable {calls : List (GraphCall V L)} {call : GraphCall V L} {i j : Nat}

/-- A history is permitted if the calls before the last one are and the last one refers to what they
made. -/
theorem permitted_append_singleton :
    Permitted (calls ++ [call]) ↔ Permitted calls ∧ Refers calls call := by
  constructor
  · intro h
    constructor
    · intro k hk
      have hcall := h k (by rw [List.length_append]; omega)
      rwa [List.take_append_of_le_length (by omega), List.getElem_append_left hk] at hcall
    · have hlast := h calls.length (by simp)
      simpa using hlast
  · rintro ⟨hcalls, hcall⟩ k hk
    rw [List.length_append, List.length_singleton] at hk
    rw [List.take_append_of_le_length (by omega)]
    by_cases hlast : k < calls.length
    · rw [List.getElem_append_left hlast]
      exact hcalls k hlast
    · obtain rfl : k = calls.length := by omega
      simpa using hcall

/-- The last call names at most one value more. -/
theorem values_append_singleton :
    values (calls ++ [call]) = values calls ++ call.value?.toList := by
  unfold values
  rw [List.filterMap_append]
  cases call <;> rfl

/-- The last call names at most one label more between two vertices. -/
theorem labelsBetween_append_singleton :
    labelsBetween (calls ++ [call]) i j = labelsBetween calls i j ++ (call.label? i j).toList := by
  unfold labelsBetween
  rw [List.filterMap_append]
  cases hlabel : call.label? i j <;> simp [hlabel]

/-- An edge is made exactly if some call makes it. -/
theorem mem_edges_iff : (i, j) ∈ calls.filterMap edge? ↔ ∃ label, addEdge i j label ∈ calls := by
  rw [List.mem_filterMap]
  constructor
  · rintro ⟨call, hcall, hends⟩
    cases call with
    | addEdge source target label =>
      cases hends
      exact ⟨label, hcall⟩
    | addVertex value => cases hends
    | addLabel source target label => cases hends
  · rintro ⟨label, hcall⟩
    exact ⟨_, hcall, rfl⟩

/-- A call that names a label between two vertices is about them. -/
theorem label?_eq_some {label : L} (h : call.label? i j = some label) :
    call = addEdge i j label ∨ call = addLabel i j label := by
  cases call with
  | addVertex value => cases h
  | addEdge source target other =>
    obtain ⟨⟨rfl, rfl⟩, hlabel⟩ := Option.ite_none_right_eq_some.mp h
    exact .inl (by rw [Option.some.inj hlabel])
  | addLabel source target other =>
    obtain ⟨⟨rfl, rfl⟩, hlabel⟩ := Option.ite_none_right_eq_some.mp h
    exact .inr (by rw [Option.some.inj hlabel])

/-- In a permitted history labels are named only where an edge was made, and so between vertices
that were there. The induction takes the last call off, since a call is judged by those before it.
-/
theorem Permitted.made_of_mem (h : Permitted calls) {label : L}
    (hlabel : label ∈ labelsBetween calls i j) :
    (∃ first, addEdge i j first ∈ calls) ∧ i < (values calls).length ∧
      j < (values calls).length := by
  induction calls using List.reverseRecOn generalizing label with
  | nil => cases hlabel
  | append_singleton calls call ih =>
    obtain ⟨hcalls, hrefers⟩ := permitted_append_singleton.mp h
    have hold : ∀ other ∈ labelsBetween calls i j,
        (∃ first, addEdge i j first ∈ calls ++ [call]) ∧ i < (values (calls ++ [call])).length ∧
          j < (values (calls ++ [call])).length := by
      intro other hother
      obtain ⟨⟨first, hfirst⟩, hi, hj⟩ := ih hcalls hother
      rw [values_append_singleton, List.length_append]
      exact ⟨⟨first, List.mem_append_left _ hfirst⟩, by omega, by omega⟩
    rw [labelsBetween_append_singleton, List.mem_append, Option.mem_toList] at hlabel
    rcases hlabel with hlabel | hlabel
    · exact hold label hlabel
    · rcases label?_eq_some hlabel with rfl | rfl
      · rw [values_append_singleton, List.length_append]
        exact ⟨⟨label, by simp⟩, by have := hrefers.1; omega, by have := hrefers.2; omega⟩
      · obtain ⟨first, hfirst⟩ := mem_edges_iff.mp hrefers
        refine hold first (List.mem_filterMap.mpr ⟨_, hfirst, ?_⟩)
        exact if_pos ⟨rfl, rfl⟩

/-- A permitted history names labels between two vertices exactly if it makes an edge there. -/
theorem Permitted.labelsBetween_ne_nil_iff (h : Permitted calls) :
    labelsBetween calls i j ≠ [] ↔ ∃ label, addEdge i j label ∈ calls := by
  constructor
  · intro hne
    obtain ⟨label, hlabel⟩ := List.exists_mem_of_ne_nil _ hne
    exact (h.made_of_mem hlabel).1
  · rintro ⟨label, hcall⟩
    exact List.ne_nil_of_mem (List.mem_filterMap.mpr ⟨_, hcall, if_pos ⟨rfl, rfl⟩⟩)

end GraphCall

namespace LabeledGraph

open GraphCall

variable {V L : Type} [BEq L]

/-- The graph after one more call. Without an edge to put it on a label is not put anywhere. -/
def afterCall (g : LabeledGraph V L) : GraphCall V L → LabeledGraph V L
  | .addVertex value => g.addVertex value
  | .addEdge i j label => g.addEdge i j label
  | .addLabel i j label =>
    match g.addLabel? i j label with
    | some (_, next) => next
    | none => g

/-- The graph that a history leads to. -/
def grow (calls : List (GraphCall V L)) : LabeledGraph V L :=
  calls.foldl afterCall {}

/-- The graph with the values that a history names and with the labels that it names, each once. -/
def ofCalls (calls : List (GraphCall V L)) : LabeledGraph V L where
  vertices := values calls
  rows := (List.range (values calls).length).map (fun i =>
    (List.range (values calls).length).map (fun j => (labelsBetween calls i j).eraseDups))

variable {calls : List (GraphCall V L)} {i j : Nat}

/-- The last call of a history is made on the graph that the calls before it lead to. -/
theorem grow_append_singleton (call : GraphCall V L) :
    grow (calls ++ [call]) = (grow calls).afterCall call := by
  unfold grow
  rw [List.foldl_append]
  rfl

/-- The labels between two vertices are those that are named, each once. -/
theorem labels_ofCalls (h : Permitted calls) :
    (ofCalls calls).labels i j = (labelsBetween calls i j).eraseDups := by
  unfold labels row ofCalls
  by_cases hlabels : labelsBetween calls i j = []
  · rw [hlabels]
    by_cases hi : i < (values calls).length
    · by_cases hj : j < (values calls).length
      · simp [hi, hj, hlabels]
      · simp [hi, hj]
    · simp [hi]
  · obtain ⟨label, hlabel⟩ := List.exists_mem_of_ne_nil _ hlabels
    obtain ⟨-, hi, hj⟩ := h.made_of_mem hlabel
    simp [hi, hj]

/-! ## One more call -/

/-- To add a vertex is to name its value at the end of the history. -/
theorem addVertex_ofCalls (h : Permitted calls) (value : V) :
    (ofCalls calls).addVertex value = ofCalls (calls ++ [.addVertex value]) := by
  have hlabels : ∀ i j, labelsBetween (calls ++ [.addVertex value]) i j =
      labelsBetween calls i j := by
    intro i j
    rw [labelsBetween_append_singleton]
    exact List.append_nil _
  -- nothing was named yet where the new row and the new column are
  have hnew : ∀ i j, (values calls).length ≤ i ∨ (values calls).length ≤ j →
      labelsBetween calls i j = [] := by
    intro i j houtside
    by_contra hne
    obtain ⟨label, hlabel⟩ := List.exists_mem_of_ne_nil _ hne
    obtain ⟨-, hi, hj⟩ := h.made_of_mem hlabel
    omega
  have hcolumn : ∀ i, labelsBetween calls i (values calls).length = [] :=
    fun i => hnew i _ (.inr (Nat.le_refl _))
  have hrow : ∀ j, labelsBetween calls (values calls).length j = [] :=
    fun j => hnew _ j (.inl (Nat.le_refl _))
  have hvalues : values (calls ++ [.addVertex value]) = values calls ++ [value] :=
    values_append_singleton
  unfold addVertex ofCalls size
  simp only [hvalues, hlabels, List.length_append, List.length_singleton, List.range_succ,
    List.map_append, List.map_map, List.map_singleton, hcolumn, hrow, List.eraseDups_nil,
    Function.comp_def, List.map_const', List.length_range, List.replicate_succ']

/-- A call that names a label between two vertices adds it to their entry, and to no other. -/
theorem addEdge_ofCalls [LawfulBEq L] {call : GraphCall V L} {label : L}
    (hlabel : ∀ s t, call.label? s t = if i = s ∧ j = t then some label else none)
    (hvalue : call.value? = none) (hi : i < (values calls).length)
    (hj : j < (values calls).length) :
    (ofCalls calls).addEdge i j label = ofCalls (calls ++ [call]) := by
  have hvalues : values (calls ++ [call]) = values calls := by
    rw [values_append_singleton, hvalue]
    exact List.append_nil _
  have hlabels : ∀ s t, (labelsBetween (calls ++ [call]) s t).eraseDups =
      if s = i ∧ t = j then insertLabel label (labelsBetween calls s t).eraseDups
      else (labelsBetween calls s t).eraseDups := by
    intro s t
    rw [labelsBetween_append_singleton, hlabel]
    have hsame : (i = s ∧ j = t) ↔ (s = i ∧ t = j) := and_congr eq_comm eq_comm
    by_cases hends : s = i ∧ t = j
    · rw [if_pos (hsame.mpr hends), if_pos hends, Option.toList_some, eraseDups_append_singleton]
      simp only [insertLabel, List.contains_eq_mem, List.mem_eraseDups, decide_eq_true_eq]
    · rw [if_neg (mt hsame.mp hends), if_neg hends, Option.toList_none, List.append_nil]
  have hdiffer : (List.range (values calls).length).Nodup := List.nodup_range
  have hrow : ∀ s, (if s = i then
        ((List.range (values calls).length).map
          (fun t => (labelsBetween calls s t).eraseDups)).modify j (insertLabel label)
      else (List.range (values calls).length).map (fun t => (labelsBetween calls s t).eraseDups)) =
      (List.range (values calls).length).map
        (fun t => (labelsBetween (calls ++ [call]) s t).eraseDups) := by
    intro s
    rw [modify_map_of_nodup hdiffer (List.getElem?_range hj)]
    by_cases hs : s = i <;> simp only [hs, hlabels, true_and, false_and, if_true, if_false]
  unfold addEdge ofCalls
  rw [hvalues, modify_map_of_nodup hdiffer (List.getElem?_range hi)]
  simp only [hrow]

/-! ## A whole history -/

section History

variable [LawfulBEq L]

/-- A label can be put on the edge between two vertices if an edge was made there. -/
theorem addLabel?_ofCalls (h : Permitted calls) (hedge : ∃ first, .addEdge i j first ∈ calls)
    (label : L) :
    (ofCalls calls).addLabel? i j label = some (!(labelsBetween calls i j).eraseDups.contains label,
      ofCalls (calls ++ [.addLabel i j label])) := by
  have hne := h.labelsBetween_ne_nil_iff.mpr hedge
  obtain ⟨first, hfirst⟩ := List.exists_mem_of_ne_nil _ hne
  obtain ⟨-, hi, hj⟩ := h.made_of_mem hfirst
  have hthere : (ofCalls calls).hasEdge i j = true := by
    unfold hasEdge
    rw [labels_ofCalls h, Bool.not_eq_true', ← Bool.not_eq_true, List.isEmpty_iff,
      eraseDups_eq_nil_iff]
    exact hne
  have hadd : (ofCalls calls).addEdge i j label = ofCalls (calls ++ [.addLabel i j label]) :=
    addEdge_ofCalls (fun _ _ => rfl) rfl hi hj
  unfold addLabel?
  rw [if_pos hthere, labels_ofCalls h, hadd]

/-- A permitted history leads to the graph of what it names. -/
theorem grow_eq_ofCalls (h : Permitted calls) : grow calls = ofCalls calls := by
  induction calls using List.reverseRecOn with
  | nil => rfl
  | append_singleton calls call ih =>
    obtain ⟨hcalls, hrefers⟩ := permitted_append_singleton.mp h
    rw [grow_append_singleton, ih hcalls]
    cases call with
    | addVertex value => exact addVertex_ofCalls hcalls value
    | addEdge source target label =>
      exact addEdge_ofCalls (fun _ _ => rfl) rfl hrefers.1 hrefers.2
    | addLabel source target label =>
      have hadd := addLabel?_ofCalls hcalls (mem_edges_iff.mp hrefers) label
      simp only [afterCall, hadd]

end History

/-- What a graph is said to be when a history describes it. -/
structure Represents [BEq V] (g : LabeledGraph V L) (calls : List (GraphCall V L)) : Prop where
  /-- The vertices have the indices from zero on in the order in which they were added. -/
  vertices : g.vertices = values calls
  rows : g.rows.length = g.size
  columns : ∀ row ∈ g.rows, row.length = g.size
  edge : ∀ i j, (∃ edge, g.findEdge i j = some edge) ↔ ∃ label, .addEdge i j label ∈ calls
  ends : ∀ i j edge, g.findEdge i j = some edge →
    edge.source = i ∧ edge.target = j ∧ i < g.size ∧ j < g.size
  labels : ∀ i j edge, g.findEdge i j = some edge →
    edge.labels = (labelsBetween calls i j).eraseDups ∧ edge.labels ≠ [] ∧ edge.labels.Nodup
  /-- A row lists the edges from a vertex and a column those to a vertex, by the other end. -/
  edgesFrom : ∀ i, (∀ edge, edge ∈ g.edgesFrom i ↔ g.IsEdge edge ∧ edge.source = i) ∧
    (g.edgesFrom i).Pairwise (fun edge edge' => edge.target < edge'.target)
  edgesTo : ∀ j, (∀ edge, edge ∈ g.edgesTo j ↔ g.IsEdge edge ∧ edge.target = j) ∧
    (g.edgesTo j).Pairwise (fun edge edge' => edge.source < edge'.source)
  incident : ∀ i j edge,
    edge ∈ g.edgesFrom i ∧ edge.target = j ↔ edge ∈ g.edgesTo j ∧ edge.source = i
  findVertex : ∀ value i, g.findVertex value = some i ↔
    g.vertices[i]? = some value ∧ ∀ k < i, g.vertices[k]? ≠ some value

/-- There is an edge between two vertices exactly if a call makes one. -/
theorem exists_findEdge_ofCalls [LawfulBEq L] (h : Permitted calls) :
    (∃ edge, (ofCalls calls).findEdge i j = some edge) ↔ ∃ label, .addEdge i j label ∈ calls := by
  rw [← h.labelsBetween_ne_nil_iff]
  unfold findEdge
  rw [labels_ofCalls h]
  simp only [edgeOfEntry_eq_some_iff, Ne, eraseDups_eq_nil_iff, exists_and_left, exists_eq',
    and_true]

/-- The graph with what a permitted history names is what the history describes. -/
theorem represents_ofCalls [BEq V] [LawfulBEq V] [LawfulBEq L] (h : Permitted calls) :
    (ofCalls calls).Represents calls where
  vertices := rfl
  rows := by simp [ofCalls, size]
  columns := by
    intro row hrow
    obtain ⟨i, -, rfl⟩ := List.mem_map.mp hrow
    simp [ofCalls, size]
  edge := fun i j => exists_findEdge_ofCalls h
  ends := by
    intro i j edge hedge
    obtain ⟨-, hsource, htarget⟩ := findEdge_eq_some_iff.mp hedge
    have hne := h.labelsBetween_ne_nil_iff.mpr ((exists_findEdge_ofCalls h).mp ⟨edge, hedge⟩)
    obtain ⟨label, hlabel⟩ := List.exists_mem_of_ne_nil _ hne
    obtain ⟨-, hi, hj⟩ := h.made_of_mem hlabel
    exact ⟨hsource, htarget, hi, hj⟩
  labels := by
    intro i j edge hedge
    unfold findEdge at hedge
    rw [labels_ofCalls h] at hedge
    obtain ⟨hne, rfl⟩ := edgeOfEntry_eq_some_iff.mp hedge
    exact ⟨rfl, hne, nodup_eraseDups _⟩
  edgesFrom := fun i => ⟨fun _ => mem_edgesFrom_iff, pairwise_edgesFrom _ i⟩
  edgesTo := fun j => ⟨fun _ => mem_edgesTo_iff, pairwise_edgesTo _ j⟩
  incident := by
    intro i j edge
    rw [mem_edgesFrom_iff, mem_edgesTo_iff, and_assoc, and_assoc, and_comm (a := edge.source = i)]
  findVertex := fun _ _ => findVertex_eq_some_iff

/-- After a permitted history the graph is what the calls describe. A new vertex changes no edge.
A label can be put on every edge, and the answer is that it was new exactly if the edge is another
one then. -/
theorem represents_grow [BEq V] [LawfulBEq V] [LawfulBEq L] (h : Permitted calls) :
    (grow calls).Represents calls ∧
    (∀ value i j, ((grow calls).addVertex value).findEdge i j = (grow calls).findEdge i j) ∧
    ∀ i j label, (∃ edge, (grow calls).findEdge i j = some edge) →
      ∃ isNew next, (grow calls).addLabel? i j label = some (isNew, next) ∧
        next = grow (calls ++ [.addLabel i j label]) ∧
        (isNew = true ↔ next.findEdge i j ≠ (grow calls).findEdge i j) := by
  have hgrow := grow_eq_ofCalls h
  refine ⟨?_, ?_, ?_⟩
  · rw [hgrow]
    exact represents_ofCalls h
  · intro value i j
    have hlonger : Permitted (calls ++ [.addVertex value]) :=
      permitted_append_singleton.mpr ⟨h, trivial⟩
    have hlabels : labelsBetween (calls ++ [.addVertex value]) i j = labelsBetween calls i j := by
      rw [labelsBetween_append_singleton]
      exact List.append_nil _
    unfold findEdge
    rw [hgrow, addVertex_ofCalls h, labels_ofCalls hlonger, labels_ofCalls h, hlabels]
  · intro i j label hedge
    rw [hgrow] at hedge ⊢
    have hmade := (exists_findEdge_ofCalls h).mp hedge
    have hlonger : Permitted (calls ++ [.addLabel i j label]) :=
      permitted_append_singleton.mpr ⟨h, mem_edges_iff.mpr hmade⟩
    refine ⟨_, _, addLabel?_ofCalls h hmade label, (grow_eq_ofCalls hlonger).symm, ?_⟩
    have hlabels : labelsBetween (calls ++ [.addLabel i j label]) i j =
        labelsBetween calls i j ++ [label] := by
      rw [labelsBetween_append_singleton]
      simp [label?]
    unfold findEdge
    rw [labels_ofCalls hlonger, labels_ofCalls h, hlabels, eraseDups_append_singleton]
    by_cases hknown : label ∈ labelsBetween calls i j
    · simp [hknown]
    · have hne : labelsBetween calls i j ≠ [] := h.labelsBetween_ne_nil_iff.mpr hmade
      simp [hknown, edgeOfEntry, eraseDups_eq_nil_iff, hne]

/-- Vertices that share a value, a label that is put on an edge twice, and a vertex that is added
when there is an edge already. -/
def twinCalls : List (GraphCall String String) :=
  [.addVertex "a", .addVertex "a", .addEdge 0 1 "x", .addLabel 0 1 "y", .addVertex "b",
    .addEdge 0 1 "x", .addEdge 2 0 "x", .addEdge 1 1 "z"]

/-- Two vertices with one value, an edge with two labels between them, and a label that is known
already. -/
theorem represents_grow_twinCalls :
    Permitted twinCalls ∧ (grow twinCalls).Represents twinCalls ∧
      (grow twinCalls).findEdge 0 1 = some ⟨0, 1, ["x", "y"]⟩ ∧
      (grow twinCalls).findVertex "a" = some 0 ∧
      ∃ next, (grow twinCalls).addLabel? 0 1 "y" = some (false, next) ∧
        next.findEdge 0 1 = (grow twinCalls).findEdge 0 1 := by
  have hpermitted : Permitted twinCalls := by decide
  have hedge : (grow twinCalls).findEdge 0 1 = some ⟨0, 1, ["x", "y"]⟩ := by decide
  obtain ⟨hrepresents, -, hlabel⟩ := represents_grow hpermitted
  obtain ⟨isNew, next, hadd, hnext, hchange⟩ := hlabel 0 1 "y" ⟨_, hedge⟩
  have hsame : next.findEdge 0 1 = (grow twinCalls).findEdge 0 1 := by
    rw [hnext]
    decide
  have hknown : isNew = false := by
    rw [← Bool.not_eq_true, hchange, not_not]
    exact hsame
  exact ⟨hpermitted, hrepresents, hedge, by decide, next, hknown ▸ hadd, hsame⟩

end LabeledGraph

end Kleene
