import Kleene.Automaton.Definition
import Kleene.Proofs.Automaton.Walk

/-!
# The moves of an automaton in the order of its matrix

`Listing.matrix` lists the parts of an automaton once more, each of them once and the moves row by
row, edge by edge and label by label. It is another listing of the same automaton
(`automaton_matrix`), whatever the order in which the moves were named first.

Both the description and the definition of an automaton go through its edges in this order;
`flatMap_edgesFrom_automaton` is what they have in common.
-/

set_option autoImplicit false

namespace Kleene

namespace Listing

/-- The listed moves from a state, edge by edge and label by label. -/
def movesFrom (l : Listing String) (source : String) : List (Move String) :=
  l.states.eraseDups.flatMap (fun target =>
    (l.labels source target).map (fun symbol => ⟨source, symbol, target⟩))

/-- The same parts, each of them once, with the moves in the order of the matrix. -/
def matrix (l : Listing String) : Listing String where
  states := l.states.eraseDups
  symbols := l.symbols.eraseDups
  initial := l.initial
  accepting := l.accepting
  moves := l.states.eraseDups.flatMap l.movesFrom

variable {l : Listing String}

/-- The edges from a state lead to the states that labels are listed to, in the order of the
states. -/
theorem edgesFrom_automaton {p : Nat} {source : String}
    (hp : l.states.eraseDups[p]? = some source) :
    l.automaton.graph.edgesFrom p = l.states.eraseDups.zipIdx.filterMap (fun target =>
      LabeledGraph.edgeOfEntry p target.2 (l.labels source target.1)) := by
  rw [LabeledGraph.edgesFrom, row_automaton hp, List.zipIdx_map, List.filterMap_map]
  rfl

/-- A symbol is a label between two vertices exactly if a move by it is listed between their
states. -/
theorem mem_labels_automaton_iff {p q : Nat} {symbol : String} :
    symbol ∈ l.automaton.graph.labels p q ↔
      ∃ source target, l.states.eraseDups[p]? = some source ∧
        l.states.eraseDups[q]? = some target ∧ ⟨source, symbol, target⟩ ∈ l.moves := by
  refine ⟨mem_labels_automaton, ?_⟩
  rintro ⟨source, target, hp, hq, hmove⟩
  rw [labels_automaton hp hq]
  exact mem_labels.mpr hmove

/-- What is made of each label of each edge from a state, edge by edge. -/
theorem flatMap_edgesFrom_automaton {β : Type} {p : Nat} {source : String}
    (hp : l.states.eraseDups[p]? = some source) (f : String → Option String → β) :
    (l.automaton.graph.edgesFrom p).flatMap (fun edge =>
        edge.labels.map (fun label => f label l.automaton.graph.vertices[edge.target]?)) =
      (l.movesFrom source).map (fun move => f move.symbol (some move.target)) := by
  have hentry : ∀ entry ∈ l.states.eraseDups.zipIdx,
      (LabeledGraph.edgeOfEntry p entry.2 (l.labels source entry.1)).toList.flatMap (fun edge =>
          edge.labels.map (fun label => f label l.automaton.graph.vertices[edge.target]?)) =
        (l.labels source entry.1).map (fun label => f label (some entry.1)) := by
    rintro ⟨target, q⟩ hmem
    have hq : l.automaton.graph.vertices[q]? = some target := List.mem_zipIdx_iff_getElem?.mp hmem
    rw [LabeledGraph.edgeOfEntry]
    cases l.labels source target with
    | nil => simp
    | cons label rest => simp [hq]
  have hstates : l.states.eraseDups.zipIdx.map Prod.fst = l.states.eraseDups :=
    List.zipIdx_map_fst 0 _
  calc (l.automaton.graph.edgesFrom p).flatMap _
      = l.states.eraseDups.zipIdx.flatMap (fun entry =>
          (l.labels source entry.1).map (fun label => f label (some entry.1))) := by
        rw [edgesFrom_automaton hp, List.filterMap_eq_flatMap_toList, List.flatMap_assoc]
        exact List.flatMap_congr hentry
    _ = l.states.eraseDups.flatMap (fun target =>
          (l.labels source target).map (fun label => f label (some target))) := by
        conv_rhs => rw [← hstates, List.flatMap_map]
    _ = (l.movesFrom source).map _ := by
        rw [movesFrom, List.map_flatMap]
        simp only [List.map_map, Function.comp_def]

/-- The labels between two states, if the moves are listed state by state. -/
theorem labels_flatMap {states : List String} (hstates : states.Nodup) {source : String}
    (hsource : source ∈ states) {moves : String → List (Move String)}
    (hmoves : ∀ s ∈ states, ∀ move ∈ moves s, move.source = s) {target : String}
    (hl : l.moves = states.flatMap moves) :
    l.labels source target =
      (((moves source).filter (fun move => move.target == target)).map Move.symbol).eraseDups := by
  have hother : ∀ s ∈ states, s ≠ source →
      (moves s).filter (fun move => move.source == source && move.target == target) = [] := by
    intro s hs hne
    rw [List.filter_eq_nil_iff]
    intro move hmove
    simp [hmoves s hs move hmove, hne]
  have hown : (moves source).filter (fun move => move.source == source && move.target == target) =
      (moves source).filter (fun move => move.target == target) := by
    apply List.filter_congr
    intro move hmove
    simp [hmoves source hsource move hmove]
  rw [labels, hl, List.filter_flatMap, flatMap_eq_of_mem_of_nodup hstates hsource hother, hown]

/-- The moves from a state have this state as their source. -/
theorem source_of_mem_movesFrom {source : String} {move : Move String}
    (h : move ∈ l.movesFrom source) : move.source = source := by
  obtain ⟨target, -, h⟩ := List.mem_flatMap.mp h
  obtain ⟨symbol, -, rfl⟩ := List.mem_map.mp h
  rfl

/-- The moves in the order of the matrix are the moves that are listed. -/
theorem mem_matrix_moves (h : l.Closed) {move : Move String} :
    move ∈ l.matrix.moves ↔ move ∈ l.moves := by
  have key : move ∈ l.matrix.moves ↔
      (move.source ∈ l.states ∧ move.target ∈ l.states) ∧ move ∈ l.moves := by
    obtain ⟨source, symbol, target⟩ := move
    simp only [matrix, movesFrom, List.mem_flatMap, List.mem_map, List.mem_eraseDups, mem_labels,
      Move.mk.injEq]
    constructor
    · rintro ⟨_, hsource, _, htarget, _, hmove, rfl, rfl, rfl⟩
      exact ⟨⟨hsource, htarget⟩, hmove⟩
    · rintro ⟨⟨hsource, htarget⟩, hmove⟩
      exact ⟨source, hsource, target, htarget, symbol, hmove, rfl, rfl, rfl⟩
  rw [key]
  exact and_iff_right_of_imp (fun hmove => ⟨h.source _ hmove, h.target _ hmove⟩)

/-- To put the moves in the order of the matrix leaves every reference resolved. -/
theorem Closed.matrix (h : l.Closed) : l.matrix.Closed where
  initial := fun state hs => List.mem_eraseDups.mpr (h.initial state hs)
  accepting := fun state hs => List.mem_eraseDups.mpr (h.accepting state hs)
  source := fun move hm => List.mem_eraseDups.mpr (h.source move ((mem_matrix_moves h).mp hm))
  target := fun move hm => List.mem_eraseDups.mpr (h.target move ((mem_matrix_moves h).mp hm))
  symbol := fun move hm =>
    (h.symbol move ((mem_matrix_moves h).mp hm)).imp_right List.mem_eraseDups.mpr

/-- No label is listed twice between two states. -/
theorem nodup_labels (l : Listing String) (source target : String) :
    (l.labels source target).Nodup :=
  nodup_eraseDups _

/-- The matrix has the labels of the moves in the order in which they were named first. -/
theorem labels_matrix {source target : String} (hsource : source ∈ l.states)
    (htarget : target ∈ l.states) : l.matrix.labels source target = l.labels source target := by
  have hnodup := nodup_eraseDups l.states
  have hrow : ((l.movesFrom source).filter (fun move => move.target == target)).map Move.symbol =
      l.labels source target := by
    rw [movesFrom, List.filter_flatMap, flatMap_eq_of_mem_of_nodup hnodup
      (List.mem_eraseDups.mpr htarget)]
    · simp [List.filter_map, Function.comp_def]
    · intro t _ hne
      simp [List.filter_map, Function.comp_def, hne]
  rw [labels_flatMap hnodup (List.mem_eraseDups.mpr hsource)
    (fun s _ move hmove => source_of_mem_movesFrom hmove) rfl, hrow]
  exact eraseDups_of_nodup (nodup_labels l source target)

/-- Two listings have the same automaton if each of them names the same parts first. -/
theorem automaton_congr {l l' : Listing String} (hstates : l'.states.eraseDups = l.states.eraseDups)
    (hsymbols : l'.symbols.eraseDups = l.symbols.eraseDups) (hinitial : l'.initial = l.initial)
    (haccepting : l'.accepting = l.accepting)
    (hlabels : ∀ source ∈ l.states, ∀ target ∈ l.states,
      l'.labels source target = l.labels source target) :
    l'.automaton = l.automaton := by
  have hrows : l.states.eraseDups.map (fun source => l.states.eraseDups.map (l'.labels source)) =
      l.states.eraseDups.map (fun source => l.states.eraseDups.map (l.labels source)) := by
    apply List.map_congr_left
    intro source hsource
    apply List.map_congr_left
    intro target htarget
    exact hlabels source (List.mem_eraseDups.mp hsource) target (List.mem_eraseDups.mp htarget)
  rw [automaton, hstates, hsymbols, hinitial, haccepting, hrows]
  rfl

/-- The order in which the moves are named first does not show once they are named in the order of
the matrix. -/
theorem automaton_matrix (l : Listing String) : l.matrix.automaton = l.automaton := by
  refine automaton_congr (eraseDups_of_nodup (nodup_eraseDups _))
    (eraseDups_of_nodup (nodup_eraseDups _)) rfl rfl ?_
  intro source hsource target htarget
  exact labels_matrix hsource htarget

end Listing

end Kleene
