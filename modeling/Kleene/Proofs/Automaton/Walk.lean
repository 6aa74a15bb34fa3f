import Kleene.Proofs.Automaton.History
import Kleene.Proofs.Graph.Edges
import Mathlib.Data.List.Nodup
import Mathlib.Data.List.Pairwise

/-!
# Walks of a valid automaton

`Automaton.HasMove` says that some edge between two states carries a symbol, and `Automaton.Walk`
which words are read along edges from one state to another; `Automaton.Trace` is a walk with the
moves that are made on it. A valid automaton offers no choice: no move reads nothing, and no two
moves from one state read the same symbol (`validate_eq_ok_iff`). So the symbols determine the moves
(`Listing.Closed.trace_unique`), and a word leads from one state to one state at most
(`Listing.Closed.walk_unique`).
-/

set_option autoImplicit false

namespace Kleene

namespace LabeledGraph

variable {V L : Type}

/-- The edges that leave a vertex are the entries of its row that have labels. -/
theorem mem_edgesFrom {g : LabeledGraph V L} {i : Nat} {edge : Edge L} :
    edge ∈ g.edgesFrom i ↔
      edge.source = i ∧ edge.labels = g.labels i edge.target ∧ edge.labels ≠ [] := by
  rw [mem_edgesFrom_iff, isEdge_iff, and_comm]
  apply and_congr_right
  rintro rfl
  rfl

end LabeledGraph

namespace Automaton

/-! ## Choice -/

section Choice

variable {ν : Type}

/-- The labels of the edges that indexed entries make are those of the entries. -/
theorem flatMap_labels_edgeOfEntry {L : Type} (i : Nat) (entries : List (List L × Nat)) :
    (entries.filterMap (fun entry => LabeledGraph.edgeOfEntry i entry.2 entry.1)).flatMap
      Edge.labels = (entries.map Prod.fst).flatten := by
  induction entries with
  | nil => rfl
  | cons entry rest ih =>
    obtain ⟨labels, j⟩ := entry
    cases labels with
    | nil => exact ih
    | cons label labels =>
      exact congrArg ((label :: labels) ++ ·) ih

/-- The symbols of the moves that leave a vertex are what its row holds. -/
theorem symbolsFrom_eq_flatten (m : Automaton ν) (i : Nat) :
    m.symbolsFrom i = (m.graph.row i).flatten := by
  rw [symbolsFrom, LabeledGraph.edgesFrom, flatMap_labels_edgeOfEntry, List.zipIdx_map_fst]

variable [Name ν]

/-- Names do not repeat exactly if no two of them are equal. -/
theorem hasRepetition_eq_false_iff_pairwise {names : List ν} :
    hasRepetition names = false ↔ names.Pairwise (fun name other => (name == other) = false) := by
  induction names with
  | nil => simp [hasRepetition]
  | cons name rest ih =>
    rw [hasRepetition, Bool.or_eq_false_iff, ih, List.pairwise_cons, List.contains_eq_any_beq,
      List.any_eq_false]
    simp only [Bool.not_eq_true]

/-- Texts do not repeat exactly if they all differ. -/
theorem hasRepetition_eq_false_iff {names : List String} :
    hasRepetition names = false ↔ names.Nodup := by
  simp only [hasRepetition_eq_false_iff_pairwise, beq_eq_false_iff_ne, List.Nodup]

/-- If every state is told from no state, none with a choice is found if there is none. -/
theorem nondeterministicState_eq_none_iff_of_isNull {m : Automaton ν}
    (h : ∀ state ∈ m.states, Name.isNull state = false) :
    m.nondeterministicState = none ↔ ∀ i < m.graph.size, m.hasChoice i = false := by
  rw [nondeterministicState]
  cases hfind : (List.range m.graph.size).find? m.hasChoice with
  | none =>
    have hnone := List.find?_eq_none.mp hfind
    refine iff_of_true rfl (fun i hi => ?_)
    simpa using hnone i (List.mem_range.mpr hi)
  | some i =>
    have hi : i < m.graph.vertices.length := List.mem_range.mp (List.mem_of_find?_eq_some hfind)
    have hchoice : m.hasChoice i = true := List.find?_some hfind
    have hstate : m.graph.vertices[i]? = some m.graph.vertices[i] := List.getElem?_eq_getElem hi
    refine iff_of_false ?_ (fun hnone => ?_)
    · simp [hstate, Name.orNone, h _ (List.getElem_mem hi)]
    · simp [hnone i hi] at hchoice

/-- An automaton is valid exactly if it has an initial state, is joint, and no state in it has a
choice. -/
theorem validate_eq_ok_iff_nondeterministicState (m : Automaton ν) :
    m.validate = .ok () ↔
      m.initial.isSome = true ∧ m.isJoint = true ∧ m.nondeterministicState = none := by
  rw [validate, hasInitialState]
  cases m.initial.isSome <;> cases m.isJoint <;> cases m.nondeterministicState <;> simp

/-- No state has a choice: no move from it reads nothing and no two read the same symbol. -/
def NoChoice (m : Automaton String) : Prop :=
  ∀ i < m.graph.size, m.hasChoice i = false

/-- No state with a choice is found exactly if there is none. -/
theorem nondeterministicState_eq_none_iff (m : Automaton String) :
    m.nondeterministicState = none ↔ m.NoChoice :=
  nondeterministicState_eq_none_iff_of_isNull (fun _ _ => rfl)

/-- An automaton is valid if an initial state is set, all states can be reached from it, and none
has a choice. -/
theorem validate_eq_ok_iff (m : Automaton String) :
    m.validate = .ok () ↔ m.initial.isSome = true ∧ m.isJoint = true ∧ m.NoChoice := by
  rw [validate_eq_ok_iff_nondeterministicState, nondeterministicState_eq_none_iff]

end Choice

/-! ## Walks -/

/-- Some edge between two states carries the symbol. -/
def HasMove (m : Automaton String) (source symbol target : String) : Prop :=
  ∃ p q, m.states[p]? = some source ∧ m.states[q]? = some target ∧ symbol ∈ m.graph.labels p q

/-- The words that are read along edges from one state to another. -/
inductive Walk (m : Automaton String) : String → List String → String → Prop
  | nil (state : String) : Walk m state [] state
  | cons {source symbol target last : String} {word : List String}
      (move : m.HasMove source symbol target) (rest : Walk m target word last) :
      Walk m source (symbol :: word) last

/-- Without a symbol a walk stays where it is. -/
@[simp] theorem walk_nil_iff {m : Automaton String} {first last : String} :
    m.Walk first [] last ↔ first = last := by
  constructor
  · intro h
    cases h
    rfl
  · rintro rfl
    exact .nil first

/-- A walk by a word is a move by its first symbol and a walk by the rest. -/
theorem walk_cons_iff {m : Automaton String} {first symbol last : String} {word : List String} :
    m.Walk first (symbol :: word) last ↔
      ∃ next, m.HasMove first symbol next ∧ m.Walk next word last := by
  constructor
  · intro h
    cases h with
    | cons move rest => exact ⟨_, move, rest⟩
  · rintro ⟨next, move, rest⟩
    exact .cons move rest

/-- A walk can be cut between any two of its symbols. -/
theorem walk_append_iff {m : Automaton String} {first last : String} {word rest : List String} :
    m.Walk first (word ++ rest) last ↔
      ∃ state, m.Walk first word state ∧ m.Walk state rest last := by
  induction word generalizing first with
  | nil => simp
  | cons symbol word ih =>
    simp only [List.cons_append, walk_cons_iff, ih]
    constructor
    · rintro ⟨next, hmove, state, hword, hrest⟩
      exact ⟨state, ⟨next, hmove, hword⟩, hrest⟩
    · rintro ⟨state, ⟨next, hmove, hword⟩, hrest⟩
      exact ⟨next, hmove, state, hword, hrest⟩

/-- The moves that lead from one state to another, each from where the one before it ends. -/
inductive Trace (m : Automaton String) : String → List (Move String) → String → Prop
  | nil (state : String) : Trace m state [] state
  | cons {source symbol target last : String} {path : List (Move String)}
      (move : m.HasMove source symbol target) (rest : Trace m target path last) :
      Trace m source (⟨source, symbol, target⟩ :: path) last

variable {m : Automaton String} {first last : String} {path : List (Move String)}

/-- A trace is a walk by the symbols of its moves. -/
theorem Trace.walk (h : m.Trace first path last) : m.Walk first (path.map Move.symbol) last := by
  induction h with
  | nil state => exact .nil state
  | cons move _ ih => exact .cons move ih

/-- A walk by a word is a trace whose moves have the symbols of the word. -/
theorem walk_iff_trace {word : List String} :
    m.Walk first word last ↔ ∃ path, m.Trace first path last ∧ path.map Move.symbol = word := by
  constructor
  · intro h
    induction h with
    | nil state => exact ⟨[], .nil state, rfl⟩
    | cons move _ ih =>
      obtain ⟨path, htrace, rfl⟩ := ih
      exact ⟨_ :: path, .cons move htrace, rfl⟩
  · rintro ⟨path, htrace, rfl⟩
    exact htrace.walk

/-- Every move of a trace is one of the automaton. -/
theorem Trace.hasMove (h : m.Trace first path last) {move : Move String} (hmove : move ∈ path) :
    m.HasMove move.source move.symbol move.target := by
  induction h with
  | nil state => cases hmove
  | cons made _ ih =>
    rcases List.mem_cons.mp hmove with rfl | hrest
    · exact made
    · exact ih hrest

end Automaton

namespace Listing

/-- The moves of the automaton of a listing are those that are listed. -/
theorem hasMove_automaton {l : Listing String} (h : l.Closed) {source symbol target : String} :
    l.automaton.HasMove source symbol target ↔ ⟨source, symbol, target⟩ ∈ l.moves := by
  constructor
  · rintro ⟨p, q, hp, hq, hsymbol⟩
    rw [labels_automaton hp hq] at hsymbol
    exact mem_labels.mp hsymbol
  · intro hmove
    have hsource := getElem?_idxOf_states (h.source _ hmove)
    have htarget := getElem?_idxOf_states (h.target _ hmove)
    refine ⟨_, _, hsource, htarget, ?_⟩
    rw [labels_automaton hsource htarget]
    exact mem_labels.mpr hmove

/-- The row of a state has the labels to each of the states, in their order. -/
theorem row_automaton {l : Listing String} {p : Nat} {source : String}
    (hp : l.states.eraseDups[p]? = some source) :
    l.automaton.graph.row p = l.states.eraseDups.map (l.labels source) := by
  simp [LabeledGraph.row, automaton, hp]

/-- The symbols of the edges from a state are its labels to one state after the other. -/
theorem symbolsFrom_automaton {l : Listing String} {p : Nat} {source : String}
    (hp : l.states.eraseDups[p]? = some source) :
    l.automaton.symbolsFrom p = l.states.eraseDups.flatMap (l.labels source) := by
  rw [Automaton.symbolsFrom_eq_flatten, row_automaton hp, List.flatMap_def]

/-- A state has no choice if every move from it reads something and no two read the same symbol. In
the matrix the row of the state holds one list of labels for each target: the symbol that reads
nothing is in none of them, and no symbol is in two. -/
theorem Closed.hasChoice_eq_false_iff {l : Listing String} (h : l.Closed) {p : Nat} {source : String}
    (hp : l.states.eraseDups[p]? = some source) :
    l.automaton.hasChoice p = false ↔
      (∀ target, ⟨source, Name.epsilon, target⟩ ∉ l.moves) ∧
        ∀ symbol target target', ⟨source, symbol, target⟩ ∈ l.moves →
          ⟨source, symbol, target'⟩ ∈ l.moves → target = target' := by
  have hlisted : ∀ {symbol target}, ⟨source, symbol, target⟩ ∈ l.moves →
      target ∈ l.states.eraseDups := fun hmove => List.mem_eraseDups.mpr (h.target _ hmove)
  have hnodup := nodup_eraseDups l.states
  rw [Automaton.hasChoice, Bool.or_eq_false_iff, Automaton.hasRepetition_eq_false_iff,
    symbolsFrom_automaton hp]
  refine and_congr ?_ ?_
  · rw [← Bool.not_eq_true, List.contains_iff_mem, List.mem_flatMap]
    constructor
    · exact fun hnone target hmove => hnone ⟨target, hlisted hmove, mem_labels.mpr hmove⟩
    · rintro hnone ⟨target, -, hlabel⟩
      exact hnone target (mem_labels.mp hlabel)
  · rw [List.nodup_flatMap]
    constructor
    · rintro ⟨-, hdisjoint⟩ symbol target target' hmove hmove'
      by_contra hne
      have hsymm : Std.Symm (Function.onFun List.Disjoint (l.labels source)) :=
        ⟨fun _ _ hlabels _ hlabel hlabel' => hlabels hlabel' hlabel⟩
      exact hdisjoint.forall (hlisted hmove) (hlisted hmove') hne (mem_labels.mpr hmove)
        (mem_labels.mpr hmove')
    · intro hunique
      refine ⟨fun target _ => nodup_eraseDups _, hnodup.imp (fun {target target'} hne => ?_)⟩
      intro symbol hlabel hlabel'
      exact hne (hunique symbol _ _ (mem_labels.mp hlabel) (mem_labels.mp hlabel'))

/-- Without a choice a listed move reads something, and no other one from its source reads the
same. -/
theorem Closed.move_unique {l : Listing String} (h : l.Closed) (hchoice : l.automaton.NoChoice)
    {source symbol target target' : String} (hmove : ⟨source, symbol, target⟩ ∈ l.moves)
    (hmove' : ⟨source, symbol, target'⟩ ∈ l.moves) :
    symbol ≠ Name.epsilon ∧ target = target' := by
  have hsource := getElem?_idxOf_states (h.source _ hmove)
  obtain ⟨hreads, hunique⟩ :=
    (h.hasChoice_eq_false_iff hsource).mp (hchoice _ (List.getElem?_eq_some_iff.mp hsource).1)
  refine ⟨?_, hunique symbol target target' hmove hmove'⟩
  rintro rfl
  exact hreads target hmove

/-- Without a choice the moves that are made from a state are determined by their symbols. The
induction is on the one trace: its first move is also that of the other one, as no two moves from a
state read the same. -/
theorem Closed.trace_unique {l : Listing String} (h : l.Closed) (hchoice : l.automaton.NoChoice)
    {first last last' : String} {path path' : List (Move String)}
    (htrace : l.automaton.Trace first path last) (htrace' : l.automaton.Trace first path' last')
    (hsymbols : path'.map Move.symbol = path.map Move.symbol) : path' = path ∧ last' = last := by
  induction htrace generalizing path' with
  | nil state =>
    obtain rfl := List.map_eq_nil_iff.mp hsymbols
    cases htrace'
    exact ⟨rfl, rfl⟩
  | cons move _ ih =>
    cases htrace' with
    | nil => cases hsymbols
    | cons move' rest' =>
      obtain ⟨rfl, hrest⟩ := List.cons.inj hsymbols
      rw [hasMove_automaton h] at move move'
      obtain ⟨-, rfl⟩ := h.move_unique hchoice move move'
      obtain ⟨rfl, rfl⟩ := ih rest' hrest
      exact ⟨rfl, rfl⟩

/-- Without a choice a word leads from one state to one state at most. -/
theorem Closed.walk_unique {l : Listing String} (h : l.Closed) (hchoice : l.automaton.NoChoice)
    {first last last' : String} {word : List String} (hwalk : l.automaton.Walk first word last)
    (hwalk' : l.automaton.Walk first word last') : last = last' := by
  obtain ⟨path, htrace, rfl⟩ := Automaton.walk_iff_trace.mp hwalk
  obtain ⟨path', htrace', hsymbols⟩ := Automaton.walk_iff_trace.mp hwalk'
  exact (h.trace_unique hchoice htrace htrace' hsymbols).2.symm

end Listing

end Kleene
