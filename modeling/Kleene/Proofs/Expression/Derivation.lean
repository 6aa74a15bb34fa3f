import Kleene.Expression.Derivation
import Kleene.Proofs.Automaton.Runs
import Kleene.Proofs.Expression.Table

/-!
# The trees of an automaton

The builder of an automaton that was built up call by call has every state once in its order, and
its edges between two positions are the moves between the states there. So its walks by position are
the traces of the automaton, with the states in between at positions below the bound
(`walkBelow_iff_trace`), and the walks of the automaton if the bound is the whole order
(`walkBelow_iff_walk`). The trees for the accepting states of a valid automaton stand for the words
that it accepts, whatever text each symbol stands for (`exists_mem_pathTrees_iff`), and the
expression of the automaton in a spelling is the written form of these trees
(`expression_eq_spellWhole`).
-/

set_option autoImplicit false

namespace Kleene

namespace Listing

variable {l : Listing String}

/-- The order of a builder has the states of the automaton, the initial one first. -/
theorem Closed.orderedStates_perm (h : l.Closed) :
    l.automaton.orderedStates.Perm l.automaton.states := by
  rw [Automaton.orderedStates]
  cases hinitial : l.automaton.initial with
  | none => exact List.Perm.refl _
  | some state =>
    have hstate : state ∈ l.automaton.states := List.mem_eraseDups.mpr (h.initial state hinitial)
    exact (List.perm_cons_erase hstate).symm

/-- The order of the positions has the states of the listing. -/
theorem Closed.mem_orderedStates (h : l.Closed) {state : String} :
    state ∈ l.automaton.orderedStates ↔ state ∈ l.states := by
  rw [h.orderedStates_perm.mem_iff, states_automaton, List.mem_eraseDups]

/-- No state has two positions. -/
theorem Closed.nodup_orderedStates (h : l.Closed) : l.automaton.orderedStates.Nodup :=
  h.orderedStates_perm.nodup_iff.mpr (nodup_eraseDups l.states)

/-- The vertex at a position is the place of the state there. -/
theorem Closed.vertices_ofAutomaton (h : l.Closed) (s : Spelling) :
    (Builder.ofAutomaton l.automaton s).vertices =
      l.automaton.orderedStates.map (fun state => l.states.eraseDups.idxOf state) := by
  have hvertex : ∀ state ∈ l.automaton.orderedStates,
      l.automaton.vertex? state = some (l.states.eraseDups.idxOf state) := by
    intro state hstate
    rw [Automaton.vertex?_eq, states_automaton,
      if_pos (List.mem_eraseDups.mpr (h.mem_orderedStates.mp hstate))]
  rw [Builder.ofAutomaton, List.filterMap_congr hvertex]
  exact congrFun List.filterMap_eq_map' _

/-- Every position has a vertex. -/
theorem Closed.length_vertices (h : l.Closed) (s : Spelling) :
    (Builder.ofAutomaton l.automaton s).vertices.length =
      (Builder.ofAutomaton l.automaton s).order.length := by
  rw [h.vertices_ofAutomaton, List.length_map]
  rfl

/-- The edges between two positions of the order are the moves between the states there. -/
theorem Closed.mem_edges_ofAutomaton (h : l.Closed) (s : Spelling) {i j : Nat} {symbol : String} :
    symbol ∈ (Builder.ofAutomaton l.automaton s).edges l.automaton i j ↔
      ∃ source target, l.automaton.orderedStates[i]? = some source ∧
        l.automaton.orderedStates[j]? = some target ∧
        l.automaton.HasMove source symbol target := by
  rw [Builder.edges, h.vertices_ofAutomaton, List.getElem?_map, List.getElem?_map]
  cases hi : l.automaton.orderedStates[i]? with
  | none => simp
  | some source =>
    cases hj : l.automaton.orderedStates[j]? with
    | none => simp
    | some target =>
      have hsource := getElem?_idxOf_states (h.mem_orderedStates.mp (List.mem_of_getElem? hi))
      have htarget := getElem?_idxOf_states (h.mem_orderedStates.mp (List.mem_of_getElem? hj))
      simp [labels_automaton hsource htarget, hasMove_automaton h, mem_labels]

/-- The walks by position through positions below a bound are the traces that pass, in between,
through states at these positions only. Both directions are by induction, the first on the walk and
the second on the trace: a move that is not the last one leads to a state in between. -/
theorem Closed.walkBelow_iff_trace (h : l.Closed) (s : Spelling) {bound i j : Nat}
    {first last : String} (hi : l.automaton.orderedStates[i]? = some first)
    (hj : l.automaton.orderedStates[j]? = some last) (word : List String) :
    WalkBelow ((Builder.ofAutomaton l.automaton s).edges l.automaton) bound i word j ↔
      ∃ path, l.automaton.Trace first path last ∧
        (∀ state ∈ (path.map Move.target).dropLast,
          ∃ v < bound, l.automaton.orderedStates[v]? = some state) ∧
        path.map Move.symbol = word := by
  constructor
  · intro hwalk
    induction hwalk generalizing first with
    | stay i =>
      obtain rfl := Option.some.inj (hi.symm.trans hj)
      exact ⟨[], .nil first, by simp, rfl⟩
    | last edge =>
      obtain ⟨source, target, hsource, htarget, hmove⟩ := (h.mem_edges_ofAutomaton s).mp edge
      obtain rfl := Option.some.inj (hi.symm.trans hsource)
      obtain rfl := Option.some.inj (hj.symm.trans htarget)
      exact ⟨[⟨first, _, last⟩], .cons hmove (.nil last), by simp, rfl⟩
    | @step i v j symbol word edge below _ ih =>
      obtain ⟨source, target, hsource, htarget, hmove⟩ := (h.mem_edges_ofAutomaton s).mp edge
      obtain rfl := Option.some.inj (hi.symm.trans hsource)
      obtain ⟨path, htrace, hbelow, rfl⟩ := ih htarget hj
      refine ⟨⟨first, symbol, target⟩ :: path, .cons hmove htrace, ?_, rfl⟩
      intro state hstate
      cases path with
      | nil => simp at hstate
      | cons move path =>
        rcases List.mem_cons.mp hstate with rfl | hrest
        · exact ⟨v, below, htarget⟩
        · exact hbelow state hrest
  · rintro ⟨path, htrace, hbelow, rfl⟩
    induction htrace generalizing i with
    | nil state =>
      obtain ⟨hlt, -⟩ := List.getElem?_eq_some_iff.mp hi
      obtain rfl := (List.getElem?_inj hlt h.nodup_orderedStates).mp (hi.trans hj.symm)
      exact .stay i
    | cons move rest ih =>
      cases rest with
      | nil => exact .last ((h.mem_edges_ofAutomaton s).mpr ⟨_, _, hi, hj, move⟩)
      | cons =>
        obtain ⟨v, hv, htarget⟩ := hbelow _ List.mem_cons_self
        exact .step ((h.mem_edges_ofAutomaton s).mpr ⟨_, _, hi, htarget, move⟩) hv
          (ih htarget hj (fun state hstate => hbelow state (List.mem_cons_of_mem _ hstate)))

/-- The walks by position through the whole order are the walks of the automaton. -/
theorem Closed.walkBelow_iff_walk (h : l.Closed) (s : Spelling) {i j : Nat} {first last : String}
    (hi : l.automaton.orderedStates[i]? = some first)
    (hj : l.automaton.orderedStates[j]? = some last) (word : List String) :
    WalkBelow ((Builder.ofAutomaton l.automaton s).edges l.automaton)
        l.automaton.orderedStates.length i word j ↔
      l.automaton.Walk first word last := by
  rw [h.walkBelow_iff_trace s hi hj, Automaton.walk_iff_trace]
  refine exists_congr (fun path => and_congr_right (fun htrace => and_iff_right ?_))
  intro state hstate
  obtain ⟨move, hmove, rfl⟩ := List.mem_map.mp (List.mem_of_mem_dropLast hstate)
  have htarget := h.target _ ((hasMove_automaton h).mp (htrace.hasMove hmove))
  obtain ⟨v, hv⟩ := List.mem_iff_getElem?.mp (h.mem_orderedStates.mpr htarget)
  exact ⟨v, (List.getElem?_eq_some_iff.mp hv).1, hv⟩

end Listing

namespace Automaton

/-- The tree of the paths from one position of the order to another through positions below a bound.
-/
def cellTree (m : Automaton String) (bound i j : Nat) : CellTree String :=
  CellTree.ofCell ((Builder.ofAutomaton m .words).edges m) bound i j

/-- The trees of the paths from the initial state to each accepting one. -/
def pathTrees (m : Automaton String) : List (CellTree String) :=
  (Builder.ofAutomaton m .words).trees m

variable {m : Automaton String}

/-- The expression of a valid automaton is the written form of its trees. -/
theorem expression_eq_spellWhole (hbuilt : m.Built) (hvalid : m.validate = .ok ())
    (s : Spelling) : m.expression s = .ok (Builder.spellWhole s m.pathTrees) := by
  obtain ⟨l, hclosed, rfl⟩ := hbuilt.exists_listing
  have hwhole : (Builder.ofAutomaton l.automaton s).plainWhole l.automaton =
      .ok (Builder.spellWhole s l.automaton.pathTrees) :=
    Builder.plainWhole_eq_spell (hclosed.length_vertices s) (fun state hstate =>
      hclosed.mem_orderedStates.mpr (hclosed.accepting state hstate))
  rw [expression, hvalid]
  exact (Builder.build_eq Builder.faithful_nil).1.trans hwhole

/-- The trees of a valid automaton stand for the words that it accepts. -/
theorem exists_mem_pathTrees_iff (hbuilt : m.Built) (hvalid : m.validate = .ok ()) {β : Type}
    (code : String → List β) (text : List β) :
    (∃ tree ∈ m.pathTrees, text ∈ tree.language code) ↔
      ∃ word, m.accepts word = .ok true ∧ word.flatMap code = text := by
  have haccepts := accepts_iff_walk hbuilt hvalid
  obtain ⟨l, hclosed, rfl⟩ := hbuilt.exists_listing
  obtain ⟨first, hfirst⟩ : ∃ first, l.automaton.initial = some first :=
    Option.isSome_iff_exists.mp ((validate_eq_ok_iff _).mp hvalid).1
  have hstart : l.automaton.orderedStates[0]? = some first := by
    rw [orderedStates, hfirst]
    rfl
  have hplace : ∀ last ∈ l.accepting,
      l.automaton.orderedStates[l.automaton.orderedStates.idxOf last]? = some last := by
    intro last hlast
    exact List.getElem?_idxOf (hclosed.mem_orderedStates.mpr (hclosed.accepting last hlast))
  simp only [pathTrees, Builder.trees, List.mem_map, List.mem_eraseDups,
    exists_exists_and_eq_and, language_ofCell, haccepts]
  constructor
  · rintro ⟨last, hlast, word, hwalk, rfl⟩
    exact ⟨word, ⟨first, last, hfirst, hlast,
      (hclosed.walkBelow_iff_walk .words hstart (hplace last hlast) word).mp hwalk⟩, rfl⟩
  · rintro ⟨word, ⟨start, last, hinitial, hlast, hwalk⟩, rfl⟩
    obtain rfl := Option.some.inj (hfirst.symm.trans hinitial)
    exact ⟨last, hlast, word,
      (hclosed.walkBelow_iff_walk .words hstart (hplace last hlast) word).mpr hwalk, rfl⟩

/-- The labels in the tree of a cell are those of moves. -/
theorem exists_hasMove_of_mem_cellTree (hbuilt : m.Built) {bound i j : Nat} {symbol : String}
    (hsymbol : symbol ∈ (m.cellTree bound i j).labels) :
    ∃ source target, m.HasMove source symbol target := by
  obtain ⟨l, hclosed, rfl⟩ := hbuilt.exists_listing
  obtain ⟨p, q, hedge⟩ := CellTree.exists_edge_of_mem_labels hsymbol
  obtain ⟨source, target, -, -, hmove⟩ := (hclosed.mem_edges_ofAutomaton .words).mp hedge
  exact ⟨source, target, hmove⟩

/-- The labels in the trees of the expression are symbols of moves. -/
theorem exists_hasMove_of_mem_labels (hbuilt : m.Built) {tree : CellTree String}
    (htree : tree ∈ m.pathTrees) {symbol : String} (hsymbol : symbol ∈ tree.labels) :
    ∃ source target, m.HasMove source symbol target := by
  obtain ⟨state, -, rfl⟩ := List.mem_map.mp htree
  exact exists_hasMove_of_mem_cellTree hbuilt hsymbol

/-- The labels in the trees of a valid automaton are symbols of its alphabet, and none reads
nothing. -/
theorem mem_alphabet_of_mem_labels (hbuilt : m.Built) (hvalid : m.validate = .ok ())
    {tree : CellTree String} (htree : tree ∈ m.pathTrees) {symbol : String}
    (hsymbol : symbol ∈ tree.labels) :
    symbol ≠ Name.epsilon ∧ symbol ∈ m.alphabet := by
  obtain ⟨source, target, hmove⟩ := exists_hasMove_of_mem_labels hbuilt htree hsymbol
  obtain ⟨l, hclosed, rfl⟩ := hbuilt.exists_listing
  have hlisted := (Listing.hasMove_automaton hclosed).mp hmove
  have hchoice := ((validate_eq_ok_iff _).mp hvalid).2.2
  have hepsilon := (hclosed.move_unique hchoice hlisted hlisted).1
  refine ⟨hepsilon, List.mem_eraseDups.mpr ?_⟩
  exact (hclosed.symbol _ hlisted).resolve_left hepsilon

end Automaton

end Kleene
