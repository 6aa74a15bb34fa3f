import Kleene.Proofs.Automaton.Construction
import Kleene.Proofs.Graph.Search

/-!
# Invariants of the construction

Whatever the names are, two properties hold of every automaton that is built up, since each call
that adds a part keeps them. The initial state and the accepting states are registered
(`Automaton.Registered`, `kept_registered`). And the states have different names, with edges between
them that carry epsilon or symbols of the alphabet (`Automaton.Regular`, `kept_regular`).

Names need not be the same value to be the same name, so that a state is registered if some known
state has the same name.
-/

set_option autoImplicit false

namespace Kleene

namespace LabeledGraph

variable {V L : Type} {g : LabeledGraph V L} {i j p q : Nat} {label : L}

/-- A new vertex comes without labels. -/
theorem mem_labels_of_addVertex {value : V} (h : label ∈ (g.addVertex value).labels i j) :
    label ∈ g.labels i j := by
  have hblank : ∀ n k : Nat, label ∉ (List.replicate n ([] : List L))[k]?.getD [] := by
    intro n k
    rw [List.getElem?_replicate]
    split <;> exact List.not_mem_nil
  unfold labels row at h ⊢
  rw [addVertex, List.getElem?_append, List.length_map] at h
  split at h
  · next hi =>
    -- an old row has one more entry, which is blank
    rw [List.getElem?_map, List.getElem?_eq_getElem hi, Option.map_some, Option.getD_some,
      List.getElem?_append] at h
    rw [List.getElem?_eq_getElem hi, Option.getD_some]
    split at h
    · exact h
    · exact absurd h (hblank 1 _)
  · cases hplace : i - g.rows.length with
    | zero =>
      rw [hplace] at h
      exact absurd h (hblank (g.size + 1) j)
    | succ k =>
      rw [hplace] at h
      cases h

variable [BEq L]

/-- A label of an edge after one more is put on it was there before or is the new one. -/
theorem mem_of_mem_insertLabel {new : L} {labels : List L} (h : label ∈ insertLabel new labels) :
    label ∈ labels ∨ label = new := by
  unfold insertLabel at h
  split at h
  · exact .inl h
  · exact (List.mem_append.mp h).imp_right List.mem_singleton.mp

/-- A new label is at the place where it was put. -/
theorem mem_labels_of_addEdge {new : L} (h : label ∈ (g.addEdge i j new).labels p q) :
    label ∈ g.labels p q ∨ label = new ∧ i = p ∧ j = q := by
  unfold labels row at h ⊢
  rw [addEdge, List.getElem?_modify] at h
  cases hrow : g.rows[p]? with
  | none =>
    rw [hrow] at h
    cases h
  | some row =>
    rw [hrow, Option.map_eq_map, Option.map_some, Option.getD_some] at h
    rw [Option.getD_some]
    split at h
    · next hp =>
      rw [List.getElem?_modify] at h
      cases hentry : row[q]? with
      | none =>
        rw [hentry] at h
        cases h
      | some labels =>
        rw [hentry, Option.map_eq_map, Option.map_some, Option.getD_some] at h
        rw [Option.getD_some]
        split at h
        · next hq => exact (mem_of_mem_insertLabel h).imp_right (fun hnew => ⟨hnew, hp, hq⟩)
        · exact .inl h
    · exact .inl h

end LabeledGraph

namespace Automaton

variable {ν : Type} [Name ν]

/-- A state has a vertex exactly if it equals one of those that are registered. -/
theorem vertex?_isSome_iff {m : Automaton ν} {state : ν} :
    (m.vertex? state).isSome = true ↔ ∃ known ∈ m.states, (known == state) = true := by
  rw [vertex?, LabeledGraph.findVertex, List.findIdx?_isSome, List.any_eq_true]
  rfl

/-- The vertex of a state is one of the graph. -/
theorem vertex?_lt {m : Automaton ν} {state : ν} {v : Nat} (h : m.vertex? state = some v) :
    v < m.graph.size :=
  (List.findIdx?_eq_some_iff_findIdx_eq.mp h).1

/-- Only a registered state is looked up without a failure. -/
theorem yields_vertex (m : Automaton ν) (state : ν) :
    Yields (fun v => m.vertex? state = some v) (m.vertex state) := by
  unfold vertex
  split
  · next hvertex => exact Yields.pure hvertex
  · exact Yields.throw _

/-! ## Registered names -/

/-- The initial state and the accepting states are registered. -/
structure Registered (m : Automaton ν) : Prop where
  initial : ∀ state ∈ m.initial, (m.vertex? state).isSome = true
  accepting : ∀ state ∈ m.accepting, (m.vertex? state).isSome = true

/-- Without states everything that is referred to is registered. -/
theorem registered_empty : (empty : Automaton ν).Registered where
  initial := by simp [empty]
  accepting := by simp [empty]

namespace Registered

variable {m next : Automaton ν}

/-- More states and other parts leave what is registered as it is. -/
theorem of_subset (h : m.Registered) (hstates : m.states ⊆ next.states)
    (hinitial : next.initial = m.initial) (haccepting : next.accepting = m.accepting) :
    next.Registered := by
  have hknown : ∀ state, (m.vertex? state).isSome = true → (next.vertex? state).isSome = true := by
    intro state hstate
    obtain ⟨known, hmem, hname⟩ := vertex?_isSome_iff.mp hstate
    exact vertex?_isSome_iff.mpr ⟨known, hstates hmem, hname⟩
  exact ⟨fun state hstate => hknown state (h.initial state (hinitial ▸ hstate)),
    fun state hstate => hknown state (h.accepting state (haccepting ▸ hstate))⟩

/-- One more state leaves everything registered. -/
theorem addState (h : m.Registered) (state : ν) : (m.addState state).Registered := by
  unfold Automaton.addState
  split
  · exact h
  · exact h.of_subset (List.subset_append_left _ _) rfl rfl

/-- One more symbol leaves everything registered. -/
theorem addSymbol (h : m.Registered) (symbol : ν) : (m.addSymbol symbol).Registered := by
  unfold Automaton.addSymbol
  split
  · exact h
  · exact h.of_subset (List.Subset.refl _) rfl rfl

/-- A state becomes the initial one only if it is registered. -/
theorem setInitial (h : m.Registered) (state : ν) : Yields Registered (m.setInitial state) := by
  refine Yields.bind (yields_vertex m state) (fun _ hstate => Yields.pure ⟨?_, h.accepting⟩)
  intro named hnamed
  obtain ⟨-, hsame⟩ := Option.ite_none_left_eq_some.mp hnamed
  exact Option.some.inj hsame ▸ Option.isSome_of_eq_some hstate

/-- A state becomes an accepting one only if it is registered. -/
theorem addAccepting (h : m.Registered) (state : ν) :
    Yields Registered (m.addAccepting state) := by
  refine Yields.bind (yields_vertex m state) (fun _ hstate => Yields.pure ⟨h.initial, ?_⟩)
  have hknown : (m.vertex? state).isSome = true := Option.isSome_of_eq_some hstate
  intro named hnamed
  rcases List.mem_append.mp hnamed with hnamed | hnamed
  · exact h.accepting named hnamed
  · exact List.mem_singleton.mp hnamed ▸ hknown

/-- A move is added only between states and by a symbol that are registered. -/
theorem addTransition (h : m.Registered) (source symbol target : ν) :
    Yields Registered (m.addTransition source symbol target) := by
  refine Yields.bind (Yields.any _) (fun i _ => Yields.bind (Yields.any _) (fun j _ => ?_))
  split
  · exact Yields.pure (h.of_subset (List.Subset.refl _) rfl rfl)
  · exact Yields.throw _

end Registered

/-- What is built up names no unregistered state. -/
theorem kept_registered : Kept (Registered (ν := ν)) where
  empty := registered_empty
  apply := by
    intro m op hm
    cases op with
    | addState state => exact Yields.pure (hm.addState state)
    | addSymbol symbol => exact Yields.pure (hm.addSymbol symbol)
    | setInitial state => exact hm.setInitial state
    | addAccepting state => exact hm.addAccepting state
    | addTransition source symbol target => exact hm.addTransition source symbol target

/-! ## Regular automata -/

/-- The states have different names, edges lead to states, and their labels are symbols that may
label moves. -/
structure Regular (m : Automaton ν) : Prop where
  distinct : m.states.Pairwise (fun state other => (state == other) = false)
  inBounds : m.graph.InBounds
  isLabel : ∀ p q, ∀ label ∈ m.graph.labels p q, m.isLabel label = true

/-- The automaton without states is regular. -/
theorem regular_empty : (empty : Automaton ν).Regular where
  distinct := .nil
  inBounds := by
    intro p q hleads
    obtain ⟨label, hlabel⟩ := LabeledGraph.leads_iff.mp hleads
    cases hlabel
  isLabel := by
    intro p q label hlabel
    cases hlabel

namespace Regular

variable {m : Automaton ν}

/-- One more state leaves an automaton regular. -/
theorem addState (h : m.Regular) (state : ν) : (m.addState state).Regular := by
  unfold Automaton.addState
  split
  · exact h
  · next hnew =>
    have hunknown : ∀ known ∈ m.states, (known == state) = false := by
      intro known hknown
      rw [← Bool.not_eq_true]
      exact fun hname => hnew (vertex?_isSome_iff.mpr ⟨known, hknown, hname⟩)
    exact
      { distinct := List.pairwise_append.mpr ⟨h.distinct, List.pairwise_singleton _ _,
          fun known hknown other hother => List.mem_singleton.mp hother ▸ hunknown known hknown⟩
        inBounds := by
          intro p q hleads
          obtain ⟨label, hlabel⟩ := LabeledGraph.leads_iff.mp hleads
          have hlt := h.inBounds p q
            (LabeledGraph.leads_iff.mpr ⟨label, LabeledGraph.mem_labels_of_addVertex hlabel⟩)
          show q < (m.graph.vertices ++ [state]).length
          rw [List.length_append]
          exact Nat.lt_add_right _ hlt
        isLabel := fun p q label hlabel =>
          h.isLabel p q label (LabeledGraph.mem_labels_of_addVertex hlabel) }

/-- One more symbol leaves an automaton regular. -/
theorem addSymbol (h : m.Regular) (symbol : ν) : (m.addSymbol symbol).Regular := by
  unfold Automaton.addSymbol
  split
  · exact h
  · refine ⟨h.distinct, h.inBounds, fun p q label hlabel => ?_⟩
    have hold := h.isLabel p q label hlabel
    unfold Automaton.isLabel at hold ⊢
    rw [Bool.or_eq_true] at hold ⊢
    exact hold.imp_right (fun hknown => by rw [List.contains_append, hknown, Bool.true_or])

/-- One more move leaves an automaton regular. -/
theorem addTransition (h : m.Regular) (source symbol target : ν) :
    Yields Regular (m.addTransition source symbol target) := by
  refine Yields.bind (Yields.any _)
    (fun i _ => Yields.bind (yields_vertex m target) (fun j hj => ?_))
  split
  · next hsymbol =>
    refine Yields.pure ⟨h.distinct, fun p q hleads => ?_, fun p q label hlabel => ?_⟩
    · obtain ⟨label, hlabel⟩ := LabeledGraph.leads_iff.mp hleads
      rcases LabeledGraph.mem_labels_of_addEdge hlabel with hold | ⟨-, -, rfl⟩
      · exact h.inBounds p q (LabeledGraph.leads_iff.mpr ⟨label, hold⟩)
      · exact vertex?_lt hj
    · rcases LabeledGraph.mem_labels_of_addEdge hlabel with hold | ⟨rfl, -, -⟩
      · exact h.isLabel p q label hold
      · exact hsymbol
  · exact Yields.throw _

end Regular

/-- Every call leaves an automaton regular. -/
theorem kept_regular : Kept (Regular (ν := ν)) where
  empty := regular_empty
  apply := by
    intro m op hm
    cases op with
    | addState state => exact Yields.pure (hm.addState state)
    | addSymbol symbol => exact Yields.pure (hm.addSymbol symbol)
    | setInitial state =>
      exact Yields.bind (Yields.any _)
        (fun _ _ => Yields.pure ⟨hm.distinct, hm.inBounds, hm.isLabel⟩)
    | addAccepting state =>
      exact Yields.bind (Yields.any _)
        (fun _ _ => Yields.pure ⟨hm.distinct, hm.inBounds, hm.isLabel⟩)
    | addTransition source symbol target => exact hm.addTransition source symbol target

/-! ## The states in order -/

section Ordered

variable {m : Automaton ν}

/-- Erasing a name leaves the other names. -/
theorem mem_erase_or_beq {names : List ν} {state : ν} (h : state ∈ names) (erased : ν) :
    state ∈ names.erase erased ∨ (state == erased) = true := by
  induction names with
  | nil => cases h
  | cons name rest ih =>
    rw [List.erase_cons]
    cases hname : name == erased with
    | true =>
      rcases List.mem_cons.mp h with rfl | hmem
      · exact .inr hname
      · exact .inl hmem
    | false =>
      rcases List.mem_cons.mp h with rfl | hmem
      · exact .inl List.mem_cons_self
      · exact (ih hmem).imp_left (List.mem_cons_of_mem name)

/-- The order has as many states as were registered. -/
theorem Registered.length_orderedStates (h : m.Registered) :
    m.orderedStates.length = m.states.length := by
  unfold orderedStates
  split
  · rfl
  · next first hfirst =>
    have hknown : m.states.any (fun known => known == first) = true :=
      List.any_eq_true.mpr (vertex?_isSome_iff.mp (h.initial first hfirst))
    obtain ⟨known, hmem, -⟩ := List.any_eq_true.mp hknown
    have hpos : 0 < m.states.length := List.length_pos_of_mem hmem
    rw [List.erase_eq_eraseP', List.length_cons, List.length_eraseP, if_pos hknown]
    omega

variable [EquivBEq ν]

/-- Every state in the order is registered. -/
theorem Registered.vertex?_isSome (h : m.Registered) {state : ν}
    (hstate : state ∈ m.orderedStates) : (m.vertex? state).isSome = true := by
  have hknown : ∀ {known}, known ∈ m.states → (m.vertex? known).isSome = true :=
    fun hmem => vertex?_isSome_iff.mpr ⟨_, hmem, BEq.rfl⟩
  unfold orderedStates at hstate
  split at hstate
  · exact hknown hstate
  · next first hfirst =>
    rcases List.mem_cons.mp hstate with rfl | hmem
    · exact h.initial state hfirst
    · exact hknown (List.mem_of_mem_erase hmem)

/-- Every registered state has its name in the order. -/
theorem exists_mem_orderedStates {state : ν} (h : (m.vertex? state).isSome = true) :
    ∃ known ∈ m.orderedStates, (known == state) = true := by
  obtain ⟨known, hmem, hname⟩ := vertex?_isSome_iff.mp h
  unfold orderedStates
  split
  · exact ⟨known, hmem, hname⟩
  · next first _ =>
    rcases mem_erase_or_beq hmem first with hmem | hsame
    · exact ⟨known, List.mem_cons_of_mem first hmem, hname⟩
    · exact ⟨first, List.mem_cons_self, PartialEquivBEq.trans (BEq.symm hsame) hname⟩

end Ordered

end Automaton

end Kleene
