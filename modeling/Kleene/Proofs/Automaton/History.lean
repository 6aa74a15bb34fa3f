import Kleene.Proofs.Automaton.Listing
import Mathlib.Data.List.Induction

/-!
# Automata built up call by call

A history is a list of calls on an automaton that begins empty; a call that is refused leaves the
automaton as it is. `Listing.succeeded` picks out the calls of a history that are not refused,
judging each by the calls before it and not by the automaton.

The main statement is `replay_represents_succeeded`: after every history the automaton is exactly
what the calls list that were not refused, and it refuses the next call for the fault that this list
shows. Conversely `foldlM_calls` says that every closed listing can be built up part by part without
a call being refused.
-/

set_option autoImplicit false

namespace Kleene

namespace Automaton

/-- The automaton after one more call; a refused call leaves it as it is. -/
def after {ν : Type} [Name ν] (m : Automaton ν) (op : Operation ν) : Automaton ν :=
  match op.apply m with
  | .ok next => next
  | .error _ => m

/-- The automaton that a history of calls leads to. -/
def replay {ν : Type} [Name ν] (history : List (Operation ν)) : Automaton ν :=
  history.foldl after empty

/-- An automaton that some history of calls leads to. -/
def Built (m : Automaton String) : Prop :=
  ∃ history, m = replay history

end Automaton

namespace Listing

/-- The calls of a history that are not refused: those without a fault after the ones before them
that have none. -/
def succeeded (history : List (Operation String)) : List (Operation String) :=
  history.foldl (fun calls op =>
    if ((ofCalls calls).fault? op).isNone then calls ++ [op] else calls) []

/-- A call counts if it has no fault after the calls that counted before it. -/
theorem succeeded_append_singleton (history : List (Operation String)) (op : Operation String) :
    succeeded (history ++ [op]) =
      if ((ofCalls (succeeded history)).fault? op).isNone then succeeded history ++ [op]
      else succeeded history := by
  rw [succeeded, List.foldl_append]
  rfl

/-- What an automaton is said to be when a listing describes it. -/
structure Describes (l : Listing String) (m : Automaton String) : Prop where
  /-- The states are the listed names, each where it was named first. -/
  states : m.states = l.states.eraseDups
  /-- The vertices of the graph are the states, and the state at a place has the vertex with that
  index. -/
  vertices : m.graph.vertices = m.states
  vertex : ∀ p state, m.vertex state = .ok p ↔ m.states[p]? = some state
  /-- The matrix has a row for each state and in each row an entry for each state. -/
  rows : m.graph.rows.length = m.states.length
  columns : ∀ row ∈ m.graph.rows, row.length = m.states.length
  alphabet : m.alphabet = l.symbols.eraseDups
  initial : m.initial = l.initial
  accepting : m.accepting = l.accepting
  /-- There is an edge between two states if a move between them is listed, and its labels are the
  symbols of these moves, each where it was named first. -/
  edge : ∀ p q source target, m.states[p]? = some source → m.states[q]? = some target →
    (m.graph.hasEdge p q = true ↔ ∃ symbol, ⟨source, symbol, target⟩ ∈ l.moves)
  labels : ∀ p q source target, m.states[p]? = some source → m.states[q]? = some target →
    m.graph.labels p q = l.labels source target
  label : ∀ p q, ∀ symbol ∈ m.graph.labels p q, symbol = Name.epsilon ∨ symbol ∈ m.alphabet

/-- The automaton of a closed listing is what the listing describes. -/
theorem describes_automaton {l : Listing String} (h : l.Closed) : l.Describes l.automaton where
  states := rfl
  vertices := rfl
  vertex := by
    intro p state
    rw [Automaton.vertex_eq, states_automaton]
    constructor
    · intro hp
      split at hp
      · next hmem =>
        obtain rfl := Except.ok.inj hp
        exact getElem?_idxOf_states (List.mem_eraseDups.mp hmem)
      · cases hp
    · intro hp
      have hmem : state ∈ l.states.eraseDups := List.mem_of_getElem? hp
      obtain ⟨hlt, -⟩ := List.getElem?_eq_some_iff.mp hp
      rw [if_pos hmem]
      have hplace := getElem?_idxOf_states (List.mem_eraseDups.mp hmem)
      exact congrArg Except.ok
        ((List.getElem?_inj hlt (nodup_eraseDups l.states)).mp (hp.trans hplace.symm)).symm
  rows := by simp [automaton, Automaton.states]
  columns := by
    intro row hrow
    obtain ⟨source, -, rfl⟩ := List.mem_map.mp hrow
    simp
  alphabet := rfl
  initial := rfl
  accepting := rfl
  edge := by
    intro p q source target hp hq
    have hlabels := labels_automaton hp hq
    rw [LabeledGraph.hasEdge, hlabels, Bool.not_eq_true', List.isEmpty_eq_false_iff_exists_mem]
    exact exists_congr (fun symbol => mem_labels)
  labels := fun p q source target hp hq => labels_automaton hp hq
  label := by
    intro p q symbol hsymbol
    obtain ⟨source, target, -, -, hmove⟩ := mem_labels_automaton hsymbol
    exact (h.symbol _ hmove).imp_right List.mem_eraseDups.mpr

/-! ## Building up a listing part by part -/

variable {l : Listing String}

/-- The calls that register the listed states and symbols. -/
def namingCalls (l : Listing String) : List (Operation String) :=
  l.states.map .addState ++ l.symbols.map .addSymbol

/-- The calls for the other parts, which refer to states and symbols. -/
def referringCalls (l : Listing String) : List (Operation String) :=
  l.initial.toList.map .setInitial ++ l.accepting.map .addAccepting ++
    l.moves.map (fun move => .addTransition move.source move.symbol move.target)

/-- The calls for all parts, one after the other. -/
def calls (l : Listing String) : List (Operation String) :=
  l.namingCalls ++ l.referringCalls

/-- The calls of a listing name what it lists. -/
theorem ofCalls_calls (l : Listing String) : ofCalls l.calls = l := by
  have hnone : ∀ {α β : Type} (items : List α),
      items.filterMap (fun _ => (none : Option β)) = [] := by
    intro α β items
    simp
  have hinitial : l.initial.toList.getLast? = l.initial := by
    cases l.initial <;> rfl
  have hmoves : l.moves.filterMap (fun move => some (⟨move.source, move.symbol, move.target⟩ :
      Move String)) = l.moves := List.filterMap_some
  simp only [ofCalls, calls, namingCalls, referringCalls, List.filterMap_append, List.filterMap_map,
    Function.comp_def, Operation.state?, Operation.symbol?, Operation.initial?,
    Operation.accepting?, Operation.move?, hnone, List.filterMap_some, List.append_nil,
    List.nil_append, hinitial, hmoves]

/-- Calls that are made from the start name what they name together. -/
theorem addAll_empty (calls : List (Operation String)) : addAll {} calls = ofCalls calls :=
  (ofCalls_append [] calls).symm

/-- The first fault of calls is one of the first part, or else one of the rest after that part. -/
theorem firstFault?_append (l : Listing String) (calls more : List (Operation String)) :
    l.firstFault? (calls ++ more) =
      (l.firstFault? calls).or ((l.addAll calls).firstFault? more) := by
  induction calls generalizing l with
  | nil => rw [List.nil_append, firstFault?, Option.none_or]; rfl
  | cons op rest ih =>
    rw [List.cons_append, firstFault?, ih, firstFault?, addAll_cons, Option.or_assoc]

/-- The calls that register states and symbols have no fault. -/
theorem firstFault?_namingCalls (l l' : Listing String) : l'.firstFault? l.namingCalls = none := by
  have hstates : l'.firstFault? (l.states.map .addState) = none :=
    firstFault?_map_eq_none (fun _ _ => rfl) l.states l'
  rw [namingCalls, firstFault?_append, hstates, Option.none_or]
  exact firstFault?_map_eq_none (fun _ _ => rfl) l.symbols _

/-- Only the registered states and symbols decide about the fault of a call. -/
theorem fault?_congr {l l' : Listing String} (hstates : l.states = l'.states)
    (hsymbols : l.symbols = l'.symbols) (op : Operation String) : l.fault? op = l'.fault? op := by
  cases op <;> simp only [fault?, stateFault?, symbolFault?, hstates, hsymbols]

/-- After the calls that register the names of a listing, a call has the fault that it has after all
of the listing. -/
theorem fault?_addAll_namingCalls (l : Listing String) (op : Operation String) :
    (addAll {} l.namingCalls).fault? op = l.fault? op := by
  rw [addAll_empty]
  apply fault?_congr
  · simp [ofCalls, namingCalls, Function.comp_def, Operation.state?]
  · simp [ofCalls, namingCalls, Function.comp_def, Operation.symbol?]

/-- The calls that refer to names register none. -/
theorem no_names_referringCalls {op : Operation String} (h : op ∈ l.referringCalls) :
    op.state? = none ∧ op.symbol? = none := by
  simp only [referringCalls, List.mem_append, List.mem_map] at h
  rcases h with (⟨_, -, rfl⟩ | ⟨_, -, rfl⟩) | ⟨_, -, rfl⟩ <;> exact ⟨rfl, rfl⟩

/-- No call of a closed listing has a fault. -/
theorem Closed.fault?_eq_none (h : l.Closed) {op : Operation String} (hop : op ∈ l.referringCalls) :
    l.fault? op = none := by
  have hstate : ∀ state ∈ l.states, l.stateFault? state = none :=
    fun state => (stateFault?_eq_none l state).mpr
  simp only [referringCalls, List.mem_append, List.mem_map] at hop
  rcases hop with (⟨state, hinitial, rfl⟩ | ⟨state, haccepting, rfl⟩) | ⟨move, hmove, rfl⟩
  · exact hstate state (h.initial state (Option.mem_toList.mp hinitial))
  · exact hstate state (h.accepting state haccepting)
  · exact (moveFault?_eq_none l _ _ _).mpr
      ⟨h.source move hmove, h.target move hmove, h.symbol move hmove⟩

/-- Calls have no fault one after the other if neither the first part of them has one nor the rest
after it. -/
theorem firstFault?_append_eq_none {calls more : List (Operation String)} :
    firstFault? {} (calls ++ more) = none ↔
      firstFault? {} calls = none ∧ (ofCalls calls).firstFault? more = none := by
  rw [firstFault?_append, Option.or_eq_none_iff, addAll_empty]

/-- Of the calls for all parts only those that refer to something can have a fault, each for
itself. -/
theorem firstFault?_calls (l : Listing String) :
    firstFault? {} l.calls = l.referringCalls.findSome? l.fault? := by
  have hfault : (addAll {} l.namingCalls).fault? = l.fault? := funext (fault?_addAll_namingCalls l)
  rw [calls, firstFault?_append, firstFault?_namingCalls, Option.none_or,
    firstFault?_eq_findSome? (fun op => no_names_referringCalls), hfault]

/-- The calls of a closed listing have no fault one after the other. -/
theorem Closed.firstFault?_calls (h : l.Closed) : firstFault? {} l.calls = none := by
  rw [Listing.firstFault?_calls, List.findSome?_eq_none_iff]
  intro op hop
  exact h.fault?_eq_none hop

/-- Made one after the other, the calls of a closed listing build up its automaton. -/
theorem foldlM_calls (h : l.Closed) :
    l.calls.foldlM Operation.apply Automaton.empty = .ok l.automaton := by
  have hempty : Automaton.empty = automaton {} := rfl
  rw [hempty, foldlM_apply_automaton closed_empty, h.firstFault?_calls]
  simp only [addAll_empty, ofCalls_calls]

end Listing

namespace Automaton

/-- After one more call an automaton of a closed listing is one again: of the longer listing if the
call has no fault, and of the same listing if it has one. -/
theorem after_automaton {l : Listing String} (h : l.Closed) (op : Operation String) :
    (l.automaton).after op =
      if (l.fault? op).isNone then (l.add op).automaton else l.automaton := by
  rw [after, Listing.apply_automaton h]
  cases l.fault? op <;> rfl

/-- Calls without a fault lead, one by one, to the automaton of the listing with all that they
name. -/
theorem foldl_after_automaton {l : Listing String} (h : l.Closed)
    {calls : List (Operation String)} (hcalls : l.firstFault? calls = none) :
    calls.foldl after l.automaton = (l.addAll calls).automaton := by
  induction calls generalizing l with
  | nil => rfl
  | cons op rest ih =>
    obtain ⟨hop, hrest⟩ := Option.or_eq_none_iff.mp hcalls
    rw [List.foldl_cons, after_automaton h, hop, Listing.addAll_cons]
    exact ih (h.add hop) hrest

/-- The last call of a history is made on what the calls before it lead to. -/
theorem replay_append_singleton (history : List (Operation String)) (op : Operation String) :
    replay (history ++ [op]) = (replay history).after op := by
  rw [replay, List.foldl_append]
  rfl

/-- A history leads to the automaton of the calls that are not refused. -/
theorem replay_eq (history : List (Operation String)) :
    replay history = (Listing.ofCalls (Listing.succeeded history)).automaton ∧
      (Listing.ofCalls (Listing.succeeded history)).Closed := by
  induction history using List.reverseRecOn with
  | nil => exact ⟨rfl, Listing.closed_empty⟩
  | append_singleton history op ih =>
    obtain ⟨hreplay, hclosed⟩ := ih
    rw [replay_append_singleton, hreplay, after_automaton hclosed,
      Listing.succeeded_append_singleton]
    cases hfault : (Listing.ofCalls (Listing.succeeded history)).fault? op with
    | some fault => exact ⟨rfl, hclosed⟩
    | none =>
      simp only [Option.isNone_none, if_true, Listing.ofCalls_append_singleton]
      exact ⟨trivial, hclosed.add hfault⟩

/-- An automaton that is built up call by call is the automaton of some closed listing. -/
theorem Built.exists_listing {m : Automaton String} (h : m.Built) :
    ∃ l : Listing String, l.Closed ∧ m = l.automaton := by
  obtain ⟨history, rfl⟩ := h
  obtain ⟨hreplay, hclosed⟩ := replay_eq history
  exact ⟨_, hclosed, hreplay⟩

/-- The calls of a history that are all made lead to the automaton of what they name. -/
theorem automaton_of_foldlM {history : List (Operation String)} {m : Automaton String}
    (h : history.foldlM Operation.apply empty = .ok m) :
    m = (Listing.ofCalls history).automaton ∧ (Listing.ofCalls history).Closed ∧ m.Built := by
  have hrun := Listing.foldlM_apply_automaton Listing.closed_empty history
  cases hfault : Listing.firstFault? {} history with
  | some fault =>
    rw [hfault] at hrun
    cases hrun.symm.trans h
  | none =>
    rw [hfault] at hrun
    have hclosed := Listing.closed_empty.addAll hfault
    have hreplay : replay history = (Listing.addAll {} history).automaton :=
      foldl_after_automaton Listing.closed_empty hfault
    rw [Listing.addAll_empty] at hrun hclosed hreplay
    obtain rfl := Except.ok.inj (hrun.symm.trans h)
    exact ⟨rfl, hclosed, history, hreplay.symm⟩

/-- After every history, refused calls included, the calls that were not refused describe the
automaton in all its parts. The next call is refused exactly if it refers to a state or a symbol
that none of them registers, for the first such reference, and else leads to the automaton of the
longer history; a refused call changes nothing. -/
theorem replay_represents_succeeded (history : List (Operation String)) :
    (Listing.ofCalls (Listing.succeeded history)).Describes (replay history) ∧
    (∀ op, op.apply (replay history) =
      match (Listing.ofCalls (Listing.succeeded history)).fault? op with
      | some fault => .error fault
      | none => .ok (replay (history ++ [op]))) ∧
    ∀ op fault, op.apply (replay history) = .error fault →
      replay (history ++ [op]) = replay history := by
  obtain ⟨hreplay, hclosed⟩ := replay_eq history
  refine ⟨?_, ?_, ?_⟩
  · rw [hreplay]
    exact Listing.describes_automaton hclosed
  · intro op
    rw [replay_append_singleton, hreplay, after_automaton hclosed, Listing.apply_automaton hclosed]
    cases (Listing.ofCalls (Listing.succeeded history)).fault? op <;> rfl
  · intro op fault hfault
    rw [replay_append_singleton, after, hfault]

end Automaton

end Kleene
