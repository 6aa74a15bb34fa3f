import Kleene.Automaton.Run
import Kleene.Proofs.Distinct
import Mathlib.Data.List.Basic

/-!
# Automata as lists of what was registered

A `Listing` holds the parts of an automaton as they were named, one after the other and with
repetitions. `Listing.automaton` is the automaton of exactly these parts, in closed form: each name
stands once, where it was first named, and the entry of the matrix for two states holds the symbols
of the moves between them, each once. A listing is closed if it names only registered states and
symbols.

`Operation` is one call that builds up an automaton. The main statement is `apply_automaton`: on the
automaton of a closed listing every call either reports the fault that the listing shows, or leads
to the automaton of the listing with one more item, which is closed again.
-/

set_option autoImplicit false

namespace Kleene

/-- One call in the building up of an automaton. -/
inductive Operation (ν : Type) where
  | addState (state : ν)
  | addSymbol (symbol : ν)
  | setInitial (state : ν)
  | addAccepting (state : ν)
  | addTransition (source symbol target : ν)
  deriving Repr, DecidableEq

namespace Operation

variable {ν : Type}

/-- Makes the call on an automaton. -/
def apply [Name ν] (m : Automaton ν) : Operation ν → Except (Failure ν) (Automaton ν)
  | .addState state => .ok (m.addState state)
  | .addSymbol symbol => .ok (m.addSymbol symbol)
  | .setInitial state => m.setInitial state
  | .addAccepting state => m.addAccepting state
  | .addTransition source symbol target => m.addTransition source symbol target

/-- The state that a call registers. -/
def state? : Operation ν → Option ν
  | .addState state => some state
  | _ => none

/-- The symbol that a call adds to the alphabet. -/
def symbol? : Operation ν → Option ν
  | .addSymbol symbol => some symbol
  | _ => none

/-- The state that a call makes the initial one. -/
def initial? : Operation ν → Option ν
  | .setInitial state => some state
  | _ => none

/-- The state that a call names as accepting. -/
def accepting? : Operation ν → Option ν
  | .addAccepting state => some state
  | _ => none

/-- The move that a call adds. -/
def move? : Operation ν → Option (Move ν)
  | .addTransition source symbol target => some ⟨source, symbol, target⟩
  | _ => none

/-- The names that a call is made with. -/
def names : Operation ν → List ν
  | .addState state => [state]
  | .addSymbol symbol => [symbol]
  | .setInitial state => [state]
  | .addAccepting state => [state]
  | .addTransition source symbol target => [source, symbol, target]

/-- The calls that name a move are those that add it. -/
@[simp] theorem move?_eq_some {op : Operation ν} {source symbol target : ν} :
    op.move? = some ⟨source, symbol, target⟩ ↔ op = .addTransition source symbol target := by
  cases op <;> simp [move?]

end Operation

namespace Automaton

/-- The vertex of a registered state is its place among the states. -/
theorem vertex?_eq (m : Automaton String) (state : String) :
    m.vertex? state = if state ∈ m.states then some (m.states.idxOf state) else none :=
  findIdx?_beq m.states state

/-- A registered state has the vertex of its place among the states, and any other state is
reported. -/
theorem vertex_eq (m : Automaton String) (state : String) :
    m.vertex state =
      if state ∈ m.states then .ok (m.states.idxOf state) else .error (.noSuchState state) := by
  rw [vertex, vertex?_eq]
  by_cases h : state ∈ m.states <;> simp [h]

end Automaton

/-- The parts of an automaton as they were named, repetitions included. -/
structure Listing (ν : Type) where
  states : List ν := []
  symbols : List ν := []
  initial : Option ν := none
  accepting : List ν := []
  moves : List (Move ν) := []
  deriving Repr, DecidableEq

namespace Listing

/-- What a list of calls names, in their order. -/
def ofCalls {ν : Type} (calls : List (Operation ν)) : Listing ν where
  states := calls.filterMap Operation.state?
  symbols := calls.filterMap Operation.symbol?
  initial := (calls.filterMap Operation.initial?).getLast?
  accepting := calls.filterMap Operation.accepting?
  moves := calls.filterMap Operation.move?

/-- The symbols of the listed moves from one state to another, each once. -/
def labels (l : Listing String) (source target : String) : List String :=
  ((l.moves.filter (fun move => move.source == source && move.target == target)).map
    Move.symbol).eraseDups

/-- The automaton of exactly the listed parts. -/
def automaton (l : Listing String) : Automaton String where
  graph :=
    { vertices := l.states.eraseDups
      rows := l.states.eraseDups.map (fun source => l.states.eraseDups.map (l.labels source)) }
  alphabet := l.symbols.eraseDups
  initial := l.initial
  accepting := l.accepting

/-- A listing that names only states and symbols of its own. -/
structure Closed (l : Listing String) : Prop where
  initial : ∀ state ∈ l.initial, state ∈ l.states
  accepting : ∀ state ∈ l.accepting, state ∈ l.states
  source : ∀ move ∈ l.moves, move.source ∈ l.states
  target : ∀ move ∈ l.moves, move.target ∈ l.states
  symbol : ∀ move ∈ l.moves, move.symbol = Name.epsilon ∨ move.symbol ∈ l.symbols

/-- Why a state cannot be referred to, if it is not listed. -/
def stateFault? (l : Listing String) (state : String) : Option (Failure String) :=
  if state ∈ l.states then none else some (.noSuchState state)

/-- Why a symbol cannot label a move, if it is neither empty nor listed. -/
def symbolFault? (l : Listing String) (symbol : String) : Option (Failure String) :=
  if symbol = Name.epsilon ∨ symbol ∈ l.symbols then none else some (.noSuchSymbol symbol)

/-- The first fault of a call: its source is looked at before its target and that before its
symbol. -/
def fault? (l : Listing String) : Operation String → Option (Failure String)
  | .addState _ => none
  | .addSymbol _ => none
  | .setInitial state => l.stateFault? state
  | .addAccepting state => l.stateFault? state
  | .addTransition source symbol target =>
    ((l.stateFault? source).or (l.stateFault? target)).or (l.symbolFault? symbol)

/-- The listing with what one more call names. -/
def add (l : Listing String) : Operation String → Listing String
  | .addState state => { l with states := l.states ++ [state] }
  | .addSymbol symbol => { l with symbols := l.symbols ++ [symbol] }
  | .setInitial state => { l with initial := some state }
  | .addAccepting state => { l with accepting := l.accepting ++ [state] }
  | .addTransition source symbol target => { l with moves := l.moves ++ [⟨source, symbol, target⟩] }

/-- A state has no fault exactly if it is registered. -/
@[simp] theorem stateFault?_eq_none (l : Listing String) (state : String) :
    l.stateFault? state = none ↔ state ∈ l.states := by
  simp [stateFault?]

/-- A symbol has no fault exactly if it is the one for the empty word or registered. -/
@[simp] theorem symbolFault?_eq_none (l : Listing String) (symbol : String) :
    l.symbolFault? symbol = none ↔ symbol = Name.epsilon ∨ symbol ∈ l.symbols := by
  rw [symbolFault?]
  split <;> simp_all

/-- A move has no fault exactly if its two states and its symbol have none. -/
theorem moveFault?_eq_none (l : Listing String) (source symbol target : String) :
    l.fault? (.addTransition source symbol target) = none ↔
      source ∈ l.states ∧ target ∈ l.states ∧ (symbol = Name.epsilon ∨ symbol ∈ l.symbols) := by
  simp [fault?, Option.or_eq_none_iff, and_assoc]

/-- A fault of a call is a reference to a state or a symbol that is not listed. -/
theorem fault?_eq_some {l : Listing String} {op : Operation String} {fault : Failure String}
    (h : l.fault? op = some fault) :
    (∃ state ∈ op.names, state ∉ l.states ∧ fault = .noSuchState state) ∨
      ∃ symbol ∈ op.names, symbol ≠ Name.epsilon ∧ symbol ∉ l.symbols ∧
        fault = .noSuchSymbol symbol := by
  have hstate : ∀ state, l.stateFault? state = some fault →
      state ∉ l.states ∧ fault = .noSuchState state := by
    intro state hs
    obtain ⟨hmem, hfault⟩ := Option.ite_none_left_eq_some.mp hs
    exact ⟨hmem, (Option.some.inj hfault).symm⟩
  cases op with
  | addState state => cases h
  | addSymbol symbol => cases h
  | setInitial state => exact .inl ⟨state, by simp [Operation.names], hstate state h⟩
  | addAccepting state => exact .inl ⟨state, by simp [Operation.names], hstate state h⟩
  | addTransition source symbol target =>
    rcases Option.or_eq_some_iff.mp h with h | ⟨-, h⟩
    · rcases Option.or_eq_some_iff.mp h with h | ⟨-, h⟩
      · exact .inl ⟨source, by simp [Operation.names], hstate source h⟩
      · exact .inl ⟨target, by simp [Operation.names], hstate target h⟩
    · obtain ⟨hmem, hfault⟩ := Option.ite_none_left_eq_some.mp h
      rw [not_or] at hmem
      exact .inr ⟨symbol, by simp [Operation.names], hmem.1, hmem.2,
        (Option.some.inj hfault).symm⟩

/-- The last call adds to what the calls before it name. -/
theorem ofCalls_append_singleton (calls : List (Operation String)) (op : Operation String) :
    ofCalls (calls ++ [op]) = (ofCalls calls).add op := by
  cases op <;> simp [ofCalls, add, Operation.state?, Operation.symbol?, Operation.initial?,
    Operation.accepting?, Operation.move?]

/-- A move is listed exactly if some call adds it. -/
@[simp] theorem mem_moves_ofCalls {calls : List (Operation String)}
    {source symbol target : String} :
    ⟨source, symbol, target⟩ ∈ (ofCalls calls).moves ↔
      .addTransition source symbol target ∈ calls := by
  simp [ofCalls, List.mem_filterMap]

/-- A listing of nothing refers to nothing. -/
theorem closed_empty : Closed {} where
  initial := by simp
  accepting := by simp
  source := by simp
  target := by simp
  symbol := by simp

/-- A listing stays closed under a call without fault. -/
theorem Closed.add {l : Listing String} (h : l.Closed) {op : Operation String}
    (hop : l.fault? op = none) : (l.add op).Closed := by
  cases op with
  | addState state =>
    exact
      { initial := fun s hs => List.mem_append_left _ (h.initial s hs)
        accepting := fun s hs => List.mem_append_left _ (h.accepting s hs)
        source := fun move hm => List.mem_append_left _ (h.source move hm)
        target := fun move hm => List.mem_append_left _ (h.target move hm)
        symbol := h.symbol }
  | addSymbol symbol =>
    exact
      { h with symbol := fun move hm => (h.symbol move hm).imp_right (List.mem_append_left _) }
  | setInitial state =>
    have hstate : state ∈ l.states := (stateFault?_eq_none l state).mp hop
    refine { h with initial := ?_ }
    intro s hs
    obtain rfl : state = s := by simpa [Listing.add] using hs
    exact hstate
  | addAccepting state =>
    have hstate : state ∈ l.states := (stateFault?_eq_none l state).mp hop
    refine { h with accepting := ?_ }
    intro s hs
    rcases List.mem_append.mp hs with hs | hs
    · exact h.accepting s hs
    · obtain rfl := List.mem_singleton.mp hs
      exact hstate
  | addTransition source symbol target =>
    obtain ⟨hsource, htarget, hsymbol⟩ := (moveFault?_eq_none l source symbol target).mp hop
    have key : ∀ P : Move String → Prop, (∀ move ∈ l.moves, P move) → P ⟨source, symbol, target⟩ →
        ∀ move ∈ l.moves ++ [⟨source, symbol, target⟩], P move := by
      intro P hl hnew move hm
      rcases List.mem_append.mp hm with hm | hm
      · exact hl move hm
      · obtain rfl := List.mem_singleton.mp hm
        exact hnew
    exact
      { initial := h.initial
        accepting := h.accepting
        source := key (fun move => move.source ∈ l.states) h.source hsource
        target := key (fun move => move.target ∈ l.states) h.target htarget
        symbol := key _ h.symbol hsymbol }

/-! ## The automaton of a listing -/

/-- The states of the automaton are those that are listed, each of them once. -/
@[simp] theorem states_automaton (l : Listing String) : l.automaton.states = l.states.eraseDups :=
  rfl

/-- The alphabet of the automaton is that which is listed, each symbol of it once. -/
@[simp] theorem alphabet_automaton (l : Listing String) :
    l.automaton.alphabet = l.symbols.eraseDups :=
  rfl

/-- A symbol is a label between two states exactly if a move by it is listed. -/
theorem mem_labels {l : Listing String} {source symbol target : String} :
    symbol ∈ l.labels source target ↔ ⟨source, symbol, target⟩ ∈ l.moves := by
  simp only [labels, List.mem_eraseDups, List.mem_map, List.mem_filter, Bool.and_eq_true,
    beq_iff_eq]
  constructor
  · rintro ⟨move, ⟨hmove, rfl, rfl⟩, rfl⟩
    exact hmove
  · intro hmove
    exact ⟨⟨source, symbol, target⟩, ⟨hmove, rfl, rfl⟩, rfl⟩

/-- The edge between the places of two states has the labels that are listed between the states. -/
theorem labels_automaton {l : Listing String} {p q : Nat} {source target : String}
    (hp : l.states.eraseDups[p]? = some source) (hq : l.states.eraseDups[q]? = some target) :
    l.automaton.graph.labels p q = l.labels source target := by
  simp [LabeledGraph.labels, LabeledGraph.row, automaton, hp, hq]

/-- A label in the matrix is the symbol of a listed move between the two states. -/
theorem mem_labels_automaton {l : Listing String} {p q : Nat} {symbol : String}
    (h : symbol ∈ l.automaton.graph.labels p q) :
    ∃ source target, l.states.eraseDups[p]? = some source ∧ l.states.eraseDups[q]? = some target ∧
      ⟨source, symbol, target⟩ ∈ l.moves := by
  cases hp : l.states.eraseDups[p]? with
  | none => simp [LabeledGraph.labels, LabeledGraph.row, automaton, hp] at h
  | some source =>
    cases hq : l.states.eraseDups[q]? with
    | none => simp [LabeledGraph.labels, LabeledGraph.row, automaton, hp, hq] at h
    | some target =>
      rw [labels_automaton hp hq] at h
      exact ⟨source, target, rfl, rfl, mem_labels.mp h⟩

/-- A state that is not listed has no moves to it. -/
theorem Closed.labels_of_target_not_mem {l : Listing String} (h : l.Closed) {target : String}
    (htarget : target ∉ l.states) (source : String) : l.labels source target = [] := by
  rw [List.eq_nil_iff_forall_not_mem]
  intro symbol hsymbol
  exact htarget (h.target _ (mem_labels.mp hsymbol))

/-- No label is listed from a state that is not registered. -/
theorem Closed.labels_of_source_not_mem {l : Listing String} (h : l.Closed) {source : String}
    (hsource : source ∉ l.states) (target : String) : l.labels source target = [] := by
  rw [List.eq_nil_iff_forall_not_mem]
  intro symbol hsymbol
  exact hsource (h.source _ (mem_labels.mp hsymbol))

/-- One more move adds its symbol between its own two states and nowhere else. -/
theorem labels_add_move (l : Listing String) (source symbol target s t : String) :
    (l.add (.addTransition source symbol target)).labels s t =
      if s = source ∧ t = target then LabeledGraph.insertLabel symbol (l.labels s t)
      else l.labels s t := by
  by_cases h : s = source ∧ t = target
  · obtain ⟨rfl, rfl⟩ := h
    simp only [labels, add, List.filter_append, List.map_append, List.filter_cons, beq_self_eq_true,
      Bool.and_self, if_true, List.filter_nil, List.map_cons, List.map_nil,
      eraseDups_append_singleton, and_self, LabeledGraph.insertLabel, List.contains_eq_mem,
      List.mem_eraseDups]
  · have hskip : (source == s && target == t) = false := by
      rw [Bool.eq_false_iff]
      intro hst
      rw [Bool.and_eq_true, beq_iff_eq, beq_iff_eq] at hst
      exact h ⟨hst.1.symm, hst.2.symm⟩
    simp [labels, add, hskip, h]

/-! ## Calls on the automaton of a listing -/

/-- A state is looked up in the automaton with the fault that it has for the listing. -/
theorem vertex_automaton (l : Listing String) (state : String) :
    l.automaton.vertex state =
      match l.stateFault? state with
      | some fault => .error fault
      | none => .ok (l.states.eraseDups.idxOf state) := by
  rw [Automaton.vertex_eq, states_automaton, stateFault?]
  by_cases h : state ∈ l.states <;> simp [h, List.mem_eraseDups]

/-- To register a state in the automaton is to list it. -/
theorem addState_automaton {l : Listing String} (h : l.Closed) (state : String) :
    l.automaton.addState state = (l.add (.addState state)).automaton := by
  have hlabels : (l.add (.addState state)).labels = l.labels := rfl
  have hstates : (l.add (.addState state)).states.eraseDups = _ :=
    eraseDups_append_singleton l.states state
  by_cases hmem : state ∈ l.states
  · rw [if_pos (by simpa using hmem)] at hstates
    have hknown : (l.automaton.vertex? state).isSome = true := by
      simp [Automaton.vertex?_eq, List.mem_eraseDups, hmem]
    rw [Automaton.addState, if_pos hknown]
    simp only [automaton, hstates, hlabels]
    rfl
  · rw [if_neg (by simpa using hmem)] at hstates
    have hunknown : (l.automaton.vertex? state).isSome = false := by
      simp [Automaton.vertex?_eq, List.mem_eraseDups, hmem]
    have hcolumn : ∀ source, l.labels source state = [] := h.labels_of_target_not_mem hmem
    have hrow : l.labels state = fun _ => [] := funext (h.labels_of_source_not_mem hmem)
    have hgraph : l.automaton.graph.addVertex state =
        (l.add (.addState state)).automaton.graph := by
      simp only [automaton, hstates, hlabels, LabeledGraph.addVertex, LabeledGraph.size,
        List.map_append, List.map_map, List.map_cons, List.map_nil, hcolumn, hrow]
      simp [Function.comp_def, List.map_const', List.replicate_succ']
    rw [Automaton.addState, if_neg (by simp [hunknown]), hgraph]
    rfl

/-- To register a symbol in the automaton is to list it. -/
theorem addSymbol_automaton (l : Listing String) (symbol : String) :
    l.automaton.addSymbol symbol = (l.add (.addSymbol symbol)).automaton := by
  have hcontains : l.automaton.alphabet.contains symbol = l.symbols.contains symbol := by
    rw [Bool.eq_iff_iff, List.contains_iff_mem, List.contains_iff_mem, alphabet_automaton,
      List.mem_eraseDups]
  have halphabet := eraseDups_append_singleton l.symbols symbol
  rw [Automaton.addSymbol, hcontains]
  cases hs : l.symbols.contains symbol <;>
    simp_all [automaton, add, labels]

/-- A registered state stands at its place. -/
theorem getElem?_idxOf_states {l : Listing String} {state : String} (h : state ∈ l.states) :
    l.states.eraseDups[l.states.eraseDups.idxOf state]? = some state := by
  exact List.getElem?_idxOf (List.mem_eraseDups.mpr h)

/-- To put a label between the vertices of two states is to list the move. -/
theorem addEdge_automaton {l : Listing String} {source target : String}
    (hsource : source ∈ l.states) (htarget : target ∈ l.states) (symbol : String) :
    l.automaton.graph.addEdge (l.states.eraseDups.idxOf source) (l.states.eraseDups.idxOf target)
      symbol = (l.add (.addTransition source symbol target)).automaton.graph := by
  have hentry : ∀ s, (if s = source then
        (l.states.eraseDups.map (l.labels s)).modify (l.states.eraseDups.idxOf target)
          (LabeledGraph.insertLabel symbol)
      else l.states.eraseDups.map (l.labels s)) =
      l.states.eraseDups.map ((l.add (.addTransition source symbol target)).labels s) := by
    intro s
    rw [modify_map_of_nodup (nodup_eraseDups l.states) (getElem?_idxOf_states htarget)]
    by_cases hs : s = source
    · rw [if_pos hs]
      exact List.map_congr_left (fun t _ => by simp [labels_add_move, hs])
    · rw [if_neg hs]
      exact List.map_congr_left (fun t _ => by simp [labels_add_move, hs])
  simp only [automaton, LabeledGraph.addEdge,
    modify_map_of_nodup (nodup_eraseDups l.states) (getElem?_idxOf_states hsource), hentry]
  rfl

/-- A symbol may label a move if it is empty or listed, another is a fault. -/
theorem isLabel_automaton (l : Listing String) (symbol : String) :
    l.automaton.isLabel symbol = (l.symbolFault? symbol).isNone := by
  rw [Bool.eq_iff_iff, Option.isNone_iff_eq_none, symbolFault?_eq_none, Automaton.isLabel,
    Bool.or_eq_true, beq_iff_eq, List.contains_iff_mem, alphabet_automaton, List.mem_eraseDups]

/-- On the automaton of a closed listing a call reports the fault that the listing shows, or leads
to the automaton of the listing with one item more. -/
theorem apply_automaton {l : Listing String} (h : l.Closed) (op : Operation String) :
    op.apply l.automaton =
      match l.fault? op with
      | some fault => .error fault
      | none => .ok (l.add op).automaton := by
  cases op with
  | addState state => exact congrArg Except.ok (addState_automaton h state)
  | addSymbol symbol => exact congrArg Except.ok (addSymbol_automaton l symbol)
  | setInitial state =>
    simp only [Operation.apply, Automaton.setInitial, vertex_automaton, fault?]
    cases l.stateFault? state <;> rfl
  | addAccepting state =>
    simp only [Operation.apply, Automaton.addAccepting, vertex_automaton, fault?]
    cases l.stateFault? state <;> rfl
  | addTransition source symbol target =>
    simp only [Operation.apply, Automaton.addTransition, vertex_automaton, fault?]
    cases hsource : l.stateFault? source with
    | some fault => rfl
    | none =>
      cases htarget : l.stateFault? target with
      | some fault => rfl
      | none =>
        rw [stateFault?_eq_none] at hsource htarget
        have hgraph := addEdge_automaton hsource htarget symbol
        rw [isLabel_automaton]
        cases hsymbol : l.symbolFault? symbol with
        | some fault =>
          obtain rfl : .noSuchSymbol symbol = fault := by
            simpa [symbolFault?] using (Option.ite_none_left_eq_some.mp hsymbol).2
          rfl
        | none =>
          exact congrArg (fun graph => Except.ok { l.automaton with graph := graph }) hgraph

/-! ## Many calls one after the other -/

/-- The listing with what more calls name. -/
def addAll (l : Listing String) (calls : List (Operation String)) : Listing String :=
  calls.foldl add l

/-- The fault of the first call that has one, if each call is made after those before it. -/
def firstFault? (l : Listing String) : List (Operation String) → Option (Failure String)
  | [] => none
  | op :: rest => (l.fault? op).or ((l.add op).firstFault? rest)

/-- Calls are added one after the other. -/
@[simp] theorem addAll_cons (l : Listing String) (op : Operation String)
    (rest : List (Operation String)) : l.addAll (op :: rest) = (l.add op).addAll rest :=
  rfl

/-- What more calls name stands after what was named before. -/
theorem ofCalls_append (calls more : List (Operation String)) :
    ofCalls (calls ++ more) = (ofCalls calls).addAll more := by
  induction more generalizing calls with
  | nil => exact congrArg ofCalls (List.append_nil calls)
  | cons op rest ih =>
    rw [List.append_cons, ih, ofCalls_append_singleton, addAll_cons]

/-- Calls without a fault leave every reference resolved. -/
theorem Closed.addAll {l : Listing String} (h : l.Closed) {calls : List (Operation String)}
    (hcalls : l.firstFault? calls = none) : (l.addAll calls).Closed := by
  induction calls generalizing l with
  | nil => exact h
  | cons op rest ih =>
    obtain ⟨hop, hrest⟩ := Option.or_eq_none_iff.mp hcalls
    exact ih (h.add hop) hrest

/-- Calls that are made until one is refused report the first fault, or lead to the automaton of the
listing with all that they name. -/
theorem foldlM_apply_automaton {l : Listing String} (h : l.Closed)
    (calls : List (Operation String)) :
    calls.foldlM Operation.apply l.automaton =
      match l.firstFault? calls with
      | some fault => .error fault
      | none => .ok (l.addAll calls).automaton := by
  induction calls generalizing l with
  | nil => rfl
  | cons op rest ih =>
    rw [List.foldlM_cons, apply_automaton h, firstFault?, addAll_cons]
    cases hop : l.fault? op with
    | some fault => rfl
    | none => exact ih (h.add hop)

/-- The first fault of many calls is a fault of one of them, or rather of what is listed by then. -/
theorem exists_fault?_of_firstFault? {l : Listing String} {calls : List (Operation String)}
    {fault : Failure String} (h : l.firstFault? calls = some fault) :
    ∃ before op, op ∈ calls ∧ (l.addAll before).fault? op = some fault := by
  induction calls generalizing l with
  | nil => cases h
  | cons op rest ih =>
    rcases Option.or_eq_some_iff.mp h with h | ⟨-, h⟩
    · exact ⟨[], op, List.mem_cons_self, h⟩
    · obtain ⟨before, other, hother, hfault⟩ := ih h
      exact ⟨op :: before, other, List.mem_cons_of_mem _ hother, hfault⟩

/-- Calls of a kind that never has a fault have none one after the other. -/
theorem firstFault?_map_eq_none {α : Type} {make : α → Operation String}
    (h : ∀ (l : Listing String) a, l.fault? (make a) = none) (items : List α)
    (l : Listing String) : l.firstFault? (items.map make) = none := by
  induction items generalizing l with
  | nil => rfl
  | cons a rest ih =>
    rw [List.map_cons, firstFault?, h, ih]
    rfl

/-- Calls that register nothing are judged by what was registered before them, each for itself. -/
theorem firstFault?_eq_findSome? {l : Listing String} {calls : List (Operation String)}
    (hnames : ∀ op ∈ calls, op.state? = none ∧ op.symbol? = none) :
    l.firstFault? calls = calls.findSome? l.fault? := by
  induction calls generalizing l with
  | nil => rfl
  | cons op rest ih =>
    obtain ⟨hop, hrest⟩ := List.forall_mem_cons.mp hnames
    have hsame : (l.add op).fault? = l.fault? := by
      cases op with
      | addState state => cases hop.1
      | addSymbol symbol => cases hop.2
      | setInitial state => rfl
      | addAccepting state => rfl
      | addTransition source symbol target => rfl
    rw [firstFault?, ih hrest, hsame, List.findSome?_cons]
    cases l.fault? op <;> rfl

end Listing

end Kleene
