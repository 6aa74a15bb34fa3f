import Kleene.Proofs.Automaton.Document
import Kleene.Proofs.Expression.Table
import Kleene.Automaton.Run
import Kleene.Expression.Derivation

/-!
# Other names do not change what an automaton does

A change of names that keeps what the library asks of them goes through the checks of an automaton,
through its runs and through the derivation of its expression. The outcome is the same with the
other names in it (`simulate_map`), so the same words are accepted (`accepts_map`); and where the
names are written in the same way as before, so is the expression (`expression_map`).
-/

set_option autoImplicit false

namespace Kleene

section Data

variable {ν μ : Type}

/-- An edge with its labels renamed. -/
def Edge.map (f : ν → μ) (edge : Edge ν) : Edge μ where
  source := edge.source
  target := edge.target
  labels := edge.labels.map f

/-- A move with its names renamed. -/
def Move.map (f : ν → μ) (move : Move ν) : Move μ where
  source := f move.source
  symbol := f move.symbol
  target := f move.target

/-- A reason with the names in it renamed. -/
def Reason.map (f : ν → μ) : Reason ν → Reason μ
  | .notInAlphabet symbol => .notInAlphabet (f symbol)
  | .noMove symbol state => .noMove (f symbol) (f state)
  | .notAccepting state => .notAccepting (f state)

/-- An outcome with the names in it renamed. -/
def Outcome.map (f : ν → μ) : Outcome ν → Outcome μ
  | .accepted path => .accepted (path.map (Move.map f))
  | .rejected path reason position => .rejected (path.map (Move.map f)) (reason.map f) position

/-- What a computation came to, where its result is changed and a failure has other names. -/
def carried (f : ν → μ) {α β : Type} (change : α → β) :
    Except (Failure ν) α → Except (Failure μ) β
  | .ok a => .ok (change a)
  | .error failure => .error (failure.map f)

variable {f : ν → μ} {α β α' β' : Type} {change : α → β} {change' : α' → β'}

/-- A computation in two steps is carried over step by step. -/
theorem carried_bind {first : Except (Failure ν) α} {rest : α → Except (Failure ν) α'}
    {rest' : β → Except (Failure μ) β'} (h : ∀ a, rest' (change a) = carried f change' (rest a)) :
    (carried f change first >>= rest') = carried f change' (first >>= rest) := by
  cases first with
  | error failure => rfl
  | ok a => exact h a

/-- A result without names in it is the same before and after. -/
theorem carried_id_eq_ok_iff {outcome : Except (Failure ν) α} {a : α} :
    carried f id outcome = .ok a ↔ outcome = .ok a := by
  cases outcome <;> simp [carried]

/-- A list of results is carried over if each of them is. -/
theorem carried_mapM {step : α → Except (Failure ν) α'} {step' : β → Except (Failure μ) β'}
    (h : ∀ a, step' (change a) = carried f change' (step a)) (items : List α) :
    (items.map change).mapM step' = carried f (List.map change') (items.mapM step) := by
  induction items with
  | nil => rfl
  | cons a rest ih =>
    rw [List.map_cons, List.mapM_cons, List.mapM_cons, h, ih]
    exact carried_bind fun first => carried_bind fun others => rfl

end Data

/-! ## The graph -/

namespace Automaton

variable {ν μ : Type} (f : ν → μ) (m : Automaton ν)

/-- The edges from a vertex carry the new names. -/
theorem edgesFrom_map (i : Nat) :
    (m.map f).graph.edgesFrom i = (m.graph.edgesFrom i).map (Edge.map f) := by
  have hrow : (m.map f).graph.row i = (m.graph.row i).map (List.map f) := by
    unfold LabeledGraph.row Automaton.map
    rw [List.getElem?_map]
    cases m.graph.rows[i]? <;> rfl
  unfold LabeledGraph.edgesFrom
  rw [hrow, List.zipIdx_map, List.filterMap_map, List.map_filterMap]
  apply List.filterMap_congr
  rintro ⟨labels, j⟩ -
  cases labels <;> rfl

/-- New names change nothing about what a vertex leads to. -/
theorem successors_map : (m.map f).graph.successors = m.graph.successors := by
  funext i
  unfold LabeledGraph.successors
  rw [edgesFrom_map, List.map_map]
  rfl

/-- New names change nothing about the number of vertices. -/
theorem size_map : (m.map f).graph.size = m.graph.size :=
  List.length_map f

/-- The symbols of the edges from a vertex are renamed one by one. -/
theorem symbolsFrom_map (i : Nat) : (m.map f).symbolsFrom i = (m.symbolsFrom i).map f := by
  unfold symbolsFrom
  rw [edgesFrom_map, List.flatMap_map, List.map_flatMap]
  rfl

end Automaton

namespace KeepsNames

variable {ν μ : Type} [Name ν] [Name μ] {f : ν → μ} (h : KeepsNames f) (m : Automaton ν)

include h

/-! ## The checks -/

/-- A state is looked up under its new name as under its old one. -/
theorem vertex_map (state : ν) : (m.map f).vertex (f state) = carried f id (m.vertex state) := by
  unfold Automaton.vertex
  rw [h.vertex?_map]
  cases m.vertex? state <;> rfl

/-- New names change nothing about whether all states can be reached. -/
theorem isJoint_map : (m.map f).isJoint = m.isJoint := by
  have hstart : (m.map f).initial.bind (m.map f).vertex? = m.initial.bind m.vertex? := by
    show (m.initial.map f).bind _ = _
    cases m.initial with
    | none => rfl
    | some state => exact h.vertex?_map m state
  unfold Automaton.isJoint LabeledGraph.isJoint LabeledGraph.reachable
  rw [hstart, Automaton.successors_map, Automaton.size_map]

/-- Names repeat under new names exactly if they repeat. -/
theorem hasRepetition_map (names : List ν) :
    Automaton.hasRepetition (names.map f) = Automaton.hasRepetition names := by
  induction names with
  | nil => rfl
  | cons name rest ih =>
    rw [List.map_cons, Automaton.hasRepetition, Automaton.hasRepetition, h.contains_map, ih]

/-- A vertex has a choice under new names exactly if it has one. -/
theorem hasChoice_map (i : Nat) : (m.map f).hasChoice i = m.hasChoice i := by
  unfold Automaton.hasChoice
  rw [Automaton.symbolsFrom_map, ← h.epsilon, h.contains_map, h.hasRepetition_map]

/-- The state with a choice is the same one under its new name. -/
theorem nondeterministicState_map :
    (m.map f).nondeterministicState = m.nondeterministicState.map f := by
  have hchoice : (m.map f).hasChoice = m.hasChoice := funext (h.hasChoice_map m)
  unfold Automaton.nondeterministicState
  rw [hchoice, Automaton.size_map]
  cases (List.range m.graph.size).find? m.hasChoice with
  | none => rfl
  | some i =>
    show ((m.graph.vertices.map f)[i]?.bind Name.orNone) = (m.graph.vertices[i]?.bind _).map f
    rw [List.getElem?_map]
    cases m.graph.vertices[i]? with
    | none => rfl
    | some state => exact h.orNone_map state

/-- An automaton is valid under new names exactly if it is, and fails for the same reason if it is
not. -/
theorem validate_map : (m.map f).validate = carried f id m.validate := by
  have hinitial : (m.map f).hasInitialState = m.hasInitialState := Option.isSome_map
  unfold Automaton.validate
  rw [hinitial, h.isJoint_map, h.nondeterministicState_map]
  cases m.hasInitialState <;> cases m.isJoint <;> cases m.nondeterministicState <;> rfl

/-! ## Runs -/

/-- A symbol leads under new names to the new name of the state that it leads to. -/
theorem nextState_map (state symbol : ν) :
    (m.map f).nextState (f state) (f symbol) =
      carried f (Option.map f) (m.nextState state symbol) := by
  have hcarries : (fun edge : Edge μ => edge.labels.contains (f symbol)) ∘ Edge.map f =
      fun edge => edge.labels.contains symbol :=
    funext fun edge => h.contains_map edge.labels symbol
  unfold Automaton.nextState
  rw [h.vertex_map]
  refine carried_bind fun i => congrArg Except.ok ?_
  show ((m.map f).graph.edgesFrom i).find? _ >>= _ = _
  rw [Automaton.edgesFrom_map, List.find?_map, hcarries]
  cases (m.graph.edgesFrom i).find? (fun edge => edge.labels.contains symbol) with
  | none => rfl
  | some edge =>
    show ((m.graph.vertices.map f)[edge.target]?.bind Name.orNone) =
      (m.graph.vertices[edge.target]?.bind Name.orNone).map f
    rw [List.getElem?_map]
    cases m.graph.vertices[edge.target]? with
    | none => rfl
    | some target => exact h.orNone_map target

/-- A run under new names is the run with the names in it changed. -/
theorem runFrom_map (state : ν) (position : Nat) (word : List ν) :
    (m.map f).runFrom (f state) position (word.map f) =
      carried f (Outcome.map f) (m.runFrom state position word) := by
  induction word generalizing state position with
  | nil =>
    have haccepting : (m.map f).accepting.contains (f state) = m.accepting.contains state :=
      h.contains_map m.accepting state
    rw [List.map_nil, Automaton.runFrom, Automaton.runFrom, haccepting]
    split <;> rfl
  | cons symbol word ih =>
    have hsymbol : (m.map f).alphabet.contains (f symbol) = m.alphabet.contains symbol :=
      h.contains_map m.alphabet symbol
    rw [List.map_cons, Automaton.runFrom, Automaton.runFrom, hsymbol, h.nextState_map]
    cases m.alphabet.contains symbol with
    | false => rfl
    | true =>
      refine carried_bind fun next? => ?_
      cases next? with
      | none => rfl
      | some target =>
        show ((m.map f).runFrom (f target) (position + 1) (word.map f) >>= _) = _
        rw [ih]
        refine carried_bind fun outcome => ?_
        cases outcome <;> rfl

/-- A word with other names is run on with the same outcome, but for the names in it. -/
theorem simulate_map (word : List ν) :
    (m.map f).simulate (word.map f) = carried f (Outcome.map f) (m.simulate word) := by
  unfold Automaton.simulate
  rw [h.validate_map]
  refine carried_bind fun _ => ?_
  have hinitial : (m.map f).initial = m.initial.map f := rfl
  rw [hinitial]
  cases m.initial with
  | none => rfl
  | some state => exact h.runFrom_map m state 0 word

/-- A word of new names is accepted exactly if the word is. -/
theorem accepts_map (word : List ν) :
    (m.map f).accepts (word.map f) = carried f id (m.accepts word) := by
  unfold Automaton.accepts
  rw [h.simulate_map]
  refine carried_bind fun outcome => ?_
  cases outcome <;> rfl

/-! ## The order of the states -/

/-- To take a name off a list and to rename can be done in either order. -/
theorem erase_map (names : List ν) (name : ν) :
    (names.map f).erase (f name) = (names.erase name).map f := by
  induction names with
  | nil => rfl
  | cons first rest ih =>
    rw [List.map_cons, List.erase_cons, List.erase_cons, h.beq, ih]
    split <;> rfl

/-- To take repetitions off a list and to rename can be done in either order. -/
theorem eraseDups_map (names : List ν) : (names.map f).eraseDups = names.eraseDups.map f := by
  induction hn : names.length using Nat.strongRecOn generalizing names with
  | ind n ih =>
    cases names with
    | nil => rfl
    | cons first rest =>
      have hkept : (fun b => !b == f first) ∘ f = fun b => !b == first :=
        funext fun b => congrArg not (h.beq b first)
      have hle := List.length_filter_le (fun b => !b == first) rest
      rw [List.length_cons] at hn
      rw [List.map_cons, List.eraseDups_cons, List.filter_map, hkept,
        ih _ (by omega) (rest.filter (fun b => !b == first)) rfl, List.eraseDups_cons,
        List.map_cons]

/-- The states are renamed in their order. -/
theorem orderedStates_map : (m.map f).orderedStates = m.orderedStates.map f := by
  have hinitial : (m.map f).initial = m.initial.map f := rfl
  unfold Automaton.orderedStates
  rw [hinitial]
  cases m.initial with
  | none => rfl
  | some state => exact congrArg (f state :: ·) (h.erase_map m.states state)

end KeepsNames

/-! ## Expressions -/

/-- The builder for the automaton with other names. -/
def Builder.map {ν μ : Type} (f : ν → μ) (b : Builder ν) : Builder μ where
  spelling := b.spelling
  order := b.order.map f
  vertices := b.vertices
  table := b.table

/-- What a change of names has to keep for expressions to stay the same. -/
structure KeepsForms {ν μ : Type} [Name ν] [Name μ] (f : ν → μ) : Prop extends KeepsNames f where
  text? : ∀ a, Name.text? (f a) = Name.text? a
  display : ∀ a, Name.display (f a) = Name.display a
  kind : ∀ a, Name.kind (f a) = Name.kind a

namespace KeepsForms

variable {ν μ : Type} [Name ν] [Name μ] {f : ν → μ} (h : KeepsForms f) (b : Builder ν)
  (m : Automaton ν)

omit [Name ν] [Name μ] in
/-- A position in the order of the states has the same vertex under new names. -/
theorem vertexAt_map (position : Int) :
    (b.map f).vertexAt position = carried f id (b.vertexAt position) := by
  unfold Builder.vertexAt Builder.map Failure.noEntry
  cases (place? b.vertices.length position).bind (fun i => b.vertices[i]?) with
  | some v => rfl
  | none =>
    dsimp only
    split <;> rfl

include h

/-- A label is written the same under its new name. -/
theorem labelText_map (label : ν) :
    (b.map f).labelText (f label) = carried f id (b.labelText label) := by
  unfold Builder.labelText
  rw [h.text?, h.display, h.kind]
  cases Name.text? label with
  | some text => rfl
  | none =>
    by_cases htexts : b.spelling.textsOnly = true <;>
      simp [Builder.map, htexts, carried, Failure.map]

/-- The expression for single moves is the same under new names. -/
theorem direct_map (i j : Int) :
    (b.map f).direct (m.map f) i j = carried f id (b.direct m i j) := by
  unfold Builder.direct
  rw [vertexAt_map, vertexAt_map]
  refine carried_bind fun v => carried_bind fun w => ?_
  have hlabels := carried_mapM (h.labelText_map b) (m.graph.labels v w)
  rw [List.map_id_fun] at hlabels
  rw [id, id, Automaton.labels_map, hlabels]
  refine carried_bind fun symbols => ?_
  dsimp only [Builder.map, id]
  split
  · rfl
  · split <;> rfl

/-- The expression for the ways through the first states is the same under new names. -/
theorem plainBelow_map (k : Nat) (i j : Int) :
    (b.map f).plainBelow (m.map f) k i j = carried f id (b.plainBelow m k i j) := by
  induction k generalizing i j with
  | zero => exact h.direct_map b m i j
  | succ k ih =>
    rw [Builder.plainBelow, Builder.plainBelow, ih, ih, ih, ih]
    exact carried_bind fun _ => carried_bind fun _ => carried_bind fun _ =>
      carried_bind fun _ => rfl

/-- The expression for the ways to a state is the same under new names. -/
theorem plainTo_map (state : ν) :
    (b.map f).plainTo (m.map f) (f state) = carried f id (b.plainTo m state) := by
  have hposition : (b.map f).position? (f state) = b.position? state := by
    show (b.order.map f).findIdx? (fun name => name == f state) = _
    rw [List.findIdx?_map]
    simp only [Function.comp_def, h.beq]
    rfl
  have hlength : (b.map f).order.length = b.order.length := List.length_map f
  unfold Builder.plainTo Builder.plain
  rw [hposition, hlength]
  cases b.position? state with
  | none => rfl
  | some position =>
    dsimp only
    cases (b.order.length : Int) - 1 with
    | ofNat k => exact h.plainBelow_map b m (k + 1) 0 position
    | negSucc k => exact h.direct_map b m 0 position

/-- The expression of the whole automaton is the same under new names. -/
theorem plainWhole_map :
    (b.map f).plainWhole (m.map f) = carried f id (b.plainWhole m) := by
  have haccepting : (m.map f).accepting = m.accepting.map f := rfl
  unfold Builder.plainWhole
  rw [haccepting, List.isEmpty_map, h.eraseDups_map]
  split
  · rfl
  · rw [carried_mapM (h.plainTo_map b m)]
    refine carried_bind fun alternatives => ?_
    rw [List.map_id]
    rfl

/-- With other names that are written alike the expression is the same. -/
theorem expression_map (s : Spelling) :
    (m.map f).expression s = carried f id (m.expression s) := by
  have hbuilder : Builder.ofAutomaton (m.map f) s = (Builder.ofAutomaton m s).map f := by
    have hvertex : (m.map f).vertex? ∘ f = m.vertex? := funext (h.vertex?_map m)
    unfold Builder.ofAutomaton Builder.map
    rw [h.orderedStates_map, List.filterMap_map, hvertex]
  unfold Automaton.expression
  rw [h.validate_map, hbuilder, (Builder.build_eq Builder.faithful_nil).1,
    (Builder.build_eq Builder.faithful_nil).1]
  exact carried_bind fun _ => h.plainWhole_map _ m

end KeepsForms

end Kleene
