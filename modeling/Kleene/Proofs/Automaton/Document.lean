import Kleene.Automaton.Definition
import Kleene.Proofs.Automaton.Matrix

/-!
# Definitions as JSON dictionaries of texts

The automata that are read from JSON have scalars for names. A change of names that keeps what the
library asks of them (`KeepsNames`) goes through every step in the building up of an automaton, the
failures included; that texts are scalars is such a change. Hence a definition whose names are texts
comes to the same when it is written as a dictionary and read from there: `ofJson_toJson`.
-/

set_option autoImplicit false

namespace Kleene

/-- An entry can be changed before or after all entries are renamed. -/
theorem modify_map_comm {α β : Type} {f : α → β} {change : α → α} {change' : β → β}
    (h : ∀ a, change' (f a) = f (change a)) (items : List α) (i : Nat) :
    (items.map f).modify i change' = (items.modify i change).map f := by
  apply List.ext_getElem?
  intro j
  rw [List.getElem?_modify, List.getElem?_map, List.getElem?_map, List.getElem?_modify]
  cases items[j]? with
  | none => rfl
  | some a =>
    simp only [Option.map_some, Option.map_eq_map]
    split
    · rw [h]
    · rfl

section Renaming

variable {ν μ : Type}

/-- The failure with other names. -/
def Failure.map (f : ν → μ) : Failure ν → Failure μ
  | .malformed problem => .malformed problem
  | .noSuchState state => .noSuchState (f state)
  | .noSuchSymbol symbol => .noSuchSymbol (f symbol)
  | .noInitialState => .noInitialState
  | .disjoint => .disjoint
  | .nondeterministic state => .nondeterministic (state.map f)
  | .unclassified message => .unclassified message
  | .unhashable kind => .unhashable kind
  | .notText position kind => .notText position kind
  | .notAppendable kind => .notAppendable kind
  | .notWritable kind => .notWritable kind
  | .noPosition state => .noPosition (f state)
  | .outOfRange => .outOfRange
  | .tooFar => .tooFar
  | .notDescription kind => .notDescription kind
  | .notComparable kind => .notComparable kind
  | .unknownSetting name => .unknownSetting name
  | .emptyRange stop => .emptyRange stop
  | .noChoice => .noChoice

/-- The automaton with other names. -/
def Automaton.map (f : ν → μ) (m : Automaton ν) : Automaton μ where
  graph :=
    { vertices := m.graph.vertices.map f
      rows := m.graph.rows.map (List.map (List.map f)) }
  alphabet := m.alphabet.map f
  initial := m.initial.map f
  accepting := m.accepting.map f

/-- The call with other names. -/
def Operation.map (f : ν → μ) : Operation ν → Operation μ
  | .addState state => .addState (f state)
  | .addSymbol symbol => .addSymbol (f symbol)
  | .setInitial state => .setInitial (f state)
  | .addAccepting state => .addAccepting (f state)
  | .addTransition source symbol target => .addTransition (f source) (f symbol) (f target)

/-- What a call came to, with other names. -/
def renamed (f : ν → μ) : Except (Failure ν) (Automaton ν) → Except (Failure μ) (Automaton μ)
  | .ok m => .ok (m.map f)
  | .error failure => .error (failure.map f)

/-- A computation with renamed names is one with the names as they are, renamed afterwards, if both
of its parts are. -/
theorem renamed_bind {f : ν → μ} {first : Except (Failure ν) (Automaton ν)}
    {rest : Automaton ν → Except (Failure ν) (Automaton ν)}
    {rest' : Automaton μ → Except (Failure μ) (Automaton μ)}
    (h : ∀ m, rest' (m.map f) = renamed f (rest m)) :
    (renamed f first >>= rest') = renamed f (first >>= rest) := by
  cases first with
  | error failure => rfl
  | ok m => exact h m

/-- A renamed outcome is an automaton exactly if the outcome is one, and then it is this one
renamed. -/
theorem renamed_eq_ok_iff {f : ν → μ} {outcome : Except (Failure ν) (Automaton ν)}
    {m' : Automaton μ} : renamed f outcome = .ok m' ↔ ∃ m, outcome = .ok m ∧ m' = m.map f := by
  cases outcome <;> simp [renamed, eq_comm]

/-- A renamed outcome is a failure exactly if the outcome is one, and then it is this one
renamed. -/
theorem renamed_eq_error_iff {f : ν → μ} {outcome : Except (Failure ν) (Automaton ν)}
    {failure' : Failure μ} :
    renamed f outcome = .error failure' ↔
      ∃ failure, outcome = .error failure ∧ failure' = failure.map f := by
  cases outcome <;> simp [renamed, eq_comm]

/-- The labels of an edge are renamed one by one. -/
theorem Automaton.labels_map (f : ν → μ) (m : Automaton ν) (i j : Nat) :
    (m.map f).graph.labels i j = (m.graph.labels i j).map f := by
  unfold LabeledGraph.labels LabeledGraph.row Automaton.map
  rw [List.getElem?_map]
  cases m.graph.rows[i]? with
  | none => rfl
  | some row =>
    simp only [Option.map_some, Option.getD_some, List.getElem?_map]
    cases row[j]? <;> rfl

variable [Name ν] [Name μ]

/-- What a change of names has to keep. -/
structure KeepsNames (f : ν → μ) : Prop where
  beq : ∀ a b, (f a == f b) = (a == b)
  epsilon : f Name.epsilon = Name.epsilon
  isNull : ∀ a, Name.isNull (f a) = Name.isNull a
  isBlank : ∀ a, Name.isBlank (f a) = Name.isBlank a

namespace KeepsNames

variable {f : ν → μ} (h : KeepsNames f)

include h

/-- A renamed list contains the new name of what the list contains. -/
theorem contains_map (items : List ν) (a : ν) :
    (items.map f).contains (f a) = items.contains a := by
  induction items with
  | nil => rfl
  | cons b rest ih => rw [List.map_cons, List.contains_cons, List.contains_cons, h.beq, ih]

/-- A state keeps its vertex under its new name. -/
theorem vertex?_map (m : Automaton ν) (state : ν) :
    (m.map f).vertex? (f state) = m.vertex? state := by
  show (m.graph.vertices.map f).findIdx? (fun v => v == f state) = _
  rw [List.findIdx?_map]
  simp only [Function.comp_def, h.beq]
  rfl

/-- To register a state and to rename can be done in either order. -/
theorem addState_map (m : Automaton ν) (state : ν) :
    (m.map f).addState (f state) = (m.addState state).map f := by
  rw [Automaton.addState, Automaton.addState, h.vertex?_map]
  split
  · rfl
  · simp [Automaton.map, LabeledGraph.addVertex, LabeledGraph.size, Function.comp_def]

/-- To register a symbol and to rename can be done in either order. -/
theorem addSymbol_map (m : Automaton ν) (symbol : ν) :
    (m.map f).addSymbol (f symbol) = (m.addSymbol symbol).map f := by
  have hknown : (m.map f).alphabet.contains (f symbol) = m.alphabet.contains symbol :=
    h.contains_map m.alphabet symbol
  rw [Automaton.addSymbol, Automaton.addSymbol, hknown]
  split
  · rfl
  · simp [Automaton.map]

/-- A name that stands for none still does under its new name, and no other does. -/
theorem orNone_map (name : ν) : Name.orNone (f name) = (Name.orNone name).map f := by
  unfold Name.orNone
  rw [h.isNull]
  split <;> rfl

/-- To set the initial state and to rename can be done in either order. -/
theorem setInitial_map (m : Automaton ν) (state : ν) :
    (m.map f).setInitial (f state) = renamed f (m.setInitial state) := by
  simp only [Automaton.setInitial, Automaton.vertex, h.vertex?_map, h.orNone_map]
  cases m.vertex? state <;> rfl

/-- To add an accepting state and to rename can be done in either order. -/
theorem addAccepting_map (m : Automaton ν) (state : ν) :
    (m.map f).addAccepting (f state) = renamed f (m.addAccepting state) := by
  have haccepting : (m.map f).accepting ++ [f state] = (m.accepting ++ [state]).map f := by
    simp [Automaton.map]
  simp only [Automaton.addAccepting, Automaton.vertex, h.vertex?_map, haccepting]
  cases m.vertex? state <;> rfl

/-- To add a label to the matrix and to rename can be done in either order. -/
theorem addEdge_map (g : LabeledGraph ν ν) (i j : Nat) (label : ν) :
    (g.rows.map (List.map (List.map f))).modify i
        (fun row => row.modify j (LabeledGraph.insertLabel (f label))) =
      (g.addEdge i j label).rows.map (List.map (List.map f)) := by
  refine modify_map_comm (fun row => modify_map_comm (fun labels => ?_) row j) g.rows i
  rw [LabeledGraph.insertLabel, LabeledGraph.insertLabel, h.contains_map]
  split
  · rfl
  · rw [List.map_append, List.map_singleton]

/-- To add a move and to rename can be done in either order. -/
theorem addTransition_map (m : Automaton ν) (source symbol target : ν) :
    (m.map f).addTransition (f source) (f symbol) (f target) =
      renamed f (m.addTransition source symbol target) := by
  have hlabel : (m.map f).isLabel (f symbol) = m.isLabel symbol := by
    have hknown : (m.map f).alphabet.contains (f symbol) = m.alphabet.contains symbol :=
      h.contains_map m.alphabet symbol
    rw [Automaton.isLabel, Automaton.isLabel, hknown, ← h.epsilon, h.beq]
  simp only [Automaton.addTransition, Automaton.vertex, h.vertex?_map, hlabel]
  cases m.vertex? source with
  | none => rfl
  | some i =>
    cases m.vertex? target with
    | none => rfl
    | some j =>
      cases m.isLabel symbol with
      | false => rfl
      | true =>
        exact congrArg (fun rows => Except.ok
          { m.map f with graph := { vertices := m.graph.vertices.map f, rows := rows } })
          (h.addEdge_map m.graph i j symbol)

/-- With other names every call comes to the same. -/
theorem apply_map (m : Automaton ν) (op : Operation ν) :
    (op.map f).apply (m.map f) = renamed f (op.apply m) := by
  cases op with
  | addState state => exact congrArg Except.ok (h.addState_map m state)
  | addSymbol symbol => exact congrArg Except.ok (h.addSymbol_map m symbol)
  | setInitial state => exact h.setInitial_map m state
  | addAccepting state => exact h.addAccepting_map m state
  | addTransition source symbol target => exact h.addTransition_map m source symbol target

/-- Calls with renamed names, made on the renamed automaton, do what the calls do, renamed. -/
theorem foldlM_apply_map (calls : List (Operation ν)) (m : Automaton ν) :
    (calls.map (Operation.map f)).foldlM Operation.apply (m.map f) =
      renamed f (calls.foldlM Operation.apply m) := by
  induction calls generalizing m with
  | nil => rfl
  | cons op rest ih =>
    rw [List.map_cons, List.foldlM_cons, List.foldlM_cons, h.apply_map]
    exact renamed_bind ih

end KeepsNames

end Renaming

/-! ## Dictionaries of texts -/

/-- Names that are texts keep what matters about them when they become JSON values. -/
theorem keepsNames_text : KeepsNames Scalar.text where
  beq := Scalar.text_beq_text
  epsilon := rfl
  isNull := fun _ => rfl
  isBlank := fun _ => rfl

namespace Definition

/-- The dictionary that a definition is written as. -/
def toJson (d : Definition String String) : Json :=
  .object
    [("states", .array (d.states.map Json.text)),
      ("alphabet", .array (d.alphabet.map Json.text)),
      ("transitions", .object (d.transitions.map (fun entry =>
        (entry.1, .object (entry.2.map (fun move => (move.1, .array (move.2.map Json.text)))))))),
      ("startingState", (d.startingState.map Json.text).getD (.scalar .null)),
      ("acceptingStates", .array (d.acceptingStates.map Json.text))]

/-- The definition with other entries in its lists. -/
def mapEntries {ε : Type} (entry : String → ε) (d : Definition String String) :
    Definition String ε where
  states := d.states.map entry
  alphabet := d.alphabet.map entry
  transitions := d.transitions.map (fun moves =>
    (moves.1, moves.2.map (fun move => (move.1, move.2.map entry))))
  startingState := d.startingState.map entry
  acceptingStates := d.acceptingStates.map entry

/-- The definition without a starting state that is blank. -/
def unblanked (d : Definition String String) : Definition String String :=
  { d with startingState := d.startingState.filter (fun state => !Name.isBlank state) }

/-- Only an empty starting state is taken for none. -/
theorem unblanked_eq_self {d : Definition String String} (h : d.startingState ≠ some "") :
    d.unblanked = d := by
  have hstart : d.startingState.filter (fun state => !Name.isBlank state) = d.startingState := by
    cases hd : d.startingState with
    | none => rfl
    | some state =>
      have hne : state ≠ "" := fun heq => h (heq ▸ hd)
      have hkeep : Name.isBlank state = false := by
        show state.isEmpty = false
        simpa using hne
      simp [Option.filter, hkeep]
  rw [unblanked, hstart]

/-- What a definition lists, with its symbols read as labels. -/
def listing (d : Definition String String) : Listing String where
  states := d.states
  symbols := d.alphabet
  initial := d.startingState
  accepting := d.acceptingStates
  moves := d.transitions.flatMap (fun entry => entry.2.flatMap (fun move =>
    move.2.map (fun target => ⟨entry.1, Automaton.importLabel move.1, target⟩)))

/-- The moves from a state are read back from the dictionary that they are written as. -/
theorem readTargets_map (state : String) (moves : List (String × List String)) :
    readTargets state (moves.map (fun move => (move.1, .array (move.2.map Json.text)))) =
      .ok (moves.map (fun move => (move.1, move.2.map Json.text))) := by
  rw [readTargets, List.mapM_map]
  exact List.mapM_pure

/-- The transitions are read back from the dictionary of dictionaries that they are written as. -/
theorem readTransitions_map (transitions : List (String × List (String × List String))) :
    readTransitions (transitions.map (fun entry =>
        (entry.1, .object (entry.2.map (fun move => (move.1, .array (move.2.map Json.text))))))) =
      .ok (transitions.map (fun entry =>
        (entry.1, entry.2.map (fun move => (move.1, move.2.map Json.text))))) := by
  rw [readTransitions, List.mapM_map]
  simp only [Function.comp_def, readTargets_map]
  exact List.mapM_pure

/-- The dictionary of a definition has the shape that is looked for. -/
theorem ofJson_toJson (d : Definition String String) :
    ofJson d.toJson = .ok (d.unblanked.mapEntries Json.text) := by
  have hkeys : checkKeys d.toJson = .ok () := rfl
  have hstates : listAt "states" d.toJson = .ok (d.states.map Json.text) := rfl
  have halphabet : listAt "alphabet" d.toJson = .ok (d.alphabet.map Json.text) := rfl
  have hmoves : dictionaryAt "transitions" d.toJson = .ok (d.transitions.map (fun entry =>
      (entry.1, .object (entry.2.map (fun move => (move.1, .array (move.2.map Json.text))))))) := rfl
  have haccepting : listAt "acceptingStates" d.toJson = .ok (d.acceptingStates.map Json.text) := rfl
  have hstart : (d.toJson.field? "startingState").filter (fun state => !state.isBlank) =
      (d.startingState.filter (fun state => !Name.isBlank state)).map Json.text := by
    show (some ((d.startingState.map Json.text).getD (.scalar .null))).filter _ = _
    cases d.startingState with
    | none => rfl
    | some state =>
      show (if !Json.isBlank (.text state) then _ else _) = Option.map _ (if _ then _ else _)
      show (if !Name.isBlank state then _ else _) = _
      split <;> rfl
  rw [ofJson, hkeys, hstates, halphabet, hmoves, haccepting, hstart]
  show (readTransitions _ >>= fun transitions => pure (Definition.mk _ _ transitions _ _)) = _
  rw [readTransitions_map]
  rfl

end Definition

namespace Automaton

/-- A loop over the items of many lists goes through one list after the other. -/
theorem foldlM_flatMap {α β γ ε : Type} (f : α → List β) (step : γ → β → Except ε γ)
    (items : List α) (start : γ) :
    (items.flatMap f).foldlM step start = items.foldlM (fun c a => (f a).foldlM step c) start := by
  induction items generalizing start with
  | nil => rfl
  | cons a rest ih =>
    rw [List.flatMap_cons, List.foldlM_append, List.foldlM_cons]
    exact bind_congr (fun next => ih next)

/-- The label for the empty word is read the same from a text and from the JSON value of the
text. -/
theorem importLabel_text (symbol : String) :
    importLabel (Scalar.text symbol) = Scalar.text (importLabel symbol) := by
  rw [importLabel, importLabel, keepsNames_text.isBlank]
  split <;> rfl

/-- Building up the automaton of a definition is to make the calls for what it lists, whatever form
its entries have. -/
theorem ofDefinition_mapEntries {ν ε : Type} [Name ν] (f : String → ν) (entry : String → ε)
    {name : ε → Except (Failure ν) ν} (hname : ∀ a, name (entry a) = pure (f a))
    (hlabel : ∀ a, importLabel (f a) = f (importLabel a)) (d : Definition String String) :
    ofDefinition f name (d.mapEntries entry) =
      (d.listing.calls.map (Operation.map f)).foldlM Operation.apply empty := by
  -- a source is looked up before its move is added, and once more then
  have hmove : ∀ (m : Automaton ν) (source symbol target : ν),
      (m.vertex source >>= fun _ => m.addTransition source symbol target) =
        m.addTransition source symbol target := by
    intro m source symbol target
    rw [addTransition]
    cases m.vertex source <;> rfl
  simp only [Listing.calls, Listing.namingCalls, Listing.referringCalls, Definition.listing,
    Definition.mapEntries, List.map_append, List.map_map, List.foldlM_append, List.foldlM_map,
    foldlM_flatMap, List.map_flatMap, ofDefinition, bind_assoc, pure_bind, hname, hlabel, hmove]
  refine bind_congr (fun m => bind_congr (fun m => ?_))
  cases d.startingState with
  | none => rfl
  | some state =>
    simp only [Option.map_some, hname, Option.toList_some, List.foldlM_cons, List.foldlM_nil,
      bind_assoc, pure_bind]
    rfl

/-- Definitions whose entries are texts are built up by the calls for what they list. -/
theorem ofExport_eq_foldlM (d : Definition String String) :
    ofExport d = d.unblanked.listing.calls.foldlM Operation.apply empty := by
  have hentries : d.unblanked.mapEntries id = d.unblanked := by
    simp [Definition.mapEntries]
  have hcalls : ∀ calls : List (Operation String), calls.map (Operation.map id) = calls := by
    intro calls
    have hid : (Operation.map id : Operation String → Operation String) = id := by
      funext op
      cases op <;> rfl
    rw [hid, List.map_id]
  have hbuild : ofDefinition id pure (d.unblanked.mapEntries id) =
      (d.unblanked.listing.calls.map (Operation.map id)).foldlM Operation.apply empty :=
    ofDefinition_mapEntries id id (fun _ => rfl) (fun _ => rfl) d.unblanked
  rw [hentries, hcalls] at hbuild
  exact hbuild

/-- A definition written as a dictionary and read from there comes to what it comes to itself,
except that its texts are scalars then. -/
theorem ofJson_toJson (d : Definition String String) :
    ofJson d.toJson = renamed Scalar.text (ofExport d) := by
  have hbuild : ofDefinition Name.ofText nameOfJson (d.unblanked.mapEntries Json.text) =
      (d.unblanked.listing.calls.map (Operation.map Scalar.text)).foldlM Operation.apply empty :=
    ofDefinition_mapEntries Scalar.text Json.text (fun _ => rfl) importLabel_text d.unblanked
  rw [ofJson, Definition.ofJson_toJson]
  show ofDefinition Name.ofText nameOfJson _ = _
  rw [hbuild, ofExport_eq_foldlM]
  exact keepsNames_text.foldlM_apply_map _ empty

end Automaton

end Kleene
