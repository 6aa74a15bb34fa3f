import Kleene.Automaton.Basic
import Kleene.Json.Basic

/-!
# Definitions of automata as dictionaries

A `Definition` lists the parts of an automaton: its states, its alphabet, for every state and every
symbol the targets of the moves, the starting state and the accepting states. Moves that read
nothing stand under the empty symbol.

`Automaton.definition` exports an automaton and `Automaton.ofDefinition` builds it up again, part by
part in the order above except that the transitions come last. `Definition.ofJson` checks the shape
of a JSON dictionary; its entries may still be any values, and those that cannot be names are
refused at the moment they are used.
-/

set_option autoImplicit false

namespace Kleene

/-- The parts of an automaton with keys of type `κ` and list entries of type `ε`. -/
structure Definition (κ ε : Type) where
  states : List ε
  alphabet : List ε
  /-- For each state in turn, for each symbol in turn, the targets. -/
  transitions : List (κ × List (κ × List ε))
  /-- The starting state, if one is given. -/
  startingState : Option ε
  acceptingStates : List ε
  deriving Repr, DecidableEq

namespace Definition

/-- Appends an item to the list that stands under a key, or opens the list if the key is new. -/
def appendUnder {κ β : Type} [BEq κ] (key : κ) (item : β) :
    List (κ × List β) → List (κ × List β)
  | [] => [(key, [item])]
  | (k, items) :: rest =>
    if k == key then (k, items ++ [item]) :: rest else (k, items) :: appendUnder key item rest

/-- The list under a key. -/
def listAt (key : String) (json : Json) : Except Malformation (List Json) :=
  match json.field? key with
  | some (.array items) => .ok items
  | _ => .error (.notList key)

/-- The entries of the dictionary under a key. -/
def dictionaryAt (key : String) (json : Json) : Except Malformation (List (String × Json)) :=
  match json.field? key with
  | some (.object entries) => .ok entries
  | _ => .error (.keyNotDictionary key)

/-- The targets of one state on each of its symbols. -/
def readTargets (state : String) (moves : List (String × Json)) :
    Except Malformation (List (String × List Json)) :=
  moves.mapM (fun move => match move.2 with
    | .array targets => .ok (move.1, targets)
    | _ => .error (.targetsNotList state move.1))

/-- The moves of every state. -/
def readTransitions (transitions : List (String × Json)) :
    Except Malformation (List (String × List (String × List Json))) :=
  transitions.mapM (fun entry => match entry.2 with
    | .object moves => do return (entry.1, ← readTargets entry.1 moves)
    | _ => .error (.movesNotDictionary entry.1))

/-- The keys that a definition must have, in the order in which they are looked for. -/
def requiredKeys : List String :=
  ["states", "alphabet", "transitions", "startingState", "acceptingStates"]

/-- Checks that a value is a dictionary with all the keys of a definition. -/
def checkKeys : Json → Except Malformation Unit
  | .object entries =>
    match requiredKeys.find? (fun key => (entries.lookup key).isNone) with
    | some key => .error (.missingKey key)
    | none => .ok ()
  | _ => .error .notDictionary

/-- Reads the parts of a definition off a JSON dictionary, or tells what is wrong with its shape.
The lists and dictionaries are looked at before what they hold. -/
def ofJson (json : Json) : Except Malformation (Definition String Json) := do
  checkKeys json
  let states ← listAt "states" json
  let alphabet ← listAt "alphabet" json
  let moves ← dictionaryAt "transitions" json
  let acceptingStates ← listAt "acceptingStates" json
  let transitions ← readTransitions moves
  let startingState := (json.field? "startingState").filter (fun state => !state.isBlank)
  return { states, alphabet, transitions, startingState, acceptingStates }

end Definition

namespace Automaton

variable {ν : Type} [Name ν]

/-- The symbol under which a label is exported: the empty one for a move that reads nothing. -/
def exportLabel (label : ν) : ν :=
  if label == Name.epsilon then Name.ofText "" else label

/-- The label for a symbol of a definition: a blank symbol stands for a move that reads nothing. -/
def importLabel (symbol : ν) : ν :=
  if Name.isBlank symbol then Name.epsilon else symbol

/-- The targets of the moves that leave a vertex, symbol by symbol in the order in which the symbols
are met. -/
def movesFrom (m : Automaton ν) (i : Nat) : List (ν × List ν) :=
  let moves := (m.graph.edgesFrom i).flatMap (fun edge =>
    edge.labels.map (fun label => (exportLabel label, m.graph.vertices[edge.target]?)))
  moves.foldl (fun grouped move => match move.2 with
    | some target => Definition.appendUnder move.1 target grouped
    | none => grouped) []

/-- The parts of the automaton, to be built up again. -/
def definition (m : Automaton ν) : Definition ν ν where
  states := m.states
  alphabet := m.alphabet
  transitions := m.states.zipIdx.map (fun state => (state.1, m.movesFrom state.2))
  startingState := m.initial
  acceptingStates := m.accepting

/-- Builds up the automaton of a definition. The entries are turned into names one by one; `name`
says which name an entry is, or why it is none. -/
def ofDefinition {κ ε : Type} (key : κ → ν) (name : ε → Except (Failure ν) ν)
    (d : Definition κ ε) : Except (Failure ν) (Automaton ν) := do
  let m ← d.states.foldlM (fun m state => do return addState m (← name state)) empty
  let m ← d.alphabet.foldlM (fun m symbol => do return addSymbol m (← name symbol)) m
  let m ← match d.startingState with
    | some state => do m.setInitial (← name state)
    | none => pure m
  let m ← d.acceptingStates.foldlM (fun m state => do m.addAccepting (← name state)) m
  d.transitions.foldlM (fun m moves =>
    moves.2.foldlM (fun m move =>
      move.2.foldlM (fun m target => do
        let _ ← m.vertex (key moves.1)
        m.addTransition (key moves.1) (importLabel (key move.1)) (← name target)) m) m) m

/-- The automaton that an exported definition describes. A blank starting state counts as none. -/
def ofExport (d : Definition ν ν) : Except (Failure ν) (Automaton ν) :=
  ofDefinition id pure
    { d with startingState := d.startingState.filter (fun state => !Name.isBlank state) }

/-- The name that a JSON value is: a scalar is one, a list or a dictionary is none. -/
def nameOfJson : Json → Except (Failure Scalar) Scalar
  | .scalar value => .ok value
  | json => .error (.unhashable json.kind)

/-- The automaton that a JSON dictionary describes. -/
def ofJson (json : Json) : Except (Failure Scalar) (Automaton Scalar) :=
  match Definition.ofJson json with
  | .ok d => ofDefinition Name.ofText nameOfJson d
  | .error problem => .error (.malformed problem)

end Automaton

end Kleene
