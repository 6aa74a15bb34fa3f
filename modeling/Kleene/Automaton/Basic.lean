import Kleene.Failure
import Kleene.Graph.Basic

/-!
# Finite automata

An automaton is a labelled graph whose vertices are its states, with an alphabet, an initial state
that may be unset, and a list of accepting states in the order in which they were named. It is
built up by `addState`, `addSymbol`, `setInitial`, `addAccepting` and `addTransition`; the last
three refuse a state or a symbol that is not registered and then change nothing.

The symbol `Name.epsilon` labels moves that read nothing. It needs no place in the alphabet.

The states have no table of names of their own. Every state comes into the graph as a vertex and no
vertex comes otherwise, so the names in the order of registration are the values of the vertices
(`states`), and the vertex of a name is the one that the graph finds for it (`vertex?`).
-/

set_option autoImplicit false

namespace Kleene

/-- An automaton whose states and symbols are named by `ν`. -/
structure Automaton (ν : Type) where
  /-- One vertex for each state, with the labels of the moves between them. -/
  graph : LabeledGraph ν ν := {}
  alphabet : List ν := []
  initial : Option ν := none
  /-- The accepting states as they were named, repetitions included. -/
  accepting : List ν := []
  deriving Repr, DecidableEq

namespace Automaton

variable {ν : Type}

/-- The automaton without states. -/
def empty : Automaton ν := {}

/-- The names of the states, in the order of registration. -/
def states (m : Automaton ν) : List ν :=
  m.graph.vertices

variable [Name ν]

/-- The vertex of a state, if the state is registered. -/
def vertex? (m : Automaton ν) (state : ν) : Option Nat :=
  m.graph.findVertex state

/-- The vertex of a state, which has to be registered. -/
def vertex (m : Automaton ν) (state : ν) : Except (Failure ν) Nat :=
  match m.vertex? state with
  | some v => .ok v
  | none => .error (.noSuchState state)

/-- Registers a state; a known one stays as it is. -/
def addState (m : Automaton ν) (state : ν) : Automaton ν :=
  if (m.vertex? state).isSome then m else { m with graph := m.graph.addVertex state }

/-- Adds a symbol to the alphabet; a known one keeps its place. -/
def addSymbol (m : Automaton ν) (symbol : ν) : Automaton ν :=
  if m.alphabet.contains symbol then m else { m with alphabet := m.alphabet ++ [symbol] }

/-- Makes a state the initial one. -/
def setInitial (m : Automaton ν) (state : ν) : Except (Failure ν) (Automaton ν) := do
  let _ ← m.vertex state
  return { m with initial := Name.orNone state }

/-- Names one more accepting state. -/
def addAccepting (m : Automaton ν) (state : ν) : Except (Failure ν) (Automaton ν) := do
  let _ ← m.vertex state
  return { m with accepting := m.accepting ++ [state] }

/-- A symbol that may label a move: the empty one or one of the alphabet. -/
def isLabel (m : Automaton ν) (symbol : ν) : Bool :=
  symbol == Name.epsilon || m.alphabet.contains symbol

/-- Adds the move from `source` to `target` that reads `symbol`. -/
def addTransition (m : Automaton ν) (source symbol target : ν) :
    Except (Failure ν) (Automaton ν) := do
  let i ← m.vertex source
  let j ← m.vertex target
  if m.isLabel symbol then
    return { m with graph := m.graph.addEdge i j symbol }
  else
    throw (.noSuchSymbol symbol)

/-- The states in the order of registration, but with the initial one in front. -/
def orderedStates (m : Automaton ν) : List ν :=
  match m.initial with
  | none => m.states
  | some state => state :: m.states.erase state

/-- Where the first edge that carries the symbol leads to from a state. -/
def nextState (m : Automaton ν) (state symbol : ν) : Except (Failure ν) (Option ν) := do
  let i ← m.vertex state
  let edge? := (m.graph.edgesFrom i).find? (fun edge => edge.labels.contains symbol)
  return do
    let edge ← edge?
    let target ← m.graph.vertices[edge.target]?
    Name.orNone target

/-- The parts of the automaton in one line. -/
def summary (m : Automaton ν) : String :=
  let names := fun (list : List ν) => Text.bracketed (list.map Name.literal)
  "Automaton(states=" ++ names m.states ++ ", alphabet=" ++ names m.alphabet ++
    ", initial=" ++ Name.optionLiteral m.initial ++ ", accepting=" ++ names m.accepting ++ ")"

end Automaton

end Kleene
