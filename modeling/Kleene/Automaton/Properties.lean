import Kleene.Automaton.Basic
import Kleene.Graph.Search

/-!
# Properties of an automaton

An automaton can be converted if it has an initial state, every state can be reached from it, and
no state has a choice: no move that reads nothing and no two moves that read the same symbol.
`Automaton.validate` checks the three in this order and reports the first that fails.
-/

set_option autoImplicit false

namespace Kleene

/-- The properties that are checked together. -/
structure Properties where
  hasInitialState : Bool
  joint : Bool
  deterministic : Bool
  hasCycle : Bool
  deriving Repr, DecidableEq

namespace Automaton

variable {ν : Type} [Name ν]

/-- Whether an initial state is set. -/
def hasInitialState (m : Automaton ν) : Bool :=
  m.initial.isSome

/-- Whether every state can be reached from the initial one, which has to be set. -/
def isJoint (m : Automaton ν) : Bool :=
  match m.initial.bind m.vertex? with
  | some start => m.graph.isJoint start
  | none => false

/-- Whether some name occurs twice in a list. -/
def hasRepetition : List ν → Bool
  | [] => false
  | name :: rest => rest.contains name || hasRepetition rest

/-- The symbols of all moves that leave a vertex, edge by edge. -/
def symbolsFrom (m : Automaton ν) (i : Nat) : List ν :=
  (m.graph.edgesFrom i).flatMap Edge.labels

/-- Whether a vertex has a move that reads nothing or two moves that read the same symbol. -/
def hasChoice (m : Automaton ν) (i : Nat) : Bool :=
  (m.symbolsFrom i).contains Name.epsilon || hasRepetition (m.symbolsFrom i)

/-- The first state that has a choice. -/
def nondeterministicState (m : Automaton ν) : Option ν := do
  let i ← (List.range m.graph.size).find? m.hasChoice
  let state ← m.graph.vertices[i]?
  Name.orNone state

/-- Whether no state with a choice is found. -/
def isDeterministic (m : Automaton ν) : Bool :=
  m.nondeterministicState.isNone

/-- Whether some state can be come back to. -/
def hasCycle (m : Automaton ν) : Bool :=
  m.graph.findCycle.isSome

/-- All properties at once. -/
def properties (m : Automaton ν) : Properties :=
  ⟨m.hasInitialState, m.isJoint, m.isDeterministic, m.hasCycle⟩

/-- Reports the first of the three conditions for a conversion that the automaton fails. -/
def validate (m : Automaton ν) : Except (Failure ν) Unit :=
  if !m.hasInitialState then .error .noInitialState
  else if !m.isJoint then .error .disjoint
  else match m.nondeterministicState with
    | some state => .error (.nondeterministic (some state))
    | none => .ok ()

end Automaton

end Kleene
