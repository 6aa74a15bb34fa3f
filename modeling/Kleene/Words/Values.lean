import Kleene.Automaton.Definition
import Kleene.Expression.Equivalence

/-!
# Words of any values

An automaton may be asked about words whose symbols are any JSON values. A value that cannot be a
name is no symbol of its alphabet and labels none of its moves, and looking it up is a failure. So a
run on a word fails at the first such value, unless it has ended before.
-/

set_option autoImplicit false

namespace Kleene.Automaton

/-- Where a value leads to from a state: nowhere, if it cannot be a name. -/
def nextStateOn (m : Automaton Scalar) (state : Scalar) :
    Json → Except (Failure Scalar) (Option Scalar)
  | .scalar symbol => m.nextState state symbol
  | _ => do
    let _ ← m.vertex state
    return none

/-- The names at the front of a word of values. -/
def leadingNames : List Json → List Scalar
  | .scalar name :: rest => name :: leadingNames rest
  | _ => []

/-- The run of a valid automaton on a word of values. -/
def simulateOn (m : Automaton Scalar) (word : List Json) :
    Except (Failure Scalar) (Outcome Scalar) := do
  let names := leadingNames word
  let outcome ← m.simulate names
  match word[names.length]? with
  | none => return outcome
  | some value =>
    if outcome.isStopped then return outcome else throw (.unhashable value.kind)

/-- Whether a valid automaton accepts a word of values. -/
def acceptsOn (m : Automaton Scalar) (word : List Json) : Except (Failure Scalar) Bool := do
  return (← m.simulateOn word).isAccepted

/-- The first of the given words of values on which an automaton and its expression disagree. -/
def counterexampleOn (m : Automaton Scalar) (words : List (List Json)) :
    Except (Failure Scalar) (Option (List Json)) := do
  let pattern ← m.recognizer
  firstDisagreement m.acceptsOn (patternAccepts pattern) words

end Kleene.Automaton
