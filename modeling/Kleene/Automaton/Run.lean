import Kleene.Automaton.Properties

/-!
# Runs of an automaton on a word

`Automaton.simulate` follows a word from the initial state of a valid automaton, symbol by symbol.
The outcome holds the moves that were made and, if the word is rejected, why and at which position.
-/

set_option autoImplicit false

namespace Kleene

/-- One move of a run. -/
structure Move (ν : Type) where
  source : ν
  symbol : ν
  target : ν
  deriving Repr, DecidableEq

/-- Why a word is rejected. -/
inductive Reason (ν : Type) where
  | notInAlphabet (symbol : ν)
  | noMove (symbol state : ν)
  | notAccepting (state : ν)
  deriving Repr, DecidableEq

/-- The sentence that states the reason. -/
def Reason.message {ν : Type} [Name ν] : Reason ν → String
  | .notInAlphabet symbol => s!"Symbol '{Name.display symbol}' not in alphabet"
  | .noMove symbol state =>
    s!"No transition defined for symbol '{Name.display symbol}' from state '{Name.display state}'"
  | .notAccepting state => s!"Final state '{Name.display state}' is not an accepting state"

/-- How a run on a word ends. -/
inductive Outcome (ν : Type) where
  | accepted (path : List (Move ν))
  | rejected (path : List (Move ν)) (reason : Reason ν) (position : Nat)
  deriving Repr, DecidableEq

namespace Outcome

variable {ν : Type}

/-- The moves that were made. -/
def path : Outcome ν → List (Move ν)
  | .accepted path => path
  | .rejected path _ _ => path

/-- Whether the word is accepted. -/
def isAccepted : Outcome ν → Bool
  | .accepted _ => true
  | .rejected _ _ _ => false

/-- Whether the run stops before the end of the word. -/
def isStopped : Outcome ν → Bool
  | .accepted _ => false
  | .rejected _ (.notAccepting _) _ => false
  | .rejected _ _ _ => true

/-- The outcome of a run that begins with one more move. -/
def cons (move : Move ν) : Outcome ν → Outcome ν
  | .accepted path => .accepted (move :: path)
  | .rejected path reason position => .rejected (move :: path) reason position

end Outcome

namespace Automaton

variable {ν : Type} [Name ν]

/-- The run on a word from a state, where `position` symbols were read before. -/
def runFrom (m : Automaton ν) : ν → Nat → List ν → Except (Failure ν) (Outcome ν)
  | state, position, [] =>
    if m.accepting.contains state then .ok (.accepted [])
    else .ok (.rejected [] (.notAccepting state) position)
  | state, position, symbol :: word =>
    if !m.alphabet.contains symbol then .ok (.rejected [] (.notInAlphabet symbol) position)
    else do
      match ← m.nextState state symbol with
      | none => return .rejected [] (.noMove symbol state) position
      | some target =>
        let outcome ← m.runFrom target (position + 1) word
        return outcome.cons ⟨state, symbol, target⟩

/-- The run of a valid automaton on a word. -/
def simulate (m : Automaton ν) (word : List ν) : Except (Failure ν) (Outcome ν) := do
  m.validate
  match m.initial with
  | some state => m.runFrom state 0 word
  | none => throw .noInitialState

/-- Whether a valid automaton accepts a word. -/
def accepts (m : Automaton ν) (word : List ν) : Except (Failure ν) Bool := do
  return (← m.simulate word).isAccepted

end Automaton

end Kleene
