import Kleene.Name

/-!
# Failures and their diagnostics

A `Failure` is the cause for which an operation of the library gives no result. The causes that lie
in the automaton handed in have a number and a summary for its author; `Failure.report?` puts the
two together. All causes have a message. The remaining causes lie in the values that a caller
passes: an entry that cannot be a name, a position outside a table, a text that is no text.
-/

set_option autoImplicit false

namespace Kleene

/-- What is wrong with the form of an automaton that is handed in as text or as a dictionary. -/
inductive Malformation where
  /-- The description has fewer lines than this number. -/
  | missingLine (number : Nat)
  /-- The line with this number does not fit its form. -/
  | badLine (number : Nat) (line : String)
  | notDictionary
  | missingKey (key : String)
  | notList (key : String)
  | keyNotDictionary (key : String)
  | movesNotDictionary (state : String)
  | targetsNotList (state symbol : String)
  | notUtf8
  /-- Something else, in the words of whoever found it. -/
  | stated (message : String)
  deriving Repr, DecidableEq

/-- The sentence that states the malformation. -/
def Malformation.message : Malformation → String
  | .missingLine number => s!"Missing line {number}"
  | .badLine number line => s!"Line {number} is malformed: {Text.quote line}"
  | .notDictionary => "FSA must be a dictionary"
  | .missingKey key => s!"Missing required key: {key}"
  | .notList key => s!"{key} must be a list"
  | .keyNotDictionary key => s!"{key} must be a dictionary"
  | .movesNotDictionary state => s!"Transitions of state {state} must be a dictionary"
  | .targetsNotList state symbol => s!"Targets of {state} on {Text.quote symbol} must be a list"
  | .notUtf8 => "Input is not valid UTF-8"
  | .stated message => message

/-- Why an operation gives no result. -/
inductive Failure (ν : Type) where
  | malformed (problem : Malformation)
  | noSuchState (state : ν)
  | noSuchSymbol (symbol : ν)
  | noInitialState
  | disjoint
  /-- Some state, possibly a known one, has no unique next state. -/
  | nondeterministic (state : Option ν)
  /-- A cause in the automaton that no number is set aside for. -/
  | unclassified (message : String)
  /-- A list or a dictionary where a name has to stand. -/
  | unhashable (kind : String)
  /-- An item that is no text where texts are joined. -/
  | notText (position : Nat) (kind : String)
  /-- A symbol that is no text where a word is encoded. -/
  | notAppendable (kind : String)
  /-- A symbol that is no text where only texts can be written. -/
  | notWritable (kind : String)
  /-- A state that the order of a builder does not hold. -/
  | noPosition (state : ν)
  | outOfRange
  /-- A position that no list reaches. -/
  | tooFar
  /-- A description that is no text. -/
  | notDescription (kind : String)
  /-- A limit that no number can be compared with. -/
  | notComparable (kind : String)
  | unknownSetting (name : Scalar)
  /-- A range for a random number that ends before it begins. -/
  | emptyRange (stop : Int)
  /-- A random choice among nothing. -/
  | noChoice
  deriving Repr, DecidableEq

namespace Failure

variable {ν : Type}

/-- The positions in a list are below this number, and not below its negative. -/
def positionLimit : Nat := 0x8000000000000000

/-- Why a list has nothing at a position outside it. -/
def noEntry (position : Int) : Failure ν :=
  if position < -positionLimit || positionLimit ≤ position then .tooFar else .outOfRange

/-- The number of a cause that lies in the automaton. -/
def code? : Failure ν → Option Nat
  | .malformed _ => some 0
  | .noSuchState _ => some 1
  | .disjoint => some 2
  | .noSuchSymbol _ => some 3
  | .noInitialState => some 4
  | .nondeterministic _ => some 5
  | _ => none

variable [Name ν]

/-- What the author of the automaton is told about a numbered cause. -/
def summary? : Failure ν → Option String
  | .malformed _ => some "Input file is malformed"
  | .noSuchState state => some s!"A state '{Name.display state}' is not in the set of states"
  | .disjoint => some "Some states are disjoint"
  | .noSuchSymbol symbol =>
    some s!"A transition '{Name.display symbol}' is not represented in the alphabet"
  | .noInitialState => some "Initial state is not defined"
  | .nondeterministic _ => some "FSA is nondeterministic"
  | _ => none

/-- The diagnostic of a numbered cause, as it is written in place of a result. -/
def report? (failure : Failure ν) : Option String := do
  let code ← failure.code?
  let summary ← failure.summary?
  return s!"Error:\nE{code}: {summary}"

/-- The sentence that states the cause. -/
def message : Failure ν → String
  | .malformed problem => problem.message
  | .noSuchState state => s!"State '{Name.display state}' is not registered"
  | .noSuchSymbol symbol => s!"Symbol '{Name.display symbol}' is not in the alphabet"
  | .noInitialState => "Initial state is not set"
  | .disjoint => "Some states are not reachable from the initial state"
  | .nondeterministic none => "Automaton is nondeterministic"
  | .nondeterministic (some state) =>
    s!"Automaton is nondeterministic at state '{Name.display state}'"
  | .unclassified message => message
  | .unhashable kind => s!"unhashable type: '{kind}'"
  | .notText position kind =>
    s!"sequence item {position}: expected str instance, {kind} found"
  | .notAppendable "list" => "can only concatenate list (not \"str\") to list"
  | .notAppendable kind => s!"unsupported operand type(s) for +: '{kind}' and 'str'"
  | .notWritable kind => s!"decoding to str: need a bytes-like object, {kind} found"
  | .noPosition state => Name.literal state
  | .outOfRange => "list index out of range"
  | .tooFar => "cannot fit 'int' into an index-sized integer"
  | .notDescription kind => s!"'{kind}' object has no attribute 'splitlines'"
  | .notComparable kind => s!"'>' not supported between instances of 'int' and '{kind}'"
  | .unknownSetting name => name.literal
  | .emptyRange stop => s!"empty range for randrange() (0, {stop}, {stop})"
  | .noChoice => "integer modulo by zero"

end Failure

end Kleene
