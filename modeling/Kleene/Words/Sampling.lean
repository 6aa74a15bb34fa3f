import Kleene.Failure

/-!
# Random words over an alphabet

`sampleWords` draws words from a generator of random choices: for every word a length and then that
many symbols. The length is drawn even if there is no symbol to draw.
-/

set_option autoImplicit false

namespace Kleene

/-- Why no number from zero up to a negative bound can be drawn. -/
inductive RangeFault where
  /-- The range ends before it begins. -/
  | empty (stop : Int)
  /-- There is nothing to choose from. -/
  | noChoice
  deriving Repr, DecidableEq

/-- The range fault as a failure. -/
def RangeFault.failure {ν : Type} : RangeFault → Failure ν
  | .empty stop => .emptyRange stop
  | .noChoice => .noChoice

/-- A source of random choices with a state of type `γ`. -/
structure Generator (γ α : Type) where
  /-- Draws a number from zero up to a bound. -/
  upTo : Nat → γ → Nat × γ
  /-- Draws an item of a list that has one. -/
  choose : (items : List α) → items ≠ [] → γ → α × γ
  /-- Why no number up to a negative bound can be drawn. If there is no reason then zero is
  drawn. -/
  fault? : Int → Option RangeFault := fun bound => some (.empty (bound + 1))

namespace Generator

variable {γ α : Type}

/-- Draws as many symbols as asked for. -/
def symbols (g : Generator γ α) (alphabet : List α) (h : alphabet ≠ []) :
    Nat → γ → List α × γ
  | 0, state => ([], state)
  | count + 1, state =>
    let (symbol, state) := g.choose alphabet h state
    let (rest, state) := g.symbols alphabet h count state
    (symbol :: rest, state)

/-- Draws one word: always its length, and its symbols if there are any to choose from. -/
def word (g : Generator γ α) (alphabet : List α) (maxLength : Nat) (state : γ) :
    List α × γ :=
  let (length, state) := g.upTo maxLength state
  if h : alphabet = [] then ([], state) else g.symbols alphabet h length state

/-- Draws a number of words. -/
def words (g : Generator γ α) (alphabet : List α) (maxLength : Nat) :
    Nat → γ → List (List α) × γ
  | 0, state => ([], state)
  | count + 1, state =>
    let (word, state) := g.word alphabet maxLength state
    let (rest, state) := g.words alphabet maxLength count state
    (word :: rest, state)

/-- The generator that always takes the first choice. -/
def first : Generator Unit α where
  upTo _ state := (0, state)
  choose items h state := (items.head h, state)

/-- The generator that takes its choices from a list of numbers, which starts over at its end. Its
state is how many were taken. A number stands for its remainder by the number of choices; this is
how many numbers lie between zero and a bound, by which no remainder can be taken if it is zero. -/
def scripted (draws : List Int) : Generator Nat α where
  upTo bound taken :=
    ((draw taken % (bound + 1 : Int)).toNat, taken + 1)
  choose items h taken :=
    let place := (draw taken % (items.length : Int)).toNat
    ((items[place]?).getD (items.head h), taken + 1)
  fault? bound := if bound = -1 then some .noChoice else none
where
  /-- The number that is due after so many others. -/
  draw (taken : Nat) : Int := (draws[taken % draws.length]?).getD 0

end Generator

/-- Draws `count` words of at most `maxLength` symbols. There is no length below a negative bound,
so the words are empty there if the generator draws them at all. -/
def sampleWords {ν γ α : Type} (g : Generator γ α) (alphabet : List α) (count maxLength : Int)
    (state : γ) : Except (Failure ν) (List (List α)) :=
  let fault? := if count > 0 ∧ maxLength < 0 then g.fault? maxLength else none
  match fault? with
  | some fault => .error fault.failure
  | none => .ok (g.words alphabet maxLength.toNat count.toNat state).1

end Kleene
