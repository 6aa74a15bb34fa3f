import Kleene.Expression.Derivation
import Kleene.Words.Enumeration

/-!
# Comparing an automaton with its expression

`Automaton.counterexample` looks for the first word on which an automaton and the pattern derived
from it disagree, among given words or among all words over the alphabet up to a length.
-/

set_option autoImplicit false

namespace Kleene

namespace Automaton

variable {ν : Type} [Name ν]

/-- The symbols of a word as texts; a symbol that is no text cannot be encoded. -/
def symbolTexts {μ : Type} (word : List ν) : Except (Failure μ) (List String) :=
  word.mapM (fun symbol => match Name.text? symbol with
    | some text => .ok text
    | none => .error (.notAppendable (Name.kind symbol)))

/-- Whether the encoded word belongs to a pattern. -/
def patternAccepts {μ : Type} (pattern : Regex Char) (word : List ν) : Except (Failure μ) Bool := do
  return pattern.matchesWord (← symbolTexts word)

/-- The first word on which two judges disagree. -/
def firstDisagreement {α ε : Type} (judge other : α → Except ε Bool) :
    List α → Except ε (Option α)
  | [] => .ok none
  | word :: rest => do
    let accepted ← judge word
    let matched ← other word
    if accepted != matched then return some word else firstDisagreement judge other rest

/-- The first of the given words on which an automaton and its expression disagree. -/
def counterexample (m : Automaton ν) (words : List (List ν)) :
    Except (Failure ν) (Option (List ν)) := do
  let pattern ← m.recognizer
  firstDisagreement m.accepts (patternAccepts pattern) words

/-- The first word over the alphabet, up to a length, on which an automaton and its expression
disagree. -/
def counterexampleUpTo (m : Automaton ν) (maxLength : Int) :
    Except (Failure ν) (Option (List ν)) :=
  m.counterexample (wordsUpTo m.alphabet maxLength)

end Automaton

end Kleene
