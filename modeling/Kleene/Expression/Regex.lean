import Kleene.Saturation

/-!
# Regular expressions and their matching

A `Regex` is an expression over letters of any type. `Regex.rests` takes a set of words and gives
all that can be left of them once a word of the expression is taken off the front; `Regex.accepts`
asks whether nothing can be left. Sets of words are lists here.
-/

set_option autoImplicit false

namespace Kleene

/-- A regular expression over letters. -/
inductive Regex (α : Type) where
  /-- No word at all. -/
  | nothing
  /-- The empty word. -/
  | empty
  /-- The word of one letter. -/
  | letter (a : α)
  | union (r s : Regex α)
  | append (r s : Regex α)
  | star (r : Regex α)
  deriving Repr, DecidableEq, Inhabited

namespace Regex

variable {α : Type}

/-- The union of a list of expressions. -/
def unions : List (Regex α) → Regex α
  | [] => nothing
  | [r] => r
  | r :: rest => union r (unions rest)

/-- The expressions of a list one after the other. -/
def sequence : List (Regex α) → Regex α
  | [] => empty
  | [r] => r
  | r :: rest => append r (sequence rest)

variable [BEq α]

/-- What can be left of the given words when a word of the expression is taken off the front. -/
def rests : Regex α → List (List α) → List (List α)
  | _, [] => []
  | nothing, _ => []
  | empty, words => words
  | letter a, words => words.filterMap (fun word => match word with
    | b :: rest => if a == b then some rest else none
    | [] => none)
  | union r s, words => (r.rests words ++ s.rests words).eraseDups
  | append r s, words => s.rests (r.rests words)
  | star r, words =>
    saturate r.rests ((words.map (fun word => word.length + 1)).sum) words words

/-- Whether the whole word belongs to the expression. -/
def accepts (r : Regex α) (word : List α) : Bool :=
  (r.rests [word]).any List.isEmpty

end Regex

end Kleene
