import Kleene.Expression.Regex
import Kleene.Expression.Spelling

/-!
# Patterns of characters

A pattern is a written expression over characters. `|` separates alternatives, a star repeats the
item before it, `(?:` and `)` enclose a group, a backslash takes away the meaning of the character
after it, and one class of characters, which no character belongs to, stands for the empty set.
An alternative without items is the empty word. Every other use of a reserved character is refused.

`Pattern.read?` reads a pattern in one pass with a stack of the groups that are still open.
-/

set_option autoImplicit false

namespace Kleene.Pattern

/-- A group that is being read. -/
structure Frame where
  /-- The alternatives that are complete, newest first. -/
  alternatives : List (Regex Char) := []
  /-- The items of the alternative that is being read, newest first. -/
  items : List (Regex Char) := []
  /-- Whether the newest item can take a star. -/
  repeatable : Bool := false
  deriving Repr, DecidableEq, Inhabited

namespace Frame

/-- The group with one more item. -/
def push (f : Frame) (item : Regex Char) : Frame :=
  { f with items := item :: f.items, repeatable := true }

/-- The group with a star on its newest item. -/
def addStar? (f : Frame) : Option Frame :=
  match f.items with
  | item :: items =>
    if f.repeatable then some { f with items := .star item :: items, repeatable := false } else none
  | [] => none

/-- The group with its alternative completed and an empty one begun. -/
def alternate (f : Frame) : Frame :=
  { alternatives := Regex.sequence f.items.reverse :: f.alternatives }

/-- The expression of a group that is complete. -/
def close (f : Frame) : Regex Char :=
  Regex.unions f.alternate.alternatives.reverse

end Frame

/-- Reads the rest of a pattern inside the innermost group, with the groups around it. -/
def readFrom : List Char → Frame → List Frame → Option (Regex Char)
  | [], frame, [] => some frame.close
  | [], _, _ :: _ => none
  | '\x5c' :: c :: rest, frame, outer => readFrom rest (frame.push (.letter c)) outer
  | '(' :: '?' :: ':' :: rest, frame, outer => readFrom rest {} (frame :: outer)
  | ')' :: rest, frame, around :: outer => readFrom rest (around.push frame.close) outer
  | '|' :: rest, frame, outer => readFrom rest frame.alternate outer
  | '*' :: rest, frame, outer => do readFrom rest (← frame.addStar?) outer
  | '[' :: '^' :: '\x5c' :: 'w' :: '\x5c' :: 'W' :: ']' :: rest, frame, outer =>
    readFrom rest (frame.push .nothing) outer
  | c :: rest, frame, outer =>
    if Spelling.reserved.contains c then none else readFrom rest (frame.push (.letter c)) outer

/-- The expression that a pattern stands for, if it is one. -/
def read? (text : List Char) : Option (Regex Char) :=
  readFrom text {} []

end Kleene.Pattern
