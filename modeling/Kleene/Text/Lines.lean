/-!
# Lines and fields of a text

A line ends at a line feed, a carriage return, the two of them together, or at one of eight further
separators. `splitLines` gives the lines without their ends; a separator at the very end of a text
opens no further line, and a text without characters has no line.

`split` gives the fields between the occurrences of one separator.

`unifyLineEnds` writes every carriage return, with or without a line feed after it, as one line
feed, as is done to a file that is read as text.
-/

set_option autoImplicit false

namespace Kleene.Text

/-- The characters at which a line ends. -/
def isLineBreak (c : Char) : Bool :=
  c == '\n' || c == '\r' || c == '\x0b' || c == '\x0c' || c == '\x1c' || c == '\x1d' ||
    c == '\x1e' || c == '\x85' || c == '\u2028' || c == '\u2029'

/-- Puts a character in front of the first line. -/
def consLine (c : Char) : List (List Char) → List (List Char)
  | [] => [[c]]
  | line :: lines => (c :: line) :: lines

/-- The lines of a text, without the separators that end them. -/
def splitLines : List Char → List (List Char)
  | [] => []
  | '\r' :: '\n' :: rest => [] :: splitLines rest
  | c :: rest => if isLineBreak c then [] :: splitLines rest else consLine c (splitLines rest)

/-- The parts of a text between the occurrences of a separator; there is always at least one. -/
def split (separator : Char) : List Char → List (List Char)
  | [] => [[]]
  | c :: rest =>
    if c == separator then [] :: split separator rest
    else match split separator rest with
      | [] => [[c]]
      | part :: parts => (c :: part) :: parts

/-- The text with a line feed for every carriage return, alone or followed by a line feed. -/
def unifyLineEnds : List Char → List Char
  | [] => []
  | '\r' :: '\n' :: rest => '\n' :: unifyLineEnds rest
  | c :: rest => (if c == '\r' then '\n' else c) :: unifyLineEnds rest

end Kleene.Text
