import Kleene.Text.Quoted

/-!
# Spellings of regular expressions

A `Spelling` fixes the tokens in which an expression is written down: the empty word, the empty set,
alternation, groups, the star, and the form of a symbol. `Spelling.words` is the spelling for
readers, with symbols as they are. `Spelling.pattern` is the spelling for a matcher of characters:
each symbol stands for its characters and a separator that ends it, and characters with a meaning of
their own are quoted by a backslash.
-/

set_option autoImplicit false

namespace Kleene

/-- The tokens of a written expression. -/
structure Spelling where
  epsilon : String
  emptySet : String
  alternation : String := "|"
  groupOpen : String := "("
  groupClose : String := ")"
  star : String := "*"
  /-- How a symbol is written. -/
  symbol : String → String := id
  /-- Whether only symbols that are texts can be written. -/
  textsOnly : Bool := false

namespace Spelling

/-- An expression as one operand. -/
def group (s : Spelling) (expression : String) : String :=
  s.groupOpen ++ expression ++ s.groupClose

/-- The expression for any of the given ones. -/
def union (s : Spelling) (expressions : List String) : String :=
  String.intercalate s.alternation expressions

/-- The character that ends each symbol of an encoded word. -/
def separator : Char := '\x1f'

/-- The characters that have a meaning of their own in a pattern, blanks included. -/
def reserved : List Char :=
  [' ', '\t', '\n', '\r', '\x0b', '\x0c', '(', ')', '[', ']', '\x7b', '\x7d', '?', '*', '+', '-',
    '|', '^', '$', Text.backslash, '.', '&', '~', '#']

/-- A text with a backslash before each reserved character. -/
def escape (text : List Char) : List Char :=
  text.flatMap (fun c => if reserved.contains c then [Text.backslash, c] else [c])

/-- The spelling for readers. -/
def words : Spelling where
  epsilon := "eps"
  emptySet := "\x7b\x7d"

/-- The pattern that no text matches: a character that is neither a word character nor another. -/
def noMatch : List Char :=
  ['[', '^', Text.backslash, 'w', Text.backslash, 'W', ']']

/-- The spelling for a matcher of characters. -/
def pattern : Spelling where
  epsilon := ""
  emptySet := String.ofList noMatch
  groupOpen := "(?:"
  symbol text := String.ofList (escape text.toList ++ [separator])
  textsOnly := true

end Spelling

end Kleene
