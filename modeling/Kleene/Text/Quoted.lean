import Kleene.Text.Hexadecimal
import Kleene.Text.Invisible
import Kleene.Text.Point

/-!
# Quoted text

`quote` writes a text so that it can be told apart from the words around it: between apostrophes,
or between double quotes if it holds an apostrophe and no double quote. The quote in use and the
backslash are written after a backslash, and a point that leaves no mark of its own is written by
its name or by its code in the shortest of three widths.
-/

set_option autoImplicit false

namespace Kleene.Text

/-- The apostrophe. -/
def apostrophe : Char := '\x27'

/-- The double quote. -/
def doubleQuote : Char := '\x22'

/-- The backslash. -/
def backslash : Char := '\x5c'

/-- A code in two, four or eight digits. -/
def codeEscape (code : Nat) : List Char :=
  if code < 0x100 then backslash :: 'x' :: hexDigits 2 code
  else if code < 0x10000 then backslash :: 'u' :: hexDigits 4 code
  else backslash :: 'U' :: hexDigits 8 code

/-- A character inside the given quotes. -/
def quoteChar (mark : Char) (c : Char) : List Char :=
  if c == mark || c == backslash then [backslash, c]
  else if c == '\t' then [backslash, 't']
  else if c == '\n' then [backslash, 'n']
  else if c == '\r' then [backslash, 'r']
  else if isInvisible c then codeEscape c.toNat
  else [c]

/-- A point inside the given quotes; a half leaves no mark. -/
def quotePoint (mark : Char) : Point → List Char
  | .char c => quoteChar mark c
  | .half place => codeEscape (Point.half place).code

/-- The quotes to use: apostrophes, unless the text holds one of them and no double quote. -/
def quoteMark (text : List Char) : Char :=
  if text.contains apostrophe && !text.contains doubleQuote then doubleQuote else apostrophe

/-- The text between quotes. -/
def quote (text : String) : String :=
  let mark := quoteMark text.toList
  String.ofList (mark :: (pointsOf text).flatMap (quotePoint mark) ++ [mark])

/-- Texts one after the other between square brackets, as a list of values is shown. -/
def bracketed (items : List String) : String :=
  "[" ++ String.intercalate ", " items ++ "]"

end Kleene.Text
