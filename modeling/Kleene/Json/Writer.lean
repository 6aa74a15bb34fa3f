import Kleene.Json.Basic

/-!
# Writing JSON

`Json.write` writes a value on one line in ASCII: every other point is escaped by its code, and a
character that needs it by a pair of halves.
-/

set_option autoImplicit false

namespace Kleene.Json

/-- The escape of a code of at most four hexadecimal digits. -/
def unicodeEscape (code : Nat) : List Char :=
  '\x5c' :: 'u' :: Text.hexDigits 4 code

/-- A character inside quotes. -/
def writeChar (c : Char) : List Char :=
  let code := c.toNat
  if c == '\x22' || c == '\x5c' then ['\x5c', c]
  else if c == '\n' then ['\x5c', 'n']
  else if c == '\r' then ['\x5c', 'r']
  else if c == '\t' then ['\x5c', 't']
  else if c == '\x08' then ['\x5c', 'b']
  else if c == '\x0c' then ['\x5c', 'f']
  else if 0x20 ≤ code && code < 0x7f then [c]
  else if code < 0x10000 then unicodeEscape code
  else
    let offset := code - 0x10000
    unicodeEscape (0xd800 + offset / 0x400) ++ unicodeEscape (0xdc00 + offset % 0x400)

/-- A point inside quotes. -/
def writePoint : Text.Point → List Char
  | .char c => writeChar c
  | .half place => unicodeEscape (Text.Point.half place).code

/-- A text between quotes. -/
def writeText (text : String) : String :=
  String.ofList ('\x22' :: (Text.pointsOf text).flatMap writePoint ++ ['\x22'])

/-- A scalar. -/
def writeScalar : Scalar → String
  | .null => "null"
  | .bool value => if value then "true" else "false"
  | .int value => toString value
  | .real .nan => "NaN"
  | .real (.infinite negative) => if negative then "-Infinity" else "Infinity"
  | .real value => value.toText
  | .text value => writeText value

/-- A value on one line. -/
def write : Json → String
  | .scalar value => writeScalar value
  | .array items =>
    "[" ++ String.intercalate ", " (items.attach.map (fun item => item.1.write)) ++ "]"
  | .object entries =>
    "\x7b" ++ String.intercalate ", "
      (entries.attach.map (fun entry => writeText entry.1.1 ++ ": " ++ entry.1.2.write)) ++ "\x7d"
termination_by json => sizeOf json
decreasing_by
  · have := List.sizeOf_lt_of_mem item.2
    simp
    omega
  · have h := List.sizeOf_lt_of_mem entry.2
    have : sizeOf entry.1 = 1 + sizeOf entry.1.1 + sizeOf entry.1.2 := rfl
    simp
    omega

end Kleene.Json
