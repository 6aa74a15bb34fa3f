import Kleene.Json.Basic
import Kleene.Text.Encoding

/-!
# Reading JSON

`Json.read` reads one JSON value and nothing after it. A key that comes twice keeps its first place
and takes its last value; `NaN` and the two infinities are numbers; half of a pair may be escaped. A
failure says what was expected and where: the offset in points, and the line and the column that the
offset falls in. How deep lists and dictionaries may be inside one another and how many digits an
integer may have is bounded (`Json.Bounds`).

`Json.ofBytes` reads a value from the bytes of a text.
-/

set_option autoImplicit false

namespace Kleene.Json

/-- What is wrong with a text that is no JSON value. -/
inductive Fault where
  | value
  | propertyName
  | colon
  | comma
  | unterminated
  | control
  | escape
  | unicodeEscape
  | extraData
  /-- An integer with so many digits that it is refused. -/
  | tooLong (digits : Nat)
  /-- A list or a dictionary inside so many others that it is refused. -/
  | tooDeep (kind : String)
  deriving Repr, DecidableEq

/-- The words for what is wrong, without the place. -/
def Fault.description : Fault → String
  | .value => "Expecting value"
  | .propertyName => "Expecting property name enclosed in double quotes"
  | .colon => "Expecting ':' delimiter"
  | .comma => "Expecting ',' delimiter"
  | .unterminated => "Unterminated string starting at"
  | .control => "Invalid control character at"
  | .escape => "Invalid \\escape"
  | .unicodeEscape => "Invalid \\uXXXX escape"
  | .extraData => "Extra data"
  | .tooLong digits => s!"Exceeds the limit (4300 digits) for integer string conversion: " ++
      s!"value has {digits} digits; use sys.set_int_max_str_digits() to increase the limit"
  | .tooDeep kind =>
    s!"maximum recursion depth exceeded while decoding a JSON {kind} from a unicode string"

/-- Whether a fault lies at a place of the text, and not in a limit of the reader. -/
def Fault.hasPlace : Fault → Bool
  | .tooLong _ | .tooDeep _ => false
  | _ => true

/-- What is wrong, and how many characters of the text come before it. -/
structure ReadError where
  fault : Fault
  offset : Nat
  deriving Repr, DecidableEq

/-- The sentence that states the error for a text. Lines end at line feeds. -/
def ReadError.message (text : List Char) (e : ReadError) : String :=
  if e.fault.hasPlace then
    let before := text.take e.offset
    let line := before.count '\n' + 1
    let column := (Text.points (before.reverse.takeWhile (fun c => c != '\n')).reverse).length + 1
    let offset := (Text.points before).length
    s!"{e.fault.description}: line {line} column {column} (char {offset})"
  else e.fault.description

/-- The rest of a text and its offset in the whole. -/
structure Cursor where
  rest : List Char
  offset : Nat
  deriving Repr, DecidableEq

namespace Cursor

/-- The cursor after so many more characters. -/
def advance (c : Cursor) (count : Nat) : Cursor :=
  ⟨c.rest.drop count, c.offset + count⟩

/-- Whether the character may stand between the parts of a value. -/
def isBlank (c : Char) : Bool :=
  c == ' ' || c == '\t' || c == '\n' || c == '\r'

/-- The cursor at the next character that is not blank. -/
def skipBlanks (c : Cursor) : Cursor :=
  c.advance (c.rest.takeWhile isBlank).length

/-- A failure at the cursor. -/
def fail {α : Type} (c : Cursor) (fault : Fault) : Except ReadError α :=
  .error ⟨fault, c.offset⟩

end Cursor

/-- The value of four hexadecimal digits. -/
def hexCode? (a b c d : Char) : Option Nat := do
  return (((← Text.hexValue? a) * 16 + (← Text.hexValue? b)) * 16 + (← Text.hexValue? c)) * 16 +
    (← Text.hexValue? d)

/-- The character that an escape of one letter stands for. -/
def escaped? (c : Char) : Option Char :=
  match c with
  | '\x22' => some '\x22'
  | '\x5c' => some '\x5c'
  | '/' => some '/'
  | 'b' => some '\x08'
  | 'f' => some '\x0c'
  | 'n' => some '\n'
  | 'r' => some '\r'
  | 't' => some '\t'
  | _ => none

/-- Puts the point of a code in front of a text that is written backwards. -/
def pushCode (code : Nat) (text : List Char) : List Char :=
  (Text.Point.ofCode code).spell.reverse ++ text

/-- Reads a text after its opening quote, which stands at `start`, up to its closing one. At least
one character has to follow the digits of a code. -/
def readText (start : Nat) : List Char → Nat → List Char → Except ReadError (String × Cursor)
  | [], _, _ => .error ⟨.unterminated, start⟩
  | '\x22' :: rest, offset, text => .ok (String.ofList text.reverse, ⟨rest, offset + 1⟩)
  | '\x5c' :: 'u' :: a :: b :: c :: d :: e :: rest, offset, text =>
    match hexCode? a b c d with
    | none => .error ⟨.unicodeEscape, offset + 1⟩
    | some high =>
      if 0xd800 ≤ high && high < 0xdc00 then
        match e, rest with
        | '\x5c', 'u' :: a :: b :: c :: d :: e :: rest' =>
          match hexCode? a b c d with
          | none => .error ⟨.unicodeEscape, offset + 7⟩
          | some low =>
            if 0xdc00 ≤ low && low ≤ 0xdfff then
              readText start (e :: rest') (offset + 12)
                (pushCode (Text.joinHalves high low) text)
            else
              readText start ('\x5c' :: 'u' :: a :: b :: c :: d :: e :: rest') (offset + 6)
                (pushCode high text)
        | e, rest => readText start (e :: rest) (offset + 6) (pushCode high text)
      else readText start (e :: rest) (offset + 6) (pushCode high text)
  | ['\x5c'], _, _ => .error ⟨.unterminated, start⟩
  | '\x5c' :: c :: rest, offset, text =>
    if c == 'u' then .error ⟨.unicodeEscape, offset + 1⟩
    else match escaped? c with
      | some c => readText start rest (offset + 2) (c :: text)
      | none => .error ⟨.escape, offset⟩
  | c :: rest, offset, text =>
    if c.toNat < 0x20 then .error ⟨.control, offset⟩
    else readText start rest (offset + 1) (c :: text)
termination_by text => text.length

/-- The number that decimal digits stand for. -/
def digitsValue (digits : List Char) : Nat :=
  digits.foldl (fun value c => value * 10 + (c.toNat - '0'.toNat)) 0

/-- The digits at the front of a text. -/
def leadingDigits (text : List Char) : List Char :=
  text.takeWhile Char.isDigit

/-- The exponent at the front of a text, as its value and the number of characters it takes. An
exponent without digits is not part of the number. -/
def readExponent (text : List Char) : Int × Nat :=
  match text with
  | mark :: rest =>
    if mark == 'e' || mark == 'E' then
      let (negative, signs, rest) := match rest with
        | '-' :: rest => (true, 1, rest)
        | '+' :: rest => (false, 1, rest)
        | rest => (false, 0, rest)
      let digits := leadingDigits rest
      if digits.isEmpty then (0, 0)
      else
        let value : Int := digitsValue digits
        (if negative then -value else value, 1 + signs + digits.length)
    else (0, 0)
  | [] => (0, 0)

/-- The digits after the point at the front of a text. A point without digits is not part of the
number. -/
def readFraction (text : List Char) : List Char :=
  match text with
  | '.' :: rest => leadingDigits rest
  | _ => []

/-- How much of a value the reader takes. The defaults are no part of JSON: they come from one build
of the interpreter that the service runs in, and are others in another. -/
structure Bounds where
  /-- The most lists and dictionaries that may be inside one another. By default it is what is left,
  when the reader begins, of the thousand calls that the interpreter allows inside one another. -/
  depth : Nat := 976
  /-- The most digits that an integer may have. By default it is the longest number that the
  interpreter converts. -/
  digits : Nat := 4300
  deriving Repr, DecidableEq

/-- Reads a number whose whole part has at most so many digits, unless it has a fraction or an
exponent. -/
def readNumber (digits : Nat) (c : Cursor) : Except ReadError (Json × Cursor) := do
  let negative := c.rest.head? == some '-'
  let unsigned := if negative then c.advance 1 else c
  let whole := match unsigned.rest with
    | '0' :: _ => ['0']
    | rest => leadingDigits rest
  if whole.isEmpty then c.fail .value
  else
    let afterWhole := unsigned.advance whole.length
    let fraction := readFraction afterWhole.rest
    let afterFraction :=
      if fraction.isEmpty then afterWhole else afterWhole.advance (fraction.length + 1)
    let (exponent, exponentLength) := readExponent afterFraction.rest
    if fraction.isEmpty && exponentLength == 0 then
      if whole.length > digits then c.fail (.tooLong whole.length)
      else
        let value : Int := digitsValue whole
        return (.scalar (.int (if negative then -value else value)), afterWhole)
    else
      let value := Double.ofDecimal negative (digitsValue (whole ++ fraction))
        (exponent - (fraction.length : Int))
      return (.scalar (.real value), afterFraction.advance exponentLength)

/-- The words that stand for a value. -/
def literals : List (String × Scalar) :=
  [("null", .null), ("true", .bool true), ("false", .bool false), ("NaN", .real .nan),
    ("Infinity", .real (.infinite false)), ("-Infinity", .real (.infinite true))]

mutual

/-- Reads a value that may hold `room` lists and dictionaries inside one another. The fuel bounds
the number of nested or successive parts; every part takes a character, so the length of the text is
enough. -/
def readValue (digits : Nat) : Nat → Nat → Cursor → Except ReadError (Json × Cursor)
  | 0, _, c => c.fail .value
  | fuel + 1, room, c =>
    match c.rest, room with
    | '\x22' :: rest, _ => do
      let (text, after) ← readText c.offset rest (c.offset + 1) []
      return (.text text, after)
    | '[' :: _, 0 => c.fail (.tooDeep "array")
    | '[' :: _, room + 1 => do
      let first := (c.advance 1).skipBlanks
      if first.rest.head? == some ']' then return (.array [], first.advance 1)
      else readItems digits fuel room first []
    | '\x7b' :: _, 0 => c.fail (.tooDeep "object")
    | '\x7b' :: _, room + 1 => do
      let first := (c.advance 1).skipBlanks
      if first.rest.head? == some '\x7d' then return (.object [], first.advance 1)
      else readEntries digits fuel room first []
    | _, _ =>
      match literals.find? (fun literal => literal.1.toList.isPrefixOf c.rest) with
      | some literal => .ok (.scalar literal.2, c.advance literal.1.length)
      | none => readNumber digits c

/-- Reads the items of a list from the next one on, up to the closing bracket. -/
def readItems (digits : Nat) :
    Nat → Nat → Cursor → List Json → Except ReadError (Json × Cursor)
  | 0, _, c, _ => c.fail .value
  | fuel + 1, room, c, items => do
    let (item, after) ← readValue digits fuel room c
    let next := after.skipBlanks
    match next.rest.head? with
    | some ']' => return (.array (item :: items).reverse, next.advance 1)
    | some ',' => readItems digits fuel room (next.advance 1).skipBlanks (item :: items)
    | _ => next.fail .comma

/-- Reads the entries of a dictionary from the next key on, up to the closing brace. -/
def readEntries (digits : Nat) :
    Nat → Nat → Cursor → List (String × Json) → Except ReadError (Json × Cursor)
  | 0, _, c, _ => c.fail .value
  | fuel + 1, room, c, entries => do
    let '\x22' :: rest := c.rest | c.fail .propertyName
    let (key, after) ← readText c.offset rest (c.offset + 1) []
    let colon := after.skipBlanks
    let ':' :: _ := colon.rest | colon.fail .colon
    let (value, after) ← readValue digits fuel room (colon.advance 1).skipBlanks
    let entries := setEntry key value entries
    let next := after.skipBlanks
    match next.rest.head? with
    | some '\x7d' => return (.object entries, next.advance 1)
    | some ',' => readEntries digits fuel room (next.advance 1).skipBlanks entries
    | _ => next.fail .comma

end

/-- Reads one value with nothing after it but blanks. -/
def read (text : List Char) (bounds : Bounds := {}) : Except ReadError Json := do
  let (value, after) ← readValue bounds.digits (2 * text.length + 2) bounds.depth
    (Cursor.skipBlanks ⟨text, 0⟩)
  let stop := after.skipBlanks
  if stop.rest.isEmpty then return value else stop.fail .extraData

/-- Why bytes are not read as a value. -/
inductive Refusal where
  /-- The bytes are no JSON text. -/
  | invalid (message : String)
  /-- The text goes deeper than the reader does. -/
  | tooDeep (message : String)
  deriving Repr, DecidableEq

/-- The refusal of a text. -/
def ReadError.refusal (text : List Char) (e : ReadError) : Refusal :=
  match e.fault with
  | .tooDeep _ => .tooDeep (e.message text)
  | _ => .invalid (e.message text)

/-- Reads a value from the bytes of a text. -/
def ofBytes (bytes : List UInt8) (bounds : Bounds := {}) : Except Refusal Json :=
  match Text.Encoding.decode bytes with
  | .error e => .error (.invalid e.message)
  | .ok points =>
    let text := points.flatMap Text.Point.spell
    (read text bounds).mapError (fun e => e.refusal text)

end Kleene.Json
