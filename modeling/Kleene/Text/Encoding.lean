import Kleene.Text.Hexadecimal
import Kleene.Text.Point

/-!
# Bytes as text

`Encoding.detect` guesses from its first bytes in which of the encodings of Unicode a text is
written, and `Encoding.decode` reads its points, or reports the first bytes that stand for none. A
half of a pair is a point that `Encoding.decodeUtf8`, the strict reader of one encoding, refuses.

`encodeUtf8` writes any points as bytes. Where halves must not be written, `checkEncodable` reports
the first of them.
-/

set_option autoImplicit false

namespace Kleene.Text

/-- Bytes that stand for no character, from `first` up to but without `stop`. -/
structure DecodeError where
  /-- The name of the encoding. -/
  encoding : String
  /-- The first of the bytes. -/
  byte : UInt8
  first : Nat
  stop : Nat
  reason : String
  deriving Repr, DecidableEq

/-- The sentence that states where the decoder stopped, and why. -/
def DecodeError.message (e : DecodeError) : String :=
  let place :=
    if e.stop = e.first + 1 then s!"byte 0x{byteDigits e.byte} in position {e.first}"
    else s!"bytes in position {e.first}-{e.stop - 1}"
  s!"'{e.encoding}' codec can't decode {place}: {e.reason}"

/-- The code of the character that two halves of a pair stand for. -/
def joinHalves (high low : Nat) : Nat :=
  0x10000 + (high - 0xd800) * 0x400 + (low - 0xdc00)

/-- What a decoder finds at the front of some bytes. -/
inductive Found where
  /-- A point, by its code, in so many bytes. -/
  | code (code : Nat) (length : Nat)
  /-- Bytes, so many of them, that stand for no point. -/
  | fault (length : Nat) (reason : String)
  deriving Repr, DecidableEq

/-- Reads one point after the other. `first` is the position of the front of the bytes. Every point
takes a byte, so the number of bytes is enough fuel. -/
def decodeWith (encoding : String) (find : List UInt8 → Found) :
    Nat → Nat → List UInt8 → List Point → Except DecodeError (List Point)
  | _, _, [], text => .ok text.reverse
  | 0, _, _ :: _, text => .ok text.reverse
  | fuel + 1, first, byte :: rest, text =>
    match find (byte :: rest) with
    | .code code length =>
      decodeWith encoding find fuel (first + length) ((byte :: rest).drop length)
        (Point.ofCode code :: text)
    | .fault length reason =>
      .error ⟨encoding, byte, first, first + length, reason⟩

/-- Whether a byte can only continue a character. -/
def isContinuation (byte : UInt8) : Bool :=
  0x80 ≤ byte && byte ≤ 0xbf

/-- The six bits that a continuation byte adds to a code. -/
def extend (code : Nat) (byte : UInt8) : Nat :=
  code * 0x40 + (byte.toNat - 0x80)

/-- How many bytes a character of UTF-8 takes by its first byte, if any character begins so. -/
def utf8Length? (byte : UInt8) : Option Nat :=
  if byte < 0x80 then some 1
  else if byte < 0xc2 then none
  else if byte < 0xe0 then some 2
  else if byte < 0xf0 then some 3
  else if byte < 0xf5 then some 4
  else none

/-- Whether the second byte of a character is possible after the first one. The limits keep out
longer forms of a shorter code, codes that are too large and, unless they pass, halves of pairs. -/
def utf8Second (halves : Bool) (first second : UInt8) : Bool :=
  isContinuation second && !(first == 0xe0 && second < 0xa0) && !(first == 0xf0 && second < 0x90) &&
    !(first == 0xf4 && second ≥ 0x90) && (halves || !(first == 0xed && second ≥ 0xa0))

/-- The character of UTF-8 at the front of some bytes. -/
def findUtf8 (halves : Bool) : List UInt8 → Found
  | [] => .fault 0 ""
  | first :: rest =>
    let invalid := "invalid continuation byte"
    let tooShort := Found.fault (rest.length + 1) "unexpected end of data"
    match utf8Length? first, rest with
    | none, _ => .fault 1 "invalid start byte"
    | some 1, _ => .code first.toNat 1
    | some _, [] => tooShort
    | some 2, second :: _ =>
      if utf8Second halves first second then .code (extend (first.toNat - 0xc0) second) 2
      else .fault 1 invalid
    | some 3, second :: rest =>
      -- what begins like half of a pair but is not complete counts as one bad byte
      let half := first == 0xed && second ≥ 0xa0
      if !utf8Second halves first second then .fault 1 invalid
      else match rest with
        | [] => if half then .fault 1 invalid else tooShort
        | third :: _ =>
          if isContinuation third then .code (extend (extend (first.toNat - 0xe0) second) third) 3
          else .fault (if half then 1 else 2) invalid
    | some _, second :: rest =>
      if !utf8Second halves first second then .fault 1 invalid
      else match rest with
        | [] => tooShort
        | third :: rest =>
          if !isContinuation third then .fault 2 invalid
          else match rest with
            | [] => tooShort
            | fourth :: _ =>
              if isContinuation fourth then
                .code (extend (extend (extend (first.toNat - 0xf0) second) third) fourth) 4
              else .fault 3 invalid

/-- The number that two bytes stand for. -/
def pairValue (bigEndian : Bool) (a b : UInt8) : Nat :=
  if bigEndian then a.toNat * 0x100 + b.toNat else b.toNat * 0x100 + a.toNat

/-- The character of UTF-16 at the front of some bytes, halves of pairs included. -/
def findUtf16 (bigEndian : Bool) : List UInt8 → Found
  | [] => .fault 0 ""
  | [_] => .fault 1 "truncated data"
  | a :: b :: rest =>
    let unit := pairValue bigEndian a b
    match rest with
    | c :: d :: _ =>
      let next := pairValue bigEndian c d
      if 0xd800 ≤ unit && unit < 0xdc00 && 0xdc00 ≤ next && next ≤ 0xdfff then
        .code (joinHalves unit next) 4
      else .code unit 2
    | _ => .code unit 2

/-- The character of UTF-32 at the front of some bytes, halves of pairs included. -/
def findUtf32 (bigEndian : Bool) : List UInt8 → Found
  | [] => .fault 0 ""
  | a :: b :: c :: d :: _ =>
    let first := pairValue bigEndian a b
    let last := pairValue bigEndian c d
    let code := if bigEndian then first * 0x10000 + last else last * 0x10000 + first
    if code < 0x110000 then .code code 4
    else .fault 4 "code point not in range(0x110000)"
  | bytes => .fault bytes.length "truncated data"

/-- The encodings that are told apart. -/
inductive Encoding where
  | utf8
  | utf16 (bigEndian : Bool)
  | utf32 (bigEndian : Bool)
  deriving Repr, DecidableEq

namespace Encoding

/-- The encoding and the number of bytes of the mark that announces it. A mark decides; without one
the zeros among the first bytes do, since a text begins with characters whose codes are small. -/
def detect : List UInt8 → Encoding × Nat
  | 0x00 :: 0x00 :: 0xfe :: 0xff :: _ => (utf32 true, 4)
  | 0xff :: 0xfe :: 0x00 :: 0x00 :: _ => (utf32 false, 4)
  | 0xfe :: 0xff :: _ => (utf16 true, 2)
  | 0xff :: 0xfe :: _ => (utf16 false, 2)
  | 0xef :: 0xbb :: 0xbf :: _ => (utf8, 3)
  | a :: b :: c :: d :: _ =>
    if a == 0 then (if b == 0 then utf32 true else utf16 true, 0)
    else if b == 0 then (if c == 0 && d == 0 then utf32 false else utf16 false, 0)
    else (utf8, 0)
  | [a, b] =>
    if a == 0 then (utf16 true, 0) else if b == 0 then (utf16 false, 0) else (utf8, 0)
  | _ => (utf8, 0)

/-- Reads bytes in the encoding that they seem to be written in; halves of pairs pass. Positions
count the mark, except that of UTF-8. -/
def decode (bytes : List UInt8) : Except DecodeError (List Point) :=
  let (encoding, mark) := detect bytes
  let rest := bytes.drop mark
  match encoding with
  | utf8 => decodeWith "utf-8" (findUtf8 true) rest.length 0 rest []
  | utf16 bigEndian =>
    let name := if bigEndian then "utf-16-be" else "utf-16-le"
    decodeWith name (findUtf16 bigEndian) rest.length mark rest []
  | utf32 bigEndian =>
    let name := if bigEndian then "utf-32-be" else "utf-32-le"
    decodeWith name (findUtf32 bigEndian) rest.length mark rest []

/-- Reads bytes strictly as UTF-8. -/
def decodeUtf8 (bytes : List UInt8) : Except DecodeError (List Point) :=
  decodeWith "utf-8" (findUtf8 false) bytes.length 0 bytes []

end Encoding

/-- The bytes of a point in UTF-8; a half takes three, as a character of its size would. -/
def encodePoint : Point → List UInt8
  | .char c => String.utf8EncodeChar c
  | .half place =>
    let code := (Point.half place).code
    [(0xe0 + code / 0x1000).toUInt8, (0x80 + code / 0x40 % 0x40).toUInt8,
      (0x80 + code % 0x40).toUInt8]

/-- The bytes of a text in UTF-8. -/
def encodeUtf8 (text : String) : List UInt8 :=
  (pointsOf text).flatMap encodePoint

/-- Halves of pairs where they cannot be written, from `first` up to but without `stop`. -/
structure EncodeError where
  /-- The first of the halves. -/
  half : Fin 2048
  first : Nat
  stop : Nat
  deriving Repr, DecidableEq

/-- The sentence that states where the encoder stopped, and why. -/
def EncodeError.message (e : EncodeError) : String :=
  let digits := String.ofList (hexDigits 4 (Point.half e.half).code)
  let place :=
    if e.stop = e.first + 1 then s!"character '\\u{digits}' in position {e.first}"
    else s!"characters in position {e.first}-{e.stop - 1}"
  s!"'utf-8' codec can't encode {place}: surrogates not allowed"

/-- The first half that does not pass, with the halves that follow it without a gap. `place` is the
position of the front of the points. -/
def findUnencodable (passes : Fin 2048 → Bool) : Nat → List Point → Option EncodeError
  | _, [] => none
  | place, .char _ :: rest => findUnencodable passes (place + 1) rest
  | place, .half half :: rest =>
    if passes half then findUnencodable passes (place + 1) rest
    else some ⟨half, place, place + 1 + (rest.takeWhile Point.isHalf).length⟩

/-- Checks that every half among some points passes. -/
def checkHalves (passes : Fin 2048 → Bool) (list : List Point) : Except EncodeError Unit :=
  match findUnencodable passes 0 list with
  | some error => .error error
  | none => .ok ()

/-- Checks that there is no half among some points. -/
def checkEncodable (list : List Point) : Except EncodeError Unit :=
  checkHalves (fun _ => false) list

/-- Whether a half stands for a single byte that is no part of a character, as names of files may
have them. -/
def isLoneByte (half : Fin 2048) : Bool :=
  0xdc80 ≤ (Point.half half).code && (Point.half half).code ≤ 0xdcff

end Kleene.Text
