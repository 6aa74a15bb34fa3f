import Kleene.Text.Encoding
import Kleene.Text.Lines
import Kleene.Text.Quoted

/-!
# Addresses of requests

An address may begin with a scheme and an authority; the path, the query and the fragment follow.
`Address.read` takes an address apart. Blanks and controls in front of it, tabs and line ends
anywhere in it, and the fragment do not count. An authority that cannot be one is refused: with
brackets in it, its host is an address of version six or of a future version, and no character of it
may be a way to write one of the marks that end an authority. The path and the query have to be such
that they can be written as bytes.

`Address.pathBytes` and `Address.repeatedQuery` are the path as it is looked up, without escapes,
and the query as it is written into another address, with escapes.
-/

set_option autoImplicit false

namespace Kleene

/-- The parts of an address that a request is answered by. -/
structure Address where
  authority : List Char := []
  path : List Char
  query : List Char := []
  deriving Repr, DecidableEq

/-- Why an address is refused. -/
inductive AddressError where
  /-- Brackets that do not belong together. -/
  | brackets
  /-- An address between brackets that is of no version at all. -/
  | noHost (host : List Char)
  /-- An address of version four between brackets. -/
  | versionFour
  /-- An address of a future version that does not fit its form. -/
  | futureVersion
  /-- An authority with a mark in disguise. -/
  | disguise (authority : List Char)
  /-- A path or a query with halves of pairs. -/
  | notEncodable (error : Text.EncodeError)
  deriving Repr, DecidableEq

/-- The sentence that states the error. -/
def AddressError.message : AddressError → String
  | brackets => "Invalid IPv6 URL"
  | noHost host =>
    s!"{Text.quote (String.ofList host)} does not appear to be an IPv4 or IPv6 address"
  | versionFour => "An IPv4 address cannot be in brackets"
  | futureVersion => "IPvFuture address is invalid"
  | disguise authority =>
    s!"netloc '{String.ofList authority}' contains invalid characters under NFKC normalization"
  | notEncodable error => error.message

namespace Address

/-- What stands before the first occurrence of a separator, and what stands after it. -/
def cut (separator : Char) (text : List Char) : List Char × List Char :=
  (text.takeWhile (fun c => c != separator), (text.dropWhile (fun c => c != separator)).drop 1)

/-- Whether a character is a hexadecimal digit. -/
def isHexDigit (c : Char) : Bool :=
  (Text.hexValue? c).isSome

/-- Whether a text is a number below 256 without a needless zero. -/
def isOctet (text : List Char) : Bool :=
  !text.isEmpty && text.length ≤ 3 && text.all Char.isDigit &&
    (text.length == 1 || text.head? != some '0') &&
    text.foldl (fun value c => value * 10 + (c.toNat - '0'.toNat)) 0 ≤ 255

/-- Whether a host is an address of version four: four octets between points. -/
def isVersionFour (host : List Char) : Bool :=
  let octets := Text.split '.' host
  octets.length == 4 && octets.all isOctet

/-- Whether a text is a group of an address of version six: one to four hexadecimal digits. -/
def isGroup (text : List Char) : Bool :=
  !text.isEmpty && text.length ≤ 4 && text.all isHexDigit

/-- The groups that an address of version six is made of; an address of version four at its end
takes the place of two. -/
def groups? (host : List Char) : Option (List (List Char)) :=
  let groups := Text.split ':' host
  match groups.getLast? with
  | none => none
  | some last =>
    if groups.length < 3 then none
    else if last.contains '.' then
      if isVersionFour last then some (groups.dropLast ++ [['0'], ['0']]) else none
    else some groups

/-- Whether groups make an address of version six: eight of them, or fewer with one gap, which is an
empty group inside or two empty groups at an end. -/
def areGroups (groups : List (List Char)) : Bool :=
  let inner := groups.tail.dropLast
  match inner.findIdx? List.isEmpty with
  | none => groups.length == 8 && groups.all isGroup
  | some place =>
    let before := groups.take (place + 1)
    let after := groups.drop (place + 2)
    let before := if before == [[]] then [] else before
    let after := if after == [[]] then [] else after
    before.length + after.length < 8 && before.all isGroup && after.all isGroup

/-- Whether a host is an address of version six, perhaps with a zone after a percent sign. -/
def isVersionSix (host : List Char) : Bool :=
  let (address, zone) := cut '%' host
  (!host.contains '%' || (!zone.isEmpty && !zone.contains '%')) &&
    (groups? address).any areGroups

/-- Whether a host is an address of a future version: its number, a point, and anything. -/
def isFutureVersion (host : List Char) : Bool :=
  let (version, address) := cut '.' host.tail
  !version.isEmpty && version.all isHexDigit && !address.isEmpty

/-- Checks a host between brackets. -/
def checkHost (host : List Char) : Except AddressError Unit :=
  if host.head? == some 'v' then
    if isFutureVersion host then .ok () else .error .futureVersion
  else if isVersionFour host then .error .versionFour
  else if isVersionSix host then .ok ()
  else .error (.noHost host)

/-- The codes of the characters that are other ways to write one of `/`, `?`, `#`, `@` and `:`. -/
def disguises : List Nat :=
  [0x2047, 0x2048, 0x2049, 0x2100, 0x2101, 0x2105, 0x2106, 0x2a74, 0xfe13, 0xfe16, 0xfe55, 0xfe56,
    0xfe5f, 0xfe6b, 0xff03, 0xff0f, 0xff1a, 0xff1f, 0xff20]

/-- What follows the last occurrence of a separator, or the whole text if there is none. -/
def afterLast (separator : Char) (text : List Char) : List Char :=
  (text.reverse.takeWhile (fun c => c != separator)).reverse

/-- Checks the place of a server, which is a host and perhaps a number after a colon. The host
stands between brackets if there are any, and then nothing else stands around them. -/
def checkServer (server : List Char) : Except AddressError Unit :=
  if server.contains '[' then
    let (before, bracketed) := cut '[' server
    let (host, number) := cut ']' bracketed
    if !before.isEmpty || number.head?.any (fun c => c != ':') then .error .brackets
    else checkHost host
  else checkHost (cut ':' server).1

/-- Checks the brackets of an authority: what is before its last `@` names the user and may hold
brackets too, but the server is checked even if it has none. -/
def checkBrackets (authority : List Char) : Except AddressError Unit :=
  if authority.contains '[' != authority.contains ']' then .error .brackets
  else if authority.contains '[' then checkServer (afterLast '@' authority)
  else .ok ()

/-- Checks that no mark is disguised in an authority. -/
def checkDisguises (authority : List Char) : Except AddressError Unit :=
  if authority.any (fun c => disguises.contains c.toNat) then .error (.disguise authority)
  else .ok ()

/-- Checks that a part of an address can be written as bytes. -/
def checkPart (part : List Char) : Except AddressError Unit :=
  (Text.checkEncodable (Text.points part)).mapError AddressError.notEncodable

/-- The characters of an address that count. -/
def significant (text : List Char) : List Char :=
  (text.dropWhile (fun c => c.toNat ≤ 0x20)).filter (fun c => c != '\t' && c != '\r' && c != '\n')

/-- Whether a character may stand in a scheme. -/
def isSchemeChar (c : Char) : Bool :=
  c.isAlphanum || c == '+' || c == '-' || c == '.'

/-- An address without its scheme, if it has one: a letter, what may follow it, and a colon. -/
def dropScheme (text : List Char) : List Char :=
  let (scheme, rest) := cut ':' text
  if text.contains ':' && (scheme.head?.any Char.isAlpha) && scheme.all isSchemeChar then rest
  else text

/-- The authority of an address without scheme, and what follows it. -/
def splitAuthority : List Char → List Char × List Char
  | '/' :: '/' :: rest =>
    let isEnd := fun c => c == '/' || c == '?' || c == '#'
    (rest.takeWhile (fun c => !isEnd c), rest.dropWhile (fun c => !isEnd c))
  | rest => ([], rest)

/-- Takes an address apart. -/
def read (text : List Char) : Except AddressError Address := do
  let (authority, rest) := splitAuthority (dropScheme (significant text))
  checkBrackets authority
  let (path, query) := cut '?' (cut '#' rest).1
  checkDisguises authority
  checkPart path
  checkPart query
  return { authority, path, query }

/-- The bytes of a path, with a byte for each escape by two hexadecimal digits. -/
def unescape : List UInt8 → List UInt8
  | [] => []
  | 0x25 :: a :: b :: rest =>
    match Text.hexValue? (Char.ofUInt8 a), Text.hexValue? (Char.ofUInt8 b) with
    | some high, some low => (high * 16 + low).toUInt8 :: unescape rest
    | _, _ => 0x25 :: unescape (a :: b :: rest)
  | byte :: rest => byte :: unescape rest
termination_by bytes => bytes.length

/-- The path without escapes. -/
def pathBytes (address : Address) : List UInt8 :=
  unescape ((Text.points address.path).flatMap Text.encodePoint)

/-- The characters of a query that are written without an escape. -/
def isPlain (c : Char) : Bool :=
  c.isAlphanum || "/#%[]=:;$&()+,!?*@'~_.-".toList.contains c

/-- A byte by its escape. -/
def escape (byte : UInt8) : List Char :=
  '%' :: (Text.byteDigits byte).toUpper.toList

/-- The query with escapes. The bytes of a query are taken for the codes of characters. -/
def repeatedQuery (address : Address) : List Char :=
  ((Text.points address.query).flatMap Text.encodePoint).flatMap (fun byte =>
    let c := Char.ofUInt8 byte
    if isPlain c then [c] else (String.utf8EncodeChar c).flatMap escape)

end Address

end Kleene
