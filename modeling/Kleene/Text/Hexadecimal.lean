/-!
# Hexadecimal digits

Codes and bytes are written in hexadecimal digits, small letters from ten on, and read with letters
of either size.
-/

set_option autoImplicit false

namespace Kleene.Text

/-- The digit of a value below sixteen. -/
def hexDigit (value : Nat) : Char :=
  Nat.digitChar value

/-- The last `width` hexadecimal digits of a number. -/
def hexDigits : Nat → Nat → List Char
  | 0, _ => []
  | width + 1, value => hexDigits width (value / 16) ++ [hexDigit (value % 16)]

/-- A byte in two digits. -/
def byteDigits (byte : UInt8) : String :=
  String.ofList (hexDigits 2 byte.toNat)

/-- The value of a digit. -/
def hexValue? (c : Char) : Option Nat :=
  if c.isDigit then some (c.toNat - '0'.toNat)
  else if 'a' ≤ c && c ≤ 'f' then some (c.toNat - 'a'.toNat + 10)
  else if 'A' ≤ c && c ≤ 'F' then some (c.toNat - 'A'.toNat + 10)
  else none

end Kleene.Text
