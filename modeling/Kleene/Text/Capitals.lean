/-!
# Capital letters

`capitals` writes a text in capitals as far as these are letters of ASCII. A few characters beyond
ASCII have such capitals, some of them two or three: the sharp s, the dotless i, the long s and the
ligatures. Every other character beyond ASCII stays as it is.
-/

set_option autoImplicit false

namespace Kleene.Text

/-- The capitals of the characters beyond ASCII whose capitals are letters of ASCII, by code. -/
def foreignCapitals : List (Nat × String) :=
  [(0xdf, "SS"), (0x131, "I"), (0x17f, "S"), (0xfb00, "FF"), (0xfb01, "FI"), (0xfb02, "FL"),
    (0xfb03, "FFI"), (0xfb04, "FFL"), (0xfb05, "ST"), (0xfb06, "ST")]

/-- A character in capitals. -/
def capital (c : Char) : List Char :=
  match foreignCapitals.lookup c.toNat with
  | some letters => letters.toList
  | none => [c.toUpper]

/-- A text in capitals. -/
def capitals (text : String) : String :=
  String.ofList (text.toList.flatMap capital)

end Kleene.Text
