import Kleene.Scalar

/-!
# Names of states and symbols

States and symbols are named by texts, or by any scalars if they come from a definition that holds
other values. `Name` collects what the library asks of a type of names: an equality that tells
which names are the same, a name for each text, and the written forms that messages and exports
need. Its two instances are `String` and `Scalar`.
-/

set_option autoImplicit false

namespace Kleene

/-- A type whose values name states and symbols. -/
class Name (ν : Type) extends BEq ν where
  /-- The name that is written as the given text. -/
  ofText : String → ν
  /-- The text of a name that is a text. -/
  text? : ν → Option String
  /-- The name in a message. -/
  display : ν → String
  /-- The name in the description of a larger value. -/
  literal : ν → String
  /-- The word for the kind of value that the name is. -/
  kind : ν → String
  /-- Whether the name is the value that elsewhere says "no name". -/
  isNull : ν → Bool
  /-- Whether the name counts as not given where one may be left out. -/
  isBlank : ν → Bool

namespace Name

instance : Name String where
  ofText text := text
  text? name := some name
  display name := name
  literal name := Text.quote name
  kind _ := "str"
  isNull _ := false
  isBlank name := name.isEmpty

instance : Name Scalar where
  ofText text := .text text
  text? name := match name with
    | .text text => some text
    | _ => none
  display := Scalar.display
  literal := Scalar.literal
  kind := Scalar.kind
  isNull name := match name with
    | .null => true
    | _ => false
  isBlank := Scalar.isBlank

variable {ν : Type} [Name ν]

/-- A name where "no name" is a possible answer too: the name that says so is that answer. -/
def orNone (name : ν) : Option ν :=
  if isNull name then none else some name

/-- A name that may be missing, in the description of a larger value. -/
def optionLiteral : Option ν → String
  | none => Scalar.literal .null
  | some name => literal name

/-- The symbol that labels moves which read nothing. -/
def epsilon : ν :=
  ofText "eps"

/-- No text stands for none. -/
@[simp] theorem orNone_string (name : String) : orNone name = some name := rfl

end Name

end Kleene
