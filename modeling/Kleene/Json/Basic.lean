import Kleene.Name

/-!
# JSON values

A `Json` value is a scalar, a list, or a dictionary whose entries keep their order. Values are equal
if they hold equal scalars in the same places: the order of a dictionary's entries does not count.

`Json.literal` is the form of a value in messages. With it any value can serve as a `Name` where
names are only compared and written; what looks names up accepts scalars alone.
-/

set_option autoImplicit false

namespace Kleene

/-- A JSON value. -/
inductive Json where
  | scalar (value : Scalar)
  | array (items : List Json)
  | object (entries : List (String × Json))
  deriving Repr, Inhabited

namespace Json

/-- A text as a JSON value. -/
def text (value : String) : Json :=
  .scalar (.text value)

/-- A truth value as a JSON value. -/
def bool (value : Bool) : Json :=
  .scalar (.bool value)

/-- A natural number as a JSON value. -/
def nat (value : Nat) : Json :=
  .scalar (.int value)

/-- The word for the kind of a value. -/
def kind : Json → String
  | .scalar value => value.kind
  | .array _ => "list"
  | .object _ => "dict"

/-- Whether a value counts as not given: a blank scalar, an empty list or an empty dictionary. -/
def isBlank : Json → Bool
  | .scalar value => value.isBlank
  | .array items => items.isEmpty
  | .object entries => entries.isEmpty

/-- Whether two values are equal. -/
def isSame : Json → Json → Bool
  | .scalar a, .scalar b => a == b
  | .array a, .array b =>
    a.length == b.length && (a.attach.zip b).all (fun pair => pair.1.1.isSame pair.2)
  | .object a, .object b =>
    a.length == b.length && a.attach.all (fun entry =>
      (b.lookup entry.1.1).any (fun value => entry.1.2.isSame value))
  | _, _ => false
termination_by json => sizeOf json
decreasing_by
  · have := List.sizeOf_lt_of_mem pair.1.2
    simp
    omega
  · have h := List.sizeOf_lt_of_mem entry.2
    have : sizeOf entry.1 = 1 + sizeOf entry.1.1 + sizeOf entry.1.2 := rfl
    simp
    omega

instance : BEq Json :=
  ⟨isSame⟩

/-- A value in the description of a larger one. -/
def literal : Json → String
  | .scalar value => value.literal
  | .array items => Text.bracketed (items.attach.map (fun item => item.1.literal))
  | .object entries =>
    "\x7b" ++ String.intercalate ", "
      (entries.attach.map (fun entry => Text.quote entry.1.1 ++ ": " ++ entry.1.2.literal)) ++
      "\x7d"
termination_by json => sizeOf json
decreasing_by
  · have := List.sizeOf_lt_of_mem item.2
    simp
    omega
  · have h := List.sizeOf_lt_of_mem entry.2
    have : sizeOf entry.1 = 1 + sizeOf entry.1.1 + sizeOf entry.1.2 := rfl
    simp
    omega

/-- A value as it stands in a message: a text is not quoted. -/
def display : Json → String
  | .scalar value => value.display
  | json => json.literal

/-- The text that a value is, if it is one. -/
def text? : Json → Option String
  | .scalar (.text value) => some value
  | _ => none

/-- Whether a value is the one that says "nothing". -/
def isNull : Json → Bool
  | .scalar .null => true
  | _ => false

instance : Name Json where
  ofText := text
  text? := text?
  display := display
  literal := literal
  kind := kind
  isNull := isNull
  isBlank := isBlank

/-- The value of a dictionary under a key. -/
def field? (key : String) : Json → Option Json
  | .object entries => entries.lookup key
  | _ => none

/-- Puts a value under a key: in the place that the key has, or at the end if it is new. -/
def setEntry (key : String) (value : Json) : List (String × Json) → List (String × Json)
  | [] => [(key, value)]
  | (k, v) :: rest => if k == key then (k, value) :: rest else (k, v) :: setEntry key value rest

end Json

end Kleene
