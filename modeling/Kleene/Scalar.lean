import Kleene.Number.Double
import Kleene.Text.Quoted

/-!
# Scalars

A `Scalar` is a value without parts: nothing, a truth value, an integer, a number with a point, or
a text. Scalars that stand for the same number are the same key, whether they are written as a
truth value, with a point or without: `true`, `1` and `1.0` are one key. `Scalar.key` is that key,
and equality of scalars is equality of keys.
-/

set_option autoImplicit false

namespace Kleene

/-- A value without parts. -/
inductive Scalar where
  | null
  | bool (value : Bool)
  | int (value : Int)
  | real (value : Double)
  | text (value : String)
  deriving Repr, DecidableEq, Inhabited

namespace Scalar

/-- What two scalars have in common if they are the same key. -/
inductive Key where
  | nothing
  | whole (value : Int)
  | fractional (value : Double)
  | words (value : String)
  deriving Repr, DecidableEq

/-- The key that a scalar stands for. -/
def key : Scalar → Key
  | .null => .nothing
  | .bool value => .whole (if value then 1 else 0)
  | .int value => .whole value
  | .real value => match value.toInt? with
    | some n => .whole n
    | none => .fractional value
  | .text value => .words value

instance : BEq Scalar where
  beq a b := a.key == b.key

/-- Equality of scalars is an equivalence, since it is equality of keys. -/
instance : EquivBEq Scalar where
  rfl := by
    intro a
    show (a.key == a.key) = true
    simp
  symm := by
    intro a b h
    have hab : (a.key == b.key) = true := h
    show (b.key == a.key) = true
    simpa using (beq_iff_eq.mp hab).symm
  trans := by
    intro a b c hab hbc
    have h₁ : (a.key == b.key) = true := hab
    have h₂ : (b.key == c.key) = true := hbc
    show (a.key == c.key) = true
    simpa using (beq_iff_eq.mp h₁).trans (beq_iff_eq.mp h₂)

/-- Texts are the same key if they are the same text. -/
@[simp] theorem text_beq_text (a b : String) : (Scalar.text a == Scalar.text b) = (a == b) := by
  show (Key.words a == Key.words b) = (a == b)
  rw [Bool.eq_iff_iff]
  simp

/-- A scalar as it stands in a message. -/
def display : Scalar → String
  | .null => "None"
  | .bool value => if value then "True" else "False"
  | .int value => toString value
  | .real value => value.toText
  | .text value => value

/-- A scalar as it stands in the description of a larger value: texts are quoted. -/
def literal : Scalar → String
  | .text value => Text.quote value
  | scalar => scalar.display

/-- The word for the kind of a scalar. -/
def kind : Scalar → String
  | .null => "NoneType"
  | .bool _ => "bool"
  | .int _ => "int"
  | .real _ => "float"
  | .text _ => "str"

/-- Whether a scalar counts as not given: nothing, false, zero and the empty text do. -/
def isBlank : Scalar → Bool
  | .null => true
  | .bool value => !value
  | .int value => value == 0
  | .real value => value.isZero
  | .text value => value.isEmpty

end Scalar

end Kleene
