/-!
# Numbers with a binary point

A `Double` is a number of the form mantissa times a power of two, with a mantissa of at most 53
bits and an exponent between -1074 and 971, or an infinity, or the value that is no number. All
arithmetic here is exact on natural numbers.

`Double.ofDecimal` takes the nearest such number to a decimal, the one with the even mantissa if two
are nearest. `Double.toText` writes the fewest digits that read back as the same number, nearest to
it among those of that length: in place for decimal exponents from -4 to 15, with an exponent
otherwise.
-/

set_option autoImplicit false

namespace Kleene

/-- A binary number of 64 bits, by its parts. -/
inductive Double where
  /-- The number `mantissa * 2 ^ exponent`, negated or not. -/
  | finite (negative : Bool) (mantissa : Nat) (exponent : Int)
  | infinite (negative : Bool)
  | nan
  deriving Repr, DecidableEq, Inhabited

namespace Double

/-- `num / den` to the nearest integer; a tie goes to the even one. -/
def roundHalfEven (num den : Nat) : Nat :=
  let q := num / den
  let r := num % den
  if 2 * r < den then q
  else if 2 * r > den then q + 1
  else if q % 2 = 0 then q else q + 1

/-- How many decimal digits a number has; zero has one. -/
def decimalLength (n : Nat) : Nat :=
  (Nat.toDigits 10 n).length

/-- Numerator and denominator of `value * 2 ^ (-exponent)`, where the value is `num / den`. -/
def scaleDown (num den : Nat) : Int → Nat × Nat
  | .ofNat e => (num, den * Nat.pow 2 e)
  | .negSucc e => (num * Nat.pow 2 (e + 1), den)

/-- The nearest double to the quotient of two positive numbers. -/
def ofQuotient (negative : Bool) (num den : Nat) : Double :=
  let guess : Int := (Nat.log2 num : Int) - (Nat.log2 den : Int) - 52
  let (n, d) := scaleDown num den guess
  let exponent := max (if n < d * Nat.pow 2 52 then guess - 1 else guess) (-1074)
  let (n, d) := scaleDown num den exponent
  let mantissa := roundHalfEven n d
  let (mantissa, exponent) :=
    if mantissa = Nat.pow 2 53 then (Nat.pow 2 52, exponent + 1) else (mantissa, exponent)
  if exponent > 971 then .infinite negative
  else if mantissa = 0 then .finite negative 0 0
  else .finite negative mantissa exponent

/-- The nearest double to `digits * 10 ^ exponent`. Decimals far outside the range are settled by
their size alone. -/
def ofDecimal (negative : Bool) (digits : Nat) (exponent : Int) : Double :=
  let magnitude := exponent + (decimalLength digits : Int)
  if digits = 0 ∨ magnitude < -400 then .finite negative 0 0
  else if magnitude > 400 then .infinite negative
  else match exponent with
    | .ofNat e => ofQuotient negative (digits * Nat.pow 10 e) 1
    | .negSucc e => ofQuotient negative digits (Nat.pow 10 (e + 1))

/-- `num * 10 ^ (-exponent) / den` as numerator and denominator. -/
def scaleDecimal (num den : Nat) : Int → Nat × Nat
  | .ofNat e => (num, den * Nat.pow 10 e)
  | .negSucc e => (num * Nat.pow 10 (e + 1), den)

/-- The exponent of the leading decimal digit of a positive quotient. -/
def leadingExponent (num den : Nat) : Int :=
  let guess : Int := (decimalLength num : Int) - (decimalLength den : Int)
  let (n, d) := scaleDecimal num den guess
  if n < d then guess - 1 else guess

/-- A positive number together with the numbers that are read back as it: everything between
`low / den` and `high / den`, ends included or not, `mid / den` being the number itself. -/
structure Interval where
  low : Nat
  mid : Nat
  high : Nat
  den : Nat
  closed : Bool

/-- The interval of the numbers that are nearer to the given double than to its neighbours. -/
def interval (mantissa : Nat) (exponent : Int) : Interval :=
  -- in quarters of a unit, as the gap below a power of two is half as wide
  let below := if mantissa = Nat.pow 2 52 ∧ exponent > -1074 then 1 else 2
  let scale := exponent - 2
  let up := Nat.pow 2 scale.toNat
  ⟨(4 * mantissa - below) * up, 4 * mantissa * up, (4 * mantissa + 2) * up,
    Nat.pow 2 (-scale).toNat, mantissa % 2 = 0⟩

/-- Whether `digits * 10 ^ exponent` is read back as the number of the interval. -/
def Interval.contains (i : Interval) (digits : Nat) (exponent : Int) : Bool :=
  -- digits * 10 ^ exponent = digits * up / down
  let up := Nat.pow 10 exponent.toNat
  let down := Nat.pow 10 (-exponent).toNat
  let value := digits * up * i.den
  if i.closed then i.low * down ≤ value && value ≤ i.high * down
  else i.low * down < value && value < i.high * down

/-- The decimal with `count` digits that is read back and nearest to the number, if there is one,
as digits and the exponent of the last digit. -/
def Interval.nearest? (i : Interval) (leading : Int) (count : Nat) : Option (Nat × Int) :=
  let last := leading + 1 - count
  let (n, d) := scaleDecimal i.mid i.den last
  let down := n / d
  let nearer := roundHalfEven n d
  let other := if nearer = down then down + 1 else down
  if i.contains nearer last then some (nearer, last)
  else if i.contains other last then some (other, last)
  else none

/-- The shortest decimal that is read back as the positive double. -/
def shortest (mantissa : Nat) (exponent : Int) : Nat × Int :=
  let i := interval mantissa exponent
  let leading := leadingExponent i.mid i.den
  ((List.range 17).findSome? (fun k => i.nearest? leading (k + 1))).getD (mantissa, exponent)

/-- The digits without the zeros at their end, and the exponent of the last one kept. -/
def stripZeros : Nat → Nat × Int → Nat × Int
  | 0, decimal => decimal
  | fuel + 1, (digits, exponent) =>
    if digits ≠ 0 ∧ digits % 10 = 0 then stripZeros fuel (digits / 10, exponent + 1)
    else (digits, exponent)

/-- Writes digits with their point: in place if the leading digit stands between the fourth place
after the point and the sixteenth before it, with an exponent of at least two digits otherwise. -/
def placePoint (digits : List Char) (leading : Int) : List Char :=
  if -4 ≤ leading ∧ leading < 16 then
    if leading < 0 then
      '0' :: '.' :: List.replicate (-leading - 1).toNat '0' ++ digits
    else
      let whole := leading.toNat + 1
      let padded := digits ++ List.replicate (whole - digits.length) '0'
      let fraction := padded.drop whole
      padded.take whole ++ '.' :: (if fraction.isEmpty then ['0'] else fraction)
  else
    let exponent := (toString leading.natAbs).toList
    let exponent := if exponent.length < 2 then '0' :: exponent else exponent
    let sign := if leading < 0 then '-' else '+'
    let mantissa := match digits with
      | [] => []
      | [d] => [d]
      | d :: rest => d :: '.' :: rest
    mantissa ++ 'e' :: sign :: exponent

/-- The number in the fewest digits that read back as it. -/
def toText : Double → String
  | .finite negative mantissa exponent =>
    let sign := if negative then "-" else ""
    if mantissa = 0 then sign ++ "0.0"
    else
      let (digits, last) := stripZeros 20 (shortest mantissa exponent)
      let digits := (toString digits).toList
      sign ++ String.ofList (placePoint digits (last + (digits.length : Int) - 1))
  | .infinite negative => if negative then "-inf" else "inf"
  | .nan => "nan"

/-- The integer that a number is, if it is one. -/
def toInt? : Double → Option Int
  | .finite negative mantissa exponent =>
    let magnitude : Option Nat := match exponent with
      | .ofNat e => some (mantissa * Nat.pow 2 e)
      | .negSucc e =>
        if mantissa % Nat.pow 2 (e + 1) = 0 then some (mantissa / Nat.pow 2 (e + 1)) else none
    magnitude.map (fun n => if negative then -(n : Int) else n)
  | _ => none

/-- Whether the number is zero, of either sign. -/
def isZero : Double → Bool
  | .finite _ mantissa _ => mantissa == 0
  | _ => false

/-- Whether the number is less than a natural number. -/
def isBelow (x : Double) (n : Nat) : Bool :=
  match x with
  | .finite true mantissa _ => mantissa != 0 || n != 0
  | .finite false mantissa exponent =>
    mantissa * Nat.pow 2 exponent.toNat < n * Nat.pow 2 (-exponent).toNat
  | .infinite negative => negative
  | .nan => false

/-- Whether the number is greater than a natural number. -/
def isAbove (x : Double) (n : Nat) : Bool :=
  match x with
  | .finite true _ _ => false
  | .finite false mantissa exponent =>
    n * Nat.pow 2 (-exponent).toNat < mantissa * Nat.pow 2 exponent.toNat
  | .infinite negative => !negative
  | .nan => false

end Double

end Kleene
