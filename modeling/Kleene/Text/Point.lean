/-!
# Code points

Unicode numbers the characters, and sets some numbers aside as halves of pairs, which are no
characters. A text that is spelled out by numbers may hold one half without the other. A `Point` is
a character or a half.

Texts are kept as strings nevertheless. `Point.spell` writes a point as characters: a half as a mark
and a character that tells which half it is, the mark itself twice, and every other character as it
is. `points` reads the points back: `points_spell` says that no text is lost or taken for another.
-/

set_option autoImplicit false

namespace Kleene.Text

/-- A character, or a half of a pair by its place among the halves. -/
inductive Point where
  | char (c : Char)
  | half (place : Fin 2048)
  deriving Repr, DecidableEq

/-- The number of the first half. -/
def firstHalf : Nat := 0xd800

/-- The character that announces a half. -/
def mark : Char := Char.ofNat 0x10ffff

/-- The number of the character that tells the first half. -/
def firstTeller : Nat := 0x10f000

namespace Point

/-- The point of a number. -/
def ofCode (code : Nat) : Point :=
  if h : code - firstHalf < 2048 ∧ firstHalf ≤ code then .half ⟨code - firstHalf, h.1⟩
  else .char (Char.ofNat code)

/-- The number of a point. -/
def code : Point → Nat
  | .char c => c.toNat
  | .half place => firstHalf + place

/-- Whether a point is half of a pair. -/
def isHalf : Point → Bool
  | .char _ => false
  | .half _ => true

/-- A point as characters. -/
def spell : Point → List Char
  | .char c => if c = mark then [mark, mark] else [c]
  | .half place => [mark, Char.ofNat (firstTeller + place)]

/-- The half that a character tells, or else the character itself. -/
def told (c : Char) : Point :=
  if h : c.toNat - firstTeller < 2048 ∧ firstTeller ≤ c.toNat then .half ⟨c.toNat - firstTeller, h.1⟩
  else .char c

/-- The character that tells a half has the number that it is made from. -/
theorem toNat_teller (place : Fin 2048) :
    (Char.ofNat (firstTeller + place)).toNat = firstTeller + place := by
  have valid : (firstTeller + place.val).isValidChar := by
    have := place.isLt
    simp only [firstTeller, Nat.isValidChar]
    omega
  have small : firstTeller + place.val < 4294967296 := by
    have := place.isLt
    simp only [firstTeller]
    omega
  unfold Char.ofNat
  rw [dif_pos valid]
  unfold Char.ofNatAux Char.toNat
  simpa using small

/-- The half that a character tells is the one that it was chosen for. -/
theorem told_teller (place : Fin 2048) : told (Char.ofNat (firstTeller + place)) = .half place := by
  have := place.isLt
  simp [told, toNat_teller]

/-- The mark tells no half: written twice, it stands for itself. -/
theorem told_mark : told mark = .char mark := by
  decide

end Point

/-- The points that some characters spell. -/
def points : List Char → List Point
  | [] => []
  | [c] => [.char c]
  | c :: d :: rest =>
    if c = mark then Point.told d :: points rest else .char c :: points (d :: rest)

/-- The text of some points. -/
def ofPoints (list : List Point) : String :=
  String.ofList (list.flatMap Point.spell)

/-- The points of a text. -/
def pointsOf (text : String) : List Point :=
  points text.toList

/-- The text of some characters. -/
def ofChars (chars : List Char) : String :=
  ofPoints (chars.map .char)

/-- A character that is not the mark stands for itself. -/
theorem points_cons_of_ne {c : Char} (rest : List Char) (h : c ≠ mark) :
    points (c :: rest) = .char c :: points rest := by
  cases rest with
  | nil => rfl
  | cons d rest => simp [points, h]

/-- Whatever is spelled is read back. -/
theorem points_spell (list : List Point) : points (list.flatMap Point.spell) = list := by
  induction list with
  | nil => rfl
  | cons point list ih =>
    cases point with
    | char c =>
      by_cases h : c = mark
      · subst h
        simp [Point.spell, points, Point.told_mark, ih]
      · simp [Point.spell, h, points_cons_of_ne, ih]
    | half place => simp [Point.spell, points, Point.told_teller, ih]

/-- No two lists of points are kept as the same text. -/
theorem pointsOf_ofPoints (list : List Point) : pointsOf (ofPoints list) = list := by
  simp [pointsOf, ofPoints, points_spell]

end Kleene.Text
